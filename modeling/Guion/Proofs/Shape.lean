import Guion.Proofs.Grammar

/-!
# The shape of a tree that was read

A tree built by hand may put any node anywhere.  In a tree that the grammar derives from the tokens
of a text every node fits the place where it stands, every name is a word that is no keyword, every
symbol is an operator and no literal is too long to be written.

    Derives p w → (∀ t ∈ w, t.WellFormed) → p.Fits        (Derives.fits)
-/

namespace Guion.Node

open Token (Kind)

/-! ## Names, keys and symbols -/

def IsName (s : String) : Prop := Token.IsWord s.toList ∧ Token.keyword? s = none

def IsKey (s : String) : Prop := IsName s ∨ Token.IsDigits s.toList

theorem IsName.ne_empty {s : String} (h : IsName s) : s ≠ "" := by
  rintro rfl
  exact h.1.ne_nil rfl

theorem isName_of_identifier {t : Token} (h : t.WellFormed) (hk : t.kind = .identifier) :
    IsName t.text := by
  cases h with
  | number _ => cases hk
  | @word cs hw =>
    refine ⟨by simpa [Token.ofWord] using hw, ?_⟩
    show Token.keyword? (String.ofList cs) = none
    exact Token.keyword?_of_kind_ofWord hk
  | @single c kind hs => exact absurd hk (Token.single?_eq_some hs).2.1

theorem isKey_of_kind {t : Token} (h : t.WellFormed)
    (hk : t.kind = .identifier ∨ t.kind = .number) : IsKey t.text := by
  rcases hk with hk | hk
  · exact .inl (isName_of_identifier h hk)
  · exact .inr (h.isDigits hk)

/-- The infix operators, assignment apart. -/
def symbols : List String := ["|", "&", "==", "!=", "+", "-", "*", "/", "%"]

theorem Level.Operator.mem_symbols {level : Level} {op : List Token} {symbol : String}
    (h : level.Operator op symbol) : symbol ∈ symbols := by
  cases h with
  | sum _ ht => rcases ht with ht | ht <;> simp [ht, symbols]
  | product _ ht => rcases ht with ht | ht | ht <;> simp [ht, symbols]
  | _ => simp [symbols]

/-! ## Fitting trees -/

inductive Position where
  | statement | expression
  /-- Between the braces of an object. -/
  | entry
deriving DecidableEq, Repr

inductive Fits : Position → Node → Prop
  | declare {constant : Bool} {name : String} {value : Node} :
      IsName name → Fits .expression value → Fits .statement (.declare constant name value)
  | giveBack {value : Node} : Fits .expression value → Fits .statement (.giveBack value)
  | when {condition : Node} {body : List Node} :
      Fits .expression condition → (∀ n ∈ body, Fits .statement n) →
      Fits .statement (.when condition body none)
  | whenOtherwise {condition : Node} {body other : List Node} :
      Fits .expression condition → (∀ n ∈ body, Fits .statement n) →
      (∀ n ∈ other, Fits .statement n) →
      Fits .statement (.when condition body (some (.otherwise other)))
  | expression {n : Node} : Fits .expression n → Fits .statement n
  | function {name : String} {params : List String} {body : List Node} :
      name = "" ∨ IsName name → (∀ p ∈ params, IsName p) → (∀ n ∈ body, Fits .statement n) →
      Fits .expression (.function name params body)
  | assign {target value : Node} :
      Fits .expression target → Fits .expression value → Fits .expression (.assign target value)
  | binary {left right : Node} {symbol : String} :
      Fits .expression left → symbol ∈ symbols → Fits .expression right →
      Fits .expression (.binary left right symbol)
  | call {callee : Node} {args : List Node} :
      Fits .expression callee → (∀ n ∈ args, Fits .expression n) →
      Fits .expression (.call callee args)
  | member {owner : Node} {name : String} :
      Fits .expression owner → IsName name →
      Fits .expression (.member owner (.propertyName name) false)
  | index {owner key : Node} :
      Fits .expression owner → Fits .expression key → Fits .expression (.member owner key true)
  | ident {name : String} : IsName name → Fits .expression (.ident name)
  | number {n : Nat} : n < Nat.pow 10 Num.digitLimit → Fits .expression (.number n)
  | object {entries : List Node} :
      (∀ n ∈ entries, Fits .entry n) → Fits .expression (.object entries)
  | list {elements : List Node} :
      (∀ n ∈ elements, Fits .expression n) → Fits .expression (.list elements)
  | shorthand {key : String} : IsKey key → Fits .entry (.property key none)
  | entry {key : String} {value : Node} :
      IsKey key → Fits .expression value → Fits .entry (.property key (some value))

/-- All trees of a phrase fit their places. -/
def Phrase.Fits : Phrase → Prop
  | .statements body | .block body => ∀ n ∈ body, Node.Fits .statement n
  | .statement _ tree | .conditional tree => Node.Fits .statement tree
  | .alternative none => True
  | .alternative (some tree) => ∃ body, tree = .otherwise body ∧ ∀ n ∈ body, Node.Fits .statement n
  | .function tree | .expression tree | .chain _ tree | .operand tree | .suffixed tree
  | .atom tree => Node.Fits .expression tree
  | .entry tree => Node.Fits .entry tree
  | .elements trees => ∀ n ∈ trees, Node.Fits .expression n
  | .entries trees => ∀ n ∈ trees, Node.Fits .entry n

theorem Level.fits_operand {level : Level} {n : Node} :
    (level.operand n).Fits ↔ Node.Fits .expression n := by
  cases level <;> exact Iff.rfl

theorem Named.fits {name : String} {w : List Token} (h : Named name w)
    (hw : ∀ t ∈ w, t.WellFormed) : name = "" ∨ IsName name := by
  cases h with
  | anonymous => exact .inl rfl
  | name hk => exact .inr (isName_of_identifier (hw _ List.mem_cons_self) hk)

theorem Params.fits {params : List String} {w : List Token} (h : Params params w)
    (hw : ∀ t ∈ w, t.WellFormed) : ∀ p ∈ params, IsName p := by
  induction h with
  | nil => simp
  | last hk => simpa using isName_of_identifier (hw _ List.mem_cons_self) hk
  | @cons t c ps w hk _ _ ih =>
    simp only [List.forall_mem_cons] at hw ⊢
    exact ⟨isName_of_identifier hw.1 hk, ih hw.2.2⟩

/-- A literal that keeps to the digit limit is a number that can be written. -/
theorem fits_number {cs : List Char} (h : Token.IsDigits cs) (hl : cs.length ≤ Num.digitLimit) :
    Fits .expression (.number (Nat.ofDigitChars 10 cs 0)) := by
  have hlt := Num.ofDigitChars_lt h.2 0
  rw [Nat.zero_add, Nat.one_mul] at hlt
  have hle : Nat.pow 10 cs.length ≤ Nat.pow 10 Num.digitLimit := by
    rw [Nat.pow_eq, Nat.pow_eq]
    exact Nat.pow_le_pow_right (by decide) hl
  exact .number (Nat.lt_of_lt_of_le hlt hle)

theorem Derives.fits {p : Phrase} {w : List Token} (h : Derives p w)
    (hw : ∀ t ∈ w, t.WellFormed) : p.Fits := by
  induction h with
  | noStatement _ => simp [Phrase.Fits]
  | moreStatements _ _ _ _ ih ih' =>
    simp only [List.forall_mem_append] at hw
    exact List.forall_mem_cons.2 ⟨ih hw.2.1, ih' hw.2.2⟩
  | block _ _ _ ih =>
    simp only [List.forall_mem_cons, List.forall_mem_append] at hw
    exact ih hw.2.1
  | declaration _ hi _ _ ih =>
    simp only [List.forall_mem_cons] at hw
    exact .declare (isName_of_identifier hw.2.1 hi) (ih hw.2.2.2)
  | namedFunction _ _ ih => exact .expression (ih hw)
  | conditionalStatement _ ih => exact ih hw
  | giveBack _ _ _ ih => exact .giveBack (ih (List.forall_mem_cons.1 hw).2)
  | expressionStatement _ _ _ ih => exact .expression (ih hw)
  | @conditional s w v u condition body alternative _ _ _ _ ihw ihv ihu =>
    simp only [List.forall_mem_cons, List.forall_mem_append] at hw
    have halt := ihu hw.2.2.2
    cases alternative with
    | none => exact .when (ihw hw.2.1) (ihv hw.2.2.1)
    | some tree =>
      obtain ⟨other, rfl, ho⟩ := halt
      exact .whenOtherwise (ihw hw.2.1) (ihv hw.2.2.1) ho
  | noAlternative => trivial
  | otherwise _ _ ih => exact ⟨_, rfl, ih (List.forall_mem_cons.1 hw).2⟩
  | otherwiseWhen _ _ ih =>
    exact ⟨_, rfl, List.forall_mem_singleton.2 (ih (List.forall_mem_cons.1 hw).2)⟩
  | function _ hn _ hp _ _ ih =>
    simp only [List.forall_mem_cons, List.forall_mem_append] at hw
    exact .function (hn.fits hw.2.1) (hp.fits hw.2.2.2.1) (ih hw.2.2.2.2.2)
  | disjunction _ ih => exact ih hw
  | assign _ _ _ ih ih' =>
    simp only [List.forall_mem_cons, List.forall_mem_append] at hw
    exact .assign (ih hw.1) (ih' hw.2.2)
  | single _ ih => exact Level.fits_operand.1 (ih hw)
  | binary _ hop _ ih ih' =>
    simp only [List.forall_mem_append] at hw
    exact .binary (ih hw.1) hop.mem_symbols (Level.fits_operand.1 (ih' hw.2.2))
  | negation _ _ _ ih =>
    have hpos : 0 < Nat.pow 10 Num.digitLimit := by
      rw [Nat.pow_eq]
      exact Nat.pow_pos (by decide)
    have hz : Fits .expression (.number 0) := .number hpos
    exact .binary hz (by decide) (ih (List.forall_mem_cons.1 hw).2)
  | operand _ ih => exact ih hw
  | suffixed _ ih => exact ih hw
  | member _ _ hi ih =>
    simp only [List.forall_mem_cons, List.forall_mem_append] at hw
    exact .member (ih hw.1) (isName_of_identifier hw.2.2.1 hi)
  | index _ _ _ _ ih ih' =>
    simp only [List.forall_mem_cons, List.forall_mem_append] at hw
    exact .index (ih hw.1) (ih' hw.2.2.1)
  | call _ _ _ _ ih ih' =>
    simp only [List.forall_mem_cons, List.forall_mem_append] at hw
    exact .call (ih hw.1) (ih' hw.2.2.1)
  | number _ hd hl => exact fits_number hd hl
  | ident hk => exact .ident (isName_of_identifier (hw _ List.mem_cons_self) hk)
  | parens _ _ _ ih =>
    simp only [List.forall_mem_cons, List.forall_mem_append] at hw
    exact ih hw.2.1
  | object _ _ _ ih =>
    simp only [List.forall_mem_cons, List.forall_mem_append] at hw
    exact .object (ih hw.2.1)
  | list _ _ _ ih =>
    simp only [List.forall_mem_cons, List.forall_mem_append] at hw
    exact .list (ih hw.2.1)
  | functionAtom _ ih => exact ih hw
  | shorthand hk => exact .shorthand (isKey_of_kind (hw _ List.mem_cons_self) hk)
  | entry hk _ _ ih =>
    simp only [List.forall_mem_cons] at hw
    exact .entry (isKey_of_kind hw.1 hk) (ih hw.2.2)
  | noElement => simp [Phrase.Fits]
  | lastElement _ ih => exact List.forall_mem_singleton.2 (ih hw)
  | moreElements _ _ _ ih ih' =>
    simp only [List.forall_mem_cons, List.forall_mem_append] at hw
    exact List.forall_mem_cons.2 ⟨ih hw.1, ih' hw.2.2⟩
  | noEntry => simp [Phrase.Fits]
  | lastEntry _ ih => exact List.forall_mem_singleton.2 (ih hw)
  | moreEntries _ _ _ ih ih' =>
    simp only [List.forall_mem_cons, List.forall_mem_append] at hw
    exact List.forall_mem_cons.2 ⟨ih hw.1, ih' hw.2.2⟩

end Guion.Node
