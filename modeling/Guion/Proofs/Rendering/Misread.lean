import Guion.Proofs.Rendering.Derived

/-!
# A text that is misread

An expression statement that starts with the return word has tokens that do not derive it.  The
argument counts: in any derivation the word stands at the start of a statement, or first in an
object, at most as often as the tree has return statements and objects that start with it, whereas
in the tokens of a tree it stands there once more for every statement that is misread.

    Derives (.statements body) w → marked true w ≤ returnsList body              (Derives.marked_le)
    returnsList body + countP misread ≤ marked true (bodyTokens body)             (le_marked_body)
-/

namespace Guion.Node

open Token (Kind)

/-! ## Places of the return word -/

/-- A token after which a statement may start. -/
def parts (t : Token) : Bool :=
  decide (t.kind = .semicolon ∨ t.kind = .openBrace ∨ t.kind = .closeBrace)

def isReturnWord (t : Token) : Bool := decide (t.kind = .identifier ∧ t.text = Token.returnWord)

/-- How often the return word stands behind a token after which a statement may start; the flag says
whether the first token does. -/
def marked : Bool → List Token → Nat
  | _, [] => 0
  | first, t :: ts => (if first && isReturnWord t then 1 else 0) + marked (parts t) ts

/-- Whether a statement may start behind the tokens. -/
def partsLast : Bool → List Token → Bool
  | first, [] => first
  | _, t :: ts => partsLast (parts t) ts

theorem marked_append (first : Bool) (u v : List Token) :
    marked first (u ++ v) = marked first u + marked (partsLast first u) v := by
  induction u generalizing first with
  | nil => simp [marked, partsLast]
  | cons t u ih =>
    simp only [List.cons_append, marked, partsLast, ih]
    omega

theorem marked_cons_false (t : Token) (ts : List Token) :
    marked false (t :: ts) = marked (parts t) ts := by
  simp [marked]

/-- A token that is no identifier is not counted. -/
theorem marked_cons_of_kind {t : Token} (h : t.kind ≠ .identifier) (first : Bool)
    (ts : List Token) :
    marked first (t :: ts) = marked (parts t) ts := by
  simp [marked, isReturnWord, h]

/-- Behind most tokens no statement starts. -/
theorem marked_plain {t : Token} {kind : Kind} (h : t.kind = kind)
    (hk : kind ∉ [Kind.identifier, .semicolon, .openBrace, .closeBrace]) (first : Bool)
    (ts : List Token) : marked first (t :: ts) = marked false ts := by
  simp only [List.mem_cons, List.not_mem_nil, or_false, not_or] at hk
  rw [marked_cons_of_kind (by simp [h, hk])]
  simp [parts, h, hk]

theorem marked_brace {t : Token} (h : t.kind = .openBrace ∨ t.kind = .closeBrace) (first : Bool)
    (ts : List Token) : marked first (t :: ts) = marked true ts := by
  rw [marked_cons_of_kind (by rcases h with h | h <;> simp [h])]
  rcases h with h | h <;> simp [parts, h]

/-- An identifier that does not start a statement. -/
theorem marked_identifier {t : Token} (h : t.kind = .identifier) (ts : List Token) :
    marked false (t :: ts) = marked false ts := by
  rw [marked_cons_false]
  simp [parts, h]

theorem marked_false_le (first : Bool) (ts : List Token) : marked false ts ≤ marked first ts := by
  cases ts with
  | nil => simp [marked]
  | cons t ts =>
    rw [marked_cons_false, marked]
    omega

/-! ## Return statements of a tree -/

/-- One if the first entry of an object has the return word as its key. -/
def leadingReturn : List Node → Nat
  | .property key _ :: _ => if key = Token.returnWord then 1 else 0
  | _ => 0

theorem leadingReturn_cons (n : Node) (ns : List Node) :
    leadingReturn (n :: ns) = leadingReturn [n] := by
  cases n <;> rfl

mutual

/-- The number of return statements in a tree, and of objects that start with the return word. -/
def returns : Node → Nat
  | .program body | .otherwise body | .function _ _ body => returnsList body
  | .declare _ _ value => returns value
  | .giveBack value => returns value + 1
  | .when condition body alternative =>
    returns condition + (returnsList body + returnsOption alternative)
  | .assign a b | .binary a b _ | .member a b _ => returns a + returns b
  | .call callee args => returns callee + returnsList args
  | .property _ value => returnsOption value
  | .object entries => leadingReturn entries + returnsList entries
  | .list elements => returnsList elements
  | .ident _ | .propertyName _ | .number _ | .string _ | .foreign _ => 0

def returnsList : List Node → Nat
  | [] => 0
  | node :: rest => returns node + returnsList rest

def returnsOption : Option Node → Nat
  | none => 0
  | some node => returns node

end

/-! ## At most once for each in a derivation -/

/-- The most that is counted in the tokens of a phrase.  Expressions are not counted at their first
token: where one starts a statement, it does not start with the return word. -/
def Phrase.returns (first : Bool) : Phrase → Nat
  | .statements body | .block body => returnsList body
  | .statement _ tree | .conditional tree | .function tree | .expression tree | .chain _ tree
  | .operand tree | .suffixed tree | .atom tree => Node.returns tree
  | .alternative tree => returnsOption tree
  | .entry tree => (if first then leadingReturn [tree] else 0) + Node.returns tree
  | .elements trees => returnsList trees
  | .entries trees => (if first then leadingReturn trees else 0) + returnsList trees

/-- Phrases that may stand where a statement starts. -/
def Phrase.Free : Phrase → Prop
  | .expression _ | .chain .. | .operand _ | .suffixed _ | .atom _ | .elements _ => False
  | _ => True

theorem Level.returns_operand (level : Level) (n : Node) (first : Bool) :
    (level.operand n).returns first = Node.returns n := by
  cases level <;> rfl

theorem marked_semicolons {gap : List Token} (h : Semicolons gap) (first : Bool) :
    marked first gap = 0 := by
  induction gap generalizing first with
  | nil => rfl
  | cons t gap ih =>
    obtain ⟨ht, hgap⟩ := List.forall_mem_cons.1 h
    rw [marked_cons_of_kind (by simp [ht])]
    exact ih hgap _

theorem marked_named {name : String} {w : List Token} (h : Named name w) : marked false w = 0 := by
  cases h <;> simp [marked]

theorem marked_params {params : List String} {w : List Token} (h : Params params w) :
    marked false w = 0 := by
  induction h with
  | nil => rfl
  | last _ => simp [marked]
  | cons ht hc _ ih =>
    rw [marked_identifier ht, marked_plain hc (by decide)]
    exact ih

theorem Level.Operator.marked_append {level : Level} {op : List Token} {symbol : String}
    (h : level.Operator op symbol) (first : Bool) (v : List Token) :
    marked first (op ++ v) = marked false v := by
  cases h <;> simp_all [marked, parts, isReturnWord]

/-- A return word at the start of an expression is not counted there. -/
theorem marked_of_not_opensReturn {w : List Token} (h : ¬ OpensReturn w) (first : Bool) :
    marked first w = marked false w := by
  cases w with
  | nil => rfl
  | cons t w =>
    have hr : isReturnWord t = false := by
      cases hr : isReturnWord t with
      | false => rfl
      | true =>
        have hr := of_decide_eq_true hr
        exact absurd ⟨t, w, rfl, hr.1, hr.2⟩ h
    simp [marked, hr]

/-- The key of an entry counts if it is the first in its object. -/
theorem marked_key {k : Token} (hk : k.kind = .identifier ∨ k.kind = .number) (first : Bool)
    (value : Option Node) (ts : List Token) : marked first (k :: ts) ≤
      (if first then leadingReturn [.property k.text value] else 0) + marked false ts := by
  rcases hk with hk | hk
  · have hp : parts k = false := by simp [parts, hk]
    rw [marked, hp]
    cases first <;> simp [isReturnWord, hk, leadingReturn]
  · rw [marked_plain hk (by decide)]
    exact Nat.le_add_left _ _

theorem Derives.marked_le {p : Phrase} {w : List Token} (h : Derives p w) :
    ∀ first : Bool, (first = true → p.Free) → marked first w ≤ p.returns first := by
  induction h with
  | noStatement hg =>
    intro first _
    simp [marked_semicolons hg]
  | @moreStatements gap w v _ _ _ hg _ _ _ ihw ihv =>
    intro first _
    rw [Node.marked_append, Node.marked_append, marked_semicolons hg]
    have hw := ihw (partsLast first gap) fun _ => trivial
    have hv := ihv (partsLast (partsLast first gap) w) fun _ => trivial
    simp only [Phrase.returns, returnsList] at *
    omega
  | block ho _ hc ih =>
    intro first _
    rw [marked_brace (.inl ho), Node.marked_append, marked_brace (.inr hc)]
    exact ih true fun _ => trivial
  | declaration hk hi he _ ih =>
    intro first _
    have hfirst : ∀ ts, marked first (_ :: ts) = marked false ts := fun ts =>
      hk.elim (fun hk => marked_plain hk (by decide) first ts)
        fun hk => marked_plain hk (by decide) first ts
    rw [hfirst, marked_identifier hi, marked_plain he (by decide)]
    exact ih false nofun
  | namedFunction _ _ ih => exact fun first _ => ih first fun _ => trivial
  | conditionalStatement _ ih => exact fun first _ => ih first fun _ => trivial
  | @giveBack r w value hr _ _ ih =>
    intro first _
    have hw : marked false w ≤ Node.returns value := ih false nofun
    have hp : parts r = false := by simp [parts, hr]
    rw [marked, hp]
    show _ ≤ Node.returns value + 1
    split <;> omega
  | expressionStatement _ _ hr ih =>
    intro first _
    rw [marked_of_not_opensReturn hr]
    exact ih false nofun
  | @conditional s w v u _ _ _ hs _ _ _ ihw ihv ihu =>
    intro first _
    rw [marked_plain hs (by decide), Node.marked_append, Node.marked_append]
    exact Nat.add_le_add (ihw false nofun)
      (Nat.add_le_add (ihv _ fun _ => trivial) (ihu _ fun _ => trivial))
  | noAlternative => exact fun _ _ => Nat.zero_le _
  | otherwise he _ ih =>
    intro first _
    rw [marked_plain he (by decide)]
    exact ih false fun _ => trivial
  | otherwiseWhen he _ ih =>
    intro first _
    rw [marked_plain he (by decide)]
    exact ih false fun _ => trivial
  | function hf hn ho hp hc _ ih =>
    intro first _
    rw [marked_plain hf (by decide), Node.marked_append, marked_named hn,
      marked_plain ho (by decide), Node.marked_append, marked_params hp,
      marked_plain hc (by decide), Nat.zero_add, Nat.zero_add]
    exact ih false fun _ => trivial
  | disjunction _ ih => exact ih
  | assign _ he _ ihw ihv =>
    intro first hf
    rw [Node.marked_append, marked_plain he (by decide)]
    exact Nat.add_le_add (ihw first hf) (ihv false nofun)
  | @single level w n _ ih =>
    intro first hf
    have hw := ih first fun e => (hf e).elim
    rwa [level.returns_operand] at hw
  | @binary level w op v _ _ _ _ hop _ ihw ihv =>
    intro first hf
    have hv := ihv false nofun
    rw [level.returns_operand] at hv
    rw [Node.marked_append, hop.marked_append]
    exact Nat.add_le_add (ihw first hf) hv
  | negation hk _ _ ih =>
    intro first _
    rw [marked_plain hk (by decide)]
    show _ ≤ 0 + Node.returns _
    rw [Nat.zero_add]
    exact ih false nofun
  | operand _ ih => exact ih
  | suffixed _ ih => exact ih
  | member _ hd hi ih =>
    intro first hf
    rw [Node.marked_append, marked_plain hd (by decide), marked_identifier hi]
    exact ih first hf
  | index _ ho _ hc ihw ihv =>
    intro first hf
    rw [Node.marked_append, marked_plain ho (by decide), Node.marked_append,
      marked_plain hc (by decide)]
    exact Nat.add_le_add (ihw first hf) (ihv false nofun)
  | call _ ho _ hc ihw ihv =>
    intro first hf
    rw [Node.marked_append, marked_plain ho (by decide), Node.marked_append,
      marked_plain hc (by decide)]
    exact Nat.add_le_add (ihw first hf) (ihv false nofun)
  | number hk =>
    intro first _
    rw [marked_plain hk (by decide)]
    exact Nat.zero_le _
  | ident hk =>
    intro first hf
    cases first with
    | true => exact (hf rfl).elim
    | false =>
      rw [marked_identifier hk]
      exact Nat.zero_le _
  | parens ho _ hc ih =>
    intro first _
    rw [marked_plain ho (by decide), Node.marked_append, marked_plain hc (by decide)]
    exact ih false nofun
  | object ho _ hc ih =>
    intro first _
    rw [marked_brace (.inl ho), Node.marked_append, marked_brace (.inr hc)]
    exact ih true fun _ => trivial
  | list ho _ hc ih =>
    intro first _
    rw [marked_plain ho (by decide), Node.marked_append, marked_plain hc (by decide)]
    exact ih false nofun
  | functionAtom _ ih => exact fun first _ => ih first fun _ => trivial
  | @shorthand k hk =>
    intro first _
    exact marked_key hk first none []
  | @entry k c w value hk hc _ ih =>
    intro first _
    have hkey := marked_key hk first (some value) (c :: w)
    rw [marked_plain hc (by decide)] at hkey
    exact Nat.le_trans hkey (Nat.add_le_add_left (ih false nofun) _)
  | noElement => exact fun _ _ => Nat.zero_le _
  | lastElement _ ih => exact ih
  | moreElements _ hc _ ihw ihv =>
    intro first hf
    rw [Node.marked_append, marked_plain hc (by decide)]
    exact Nat.add_le_add (ihw first hf) (ihv false nofun)
  | noEntry => exact fun _ _ => Nat.zero_le _
  | lastEntry _ ih => exact ih
  | @moreEntries c w v n ns _ hc _ ihw ihv =>
    intro first _
    rw [Node.marked_append, marked_plain hc (by decide)]
    have hw := ihw first fun _ => trivial
    have hv := ihv false nofun
    simp only [Phrase.returns, leadingReturn_cons n ns, returnsList, Bool.false_eq_true, if_false]
      at hw hv ⊢
    omega

/-! ## At least once for each in the tokens of a tree, and for each that is misread -/

theorem le_marked_append {m k : Nat} {first : Bool} {u v : List Token} (hu : m ≤ marked first u)
    (hv : k ≤ marked false v) : m + k ≤ marked first (u ++ v) := by
  rw [marked_append]
  exact Nat.add_le_add hu (Nat.le_trans hv (marked_false_le _ v))

theorem le_marked_left {m : Nat} {first : Bool} {u : List Token} (h : m ≤ marked first u)
    (v : List Token) : m ≤ marked first (u ++ v) := by
  rw [marked_append]
  exact Nat.le_add_right_of_le h

theorem le_marked_right {m : Nat} {v : List Token} (h : m ≤ marked false v) (first : Bool)
    (u : List Token) : m ≤ marked first (u ++ v) := by
  rw [marked_append]
  exact Nat.le_add_left_of_le (Nat.le_trans h (marked_false_le _ v))

theorem le_marked_cons {m : Nat} {ts : List Token} (h : m ≤ marked false ts) (first : Bool)
    (t : Token) : m ≤ marked first (t :: ts) := by
  have hp := marked_false_le (parts t) ts
  rw [marked]
  omega

theorem le_marked_guarded {m : Nat} {w : List Token} (h : m ≤ marked false w) (n : Node)
    (least : Nat) : m ≤ marked false (guardedTokens n least w) := by
  unfold guardedTokens
  split
  · exact le_marked_cons (le_marked_left h _) _ _
  · exact h

theorem partsLast_append (first : Bool) (u v : List Token) :
    partsLast first (u ++ v) = partsLast (partsLast first u) v := by
  induction u generalizing first with
  | nil => rfl
  | cons t u ih => exact ih _

/-- The return statements of a tree and the statements inside it that are misread. -/
def owed (n : Node) : Nat := n.returns + n.statementsIn.countP misread

def owedList (ns : List Node) : Nat := returnsList ns + (statementsInList ns).countP misread

theorem owedList_cons (n : Node) (ns : List Node) : owedList (n :: ns) = n.owed + owedList ns := by
  simp only [owedList, owed, returnsList, statementsInList, List.countP_append]
  omega

def MarkedExpression (n : Node) : Prop := n.owed ≤ marked false n.tokens

/-- A statement counts itself if it is misread, and the next statement may start behind it. -/
structure MarkedStatement (n : Node) : Prop where
  le : (if n.misread then 1 else 0) + n.owed ≤ marked true (terminatedTokens n n.tokens)
  last : partsLast true (terminatedTokens n n.tokens) = true

def MarkedEntry (n : Node) : Prop :=
  ∀ first : Bool, (if first then leadingReturn [n] else 0) + n.owed ≤ marked first n.tokens

/-- What is counted in the tokens of a tree where it stands. -/
def Position.Marked : Position → Node → Prop
  | .expression => MarkedExpression
  | .statement => MarkedStatement
  | .entry => MarkedEntry

theorem le_marked_body {body : List Node} (h : ∀ n ∈ body, MarkedStatement n) :
    body.countP misread + owedList body ≤ marked true (bodyTokens body) := by
  induction body with
  | nil => exact Nat.zero_le _
  | cons n body ih =>
    obtain ⟨⟨hn, hlast⟩, hbody⟩ := List.forall_mem_cons.1 h
    have hrest := ih hbody
    rw [bodyTokens, marked_append, hlast, owedList_cons, List.countP_cons]
    omega

theorem le_marked_block {body : List Node} (h : ∀ n ∈ body, MarkedStatement n)
    (first : Bool) :
    body.countP misread + owedList body ≤ marked first (blockTokens (bodyTokens body)) := by
  rw [blockTokens, marked_brace (.inl rfl)]
  exact le_marked_left (le_marked_body h) _

theorem partsLast_block (first : Bool) (w : List Token) :
    partsLast first (blockTokens w) = true := by
  rw [blockTokens, ← List.cons_append, partsLast_append]
  rfl

theorem le_marked_function {m : Nat} {ts : List Token} (h : m ≤ marked false ts) (label : String)
    (params : List String) (first : Bool) : m ≤ marked first (functionTokens label params ts) := by
  rw [functionTokens]
  refine le_marked_cons (le_marked_right (le_marked_cons ?_ _ _) _ _) _ _
  exact le_marked_right (le_marked_cons h _ _) _ _

theorem partsLast_function (first : Bool) (label : String) (params : List String)
    (w : List Token) : partsLast first (functionTokens label params (blockTokens w)) = true := by
  rw [functionTokens, partsLast, partsLast_append, partsLast, partsLast_append, partsLast]
  exact partsLast_block _ w

theorem le_marked_elements {ns : List Node} (h : ∀ n ∈ ns, MarkedExpression n) :
    owedList ns ≤ marked false ([mark ','].intercalate (tokensList ns)) := by
  induction ns with
  | nil => exact Nat.zero_le _
  | cons n ns ih =>
    obtain ⟨hn, hns⟩ := List.forall_mem_cons.1 h
    rw [owedList_cons]
    cases ns with
    | nil =>
      rw [tokensList, tokensList, List.intercalate_singleton]
      exact hn
    | cons m ns =>
      have hc := le_marked_append hn (le_marked_cons (ih hns) false (mark ','))
      simpa [tokensList] using hc

theorem le_marked_entries {ns : List Node} (h : ∀ n ∈ ns, MarkedEntry n) (first : Bool) :
    (if first then leadingReturn ns else 0) + owedList ns ≤
      marked first ([mark ','].intercalate (tokensList ns)) := by
  induction ns generalizing first with
  | nil => cases first <;> exact Nat.zero_le _
  | cons n ns ih =>
    obtain ⟨hn, hns⟩ := List.forall_mem_cons.1 h
    rw [owedList_cons, leadingReturn_cons, ← Nat.add_assoc]
    cases ns with
    | nil =>
      rw [tokensList, tokensList, List.intercalate_singleton]
      exact hn first
    | cons m ns =>
      have hrest := ih hns false
      rw [if_neg Bool.false_ne_true, Nat.zero_add] at hrest
      have hc := le_marked_append (hn first) (le_marked_cons hrest false (mark ','))
      simpa [tokensList] using hc

theorem owed_function (label : String) (params : List String) (body : List Node) :
    owed (.function label params body) = body.countP misread + owedList body := by
  simp only [owed, owedList, Node.returns, statementsIn, List.countP_append]
  omega

/-- An expression as a statement: if it is misread, its first token is counted too. -/
theorem MarkedExpression.statement {n : Node} (h : MarkedExpression n) (hf : Fits .expression n) :
    MarkedStatement n := by
  have hfirst : (if n.misread then 1 else 0) + n.owed ≤ marked true n.tokens := by
    split
    · next hm =>
      simp only [misread, Bool.and_eq_true, beq_iff_eq] at hm
      obtain ⟨w, hw⟩ := List.head?_eq_some_iff.1 hm.2
      unfold MarkedExpression at h
      rw [hw, marked_identifier rfl] at h
      rw [hw]
      exact Nat.add_le_add_left h 1
    · rw [Nat.zero_add]
      exact Nat.le_trans h (marked_false_le _ _)
  by_cases hs : n.needsSemicolon = true
  · have ht : terminatedTokens n n.tokens = n.tokens ++ [mark ';'] := if_pos hs
    refine ⟨?_, by rw [ht, partsLast_append]; rfl⟩
    rw [ht]
    exact le_marked_left hfirst _
  · have ht : terminatedTokens n n.tokens = n.tokens := if_neg hs
    refine ⟨by rwa [ht], ?_⟩
    rw [ht]
    cases hf with
    | function => rw [tokens]; exact partsLast_function _ _ _ _
    | _ => exact absurd rfl hs

theorem le_marked_key {m : Nat} {ts : List Token} (key : String) (value : Option Node)
    (first : Bool)
    (h : m ≤ marked false ts) : (if first then leadingReturn [.property key value] else 0) + m ≤
      marked first (keyToken key :: ts) := by
  by_cases hk : key = Token.returnWord
  · subst hk
    have ht : keyToken Token.returnWord = name Token.returnWord := rfl
    rw [ht, marked]
    refine Nat.add_le_add ?_ (Nat.le_trans h (marked_false_le _ _))
    cases first with
    | false => exact Nat.le_refl 0
    | true => exact Nat.le_refl 1
  · have hl : leadingReturn [.property key value] = 0 := if_neg hk
    rw [hl, ite_self, Nat.zero_add]
    exact le_marked_cons h _ _

/-- A statement that is no expression and that ends itself. -/
theorem MarkedStatement.of_tokens {n : Node} (hn : n.isExpression = false)
    (hs : n.needsSemicolon = false) (hle : n.owed ≤ marked true n.tokens)
    (hlast : partsLast true n.tokens = true) : MarkedStatement n where
  le := by
    rw [misread, hn, terminatedTokens, hs]
    simpa using hle
  last := by
    rw [terminatedTokens, hs]
    exact hlast

theorem Fits.le_marked {position : Position} {n : Node} (h : Fits position n) :
    position.Marked n := by
  induction h with
  | @declare constant label value _ _ ih =>
    refine .of_tokens rfl rfl ?_ ?_
    · rw [tokens]
      exact le_marked_cons (le_marked_cons (le_marked_cons (le_marked_left ih _) _ _) _ _) _ _
    · rw [tokens, partsLast, partsLast, partsLast, partsLast_append]
      rfl
  | @giveBack value _ ih =>
    have he : owed (.giveBack value) = 1 + value.owed := by
      simp only [owed, Node.returns, statementsIn]
      omega
    refine .of_tokens rfl rfl ?_ ?_
    · rw [he, tokens]
      exact Nat.add_le_add_left (le_marked_left ih _) 1
    · rw [tokens, partsLast, partsLast_append]
      rfl
  | @when condition body _ _ ihc ihb =>
    have he : owed (.when condition body none) =
        condition.owed + (body.countP misread + owedList body) := by
      simp only [owed, owedList, Node.returns, returnsOption, statementsIn, statementsInOption,
        List.countP_append, List.countP_nil]
      omega
    refine .of_tokens rfl rfl ?_ ?_
    · rw [he, tokens]
      exact le_marked_cons (le_marked_cons
        (le_marked_append ihc (le_marked_cons (le_marked_block ihb _) _ _)) _ _) _ _
    · rw [tokens, partsLast, partsLast, partsLast_append, partsLast]
      exact partsLast_block _ _
  | @whenOtherwise condition body other _ _ _ ihc ihb iho =>
    have he : owed (.when condition body (some (.otherwise other))) = condition.owed +
        ((body.countP misread + owedList body) + (other.countP misread + owedList other)) := by
      simp only [owed, owedList, Node.returns, returnsOption, statementsIn, statementsInOption,
        List.countP_append]
      omega
    refine .of_tokens rfl rfl ?_ ?_
    · rw [he, tokens, tokens]
      exact le_marked_cons (le_marked_cons (le_marked_append ihc (le_marked_cons
        (le_marked_append (le_marked_block ihb _) (le_marked_cons (le_marked_block iho _) _ _))
          _ _)) _ _) _ _
    · rw [tokens, tokens, partsLast, partsLast, partsLast_append, partsLast, partsLast_append,
        partsLast]
      exact partsLast_block _ _
  | expression hf ih => exact ih.statement hf
  | @function label params body _ _ _ ih =>
    show owed _ ≤ marked false _
    rw [owed_function, tokens]
    exact le_marked_function (le_marked_block ih _) _ _ _
  | @assign target value _ _ iht ihv =>
    have he : owed (.assign target value) = target.owed + value.owed := by
      simp only [owed, Node.returns, statementsIn, List.countP_append]
      omega
    show owed _ ≤ marked false _
    rw [he, tokens]
    exact le_marked_append (le_marked_guarded iht target _)
      (le_marked_cons (le_marked_guarded ihv value _) _ _)
  | @binary left right symbol _ _ _ ihl ihr =>
    have he : owed (.binary left right symbol) = left.owed + right.owed := by
      simp only [owed, Node.returns, statementsIn, List.countP_append]
      omega
    show owed _ ≤ marked false _
    rw [he, tokens]
    exact le_marked_append (le_marked_guarded ihl left _)
      (le_marked_right (le_marked_guarded ihr right _) _ _)
  | @call callee args _ _ ihc iha =>
    have he : owed (.call callee args) = callee.owed + owedList args := by
      simp only [owed, owedList, Node.returns, statementsIn, List.countP_append]
      omega
    show owed _ ≤ marked false _
    rw [he, tokens]
    exact le_marked_append (le_marked_guarded ihc callee _)
      (le_marked_cons (le_marked_left (le_marked_elements iha) _) _ _)
  | @member owner label _ _ ih =>
    have he : owed (.member owner (.propertyName label) false) = owner.owed := by
      simp only [owed, Node.returns, statementsIn, List.append_nil, Nat.add_zero]
    show owed _ ≤ marked false _
    rw [he, tokens]
    exact le_marked_left (le_marked_guarded ih owner _) _
  | @index owner key _ _ iho ihk =>
    have he : owed (.member owner key true) = owner.owed + key.owed := by
      simp only [owed, Node.returns, statementsIn, List.countP_append]
      omega
    show owed _ ≤ marked false _
    rw [he, tokens]
    exact le_marked_append (le_marked_guarded iho owner _)
      (le_marked_cons (le_marked_left ihk _) _ _)
  | ident _ => exact Nat.zero_le _
  | number _ => exact Nat.zero_le _
  | @object entries _ ih =>
    have he : owed (.object entries) = leadingReturn entries + owedList entries := by
      simp only [owed, owedList, Node.returns, statementsIn]
      omega
    show owed _ ≤ marked false _
    rw [he, tokens, marked_brace (.inl rfl)]
    exact le_marked_left (le_marked_entries ih true) _
  | @list elements _ ih =>
    show owed _ ≤ marked false _
    rw [tokens]
    exact le_marked_cons (le_marked_left (le_marked_elements ih) _) _ _
  | @shorthand key _ => exact fun first => le_marked_key key none first (Nat.zero_le _)
  | @entry key value _ _ ih =>
    intro first
    rw [tokens]
    exact le_marked_key key (some value) first (le_marked_cons ih _ _)

/-! ## Exactly the trees without misread statements -/

/-- The tokens of a program derive it again exactly if no statement in it is misread. -/
theorem derives_bodyTokens_iff {body : List Node} (h : ∀ n ∈ body, Fits .statement n) :
    Derives (.statements body) (bodyTokens body) ↔
      ∀ e ∈ statementsIn (.program body), e.misread = false := by
  constructor
  · intro hd
    have hle := hd.marked_le true fun _ => trivial
    have hge := le_marked_body fun n hn => (h n hn).le_marked
    have hzero : body.countP misread + (statementsInList body).countP misread = 0 := by
      simp only [Phrase.returns, owedList] at hle hge
      omega
    intro e he
    rw [← List.countP_append] at hzero
    exact Bool.eq_false_iff.2 (List.countP_eq_zero.1 hzero e he)
  · intro hm
    rw [statementsIn, List.forall_mem_append] at hm
    refine derives_body (derivedStatement_of_body (fun n hn => (h n hn).derived) hm.1 hm.2)

end Guion.Node
