import Guion.Proofs.Grammar

/-!
# What a phrase starts with and what ends it

The readers decide by the next token or two.  A derived phrase starts with a token that its reader
dispatches on (`Derives.head`), and the tokens that may stand behind it are those at which all loops
of its reader stop (`Ends`).
-/

namespace Guion.Node

open Token (Kind)
open Reader (next)

/-! ## First tokens -/

def StartsExpression (t : Token) : Prop :=
  t.kind = .number ∨ t.kind = .identifier ∨ t.kind = .openParen ∨ t.kind = .openBrace ∨
    t.kind = .openBracket ∨ t.kind = .function ∨ (t.kind = .operator ∧ t.text = "-")

def StartsStatement (t : Token) : Prop :=
  t.kind = .define ∨ t.kind = .constant ∨ t.kind = .when ∨ StartsExpression t

namespace Phrase

/-- Phrases that may have no tokens. -/
def Nullable : Phrase → Prop
  | .statements _ | .alternative _ | .elements _ | .entries _ => True
  | _ => False

def StartsWith : Phrase → Token → Prop
  | .statements _, t => t.kind = .semicolon ∨ StartsStatement t
  | .statement .., t => StartsStatement t
  | .block _, t => t.kind = .openBrace
  | .conditional _, t => t.kind = .when
  | .alternative _, t => t.kind = .otherwise
  | .function _, t => t.kind = .function
  | .expression _, t | .chain .., t | .operand _, t | .suffixed _, t | .atom _, t
  | .elements _, t => StartsExpression t
  | .entry _, t | .entries _, t => t.kind = .identifier ∨ t.kind = .number

/-- The tokens start as the phrase does.  There are some unless the phrase may have none, and they
are more than the word that opens a function. -/
structure Heads (p : Phrase) (w : List Token) : Prop where
  some : p.Nullable ∨ ∃ t v, w = t :: v
  first : ∀ t ∈ w.head?, p.StartsWith t
  second : ∀ t, w = [t] → t.kind ≠ .function

theorem heads_nil {p : Phrase} (h : p.Nullable) : p.Heads [] := ⟨.inl h, by simp, by simp⟩

theorem heads_cons {p : Phrase} {t : Token} {w : List Token} (h : p.StartsWith t)
    (hf : t.kind = .function → w ≠ []) : p.Heads (t :: w) where
  some := .inr ⟨t, w, rfl⟩
  first := by
    rintro u ⟨⟩
    exact h
  second := by
    rintro u ⟨⟩ hu
    exact hf hu rfl

/-- A phrase that starts with another one, which has tokens. -/
theorem Heads.append {p q : Phrase} {w : List Token} (v : List Token) (hw : q.Heads w)
    (hq : ¬ q.Nullable) (hs : ∀ t, q.StartsWith t → p.StartsWith t) : p.Heads (w ++ v) := by
  rcases hw.some with hn | ⟨t, w, rfl⟩
  · exact absurd hn hq
  · refine heads_cons (hs t (hw.first t rfl)) fun hf e => ?_
    have hw' : w = [] := (List.append_eq_nil_iff.1 e).1
    subst hw'
    exact hw.second t rfl hf

/-- A phrase that is another one. -/
theorem Heads.lift {p q : Phrase} {w : List Token} (hw : q.Heads w) (hq : ¬ q.Nullable)
    (hs : ∀ t, q.StartsWith t → p.StartsWith t) : p.Heads w := by
  have := hw.append [] hq hs
  rwa [List.append_nil] at this

end Phrase

theorem Level.nullable_operand (level : Level) (n : Node) : ¬ (level.operand n).Nullable := by
  cases level <;> exact id

theorem Level.startsWith_operand (level : Level) (n : Node) :
    (level.operand n).StartsWith = StartsExpression := by
  cases level <;> rfl

theorem Derives.heads {p : Phrase} {w : List Token} (h : Derives p w) : p.Heads w := by
  induction h with
  | @noStatement gap hg =>
    cases gap with
    | nil => exact Phrase.heads_nil trivial
    | cons g gap =>
      have hk := hg g List.mem_cons_self
      exact Phrase.heads_cons (.inl hk) (by simp [hk])
  | @moreStatements gap w v _ _ _ hg _ _ _ ih _ =>
    cases gap with
    | nil => exact ih.append v id fun t ht => .inr ht
    | cons g gap =>
      have hk := hg g List.mem_cons_self
      exact Phrase.heads_cons (.inl hk) (by simp [hk])
  | block ho _ _ _ => exact Phrase.heads_cons ho (by simp)
  | declaration hk _ _ _ _ =>
    refine Phrase.heads_cons ?_ (by simp)
    rcases hk with hk | hk
    · exact .inl hk
    · exact .inr (.inl hk)
  | namedFunction _ _ ih =>
    exact ih.lift id fun t ht => .inr (.inr (.inr (.inr (.inr (.inr (.inr (.inr (.inl ht))))))))
  | conditionalStatement _ ih => exact ih.lift id fun t ht => .inr (.inr (.inl ht))
  | giveBack hr _ _ _ =>
    exact Phrase.heads_cons (.inr (.inr (.inr (.inr (.inl hr))))) (by simp [hr])
  | expressionStatement _ _ _ ih => exact ih.lift id fun t ht => .inr (.inr (.inr ht))
  | conditional hs _ _ _ _ _ _ => exact Phrase.heads_cons hs (by simp [hs])
  | noAlternative => exact Phrase.heads_nil trivial
  | otherwise he _ _ => exact Phrase.heads_cons he (by simp [he])
  | otherwiseWhen he _ _ => exact Phrase.heads_cons he (by simp [he])
  | function hf _ _ _ _ _ _ => exact Phrase.heads_cons hf (by simp)
  | disjunction _ ih => exact ih.lift id fun _ => id
  | assign _ _ _ ih _ => exact ih.append _ id fun _ => id
  | @single level _ n _ ih =>
    refine ih.lift (level.nullable_operand n) fun t ht => ?_
    rwa [level.startsWith_operand] at ht
  | binary _ _ _ ih _ => exact ih.append _ id fun _ => id
  | negation hk ht _ _ =>
    exact Phrase.heads_cons (.inr (.inr (.inr (.inr (.inr (.inr ⟨hk, ht⟩)))))) (by simp [hk])
  | operand _ ih => exact ih.lift id fun _ => id
  | suffixed _ ih => exact ih.lift id fun _ => id
  | member _ _ _ ih => exact ih.append _ id fun _ => id
  | index _ _ _ _ ih _ => exact ih.append _ id fun _ => id
  | call _ _ _ _ ih _ => exact ih.append _ id fun _ => id
  | number hk _ _ => exact Phrase.heads_cons (.inl hk) (by simp [hk])
  | ident hk => exact Phrase.heads_cons (.inr (.inl hk)) (by simp [hk])
  | parens ho _ _ _ => exact Phrase.heads_cons (.inr (.inr (.inl ho))) (by simp)
  | object ho _ _ _ => exact Phrase.heads_cons (.inr (.inr (.inr (.inl ho)))) (by simp)
  | list ho _ _ _ => exact Phrase.heads_cons (.inr (.inr (.inr (.inr (.inl ho))))) (by simp)
  | functionAtom _ ih =>
    exact ih.lift id fun t ht => .inr (.inr (.inr (.inr (.inr (.inl ht)))))
  | shorthand hk =>
    refine Phrase.heads_cons hk fun hf => ?_
    rcases hk with hk | hk <;> simp [hk] at hf
  | entry hk _ _ _ => exact Phrase.heads_cons hk (by simp)
  | noElement => exact Phrase.heads_nil trivial
  | lastElement _ ih => exact ih.lift id fun _ => id
  | moreElements _ _ _ ih _ => exact ih.append _ id fun _ => id
  | noEntry => exact Phrase.heads_nil trivial
  | lastEntry _ ih => exact ih.lift id fun _ => id
  | moreEntries _ _ _ ih _ => exact ih.append _ id fun _ => id

/-- The first token of a phrase that has one. -/
theorem Derives.head {p : Phrase} {w : List Token} (h : Derives p w) (hp : ¬ p.Nullable) :
    ∃ t v, w = t :: v ∧ p.StartsWith t := by
  rcases h.heads.some with hn | ⟨t, v, rfl⟩
  · exact absurd hn hp
  · exact ⟨t, v, rfl, h.heads.first t rfl⟩

/-- A phrase opens the declaration of a named function only by its own tokens. -/
theorem Derives.opensNamed_append {p : Phrase} {w : List Token} (h : Derives p w)
    (hp : ¬ p.Nullable) (rest : List Token) : OpensNamed (w ++ rest) ↔ OpensNamed w := by
  constructor
  · rintro ⟨f, i, v, e, hf, hi⟩
    cases w with
    | nil =>
      obtain ⟨t, v, e, -⟩ := h.head hp
      cases e
    | cons f' w =>
      cases w with
      | nil =>
        cases e
        exact absurd hf (h.heads.second f rfl)
      | cons i' w =>
        cases e
        exact ⟨f, i, w, rfl, hf, hi⟩
  · rintro ⟨f, i, v, rfl, hf, hi⟩
    exact ⟨f, i, v ++ rest, rfl, hf, hi⟩

/-! ## Tokens at which reading stops -/

namespace Level

/-- Binding strength; assignment has strength one and accesses have strength seven. -/
def strength : Level → Nat
  | .disjunction => 2
  | .conjunction => 3
  | .equality => 4
  | .sum => 5
  | .product => 6

/-- How the operators of the level are recognised. -/
def connective : Level → Connective
  | .disjunction => Connective.oneOrTwo .or "|"
  | .conjunction => Connective.oneOrTwo .and "&"
  | .equality => Connective.equality
  | .sum => Connective.among Connective.sums
  | .product => Connective.among Connective.products

end Level

/-- No access and no call follows. -/
def EndsOperand (rest : List Token) : Prop :=
  (next rest).kind ≠ .dot ∧ (next rest).kind ≠ .openBracket ∧ (next rest).kind ≠ .openParen

/-- Nothing follows that binds at least with the given strength. -/
def Ends (least : Nat) (rest : List Token) : Prop :=
  EndsOperand rest ∧ ∀ level : Level, least ≤ level.strength → level.connective rest = none

def EndsExpression (rest : List Token) : Prop := Ends 0 rest ∧ (next rest).kind ≠ .equals

/-- The kinds of tokens that can go on with an expression. -/
def continuing : List Kind :=
  [.dot, .openBracket, .openParen, .operator, .equals, .negate, .and, .or]

theorem Ends.mono {least least' : Nat} {rest : List Token} (h : Ends least rest)
    (hl : least ≤ least') : Ends least' rest :=
  ⟨h.1, fun level hs => h.2 level (Nat.le_trans hl hs)⟩

@[simp]
theorem next_cons (t : Token) (ts : List Token) : next (t :: ts) = t := rfl

theorem oneOrTwo_eq_none {kind : Kind} (symbol : String) {rest : List Token}
    (h : (next rest).kind ≠ kind) : Connective.oneOrTwo kind symbol rest = none := by
  unfold Connective.oneOrTwo
  split
  · rfl
  · exact if_neg h
  · exact if_neg h

theorem equality_eq_none {rest : List Token} (he : (next rest).kind ≠ .equals)
    (hn : (next rest).kind ≠ .negate) : Connective.equality rest = none := by
  unfold Connective.equality
  split
  · split
    · rw [if_neg (by simpa using he), if_neg (by simpa using hn)]
    · rfl
  · rfl

theorem among_eq_none {symbols : List String} {rest : List Token}
    (h : (next rest).kind = .operator → (next rest).text ∉ symbols) :
    Connective.among symbols rest = none := by
  unfold Connective.among
  split
  · refine if_neg ?_
    simpa using h
  · rfl

/-- Tokens with which operators of the level start. -/
def Level.Opens : Level → Token → Prop
  | .disjunction, t => t.kind = .or
  | .conjunction, t => t.kind = .and
  | .equality, t => t.kind = .equals ∨ t.kind = .negate
  | .sum, t => t.kind = .operator ∧ t.text ∈ Connective.sums
  | .product, t => t.kind = .operator ∧ t.text ∈ Connective.products

theorem Level.connective_eq_none {level : Level} {rest : List Token}
    (h : ¬ level.Opens (next rest)) :
    level.connective rest = none := by
  cases level with
  | disjunction => exact oneOrTwo_eq_none _ h
  | conjunction => exact oneOrTwo_eq_none _ h
  | equality => exact equality_eq_none (fun e => h (.inl e)) (fun e => h (.inr e))
  | sum => exact among_eq_none fun e hm => h ⟨e, hm⟩
  | product => exact among_eq_none fun e hm => h ⟨e, hm⟩

/-- No operator is recognised at a token of another kind. -/
theorem ends_of_kind {rest : List Token} (least : Nat) (h : (next rest).kind ∉ continuing) :
    Ends least rest := by
  simp only [continuing, List.mem_cons, List.not_mem_nil, or_false, not_or] at h
  obtain ⟨hdot, hbracket, hparen, hop, heq, hneg, hand, hor⟩ := h
  refine ⟨⟨hdot, hbracket, hparen⟩, fun level _ => level.connective_eq_none ?_⟩
  cases level with
  | disjunction => exact hor
  | conjunction => exact hand
  | equality => exact not_or.2 ⟨heq, hneg⟩
  | sum => exact fun ho => hop ho.1
  | product => exact fun ho => hop ho.1

theorem endsExpression_of_kind {rest : List Token} (h : (next rest).kind ∉ continuing) :
    EndsExpression rest :=
  ⟨ends_of_kind 0 h, fun e => h (by simp [continuing, e])⟩

/-- The tokens behind an operator start an operand. -/
theorem StartsExpression.kind {t : Token} (h : StartsExpression t) :
    t.kind ≠ .equals ∧ t.kind ≠ .and ∧ t.kind ≠ .or := by
  rcases h with h | h | h | h | h | h | ⟨h, -⟩ <;> simp [h]

theorem Level.Operator.connective_eq {level : Level} {op : List Token} {symbol : String}
    (h : level.Operator op symbol) {t : Token} (ht : StartsExpression t) (v : List Token) :
    level.connective (op ++ t :: v) = some (symbol, t :: v) := by
  obtain ⟨-, hand, hor⟩ := ht.kind
  cases h with
  | or hk => simp [connective, Connective.oneOrTwo, hk, hor]
  | orOr hk hk' => simp [connective, Connective.oneOrTwo, hk, hk']
  | and hk => simp [connective, Connective.oneOrTwo, hk, hand]
  | andAnd hk hk' => simp [connective, Connective.oneOrTwo, hk, hk']
  | equal hk hk' => simp [connective, Connective.equality, hk, hk']
  | differ hk hk' => simp [connective, Connective.equality, hk, hk']
  | sum hk hs =>
    rcases hs with hs | hs <;> simp [connective, Connective.among, Connective.sums, hk, hs]
  | product hk hs =>
    rcases hs with hs | hs | hs <;>
      simp [connective, Connective.among, Connective.products, hk, hs]

/-- The first token of an operator tells its level. -/
theorem Level.Operator.head {level : Level} {op : List Token} {symbol : String}
    (h : level.Operator op symbol) :
    ∃ t ts, op = t :: ts ∧ EndsOperand [t] ∧ ∀ level' : Level, level'.Opens t → level' = level := by
  cases h with
  | or hk | orOr hk _ | and hk | andAnd hk _ | equal hk _ | differ hk _ =>
    refine ⟨_, _, rfl, by simp [EndsOperand, hk], fun level' ho => ?_⟩
    cases level' <;> simp_all [Opens]
  | sum hk hs =>
    refine ⟨_, _, rfl, by simp [EndsOperand, hk], fun level' ho => ?_⟩
    cases level' <;> rcases hs with hs | hs <;> simp_all [Opens, Connective.products]
  | product hk hs =>
    refine ⟨_, _, rfl, by simp [EndsOperand, hk], fun level' ho => ?_⟩
    cases level' <;> rcases hs with hs | hs | hs <;> simp_all [Opens, Connective.sums]

/-- The operand in front of an operator ends there. -/
theorem Level.Operator.ends {level : Level} {op : List Token} {symbol : String}
    (h : level.Operator op symbol) (v : List Token) : Ends (level.strength + 1) (op ++ v) := by
  obtain ⟨t, ts, rfl, ho, hlevel⟩ := h.head
  refine ⟨ho, fun level' hl => level'.connective_eq_none fun hopens => ?_⟩
  rw [hlevel level' hopens] at hl
  omega

/-- The target of an assignment ends at its sign. -/
theorem ends_assign {e t : Token} (he : e.kind = .equals) (ht : StartsExpression t)
    (v : List Token) : Ends 0 (e :: t :: v) := by
  refine ⟨by simp [EndsOperand, he], fun level _ => ?_⟩
  by_cases hl : level = .equality
  · subst hl
    simp [Level.connective, Connective.equality, ht.kind.1]
  · refine level.connective_eq_none fun ho => hl ?_
    cases level <;> simp_all [Level.Opens]

/-- After a statement comes the end of its block or a statement that does not go on with it. -/
theorem endsExpression_statements {body : List Node} {v rest : List Token}
    (h : Derives (.statements body) v) (hj : ∀ t ∈ v.head?, ¬ Joins t)
    (hr : (next rest).kind = .closeBrace ∨ (next rest).kind = .eof) :
    EndsExpression (v ++ rest) := by
  apply endsExpression_of_kind
  cases v with
  | nil => rcases hr with hr | hr <;> simp [hr, continuing]
  | cons t v =>
    have hs : t.kind = .semicolon ∨ StartsStatement t := h.heads.first t rfl
    have hj : ¬ Joins t := hj t rfl
    simp only [Joins, not_or, not_and] at hj
    obtain ⟨hp, hb, hm⟩ := hj
    rcases hs with hs | hs | hs | hs | hs | hs | hs | hs | hs | hs | ⟨hs, ht⟩ <;>
      simp_all [continuing]

theorem next_statements_ne_otherwise {body : List Node} {v rest : List Token}
    (h : Derives (.statements body) v)
    (hr : (next rest).kind = .closeBrace ∨ (next rest).kind = .eof) :
    (next (v ++ rest)).kind ≠ .otherwise := by
  cases v with
  | nil => rcases hr with hr | hr <;> simp [hr]
  | cons t v =>
    have hs : t.kind = .semicolon ∨ StartsStatement t := h.heads.first t rfl
    rcases hs with hs | hs | hs | hs | hs | hs | hs | hs | hs | hs | ⟨hs, -⟩ <;> simp [hs]

end Guion.Node
