import Guion.Proofs.Grammar.Complete

/-!
# What the readers accept, the grammar derives

Each reader that succeeds has taken a phrase off the front of its tokens.  Nothing is said of the
room that the readers inside have: without it they fail.  The tokens have to be ones that texts
have, since the readers take pieces such as `*/` for operators.

    Token.scan s = .ok tokens →
      (reading `tokens` gives `tree` ↔ DerivesProgram tokens.dropLast tree)     (ofTokens_eq_ok_iff)
-/

namespace Guion.Node

open Token (Kind)
open Reader

/-! ## Legible tokens -/

/-- Every number is a run of digits and every operator one of the five. -/
def Legible (ts : List Token) : Prop :=
  ∀ t ∈ ts, (t.kind = .number → Token.IsDigits t.text.toList) ∧
    (t.kind = .operator → t.text ∈ ["+", "-", "*", "/", "%"])

theorem Legible.of_append {w rest : List Token} (h : Legible (w ++ rest)) : Legible rest :=
  fun t ht => h t (List.mem_append_right w ht)

theorem Legible.of_cons {t : Token} {rest : List Token} (h : Legible (t :: rest)) : Legible rest :=
  fun u hu => h u (List.mem_cons_of_mem t hu)

/-! ## Steps of a reader, backwards -/

namespace Reader

variable {α β : Type}

theorem bind_eq_ok {x : Reader α} {f : α → Reader β} {ts rest : List Token} {b : β}
    (h : (x >>= f) ts = .ok (b, rest)) : ∃ a r, x ts = .ok (a, r) ∧ f a r = .ok (b, rest) := by
  cases hx : x ts with
  | error e =>
    have : (x >>= f) ts = .error e := by
      show (StateT.bind x f) ts = _
      simp only [StateT.bind, hx]
      rfl
    rw [this] at h
    cases h
  | ok p =>
    obtain ⟨a, r⟩ := p
    rw [bind_ok hx] at h
    exact ⟨a, r, rfl, h⟩

theorem pure_eq_ok {a b : α} {ts rest : List Token} (h : (pure a : Reader α) ts = .ok (b, rest)) :
    a = b ∧ ts = rest := by
  cases h
  exact ⟨rfl, rfl⟩

/-- A step after a look at the next token. -/
theorem peek_bind_eq_ok {f : Token → Reader β} {ts rest : List Token} {b : β}
    (h : (peek >>= f) ts = .ok (b, rest)) : f (next ts) ts = .ok (b, rest) := by
  rwa [bind_ok (peek_apply ts)] at h

theorem eq_cons_of_kind {ts : List Token} {kind : Kind} (h : (next ts).kind = kind)
    (hk : kind ≠ .eof) : ∃ t r, ts = t :: r ∧ t.kind = kind := by
  cases ts with
  | nil => exact absurd h.symm hk
  | cons t r => exact ⟨t, r, rfl, h⟩

/-- A step after a token that is not the end. -/
theorem advance_bind_eq_ok {f : Token → Reader β} {ts rest : List Token} {b : β}
    (h : (advance >>= f) ts = .ok (b, rest)) (hk : (next ts).kind ≠ .eof) :
    ∃ t r, ts = t :: r ∧ f t r = .ok (b, rest) := by
  obtain ⟨t, r, rfl, ht⟩ := eq_cons_of_kind rfl hk
  rw [bind_ok (advance_cons (by simpa using hk))] at h
  exact ⟨t, r, rfl, h⟩

theorem advance_eq_ok {ts rest : List Token} {t : Token} (h : advance ts = .ok (t, rest))
    (hk : t.kind ≠ .eof) : ts = t :: rest := by
  simp only [advance, Except.ok.injEq, Prod.mk.injEq] at h
  obtain ⟨rfl, rfl⟩ := h
  obtain ⟨u, v, rfl, -⟩ := eq_cons_of_kind rfl hk
  rw [if_neg hk]
  rfl

theorem expect_eq_ok {kind : Kind} {what : Expected} {ts rest : List Token} {s : String}
    (h : expect kind what ts = .ok (s, rest)) (hk : kind ≠ .eof) :
    ∃ t, ts = t :: rest ∧ t.kind = kind ∧ s = t.text := by
  unfold expect at h
  obtain ⟨t, r, ha, ht⟩ := bind_eq_ok h
  split at ht
  · next hkind =>
    obtain ⟨rfl, rfl⟩ := pure_eq_ok ht
    exact ⟨t, advance_eq_ok ha (hkind ▸ hk), hkind, rfl⟩
  · cases ht

theorem expect_bind_eq_ok {kind : Kind} {what : Expected} {f : String → Reader β}
    {ts rest : List Token} {b : β} (h : (expect kind what >>= f) ts = .ok (b, rest))
    (hk : kind ≠ .eof) : ∃ t r, ts = t :: r ∧ t.kind = kind ∧ f t.text r = .ok (b, rest) := by
  obtain ⟨s, r, he, hf⟩ := bind_eq_ok h
  obtain ⟨t, rfl, ht, rfl⟩ := expect_eq_ok he hk
  exact ⟨t, r, rfl, ht, hf⟩

theorem skipSemicolons_eq_ok {ts rest : List Token} {u : Unit}
    (h : skipSemicolons ts = .ok (u, rest)) : ∃ gap, ts = gap ++ rest ∧ Semicolons gap := by
  cases h
  refine ⟨ts.takeWhile _, List.takeWhile_append_dropWhile.symm, fun t ht => ?_⟩
  have := List.all_takeWhile (p := fun t : Token => t.kind == .semicolon) (l := ts)
  exact beq_iff_eq.1 (List.all_eq_true.1 this t ht)

end Reader

/-! ## Items -/

theorem items_eq_ok {α : Type} {close : Kind} {comma : Expected} {item : Reader α}
    (P : α → List Token → Prop) (D : List α → List Token → Prop) (hk : close ≠ .eof)
    (hitem : ∀ ts x rest, Legible ts → item ts = .ok (x, rest) → ∃ w, ts = w ++ rest ∧ P x w)
    (nil : D [] []) (last : ∀ x w, P x w → D [x] w)
    (more : ∀ x w c xs v, P x w → c.kind = .comma → D xs v → D (x :: xs) (w ++ c :: v)) :
    ∀ n ts xs rest, Legible ts → items close comma item n ts = .ok (xs, rest) →
      ∃ w c, ts = w ++ c :: rest ∧ c.kind = close ∧ D xs w := by
  intro n
  induction n with
  | zero => intro ts xs rest _ h; cases h
  | succ n ih =>
    intro ts xs rest hl h
    rw [items] at h
    replace h := peek_bind_eq_ok h
    split at h
    · next hc =>
      obtain ⟨t, r, rfl, he⟩ := advance_bind_eq_ok h (hc ▸ hk)
      obtain ⟨rfl, rfl⟩ := pure_eq_ok he
      exact ⟨[], t, rfl, hc, nil⟩
    · obtain ⟨x, r, hx, h₁⟩ := bind_eq_ok h
      obtain ⟨_, r', hs, h₂⟩ := bind_eq_ok h₁
      obtain ⟨ys, r'', hys, h₃⟩ := bind_eq_ok h₂
      obtain ⟨rfl, rfl⟩ := pure_eq_ok h₃
      obtain ⟨w, rfl, hw⟩ := hitem _ _ _ hl hx
      rw [separator] at hs
      replace hs := peek_bind_eq_ok hs
      split at hs
      · -- the closing token follows, so that no more items come
        next hclose =>
        obtain ⟨-, rfl⟩ := pure_eq_ok hs
        obtain ⟨c, r, rfl, hc⟩ := eq_cons_of_kind hclose hk
        cases n with
        | zero => cases hys
        | succ n =>
          rw [items_close hc hk] at hys
          cases hys
          exact ⟨w, c, rfl, hc, last x w hw⟩
      · obtain ⟨c, r, rfl, hc, he⟩ := expect_bind_eq_ok hs (by decide)
        obtain ⟨-, rfl⟩ := pure_eq_ok he
        obtain ⟨v, c', rfl, hc', hv⟩ := ih _ _ _ hl.of_append.of_cons hys
        exact ⟨w ++ c :: v, c', by simp, hc', more x w c ys v hw hc hv⟩

/-! ## Readers that take phrases -/

/-- What a reader has taken off the front of its tokens is the phrase, and `after` holds of the
tokens that remain. -/
def Takes {α : Type} (reader : Reader α) (phrase : α → Phrase) (after : List Token → Prop) : Prop :=
  ∀ ts a rest, Legible ts → reader ts = .ok (a, rest) →
    ∃ w, ts = w ++ rest ∧ Derives (phrase a) w ∧ after rest

/-- No token follows that goes on with an expression although it could open a statement. -/
def Parted (rest : List Token) : Prop := ¬ Joins (next rest)

/-- The readers for what stands inside a construct take phrases. -/
structure Inner.Sound (inner : Inner) : Prop where
  expression : Takes inner.expression .expression Parted
  operand : Takes inner.operand .operand EndsOperand
  statement : ∀ ts n rest, Legible ts → inner.statement ts = .ok (n, rest) →
    ∃ w ending, ts = w ++ rest ∧ Derives (.statement ending n) w ∧
      (ending = .expression → Parted rest)
  conditional : ∀ ts n rest, Legible ts → (next ts).kind = .when →
    inner.conditional ts = .ok (n, rest) → ∃ w, ts = w ++ rest ∧ Derives (.conditional n) w

/-! ## Statements -/

theorem optionalName_eq_ok {ts rest : List Token} {name : String}
    (h : optionalName ts = .ok (name, rest)) : ∃ i, ts = i ++ rest ∧ Named name i := by
  rw [optionalName] at h
  replace h := peek_bind_eq_ok h
  split at h
  · next hk =>
    obtain ⟨t, r, rfl, h₁⟩ := advance_bind_eq_ok h (by simp [hk])
    obtain ⟨rfl, rfl⟩ := pure_eq_ok h₁
    exact ⟨[t], rfl, .name hk⟩
  · obtain ⟨rfl, rfl⟩ := pure_eq_ok h
    exact ⟨[], rfl, .anonymous⟩

theorem params_eq_ok {n : Nat} {ts rest : List Token} {params : List String} (hl : Legible ts)
    (h : items .closeParen .commaInParameters (expect .identifier .parameter) n ts =
      .ok (params, rest)) :
    ∃ w c, ts = w ++ c :: rest ∧ c.kind = .closeParen ∧ Params params w := by
  refine items_eq_ok (fun s w => ∃ t, t.kind = .identifier ∧ s = t.text ∧ w = [t]) Params
    (by decide) ?_ .nil ?_ ?_ n ts params rest hl h
  · intro ts name rest _ he
    obtain ⟨t, rfl, ht, rfl⟩ := expect_eq_ok he (by decide)
    exact ⟨[t], rfl, t, ht, rfl, rfl⟩
  · rintro _ _ ⟨t, ht, rfl, rfl⟩
    exact .last ht
  · rintro _ _ c xs v ⟨t, ht, rfl, rfl⟩ hc hv
    exact .cons ht hc hv

section

variable {inner : Inner} (hi : inner.Sound)
include hi

theorem statements_eq_ok {stop : Kind} : ∀ n ts body rest, Legible ts →
    statements inner stop n ts = .ok (body, rest) →
      ∃ w, ts = w ++ rest ∧ Derives (.statements body) w ∧ (next rest).kind = stop := by
  intro n
  induction n with
  | zero => intro ts body rest _ h; cases h
  | succ n ih =>
    intro ts body rest hl h
    rw [statements] at h
    obtain ⟨_, r, hg, h₁⟩ := bind_eq_ok h
    obtain ⟨gap, rfl, hgap⟩ := skipSemicolons_eq_ok hg
    replace h₁ := peek_bind_eq_ok h₁
    split at h₁
    · next hstop =>
      obtain ⟨rfl, rfl⟩ := pure_eq_ok h₁
      exact ⟨gap, rfl, .noStatement hgap, hstop⟩
    · split at h₁
      · cases h₁
      · obtain ⟨first, r', hf, h₂⟩ := bind_eq_ok h₁
        obtain ⟨body', r'', hb, h₃⟩ := bind_eq_ok h₂
        obtain ⟨rfl, rfl⟩ := pure_eq_ok h₃
        obtain ⟨w, ending, rfl, hw, hp⟩ := hi.statement _ _ _ hl.of_append hf
        obtain ⟨v, rfl, hv, hstop⟩ := ih _ _ _ hl.of_append.of_append hb
        refine ⟨gap ++ (w ++ v), by simp, .moreStatements hgap hw hv ?_, hstop⟩
        intro he t ht
        cases v with
        | nil => cases ht
        | cons u v =>
          cases ht
          exact hp he

theorem block_takes : Takes (block inner) .block fun _ => True := by
  intro ts body rest hl h
  rw [block] at h
  obtain ⟨o, r, rfl, ho, h₁⟩ := expect_bind_eq_ok h (by decide)
  obtain ⟨body', r', hb, h₂⟩ := bind_eq_ok h₁
  obtain ⟨w, rfl, hw, hc⟩ := statements_eq_ok hi _ _ _ _ hl.of_cons hb
  obtain ⟨c, r, rfl, h₃⟩ := advance_bind_eq_ok h₂ (by simp [hc])
  obtain ⟨rfl, rfl⟩ := pure_eq_ok h₃
  exact ⟨o :: (w ++ [c]), by simp, .block ho hw hc, trivial⟩

theorem readDeclaration_takes (ts : List Token) (n : Node) (rest : List Token) (hl : Legible ts)
    (hk : (next ts).kind = .define ∨ (next ts).kind = .constant)
    (h : readDeclaration inner ts = .ok (n, rest)) :
    ∃ w, ts = w ++ rest ∧ Derives (.statement .expression n) w ∧ Parted rest := by
  rw [readDeclaration] at h
  obtain ⟨k, r, rfl, h₁⟩ := advance_bind_eq_ok h (by rcases hk with hk | hk <;> simp [hk])
  obtain ⟨i, r, rfl, hi', h₂⟩ := expect_bind_eq_ok h₁ (by decide)
  obtain ⟨e, r, rfl, he, h₃⟩ := expect_bind_eq_ok h₂ (by decide)
  obtain ⟨value, r, hv, h₄⟩ := bind_eq_ok h₃
  obtain ⟨rfl, rfl⟩ := pure_eq_ok h₄
  obtain ⟨w, rfl, hw, hp⟩ := hi.expression _ _ _ hl.of_cons.of_cons.of_cons hv
  exact ⟨k :: i :: e :: w, rfl, .declaration hk hi' he hw, hp⟩

theorem readFunction_takes (ts : List Token) (n : Node) (rest : List Token) (hl : Legible ts)
    (hk : (next ts).kind = .function) (h : readFunction inner ts = .ok (n, rest)) :
    ∃ w, ts = w ++ rest ∧ Derives (.function n) w := by
  rw [readFunction] at h
  obtain ⟨f, r, rfl, h₁⟩ := advance_bind_eq_ok h (by simp [hk])
  obtain ⟨name, r, hn, h₂⟩ := bind_eq_ok h₁
  obtain ⟨i, rfl, hname⟩ := optionalName_eq_ok hn
  obtain ⟨o, r, rfl, ho, h₃⟩ := expect_bind_eq_ok h₂ (by decide)
  obtain ⟨params, r, hp, h₄⟩ := bind_eq_ok h₃
  obtain ⟨w, c, rfl, hc, hparams⟩ := params_eq_ok hl.of_cons.of_append.of_cons hp
  obtain ⟨body, r, hb, h₅⟩ := bind_eq_ok h₄
  obtain ⟨rfl, rfl⟩ := pure_eq_ok h₅
  obtain ⟨v, rfl, hv, -⟩ := block_takes hi _ _ _ hl.of_cons.of_append.of_cons.of_append.of_cons hb
  exact ⟨f :: (i ++ o :: (w ++ c :: v)), by simp, .function hk hname ho hparams hc hv⟩

theorem readAlternative_takes : Takes (readAlternative inner) .alternative fun _ => True := by
  intro ts alternative rest hl h
  rw [readAlternative] at h
  replace h := peek_bind_eq_ok h
  split at h
  · next he =>
    obtain ⟨e, r, rfl, h₁⟩ := advance_bind_eq_ok h (by simp [he])
    replace h₁ := peek_bind_eq_ok h₁
    split at h₁
    · next hs =>
      obtain ⟨n, r, hc, h₂⟩ := bind_eq_ok h₁
      obtain ⟨rfl, rfl⟩ := pure_eq_ok h₂
      obtain ⟨w, rfl, hw⟩ := hi.conditional _ _ _ hl.of_cons hs hc
      exact ⟨e :: w, rfl, .otherwiseWhen he hw, trivial⟩
    · obtain ⟨body, r, hb, h₂⟩ := bind_eq_ok h₁
      obtain ⟨rfl, rfl⟩ := pure_eq_ok h₂
      obtain ⟨w, rfl, hw, -⟩ := block_takes hi _ _ _ hl.of_cons hb
      exact ⟨e :: w, rfl, .otherwise he hw, trivial⟩
  · obtain ⟨rfl, rfl⟩ := pure_eq_ok h
    exact ⟨[], rfl, .noAlternative, trivial⟩

theorem readConditional_takes (ts : List Token) (n : Node) (rest : List Token) (hl : Legible ts)
    (hk : (next ts).kind = .when) (h : readConditional inner ts = .ok (n, rest)) :
    ∃ w, ts = w ++ rest ∧ Derives (.conditional n) w := by
  rw [readConditional] at h
  obtain ⟨s, r, rfl, h₁⟩ := advance_bind_eq_ok h (by simp [hk])
  obtain ⟨condition, r, hc, h₂⟩ := bind_eq_ok h₁
  obtain ⟨w, rfl, hw, -⟩ := hi.expression _ _ _ hl.of_cons hc
  obtain ⟨body, r, hb, h₃⟩ := bind_eq_ok h₂
  obtain ⟨v, rfl, hv, -⟩ := block_takes hi _ _ _ hl.of_cons.of_append hb
  obtain ⟨alternative, r, ha, h₄⟩ := bind_eq_ok h₃
  obtain ⟨rfl, rfl⟩ := pure_eq_ok h₄
  obtain ⟨u, rfl, hu, -⟩ := readAlternative_takes hi _ _ _ hl.of_cons.of_append.of_append ha
  exact ⟨s :: (w ++ (v ++ u)), by simp, .conditional hk hw hv hu⟩

/-! ## Expressions -/

theorem readEntry_takes : Takes (readEntry inner) .entry fun _ => True := by
  intro ts n rest hl h
  rw [readEntry] at h
  obtain ⟨key, r, ha, h₁⟩ := bind_eq_ok h
  split at h₁
  · next hk =>
    obtain ⟨value, r, hv, h₂⟩ := bind_eq_ok h₁
    obtain ⟨rfl, rfl⟩ := pure_eq_ok h₂
    obtain rfl := advance_eq_ok ha (by rcases hk with hk | hk <;> simp [hk])
    rw [entryValue] at hv
    replace hv := peek_bind_eq_ok hv
    split at hv
    · next hc =>
      obtain ⟨c, r, rfl, h₃⟩ := advance_bind_eq_ok hv (by simp [hc])
      obtain ⟨v, r, he, h₄⟩ := bind_eq_ok h₃
      obtain ⟨rfl, rfl⟩ := pure_eq_ok h₄
      obtain ⟨w, rfl, hw, -⟩ := hi.expression _ _ _ hl.of_cons.of_cons he
      exact ⟨key :: c :: w, rfl, .entry hk hc hw, trivial⟩
    · obtain ⟨rfl, rfl⟩ := pure_eq_ok hv
      exact ⟨[key], rfl, .shorthand hk, trivial⟩
  · cases h₁

theorem elements_eq_ok {close : Kind} {comma : Expected} {n : Nat} {ts rest : List Token}
    {elements : List Node} (hk : close ≠ .eof) (hl : Legible ts)
    (h : items close comma inner.expression n ts = .ok (elements, rest)) :
    ∃ w c, ts = w ++ c :: rest ∧ c.kind = close ∧ Derives (.elements elements) w := by
  refine items_eq_ok (fun n => Derives (.expression n)) (fun ns => Derives (.elements ns)) hk
    ?_ .noElement ?_ ?_ n ts elements rest hl h
  · intro ts n rest hl he
    obtain ⟨w, rfl, hw, -⟩ := hi.expression _ _ _ hl he
    exact ⟨w, rfl, hw⟩
  · intro n w hw
    exact .lastElement hw
  · intro n w c ns v hw hc hv
    exact .moreElements hw hc hv

theorem entries_eq_ok {n : Nat} {ts rest : List Token} {entries : List Node} (hl : Legible ts)
    (h : items .closeBrace .commaInProperties (readEntry inner) n ts = .ok (entries, rest)) :
    ∃ w c, ts = w ++ c :: rest ∧ c.kind = .closeBrace ∧ Derives (.entries entries) w := by
  refine items_eq_ok (fun n => Derives (.entry n)) (fun ns => Derives (.entries ns)) (by decide)
    ?_ .noEntry ?_ ?_ n ts entries rest hl h
  · intro ts n rest hl he
    obtain ⟨w, rfl, hw, -⟩ := readEntry_takes hi _ _ _ hl he
    exact ⟨w, rfl, hw⟩
  · intro n w hw
    exact .lastEntry hw
  · intro n w c ns v hw hc hv
    exact .moreEntries hw hc hv

/-- An atom is taken, or a negation as a whole. -/
theorem readPrimary_takes (ts : List Token) (n : Node) (rest : List Token) (hl : Legible ts)
    (h : readPrimary inner ts = .ok (n, rest)) :
    ∃ w, ts = w ++ rest ∧ (Derives (.atom n) w ∨ Derives (.operand n) w ∧ EndsOperand rest) := by
  rw [readPrimary] at h
  replace h := peek_bind_eq_ok h
  cases hk : (next ts).kind with
  | number =>
    rw [hk] at h
    obtain ⟨t, r, rfl, h₁⟩ := advance_bind_eq_ok h (by simp [hk])
    have hd : Token.IsDigits t.text.toList := (hl t List.mem_cons_self).1 hk
    by_cases hlen : t.text.toList.length ≤ Num.digitLimit
    · rw [next_cons, Num.readInt?_digits hd, if_pos hlen] at h₁
      obtain ⟨rfl, rfl⟩ := pure_eq_ok h₁
      exact ⟨[t], rfl, .inl (.number hk hd hlen)⟩
    · rw [next_cons, Num.readInt?_digits hd, if_neg hlen] at h₁
      cases h₁
  | identifier =>
    rw [hk] at h
    obtain ⟨t, r, rfl, h₁⟩ := advance_bind_eq_ok h (by simp [hk])
    obtain ⟨rfl, rfl⟩ := pure_eq_ok h₁
    exact ⟨[t], rfl, .inl (.ident hk)⟩
  | openParen =>
    rw [hk] at h
    obtain ⟨o, r, rfl, h₁⟩ := advance_bind_eq_ok h (by simp [hk])
    obtain ⟨e, r, he, h₂⟩ := bind_eq_ok h₁
    obtain ⟨w, rfl, hw, -⟩ := hi.expression _ _ _ hl.of_cons he
    obtain ⟨c, r, rfl, hc, h₃⟩ := expect_bind_eq_ok h₂ (by decide)
    obtain ⟨rfl, rfl⟩ := pure_eq_ok h₃
    exact ⟨o :: (w ++ [c]), by simp, .inl (.parens hk hw hc)⟩
  | openBrace =>
    rw [hk] at h
    obtain ⟨o, r, rfl, h₁⟩ := advance_bind_eq_ok h (by simp [hk])
    obtain ⟨es, r, he, h₂⟩ := bind_eq_ok h₁
    obtain ⟨rfl, rfl⟩ := pure_eq_ok h₂
    obtain ⟨w, c, rfl, hc, hw⟩ := entries_eq_ok hi hl.of_cons he
    exact ⟨o :: (w ++ [c]), by simp, .inl (.object hk hw hc)⟩
  | openBracket =>
    rw [hk] at h
    obtain ⟨o, r, rfl, h₁⟩ := advance_bind_eq_ok h (by simp [hk])
    obtain ⟨es, r, he, h₂⟩ := bind_eq_ok h₁
    obtain ⟨rfl, rfl⟩ := pure_eq_ok h₂
    obtain ⟨w, c, rfl, hc, hw⟩ := elements_eq_ok hi (by decide) hl.of_cons he
    exact ⟨o :: (w ++ [c]), by simp, .inl (.list hk hw hc)⟩
  | function =>
    rw [hk] at h
    obtain ⟨w, rfl, hw⟩ := readFunction_takes hi _ _ _ hl hk h
    exact ⟨w, rfl, .inl (.functionAtom hw)⟩
  | operator =>
    rw [hk] at h
    replace h : (if (next ts).text = "-" then _ else _ : Reader Node) ts = _ := h
    split at h
    · next ht =>
      obtain ⟨t, r, rfl, h₁⟩ := advance_bind_eq_ok h (by simp [hk])
      obtain ⟨m, r, hm, h₂⟩ := bind_eq_ok h₁
      obtain ⟨rfl, rfl⟩ := pure_eq_ok h₂
      obtain ⟨w, rfl, hw, he⟩ := hi.operand _ _ _ hl.of_cons hm
      exact ⟨t :: w, rfl, .inr ⟨.negation hk ht hw, he⟩⟩
    · cases h
  | _ =>
    rw [hk] at h
    cases h

theorem suffixes_eq_ok : ∀ n ts left tree rest, ts.length ≤ n → Legible ts →
    suffixes inner n left ts = .ok (tree, rest) → ∀ w₀, Derives (.suffixed left) w₀ →
      ∃ u, ts = u ++ rest ∧ Derives (.suffixed tree) (w₀ ++ u) ∧ EndsOperand rest := by
  intro n
  induction n with
  | zero =>
    intro ts left tree rest hn _ h w₀ hw₀
    obtain rfl : ts = [] := List.length_eq_zero_iff.1 (by omega)
    cases h
    exact ⟨[], rfl, by simpa using hw₀, by simp [EndsOperand, next, Token.eof]⟩
  | succ n ih =>
    intro ts left tree rest hn hl h w₀ hw₀
    by_cases hs : EndsOperand ts
    · rw [suffixes_stop _ _ hs] at h
      cases h
      exact ⟨[], rfl, by simpa using hw₀, hs⟩
    · rw [suffixes] at h
      replace h := peek_bind_eq_ok h
      cases hk : (next ts).kind with
      | dot =>
        rw [hk] at h
        obtain ⟨d, r, rfl, h₁⟩ := advance_bind_eq_ok h (by simp [hk])
        obtain ⟨i, r, rfl, hid, h₂⟩ := expect_bind_eq_ok h₁ (by decide)
        simp only [List.length_cons] at hn
        obtain ⟨u, rfl, hu, he⟩ := ih _ _ _ _ (by omega) hl.of_cons.of_cons h₂ _
          (.member hw₀ hk hid)
        exact ⟨d :: i :: u, rfl, by simpa using hu, he⟩
      | openBracket =>
        rw [hk] at h
        obtain ⟨o, r, rfl, h₁⟩ := advance_bind_eq_ok h (by simp [hk])
        obtain ⟨key, r, hkey, h₂⟩ := bind_eq_ok h₁
        obtain ⟨v, rfl, hv, -⟩ := hi.expression _ _ _ hl.of_cons hkey
        obtain ⟨c, r, rfl, hc, h₃⟩ := expect_bind_eq_ok h₂ (by decide)
        simp only [List.length_cons, List.length_append] at hn
        obtain ⟨u, rfl, hu, he⟩ := ih _ _ _ _ (by omega) hl.of_cons.of_append.of_cons h₃ _
          (.index hw₀ hk hv hc)
        exact ⟨o :: (v ++ c :: u), by simp, by simpa using hu, he⟩
      | openParen =>
        rw [hk] at h
        obtain ⟨o, r, rfl, h₁⟩ := advance_bind_eq_ok h (by simp [hk])
        obtain ⟨args, r, hargs, h₂⟩ := bind_eq_ok h₁
        obtain ⟨v, c, rfl, hc, hv⟩ := elements_eq_ok hi (by decide) hl.of_cons hargs
        simp only [List.length_cons, List.length_append] at hn
        obtain ⟨u, rfl, hu, he⟩ := ih _ _ _ _ (by omega) hl.of_cons.of_append.of_cons h₂ _
          (.call hw₀ hk hv hc)
        exact ⟨o :: (v ++ c :: u), by simp, by simpa using hu, he⟩
      | _ => exact absurd (by simp [EndsOperand, hk]) hs

theorem readOperand_takes : Takes (readOperand inner) .operand EndsOperand := by
  intro ts n rest hl h
  rw [readOperand] at h
  obtain ⟨primary, r, hp, h₁⟩ := bind_eq_ok h
  obtain ⟨w, rfl, hw | ⟨hw, he⟩⟩ := readPrimary_takes hi _ _ _ hl hp
  · obtain ⟨u, rfl, hu, he⟩ := suffixes_eq_ok hi _ _ _ _ _ (Nat.le_refl _) hl.of_append h₁ w
      (.suffixed hw)
    exact ⟨w ++ u, by simp, .operand hu, he⟩
  · replace h₁ : suffixes inner r.length primary r = _ := h₁
    rw [suffixes_stop _ _ he] at h₁
    cases h₁
    exact ⟨w, rfl, hw, he⟩

end

/-! ## Chains -/

theorem oneOrTwo_eq_some {kind : Kind} {symbol s : String} {ts v : List Token}
    (h : Connective.oneOrTwo kind symbol ts = some (s, v)) :
    s = symbol ∧ ∃ t, t.kind = kind ∧ (ts = t :: v ∨ ∃ u, u.kind = kind ∧ ts = t :: u :: v) := by
  unfold Connective.oneOrTwo at h
  split at h
  · cases h
  · next t =>
    obtain ⟨hk, e⟩ := Option.ite_none_right_eq_some.1 h
    cases e
    exact ⟨rfl, t, hk, .inl rfl⟩
  · next t u r =>
    obtain ⟨hk, e⟩ := Option.ite_none_right_eq_some.1 h
    split at e
    · next hu =>
      cases e
      exact ⟨rfl, t, hk, .inr ⟨u, hu, rfl⟩⟩
    · cases e
      exact ⟨rfl, t, hk, .inl rfl⟩

theorem equality_eq_some {s : String} {ts v : List Token}
    (h : Connective.equality ts = some (s, v)) :
    ∃ t u, ts = t :: u :: v ∧ u.kind = .equals ∧
      (t.kind = .equals ∧ s = "==" ∨ t.kind = .negate ∧ s = "!=") := by
  unfold Connective.equality at h
  split at h
  · next t u r =>
    obtain ⟨hu, e⟩ := Option.ite_none_right_eq_some.1 h
    split at e
    · next ht =>
      cases e
      exact ⟨t, u, rfl, hu, .inl ⟨ht, rfl⟩⟩
    · obtain ⟨ht, e'⟩ := Option.ite_none_right_eq_some.1 e
      cases e'
      exact ⟨t, u, rfl, hu, .inr ⟨ht, rfl⟩⟩
  · cases h

theorem among_eq_some {symbols : List String} {s : String} {ts v : List Token}
    (h : Connective.among symbols ts = some (s, v)) :
    ∃ t, ts = t :: v ∧ t.kind = .operator ∧ t.text ∈ symbols ∧ s = t.text := by
  unfold Connective.among at h
  split at h
  · next t r =>
    obtain ⟨hk, e⟩ := Option.ite_none_right_eq_some.1 h
    cases e
    simp only [Bool.and_eq_true, decide_eq_true_eq, List.contains_eq_mem] at hk
    exact ⟨t, rfl, hk.1, hk.2, rfl⟩
  · cases h

theorem Level.connective_eq_some {level : Level} {ts v : List Token} {symbol : String}
    (hl : Legible ts) (h : level.connective ts = some (symbol, v)) :
    ∃ op, ts = op ++ v ∧ level.Operator op symbol := by
  cases level with
  | disjunction =>
    obtain ⟨rfl, t, ht, rfl | ⟨u, hu, rfl⟩⟩ := oneOrTwo_eq_some h
    · exact ⟨[t], rfl, .or ht⟩
    · exact ⟨[t, u], rfl, .orOr ht hu⟩
  | conjunction =>
    obtain ⟨rfl, t, ht, rfl | ⟨u, hu, rfl⟩⟩ := oneOrTwo_eq_some h
    · exact ⟨[t], rfl, .and ht⟩
    · exact ⟨[t, u], rfl, .andAnd ht hu⟩
  | equality =>
    obtain ⟨t, u, rfl, hu, ⟨ht, rfl⟩ | ⟨ht, rfl⟩⟩ := equality_eq_some h
    · exact ⟨[t, u], rfl, .equal ht hu⟩
    · exact ⟨[t, u], rfl, .differ ht hu⟩
  | sum =>
    obtain ⟨t, rfl, ht, hm, rfl⟩ := among_eq_some h
    have hs := (hl t List.mem_cons_self).2 ht
    refine ⟨[t], rfl, .sum ht ?_⟩
    simp only [Connective.sums, List.mem_cons, List.not_mem_nil, or_false] at hm hs
    rcases hm with hm | hm | hm | hm <;> simp_all
  | product =>
    obtain ⟨t, rfl, ht, hm, rfl⟩ := among_eq_some h
    have hs := (hl t List.mem_cons_self).2 ht
    refine ⟨[t], rfl, .product ht ?_⟩
    simp only [Connective.products, List.mem_cons, List.not_mem_nil, or_false] at hm hs
    rcases hm with hm | hm | hm | hm | hm | hm | hm <;> simp_all

theorem chainRest_eq_ok {level : Level} {operand : Reader Node} {after : List Token → Prop}
    (ho : Takes operand level.operand after) : ∀ n ts left tree rest, ts.length ≤ n →
      Legible ts → after ts → chainRest level.connective operand n left ts = .ok (tree, rest) →
      ∀ w₀, Derives (.chain level left) w₀ →
        ∃ u, ts = u ++ rest ∧ Derives (.chain level tree) (w₀ ++ u) ∧ after rest ∧
          level.connective rest = none := by
  intro n
  induction n with
  | zero =>
    intro ts left tree rest hn _ ha h w₀ hw₀
    obtain rfl : ts = [] := List.length_eq_zero_iff.1 (by omega)
    cases h
    exact ⟨[], rfl, by simpa using hw₀, ha, by cases level <;> rfl⟩
  | succ n ih =>
    intro ts left tree rest hn hl ha h w₀ hw₀
    cases hc : level.connective ts with
    | none =>
      rw [chainRest_stop _ _ hc] at h
      cases h
      exact ⟨[], rfl, by simpa using hw₀, ha, hc⟩
    | some p =>
      obtain ⟨symbol, v⟩ := p
      obtain ⟨op, rfl, hop⟩ := level.connective_eq_some hl hc
      simp only [chainRest, hc] at h
      obtain ⟨right, r, hr, h₁⟩ := bind_eq_ok h
      obtain ⟨v, rfl, hv, ha'⟩ := ho _ _ _ hl.of_append hr
      obtain ⟨t, ts, rfl, -⟩ := hop.head
      simp only [List.length_append, List.length_cons] at hn
      obtain ⟨u, rfl, hu, hrest⟩ := ih _ _ _ _ (by omega) hl.of_append.of_append ha' h₁ _
        (.binary hw₀ hop hv)
      exact ⟨t :: ts ++ (v ++ u), by simp, by simpa using hu, hrest⟩

theorem chain_takes (level : Level) {operand : Reader Node} {after : List Token → Prop}
    (ho : Takes operand level.operand after) : Takes (chain level.connective operand)
      (.chain level) fun rest => after rest ∧ level.connective rest = none := by
  intro ts tree rest hl h
  rw [chain] at h
  obtain ⟨first, r, hf, h₁⟩ := bind_eq_ok h
  obtain ⟨w, rfl, hw, ha⟩ := ho _ _ _ hl hf
  obtain ⟨u, rfl, hu, hrest⟩ := chainRest_eq_ok ho _ _ _ _ _ (Nat.le_refl _) hl.of_append ha h₁ w
    (.single hw)
  exact ⟨w ++ u, by simp, hu, hrest⟩

/-! ## All readers -/

theorem Takes.weaken {α : Type} {reader : Reader α} {phrase : α → Phrase}
    {after after' : List Token → Prop} (h : Takes reader phrase after)
    (ha : ∀ rest, after rest → after' rest) : Takes reader phrase after' := by
  intro ts a rest hl hr
  obtain ⟨w, e, hw, h'⟩ := h ts a rest hl hr
  exact ⟨w, e, hw, ha rest h'⟩

/-- Behind a sum stands no access, no call and no minus. -/
theorem parted_of_sum {rest : List Token} (ho : EndsOperand rest)
    (hs : Level.sum.connective rest = none) : Parted rest := by
  rintro (h | h | ⟨hk, ht⟩)
  · exact ho.2.2 h
  · exact ho.2.1 h
  · obtain ⟨t, r, rfl, -⟩ := eq_cons_of_kind hk (by decide)
    simp_all [Level.connective, Connective.among, Connective.sums]

section

variable {inner : Inner} (hi : inner.Sound)
include hi

theorem readDisjunction_takes : Takes (readDisjunction inner) (.chain .disjunction) Parted := by
  have product := chain_takes .product (readOperand_takes hi)
  have sum := chain_takes .sum (product.weaken fun _ h => h.1)
  have equality := chain_takes .equality (sum.weaken fun _ h => parted_of_sum h.1 h.2)
  have conjunction := chain_takes .conjunction (equality.weaken fun _ h => h.1)
  have disjunction := chain_takes .disjunction (conjunction.weaken fun _ h => h.1)
  exact disjunction.weaken fun _ h => h.1

theorem readExpression_takes : Takes (readExpression inner) .expression Parted := by
  intro ts n rest hl h
  rw [readExpression] at h
  obtain ⟨left, r, hd, h₁⟩ := bind_eq_ok h
  obtain ⟨w, rfl, hw, hp⟩ := readDisjunction_takes hi _ _ _ hl hd
  replace h₁ := peek_bind_eq_ok h₁
  split at h₁
  · next he =>
    obtain ⟨e, r, rfl, h₂⟩ := advance_bind_eq_ok h₁ (by simp [he])
    obtain ⟨right, r, hr, h₃⟩ := bind_eq_ok h₂
    obtain ⟨rfl, rfl⟩ := pure_eq_ok h₃
    obtain ⟨v, rfl, hv, hp'⟩ := hi.expression _ _ _ hl.of_append.of_cons hr
    exact ⟨w ++ e :: v, by simp, .assign hw he hv, hp'⟩
  · obtain ⟨rfl, rfl⟩ := pure_eq_ok h₁
    exact ⟨w, rfl, .disjunction hw, hp⟩

theorem readStatement_takes (ts : List Token) (n : Node) (rest : List Token) (hl : Legible ts)
    (h : readStatement inner ts = .ok (n, rest)) :
    ∃ w ending, ts = w ++ rest ∧ Derives (.statement ending n) w ∧
      (ending = .expression → Parted rest) := by
  replace h : (if _ then _ else _ : Reader Node) ts = _ := h
  split at h
  · next hk =>
    obtain ⟨w, e, hw, hp⟩ := readDeclaration_takes hi _ _ _ hl hk h
    exact ⟨w, .expression, e, hw, fun _ => hp⟩
  split at h
  · next hn =>
    have hn := (opensNamedFunction_iff ts).1 hn
    obtain ⟨w, rfl, hw⟩ := readFunction_takes hi _ _ _ hl hn.next h
    refine ⟨w, .brace, rfl, .namedFunction ?_ hw, fun e => by cases e⟩
    rwa [← hw.opensNamed_append id rest]
  next hn =>
  split at h
  · next hk =>
    obtain ⟨w, e, hw⟩ := readConditional_takes hi _ _ _ hl hk h
    exact ⟨w, .brace, e, .conditionalStatement hw, fun e => by cases e⟩
  split at h
  · next hr =>
    obtain ⟨r, ts, rfl, h₁⟩ := advance_bind_eq_ok h (by simp [hr.1])
    obtain ⟨value, rest', hv, h₂⟩ := bind_eq_ok h₁
    obtain ⟨rfl, rfl⟩ := pure_eq_ok h₂
    obtain ⟨w, rfl, hw, hp⟩ := hi.expression _ _ _ hl.of_cons hv
    exact ⟨r :: w, .expression, rfl, .giveBack hr.1 hr.2 hw, fun _ => hp⟩
  · next hr =>
    obtain ⟨w, rfl, hw, hp⟩ := readExpression_takes hi _ _ _ hl h
    refine ⟨w, .expression, rfl, .expressionStatement hw ?_ ?_, fun _ => hp⟩
    · rwa [← hw.opensNamed_append id rest, ← opensNamedFunction_iff]
    · rintro ⟨r, v, rfl, hk, ht⟩
      exact hr ⟨hk, ht⟩

end

/-- The readers with any room take phrases: with none they take nothing. -/
theorem inner_sound (k : Nat) : (inner k).Sound := by
  induction k with
  | zero =>
    constructor
    · intro ts n rest _ h
      cases h
    · intro ts n rest _ h
      cases h
    · intro ts n rest _ h
      cases h
    · intro ts n rest _ _ h
      cases h
  | succ k ih =>
    constructor
    · exact readExpression_takes ih
    · exact readOperand_takes ih
    · exact readStatement_takes ih
    · exact readConditional_takes ih

/-! ## Programs -/

theorem Level.Operator.kind_ne_eof {level : Level} {op : List Token} {symbol : String}
    (h : level.Operator op symbol) : ∀ t ∈ op, t.kind ≠ .eof := by
  cases h <;> simp_all

theorem Params.kind_ne_eof {ps : List String} {w : List Token} (h : Params ps w) :
    ∀ t ∈ w, t.kind ≠ .eof := by
  induction h <;> simp_all

theorem Derives.kind_ne_eof {p : Phrase} {w : List Token} (h : Derives p w) :
    ∀ t ∈ w, t.kind ≠ .eof := by
  induction h with
  | noStatement hg => intro t ht; simp [hg t ht]
  | moreStatements hg _ _ _ ihw ihv =>
    intro t ht
    rcases List.mem_append.1 ht with ht | ht
    · simp [hg t ht]
    · exact (List.mem_append.1 ht).elim (ihw t) (ihv t)
  | declaration hk => rcases hk with hk | hk <;> simp_all
  | shorthand hk => rcases hk with hk | hk <;> simp_all
  | entry hk => rcases hk with hk | hk <;> simp_all
  | function _ hn _ hp _ _ ih =>
    have := hp.kind_ne_eof
    cases hn <;> grind
  | binary _ hop _ ihw ihv =>
    have := hop.kind_ne_eof
    grind
  | _ => grind

theorem legible_concat_eof {w : List Token} (hw : ∀ t ∈ w, t.WellFormed) :
    Legible (w ++ [.eof]) := by
  intro t ht
  rcases List.mem_append.1 ht with ht | ht
  · exact ⟨(hw t ht).isDigits, (hw t ht).operator⟩
  · rw [List.mem_singleton.1 ht]
    simp [Token.eof]

/-- Where a part without end tokens stops in front of the end, it is all that stands there. -/
theorem eq_of_concat_eof {w v rest : List Token} (h : w ++ [.eof] = v ++ rest)
    (hw : ∀ t ∈ w, t.kind ≠ .eof) (hv : ∀ t ∈ v, t.kind ≠ .eof) (hr : (next rest).kind = .eof) :
    v = w := by
  cases rest with
  | nil =>
    have hm : Token.eof ∈ v := by
      rw [List.append_nil] at h
      simp [← h]
    exact absurd rfl (hv _ hm)
  | cons t rest =>
    obtain ⟨us, rfl, hus⟩ | ⟨us, rfl, hus⟩ := List.append_eq_append_iff.1 h
    · cases us with
      | nil => simp
      | cons u us => simp at hus
    · cases us with
      | nil => simp
      | cons u us =>
        obtain ⟨rfl, -⟩ := List.cons.inj hus
        exact absurd hr (hw t (by simp))

/-- Reading tokens up to their end gives the statements of a program and how many were read. -/
theorem ofTokens_concat_eof (w : List Token) :
    (ofTokens (w ++ [.eof])).map Reading.body =
      (statements (inner (w.length + 1)) .eof (w.length + 1) (w ++ [.eof])).map Prod.fst := by
  unfold ofTokens
  rw [if_pos (by simp [Token.eof])]
  unfold bounded
  rw [List.length_append, List.length_singleton]
  cases statements (inner (w.length + 1)) .eof (w.length + 1) (w ++ [.eof]) <;> rfl

/-- Tokens before the end are read as a program exactly if they derive its statements. -/
theorem body_ofTokens_iff {w : List Token} (hw : ∀ t ∈ w, t.WellFormed) (body : List Node) :
    (ofTokens (w ++ [.eof])).map Reading.body = .ok body ↔ Derives (.statements body) w := by
  rw [ofTokens_concat_eof]
  constructor
  · intro h
    cases hr : statements (inner (w.length + 1)) .eof (w.length + 1) (w ++ [.eof]) with
    | error e => rw [hr] at h; cases h
    | ok p =>
      obtain ⟨read, rest⟩ := p
      rw [hr] at h
      cases h
      obtain ⟨v, hv, hd, hend⟩ :=
        statements_eq_ok (inner_sound _) _ _ _ _ (legible_concat_eof hw) hr
      rwa [← eq_of_concat_eof hv (fun t ht => (hw t ht).kind_ne_eof) hd.kind_ne_eof hend]
  · intro h
    rw [h.readBy w.length [.eof] (by simp) trivial .eof _ (.inr rfl) ⟨.eof, [], rfl, rfl⟩ (by simp)]
    rfl

/-- Reading the tokens of a text gives a tree exactly if they derive it as a program. -/
theorem ofTokens_eq_ok_iff {s : String} {tokens : List Token} (hs : Token.scan s = .ok tokens)
    (tree : Node) :
    (ofTokens tokens).map (fun reading => Node.program reading.body) = .ok tree ↔
      DerivesProgram tokens.dropLast tree := by
  obtain ⟨w, rfl, hw⟩ := (Token.scan_eq_ok_iff s tokens).1 hs
  rw [List.dropLast_concat]
  have hbody := body_ofTokens_iff hw.wellFormed
  constructor
  · intro h
    cases hr : ofTokens (w ++ [.eof]) with
    | error e => rw [hr] at h; cases h
    | ok reading =>
      rw [hr] at h hbody
      cases h
      exact ⟨reading.body, rfl, (hbody _).1 rfl⟩
  · rintro ⟨body, rfl, hd⟩
    have h := (hbody body).2 hd
    cases hr : ofTokens (w ++ [.eof]) with
    | error e => rw [hr] at h; cases h
    | ok reading =>
      rw [hr] at h
      cases h
      rfl

/-- A negated call with a comma after its argument, assigned to a name. -/
theorem ofTokens_negated_call :
    ∃ tokens, Token.scan "x = -a.b(1,);" = .ok tokens ∧
      (ofTokens tokens).map (fun reading => Node.program reading.body) =
        .ok (.program [.assign (.ident "x") (.binary (.number 0)
          (.call (.member (.ident "a") (.propertyName "b") false) [.number 1]) "-")]) := by
  have hs : Token.scan "x = -a.b(1,);" = .ok [⟨.identifier, "x"⟩, ⟨.equals, "="⟩, ⟨.operator, "-"⟩,
      ⟨.identifier, "a"⟩, ⟨.dot, "."⟩, ⟨.identifier, "b"⟩, ⟨.openParen, "("⟩, ⟨.number, "1"⟩,
      ⟨.comma, ","⟩, ⟨.closeParen, ")"⟩, ⟨.semicolon, ";"⟩, .eof] := by
    rfl
  have digits : Token.IsDigits ['1'] := ⟨by simp, List.forall_mem_singleton.2 rfl⟩
  have one : Derives (.atom (.number 1)) [⟨.number, "1"⟩] :=
    Derives.number (t := ⟨.number, "1"⟩) rfl digits (by decide)
  have args : Derives (.elements [.number 1]) [⟨.number, "1"⟩, ⟨.comma, ","⟩] :=
    .moreElements (.disjunction ((Derives.operand (.suffixed one)).chain_of_operand _)) rfl
      .noElement
  have owner := Derives.suffixed (Derives.ident (t := ⟨.identifier, "a"⟩) rfl)
  have method := Derives.member (d := ⟨.dot, "."⟩) (i := ⟨.identifier, "b"⟩) owner rfl rfl
  have negated := Derives.negation (t := ⟨.operator, "-"⟩) rfl rfl (.operand (.call
    (o := ⟨.openParen, "("⟩) (c := ⟨.closeParen, ")"⟩) method rfl args rfl))
  have target := Derives.operand (.suffixed (.ident (t := ⟨.identifier, "x"⟩) rfl))
  have assigned := Derives.assign (e := ⟨.equals, "="⟩) (target.chain_of_operand _) rfl
    (.disjunction (negated.chain_of_operand _))
  have statement := Derives.expressionStatement assigned (by rintro ⟨_, _, _, ⟨⟩, ⟨⟩, -⟩) (by
    rintro ⟨_, _, ⟨⟩, -, hx⟩
    exact absurd hx (by decide))
  have last : Derives (.statements []) [⟨.semicolon, ";"⟩] :=
    .noStatement (List.forall_mem_singleton.2 rfl)
  have noGap : Semicolons [] := nofun
  have body := Derives.moreStatements noGap statement last (by
    rintro - _ ⟨⟩ (⟨⟨⟩⟩ | ⟨⟨⟩⟩ | ⟨⟨⟩, -⟩))
  exact ⟨_, hs, (ofTokens_eq_ok_iff hs _).2 ⟨_, rfl, body⟩⟩

end Guion.Node
