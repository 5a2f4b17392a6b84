import Guion.Proofs.Grammar.Sound

/-!
# Reading any tokens

The readers are used on the tokens of texts, but they are safe on any list that ends with an end
token: kinds and texts need not fit, and there may be ends in the middle.  Every round of a loop and
every step into a reader inside takes a token or fails, no token behind the first end is looked at,
and what is at fault is always a token of the list.

The form of this is a congruence.  Two runs are compared, on the same tokens up to the first end and
on anything behind it, with any room for the readers inside and any bound on the rounds that cover
these tokens.  They give the same tree or the same fault, and leave the same tokens in front of the
end (`Twins.Agree`).

    ofTokens tokens = ofTokens (tokens up to the first end)
    ofTokens tokens = .ok reading → reading.position is the index of the first end
                                                                            (ofTokens_safe)
-/

namespace Guion.Node

open Token (Kind)
open Reader

/-! ## Faults -/

/-- The faults that reading can find in tokens: it names one of them, and where it names the text of
a number, that is no integer literal. -/
inductive Refuses (ts : List Token) : Fault → Prop
  | expected (what : Expected) {t : Token} : t ∈ ts → Refuses ts (.expected what t)
  | unexpected {t : Token} : t ∈ ts → Refuses ts (.unexpected t)
  | unclosedBlock : Refuses ts .unclosedBlock
  | objectKey {t : Token} : t ∈ ts → Refuses ts (.objectKey t)
  | numberText {t : Token} : t ∈ ts → t.kind = .number → Num.readInt? t.text = none →
      Refuses ts (.numberText t.text)

/-! ## Two runs -/

/-- Two lists of tokens that are the same up to their first end. -/
structure Twins where
  tokens : List Token
  kind_ne_eof : ∀ t ∈ tokens, t.kind ≠ .eof
  last : Token
  kind_last : last.kind = .eof
  left : List Token
  right : List Token

namespace Twins

variable (T : Twins) {α β : Type} {w v : List Token}

/-- The tokens up to the first end. -/
def kept : List Token := T.tokens ++ [T.last]

/-- From the tokens `w` in front of the end the two readers do the same: they take some of them off
and give the same result, or they find the same fault. -/
def Agree (w : List Token) (m m' : Reader α) (Q : α → List Token → Prop) : Prop :=
  w <:+ T.tokens →
    (∃ a v, v <:+ w ∧ Q a v ∧ m (w ++ T.last :: T.left) = .ok (a, v ++ T.last :: T.left) ∧
      m' (w ++ T.last :: T.right) = .ok (a, v ++ T.last :: T.right)) ∨
    ∃ fault, Refuses T.kept fault ∧ m (w ++ T.last :: T.left) = .error fault ∧
      m' (w ++ T.last :: T.right) = .error fault

/-- The next token. -/
def next (w : List Token) : Token := Reader.next (w ++ [T.last])

theorem next_append (w rest : List Token) : Reader.next (w ++ T.last :: rest) = T.next w := by
  cases w <;> rfl

theorem mem_kept {t : Token} (h : t :: v <:+ T.tokens) : t ∈ T.kept :=
  List.mem_append_left _ (h.subset List.mem_cons_self)

theorem next_mem_kept (h : w <:+ T.tokens) : T.next w ∈ T.kept := by
  cases w with
  | nil => exact List.mem_append_right _ (List.mem_singleton_self _)
  | cons t w => exact T.mem_kept h

/-- A next token of a kind that is not the end's is there to be taken. -/
theorem exists_cons {kind : Kind} (h : (T.next w).kind = kind) (hk : kind ≠ .eof) :
    ∃ t v, w = t :: v ∧ t.kind = kind := by
  cases w with
  | nil => exact absurd (h.symm.trans T.kind_last) hk
  | cons t v => exact ⟨t, v, rfl, h⟩

/-! ## Steps -/

section

variable {m m' : Reader α} {f f' : α → Reader β} {Q : α → List Token → Prop}
  {R : β → List Token → Prop}

theorem agree_pure {a : α} (h : Q a w) : T.Agree w (pure a) (pure a) Q :=
  fun _ => .inl ⟨a, w, List.suffix_refl w, h, rfl, rfl⟩

theorem agree_throw {fault : Fault} (h : Refuses T.kept fault) :
    T.Agree w (throw fault) (throw fault) Q :=
  fun _ => .inr ⟨fault, h, rfl, rfl⟩

theorem agree_bind (hm : T.Agree w m m' Q)
    (hf : ∀ a v, v <:+ w → Q a v → T.Agree v (f a) (f' a) R) :
    T.Agree w (m >>= f) (m' >>= f') R := by
  intro hw
  obtain ⟨a, v, hv, hq, e, e'⟩ | ⟨fault, hfault, e, e'⟩ := hm hw
  · rw [bind_ok e, bind_ok e']
    obtain ⟨b, u, hu, hr, e, e'⟩ | hfault := hf a v hv hq (hv.trans hw)
    · exact .inl ⟨b, u, hu.trans hv, hr, e, e'⟩
    · exact .inr hfault
  · refine .inr ⟨fault, hfault, ?_, ?_⟩
    · show StateT.bind m f _ = _
      rw [StateT.bind, e]
      rfl
    · show StateT.bind m' f' _ = _
      rw [StateT.bind, e']
      rfl

theorem Agree.imp {T : Twins} {Q' : α → List Token → Prop} (h : T.Agree w m m' Q)
    (hq : ∀ a v, v <:+ w → Q a v → Q' a v) : T.Agree w m m' Q' := by
  intro hw
  obtain ⟨a, v, hv, h, e, e'⟩ | hfault := h hw
  · exact .inl ⟨a, v, hv, hq a v hv h, e, e'⟩
  · exact .inr hfault

/-- A look at the next token. -/
theorem agree_peek_bind {f f' : Token → Reader β} (h : T.Agree w (f (T.next w)) (f' (T.next w)) R) :
    T.Agree w (peek >>= f) (peek >>= f') R := by
  intro hw
  rw [bind_ok (peek_apply _), bind_ok (peek_apply _), T.next_append, T.next_append]
  exact h hw

/-- A look at all tokens. -/
theorem agree_get_bind {f f' : List Token → Reader β}
    (h : T.Agree w (f (w ++ T.last :: T.left)) (f' (w ++ T.last :: T.right)) R) :
    T.Agree w (get >>= f) (get >>= f') R := h

/-- A token is taken. -/
theorem agree_advance_bind {t : Token} {f f' : Token → Reader β}
    (h : t ∈ T.kept → T.Agree v (f t) (f' t) R) :
    T.Agree (t :: v) (advance >>= f) (advance >>= f') R := by
  intro hw
  have hk : t.kind ≠ .eof := T.kind_ne_eof t (hw.subset List.mem_cons_self)
  have htaken : T.Agree (t :: v) advance advance fun a u => a = t ∧ u = v := fun _ =>
    .inl ⟨t, v, List.suffix_cons t v, ⟨rfl, rfl⟩, advance_cons hk, advance_cons hk⟩
  refine T.agree_bind htaken ?_ hw
  rintro a u - ⟨rfl, rfl⟩
  exact h (T.mem_kept hw)

/-- The end is not taken. -/
theorem agree_advance_nil_bind {f f' : Token → Reader β}
    (h : T.last ∈ T.kept → T.Agree [] (f T.last) (f' T.last) R) :
    T.Agree [] (advance >>= f) (advance >>= f') R := by
  intro hw
  have hlast : ∀ rest, advance ([] ++ T.last :: rest) = .ok (T.last, [] ++ T.last :: rest) := by
    intro rest
    simp [advance, T.kind_last]
  rw [bind_ok (hlast _), bind_ok (hlast _)]
  exact h (T.next_mem_kept hw) hw

theorem agree_expect {kind : Kind} (what : Expected) (hk : kind ≠ .eof) :
    T.Agree w (expect kind what) (expect kind what)
      fun s v => ∃ t, w = t :: v ∧ t.kind = kind ∧ s = t.text := by
  unfold expect
  cases w with
  | nil =>
    refine T.agree_advance_nil_bind fun hmem => ?_
    rw [if_neg (by simpa [T.kind_last] using hk.symm)]
    exact T.agree_throw (.expected what hmem)
  | cons t v =>
    refine T.agree_advance_bind fun hmem => ?_
    split
    · next ht => exact T.agree_pure ⟨t, rfl, ht, rfl⟩
    · exact T.agree_throw (.expected what hmem)

/-- A token of a kind is taken, or it is missed. -/
theorem agree_expect_bind {kind : Kind} {what : Expected} (hk : kind ≠ .eof)
    {f f' : String → Reader β}
    (h : ∀ t v, w = t :: v → t.kind = kind → T.Agree v (f t.text) (f' t.text) R) :
    T.Agree w (expect kind what >>= f) (expect kind what >>= f') R := by
  refine T.agree_bind (T.agree_expect what hk) ?_
  rintro _ v - ⟨t, hw, ht, rfl⟩
  exact h t v hw ht

theorem agree_skipSemicolons : T.Agree w skipSemicolons skipSemicolons fun _ _ => True := by
  intro hw
  have hskip : ∀ rest, skipSemicolons (w ++ T.last :: rest) =
      .ok ((), w.dropWhile (fun t => t.kind == .semicolon) ++ T.last :: rest) := by
    intro rest
    have hlast : (T.last.kind == Kind.semicolon) = false := by simp [T.kind_last]
    simp only [skipSemicolons, List.dropWhile_append, List.dropWhile_cons, hlast]
    split
    · next h => rw [List.isEmpty_iff.1 h]; rfl
    · rfl
  exact .inl ⟨(), _, List.dropWhile_suffix _, trivial, hskip _, hskip _⟩

/-- A loop whose rounds are bounded by the number of tokens. -/
theorem agree_bounded {loop loop' : Nat → Reader α}
    (h : ∀ n n', w.length < n → w.length < n' → T.Agree w (loop n) (loop' n') Q) :
    T.Agree w (bounded loop) (bounded loop') Q :=
  h _ _ (by simp) (by simp)

end

/-! ## Loops -/

theorem agree_separator {close : Kind} {comma : Expected} :
    T.Agree w (separator close comma) (separator close comma) fun _ _ => True := by
  unfold separator
  refine T.agree_peek_bind ?_
  split
  · exact T.agree_pure trivial
  · exact T.agree_expect_bind (by decide) fun _ _ _ _ => T.agree_pure trivial

theorem agree_optionalName : T.Agree w optionalName optionalName fun _ _ => True := by
  unfold optionalName
  refine T.agree_peek_bind ?_
  split
  · next hk =>
    obtain ⟨t, v, rfl, -⟩ := T.exists_cons hk (by decide)
    exact T.agree_advance_bind fun _ => T.agree_pure trivial
  · exact T.agree_pure trivial

/-- Fewer tokens are left. -/
def Shorter (w : List Token) {α : Type} (_ : α) (v : List Token) : Prop := v.length < w.length

/-- Behind a token that was taken, fewer are left in any case. -/
theorem Agree.behind {T : Twins} {t : Token} {m m' : Reader α}
    (h : T.Agree v m m' fun _ _ => True) : T.Agree v m m' (Shorter (t :: v)) :=
  h.imp fun _ _ hu _ => Nat.lt_succ_of_le hu.length_le

/-- On fewer than `k` tokens the two readers do the same, and they take a token at least. -/
def Take (k : Nat) (m m' : Reader α) : Prop :=
  ∀ w : List Token, w.length < k → T.Agree w m m' (Shorter w)

section

variable {k : Nat}

theorem take_expect {kind : Kind} (what : Expected) (hk : kind ≠ .eof) :
    T.Take k (expect kind what) (expect kind what) := by
  intro w _
  refine (T.agree_expect what hk).imp ?_
  rintro _ v - ⟨t, rfl, -, -⟩
  exact Nat.lt_succ_self _

theorem agree_items {close : Kind} {comma : Expected} {item item' : Reader α} (hk : close ≠ .eof)
    (hitem : T.Take k item item') : ∀ n n' w, w.length < n → w.length < n' → w.length < k →
      T.Agree w (items close comma item n) (items close comma item' n') (Shorter w) := by
  intro n
  induction n with
  | zero =>
    intro n' w hn
    omega
  | succ n ih =>
    intro n' w hn hn' hw
    obtain ⟨n', rfl⟩ : ∃ m, n' = m + 1 := ⟨n' - 1, by omega⟩
    rw [items, items]
    refine T.agree_peek_bind ?_
    split
    · next hclose =>
      obtain ⟨c, v, rfl, -⟩ := T.exists_cons hclose hk
      exact T.agree_advance_bind fun _ => T.agree_pure (Nat.lt_succ_self _)
    · refine T.agree_bind (hitem w hw) fun x v _ hshorter => ?_
      refine T.agree_bind T.agree_separator fun _ u hu _ => ?_
      have hlength : u.length < w.length := Nat.lt_of_le_of_lt hu.length_le hshorter
      refine T.agree_bind (ih n' u (by omega) (by omega) (by omega)) fun xs z _ hz => ?_
      exact T.agree_pure (Nat.lt_trans hz hlength)

theorem agree_statements {inner inner' : Inner} {stop : Kind}
    (hstatement : T.Take k inner.statement inner'.statement) :
    ∀ n n' w, w.length < n → w.length < n' → w.length < k →
      T.Agree w (statements inner stop n) (statements inner' stop n')
        fun _ v => (T.next v).kind = stop := by
  intro n
  induction n with
  | zero =>
    intro n' w hn
    omega
  | succ n ih =>
    intro n' w hn hn' hw
    obtain ⟨n', rfl⟩ : ∃ m, n' = m + 1 := ⟨n' - 1, by omega⟩
    rw [statements, statements]
    refine T.agree_bind T.agree_skipSemicolons fun _ v hv _ => T.agree_peek_bind ?_
    have hle : v.length ≤ w.length := hv.length_le
    split
    · next hstop => exact T.agree_pure hstop
    · split
      · exact T.agree_throw .unclosedBlock
      · refine T.agree_bind (hstatement v (by omega)) fun first u _ hshorter => ?_
        have hlength : u.length < v.length := hshorter
        refine T.agree_bind (ih n' u (by omega) (by omega) (by omega)) fun rest z _ hz => ?_
        exact T.agree_pure hz

/-! ## Operators -/

/-- An operator is recognised by the tokens in front of the end alone. -/
structure Local (operator : Connective) : Prop where
  eq_map : ∀ w rest, operator (w ++ T.last :: rest) =
    (operator w).map fun p => (p.1, p.2 ++ T.last :: rest)
  takes : ∀ w symbol v, operator w = some (symbol, v) → v <:+ w ∧ v.length < w.length

theorem two_taken (t u : Token) (v : List Token) :
    v <:+ t :: u :: v ∧ v.length < (t :: u :: v).length := by
  have hsuffix : v <:+ t :: u :: v := (List.suffix_cons u v).trans (List.suffix_cons t _)
  refine ⟨hsuffix, ?_⟩
  simp only [List.length_cons]
  omega

theorem local_oneOrTwo {kind : Kind} (symbol : String) (hk : kind ≠ .eof) :
    T.Local (Connective.oneOrTwo kind symbol) where
  eq_map w rest := by
    have hlast : T.last.kind ≠ kind := by
      rw [T.kind_last]
      exact hk.symm
    match w with
    | [] => cases rest <;> simp [Connective.oneOrTwo, hlast]
    | [t] => by_cases ht : t.kind = kind <;> simp [Connective.oneOrTwo, hlast, ht]
    | t :: u :: v =>
      by_cases ht : t.kind = kind <;> by_cases hu : u.kind = kind <;>
        simp [Connective.oneOrTwo, ht, hu]
  takes w s v h := by
    obtain ⟨-, t, -, rfl | ⟨u, -, rfl⟩⟩ := oneOrTwo_eq_some h
    · exact ⟨List.suffix_cons t v, by simp⟩
    · exact two_taken t u v

theorem local_equality : T.Local Connective.equality where
  eq_map w rest := by
    match w with
    | [] => cases rest <;> simp [Connective.equality, T.kind_last]
    | [t] => simp [Connective.equality, T.kind_last]
    | t :: u :: v =>
      by_cases hu : u.kind = .equals <;> by_cases ht : t.kind = .equals <;>
        by_cases hn : t.kind = .negate <;> simp [Connective.equality, ht, hu, hn]
  takes w s v h := by
    obtain ⟨t, u, rfl, -⟩ := equality_eq_some h
    exact two_taken t u v

theorem local_among (symbols : List String) : T.Local (Connective.among symbols) where
  eq_map w rest := by
    cases w with
    | nil => simp [Connective.among, T.kind_last]
    | cons t v =>
      by_cases h : t.kind = .operator && symbols.contains t.text
      · simp only [List.cons_append, Connective.among, if_pos h, Option.map_some]
      · simp only [List.cons_append, Connective.among, if_neg h, Option.map_none]
  takes w s v h := by
    obtain ⟨t, rfl, -⟩ := among_eq_some h
    exact ⟨List.suffix_cons t v, by simp⟩

theorem agree_chainRest {operator : Connective} (hop : T.Local operator)
    {operand operand' : Reader Node} (ho : T.Take k operand operand') :
    ∀ n n' w left, w.length < n → w.length < n' → w.length < k →
      T.Agree w (chainRest operator operand n left) (chainRest operator operand' n' left)
        fun _ _ => True := by
  intro n
  induction n with
  | zero =>
    intro n' w left hn
    omega
  | succ n ih =>
    intro n' w left hn hn' hw
    obtain ⟨n', rfl⟩ : ∃ m, n' = m + 1 := ⟨n' - 1, by omega⟩
    intro hsuffix
    cases hfound : operator w with
    | none =>
      have hnone : ∀ rest, operator (w ++ T.last :: rest) = none := by
        intro rest
        rw [hop.eq_map, hfound]
        rfl
      exact .inl ⟨left, w, List.suffix_refl w, trivial, chainRest_stop _ _ (hnone _),
        chainRest_stop _ _ (hnone _)⟩
    | some p =>
      obtain ⟨symbol, v⟩ := p
      obtain ⟨hv, hlength⟩ := hop.takes w symbol v hfound
      have hsome : ∀ rest, operator (w ++ T.last :: rest) = some (symbol, v ++ T.last :: rest) := by
        intro rest
        rw [hop.eq_map, hfound]
        rfl
      have hround : T.Agree v
          (operand >>= fun right => chainRest operator operand n (.binary left right symbol))
          (operand' >>= fun right => chainRest operator operand' n' (.binary left right symbol))
          fun _ _ => True := by
        refine T.agree_bind (ho v (by omega)) fun right u _ hshorter => ?_
        have : u.length < v.length := hshorter
        exact ih n' u _ (by omega) (by omega) (by omega)
      obtain ⟨a, u, hu, -, e, e'⟩ | ⟨fault, hfault, e, e'⟩ := hround (hv.trans hsuffix)
      · refine .inl ⟨a, u, hu.trans hv, trivial, ?_, ?_⟩
        · simpa only [chainRest, hsome] using e
        · simpa only [chainRest, hsome] using e'
      · refine .inr ⟨fault, hfault, ?_, ?_⟩
        · simpa only [chainRest, hsome] using e
        · simpa only [chainRest, hsome] using e'

theorem take_chain {operator : Connective} (hop : T.Local operator)
    {operand operand' : Reader Node} (ho : T.Take k operand operand') :
    T.Take k (chain operator operand) (chain operator operand') := by
  intro w hw
  unfold chain
  refine T.agree_bind (ho w hw) fun first v _ hshorter => ?_
  have hlength : v.length < w.length := hshorter
  refine Agree.imp (T.agree_bounded fun n n' hn hn' =>
    T.agree_chainRest hop ho n n' v first hn hn' (by omega)) fun _ u hu _ => ?_
  exact Nat.lt_of_le_of_lt hu.length_le hlength

end

/-! ## Readers -/

/-- The readers inside agree on fewer than `k` tokens. -/
structure Inside (k : Nat) (inner inner' : Inner) : Prop where
  expression : T.Take k inner.expression inner'.expression
  operand : T.Take k inner.operand inner'.operand
  statement : T.Take k inner.statement inner'.statement
  conditional : ∀ w : List Token, w.length < k → (T.next w).kind = .when →
    T.Agree w inner.conditional inner'.conditional (Shorter w)

section

variable {T : Twins} {k : Nat} {inner inner' : Inner} (hi : T.Inside k inner inner')
include hi

theorem take_block : T.Take (k + 1) (block inner) (block inner') := by
  intro w hw
  unfold block
  refine T.agree_expect_bind (by decide) fun o v hov _ => ?_
  subst hov
  have hv : v.length < k := by simpa using hw
  refine Agree.behind ?_
  refine T.agree_bind (T.agree_bounded fun n n' hn hn' =>
    T.agree_statements hi.statement n n' v hn hn' hv) fun body u _ hstop => ?_
  obtain ⟨c, z, rfl, -⟩ := T.exists_cons hstop (by decide)
  exact T.agree_advance_bind fun _ => T.agree_pure trivial

variable {t : Token} {v : List Token} (hv : v.length < k)
include hv

theorem agree_readDeclaration :
    T.Agree (t :: v) (readDeclaration inner) (readDeclaration inner') (Shorter (t :: v)) := by
  unfold readDeclaration
  refine T.agree_advance_bind fun _ => Agree.behind ?_
  refine T.agree_expect_bind (by decide) fun i u hu _ => ?_
  refine T.agree_expect_bind (by decide) fun e z hz _ => ?_
  subst hu hz
  simp only [List.length_cons] at hv
  exact T.agree_bind (hi.expression z (by omega)) fun _ _ _ _ => T.agree_pure trivial

theorem agree_readFunction :
    T.Agree (t :: v) (readFunction inner) (readFunction inner') (Shorter (t :: v)) := by
  unfold readFunction
  refine T.agree_advance_bind fun _ => Agree.behind ?_
  refine T.agree_bind T.agree_optionalName fun name u hu _ => ?_
  refine T.agree_expect_bind (by decide) fun o z hz _ => ?_
  subst hz
  have hle := hu.length_le
  simp only [List.length_cons] at hle
  have hparams : T.Take k (expect .identifier .parameter) (expect .identifier .parameter) :=
    T.take_expect .parameter (by decide)
  refine T.agree_bind (T.agree_bounded fun n n' hn hn' =>
    T.agree_items (by decide) hparams n n' z hn hn' (by omega)) fun params y hy _ => ?_
  have hle' := hy.length_le
  exact T.agree_bind (take_block hi y (by omega)) fun _ _ _ _ => T.agree_pure trivial

theorem agree_readAlternative :
    T.Agree v (readAlternative inner) (readAlternative inner') fun _ _ => True := by
  unfold readAlternative
  refine T.agree_peek_bind ?_
  split
  · next hotherwise =>
    obtain ⟨t, u, rfl, -⟩ := T.exists_cons hotherwise (by decide)
    simp only [List.length_cons] at hv
    refine T.agree_advance_bind fun _ => T.agree_peek_bind ?_
    split
    · next hwhen =>
      exact T.agree_bind (hi.conditional u (by omega) hwhen) fun _ _ _ _ => T.agree_pure trivial
    · exact T.agree_bind (take_block hi u (by omega)) fun _ _ _ _ => T.agree_pure trivial
  · exact T.agree_pure trivial

theorem agree_readConditional :
    T.Agree (t :: v) (readConditional inner) (readConditional inner') (Shorter (t :: v)) := by
  unfold readConditional
  refine T.agree_advance_bind fun _ => Agree.behind ?_
  refine T.agree_bind (hi.expression v hv) fun condition u hu _ => ?_
  have hle := hu.length_le
  refine T.agree_bind (take_block hi u (by omega)) fun body z hz _ => ?_
  have hle' := hz.length_le
  refine T.agree_bind (agree_readAlternative hi (by omega)) fun alternative y _ _ => ?_
  exact T.agree_pure trivial

theorem agree_entryValue : T.Agree v (entryValue inner) (entryValue inner') fun _ _ => True := by
  unfold entryValue
  refine T.agree_peek_bind ?_
  split
  · next hcolon =>
    obtain ⟨t, u, rfl, -⟩ := T.exists_cons hcolon (by decide)
    simp only [List.length_cons] at hv
    refine T.agree_advance_bind fun _ => ?_
    exact T.agree_bind (hi.expression u (by omega)) fun _ _ _ _ => T.agree_pure trivial
  · exact T.agree_pure trivial

omit hv

theorem take_readEntry : T.Take k (readEntry inner) (readEntry inner') := by
  intro w hw
  unfold readEntry
  cases w with
  | nil =>
    refine T.agree_advance_nil_bind fun hmem => ?_
    have hkey : ¬(T.last.kind = .identifier ∨ T.last.kind = .number) := by simp [T.kind_last]
    rw [if_neg hkey, if_neg hkey]
    exact T.agree_throw (.objectKey hmem)
  | cons t v =>
    simp only [List.length_cons] at hw
    refine T.agree_advance_bind fun hmem => ?_
    split
    · refine Agree.behind ?_
      exact T.agree_bind (agree_entryValue hi (by omega)) fun _ _ _ _ => T.agree_pure trivial
    · exact T.agree_throw (.objectKey hmem)

theorem take_readPrimary : T.Take (k + 1) (readPrimary inner) (readPrimary inner') := by
  intro w hw hsuffix
  unfold readPrimary
  refine T.agree_peek_bind ?_ hsuffix
  have hmem := T.next_mem_kept hsuffix
  cases hk : (T.next w).kind with
  | number =>
    obtain ⟨t, v, rfl, -⟩ := T.exists_cons hk (by decide)
    refine T.agree_advance_bind fun _ => Agree.behind ?_
    split
    · exact T.agree_pure trivial
    · next hnone => exact T.agree_throw (.numberText hmem hk hnone)
  | identifier =>
    obtain ⟨t, v, rfl, -⟩ := T.exists_cons hk (by decide)
    exact T.agree_advance_bind fun _ => Agree.behind (T.agree_pure trivial)
  | openParen =>
    obtain ⟨t, v, rfl, -⟩ := T.exists_cons hk (by decide)
    refine T.agree_advance_bind fun _ => Agree.behind ?_
    refine T.agree_bind (hi.expression v (by simpa using hw)) fun _ u _ _ => ?_
    exact T.agree_expect_bind (by decide) fun _ _ _ _ => T.agree_pure trivial
  | openBrace =>
    obtain ⟨t, v, rfl, -⟩ := T.exists_cons hk (by decide)
    refine T.agree_advance_bind fun _ => Agree.behind ?_
    refine T.agree_bind (T.agree_bounded fun n n' hn hn' => T.agree_items (by decide)
      (take_readEntry hi) n n' v hn hn' (by simpa using hw)) fun _ _ _ _ => T.agree_pure trivial
  | openBracket =>
    obtain ⟨t, v, rfl, -⟩ := T.exists_cons hk (by decide)
    refine T.agree_advance_bind fun _ => Agree.behind ?_
    refine T.agree_bind (T.agree_bounded fun n n' hn hn' => T.agree_items (by decide)
      hi.expression n n' v hn hn' (by simpa using hw)) fun _ _ _ _ => T.agree_pure trivial
  | function =>
    obtain ⟨t, v, rfl, -⟩ := T.exists_cons hk (by decide)
    exact agree_readFunction hi (by simpa using hw)
  | operator =>
    obtain ⟨t, v, rfl, -⟩ := T.exists_cons hk (by decide)
    dsimp only
    split
    · refine T.agree_advance_bind fun _ => Agree.behind ?_
      refine T.agree_bind (hi.operand v (by simpa using hw)) fun _ _ _ _ => T.agree_pure trivial
    · exact T.agree_throw (.unexpected hmem)
  | _ => exact T.agree_throw (.unexpected hmem)

theorem agree_suffixes : ∀ n n' w left, w.length < n → w.length < n' → w.length < k + 1 →
    T.Agree w (suffixes inner n left) (suffixes inner' n' left) fun _ _ => True := by
  intro n
  induction n with
  | zero =>
    intro n' w left hn
    omega
  | succ n ih =>
    intro n' w left hn hn' hw
    obtain ⟨n', rfl⟩ : ∃ m, n' = m + 1 := ⟨n' - 1, by omega⟩
    rw [suffixes, suffixes]
    refine T.agree_peek_bind ?_
    cases hk : (T.next w).kind with
    | dot =>
      obtain ⟨t, v, rfl, -⟩ := T.exists_cons hk (by decide)
      refine T.agree_advance_bind fun _ => T.agree_expect_bind (by decide) fun key u hu _ => ?_
      subst hu
      simp only [List.length_cons] at hn hn' hw
      exact ih n' u _ (by omega) (by omega) (by omega)
    | openBracket =>
      obtain ⟨t, v, rfl, -⟩ := T.exists_cons hk (by decide)
      simp only [List.length_cons] at hn hn' hw
      refine T.agree_advance_bind fun _ => ?_
      refine T.agree_bind (hi.expression v (by omega)) fun key u hu _ => ?_
      refine T.agree_expect_bind (by decide) fun close z hz _ => ?_
      subst hz
      have hle := hu.length_le
      simp only [List.length_cons] at hle
      exact ih n' z _ (by omega) (by omega) (by omega)
    | openParen =>
      obtain ⟨t, v, rfl, -⟩ := T.exists_cons hk (by decide)
      simp only [List.length_cons] at hn hn' hw
      refine T.agree_advance_bind fun _ => ?_
      refine T.agree_bind (T.agree_bounded fun m m' hm hm' => T.agree_items (by decide)
        hi.expression m m' v hm hm' (by omega)) fun args u hu _ => ?_
      have hle := hu.length_le
      exact ih n' u _ (by omega) (by omega) (by omega)
    | _ => exact T.agree_pure trivial

theorem take_readOperand : T.Take (k + 1) (readOperand inner) (readOperand inner') := by
  intro w hw
  unfold readOperand
  refine T.agree_bind (take_readPrimary hi w hw) fun primary v _ hshorter => ?_
  have hlength : v.length < w.length := hshorter
  refine Agree.imp (T.agree_bounded fun n n' hn hn' =>
    agree_suffixes hi n n' v primary hn hn' (by omega)) fun _ u hu _ => ?_
  exact Nat.lt_of_le_of_lt hu.length_le hlength

theorem take_readDisjunction : T.Take (k + 1) (readDisjunction inner) (readDisjunction inner') := by
  have hproduct : T.Take (k + 1) (readProduct inner) (readProduct inner') :=
    T.take_chain (T.local_among _) (take_readOperand hi)
  have hsum : T.Take (k + 1) (readSum inner) (readSum inner') :=
    T.take_chain (T.local_among _) hproduct
  have hequality : T.Take (k + 1) (readEquality inner) (readEquality inner') :=
    T.take_chain T.local_equality hsum
  have hconjunction : T.Take (k + 1) (readConjunction inner) (readConjunction inner') :=
    T.take_chain (T.local_oneOrTwo "&" (by decide)) hequality
  exact T.take_chain (T.local_oneOrTwo "|" (by decide)) hconjunction

theorem take_readExpression : T.Take (k + 1) (readExpression inner) (readExpression inner') := by
  intro w hw
  unfold readExpression
  refine T.agree_bind (take_readDisjunction hi w hw) fun left v _ hshorter => T.agree_peek_bind ?_
  have hlength : v.length < w.length := hshorter
  split
  · next hequals =>
    obtain ⟨t, u, rfl, -⟩ := T.exists_cons hequals (by decide)
    simp only [List.length_cons] at hlength
    refine T.agree_advance_bind fun _ => ?_
    refine T.agree_bind (hi.expression u (by omega)) fun right z _ hz => T.agree_pure ?_
    exact Nat.lt_trans hz (by omega)
  · exact T.agree_pure hshorter

omit hi in
/-- The look at the second token does not depend on what is behind the end. -/
theorem opensNamedFunction_append (w rest : List Token) :
    opensNamedFunction (w ++ T.last :: rest) = opensNamedFunction w := by
  match w with
  | [] => cases rest <;> simp [opensNamedFunction, T.kind_last]
  | [t] => simp [opensNamedFunction, T.kind_last]
  | t :: u :: v => rfl

theorem take_readStatement : T.Take (k + 1) (readStatement inner) (readStatement inner') := by
  intro w hw
  unfold readStatement
  refine T.agree_get_bind ?_
  simp only [T.next_append, opensNamedFunction_append]
  split
  · next hkeyword =>
    obtain ⟨t, v, rfl⟩ : ∃ t v, w = t :: v := by
      obtain hk | hk := hkeyword <;> obtain ⟨t, v, rfl, -⟩ := T.exists_cons hk (by decide) <;>
        exact ⟨t, v, rfl⟩
    exact agree_readDeclaration hi (by simpa using hw)
  split
  · next hopens =>
    match w, hopens with
    | t :: u :: v, _ => exact agree_readFunction hi (by simpa using hw)
  split
  · next hwhen =>
    obtain ⟨t, v, rfl, -⟩ := T.exists_cons hwhen (by decide)
    exact agree_readConditional hi (by simpa using hw)
  split
  · next hreturn =>
    obtain ⟨t, v, rfl, -⟩ := T.exists_cons hreturn.1 (by decide)
    refine T.agree_advance_bind fun _ => Agree.behind ?_
    exact T.agree_bind (hi.expression v (by simpa using hw)) fun _ _ _ _ => T.agree_pure trivial
  · exact take_readExpression hi w hw

end

/-- Readers with room for `k` tokens agree on them, however much more room they have: each step
inside comes after a token. -/
theorem inside_inner : ∀ k room room', k ≤ room → k ≤ room' →
    T.Inside k (inner room) (inner room') := by
  intro k
  induction k with
  | zero =>
    intro room room' _ _
    exact ⟨nofun, nofun, nofun, nofun⟩
  | succ k ih =>
    intro room room' hroom hroom'
    obtain ⟨room, rfl⟩ : ∃ m, room = m + 1 := ⟨room - 1, by omega⟩
    obtain ⟨room', rfl⟩ : ∃ m, room' = m + 1 := ⟨room' - 1, by omega⟩
    have hi := ih room room' (by omega) (by omega)
    refine ⟨take_readExpression hi, take_readOperand hi, take_readStatement hi, ?_⟩
    intro w hw hwhen
    obtain ⟨t, v, rfl, -⟩ := T.exists_cons hwhen (by decide)
    exact agree_readConditional hi (by simpa using hw)

end Twins

/-! ## Any tokens -/

/-- The index of the first end token. -/
def firstEnd (tokens : List Token) : Nat := tokens.findIdx fun t => t.kind == .eof

/-- The tokens cut just after the first end. -/
def untilEnd (tokens : List Token) : List Token := tokens.take (firstEnd tokens + 1)

theorem firstEnd_append {w after : List Token} {last : Token} (hw : ∀ t ∈ w, t.kind ≠ .eof)
    (hlast : last.kind = .eof) : firstEnd (w ++ last :: after) = w.length := by
  have hnone : ¬∃ t ∈ w, (t.kind == Kind.eof) = true := by
    rintro ⟨t, ht, hk⟩
    exact hw t ht (beq_iff_eq.1 hk)
  rw [firstEnd, List.findIdx_append, if_neg (mt List.findIdx_lt_length.1 hnone)]
  simp [List.findIdx_cons, hlast]

theorem untilEnd_append {w after : List Token} {last : Token} (hw : ∀ t ∈ w, t.kind ≠ .eof)
    (hlast : last.kind = .eof) : untilEnd (w ++ last :: after) = w ++ [last] := by
  rw [untilEnd, firstEnd_append hw hlast, List.take_length_add_append]
  rfl

theorem exists_first_end {tokens : List Token} (h : tokens.getLast?.map Token.kind = some .eof) :
    ∃ w last after, tokens = w ++ last :: after ∧ (∀ t ∈ w, t.kind ≠ .eof) ∧ last.kind = .eof := by
  obtain ⟨final, hfinal, hk⟩ := Option.map_eq_some_iff.1 h
  obtain ⟨last, hfound⟩ : ∃ t, tokens.find? (fun t => t.kind == .eof) = some t := by
    rw [← Option.isSome_iff_exists, List.find?_isSome]
    exact ⟨final, List.mem_of_getLast? hfinal, beq_iff_eq.2 hk⟩
  obtain ⟨hlast, w, after, hsplit, hw⟩ := List.find?_eq_some_iff_append.1 hfound
  refine ⟨w, last, after, hsplit, ?_, beq_iff_eq.1 hlast⟩
  intro t ht
  simpa using hw t ht

/-- What the statements in front of the first end are does not depend on what is behind it, on the
room of the readers inside or on the bound of the rounds, as soon as these cover the tokens. -/
theorem exists_outcome {w : List Token} {last : Token} (hw : ∀ t ∈ w, t.kind ≠ .eof)
    (hlast : last.kind = .eof) : ∃ outcome : Except Fault (List Node),
      (∀ fault, outcome = .error fault → Refuses (w ++ [last]) fault) ∧
      ∀ more room rounds, w.length < room → w.length < rounds →
        statements (inner room) .eof rounds (w ++ last :: more) =
          outcome.map fun body => (body, last :: more) := by
  -- the run with the least room, on the tokens up to the end
  let least := statements (inner (w.length + 1)) .eof (w.length + 1) (w ++ [last])
  have hall : ∀ more room rounds, w.length < room → w.length < rounds →
      (∃ body, least = .ok (body, [last]) ∧
        statements (inner room) .eof rounds (w ++ last :: more) = .ok (body, last :: more)) ∨
      ∃ fault, Refuses (w ++ [last]) fault ∧ least = .error fault ∧
        statements (inner room) .eof rounds (w ++ last :: more) = .error fault := by
    intro more room rounds hroom hrounds
    let T : Twins := ⟨w, hw, last, hlast, [], more⟩
    have hi := T.inside_inner (w.length + 1) (w.length + 1) room (Nat.le_refl _) hroom
    obtain ⟨body, v, hv, hstop, e, e'⟩ | hfault := T.agree_statements hi.statement
      (w.length + 1) rounds w (Nat.lt_succ_self _) hrounds (Nat.lt_succ_self _) (List.suffix_refl w)
    · -- reading stops at the end itself, since no other token is an end
      cases v with
      | nil => exact .inl ⟨body, e, e'⟩
      | cons t v => exact absurd hstop (hw t (hv.subset List.mem_cons_self))
    · exact .inr hfault
  refine ⟨least.map Prod.fst, ?_, ?_⟩
  · intro fault hfault
    obtain ⟨body, e, -⟩ | ⟨found, hrefuses, e, -⟩ :=
      hall [] (w.length + 1) (w.length + 1) (Nat.lt_succ_self _) (Nat.lt_succ_self _)
    · rw [e] at hfault
      cases hfault
    · rw [e] at hfault
      cases hfault
      exact hrefuses
  · intro more room rounds hroom hrounds
    obtain ⟨body, e, e'⟩ | ⟨found, -, e, e'⟩ := hall more room rounds hroom hrounds
    · rw [e, e']
      rfl
    · rw [e, e']
      rfl

theorem ofTokens_append {w after : List Token} {last : Token} {outcome : Except Fault (List Node)}
    (hend : (w ++ last :: after).getLast?.map Token.kind = some .eof)
    (hrun : ∀ room rounds, w.length < room → w.length < rounds →
      statements (inner room) .eof rounds (w ++ last :: after) =
        outcome.map fun body => (body, last :: after)) :
    ofTokens (w ++ last :: after) = outcome.map fun body => ⟨body, w.length⟩ := by
  have hlength : w.length < (w ++ last :: after).length := by simp
  unfold ofTokens bounded
  rw [if_pos hend, hrun _ _ hlength hlength]
  cases outcome with
  | error fault => rfl
  | ok body =>
    show Except.ok (Reading.mk body ((w ++ last :: after).length - (last :: after).length)) = _
    rw [List.length_append, Nat.add_sub_cancel]
    rfl

/-- Reading any tokens that end with an end token comes to a tree or to a fault that a token up to
the first end is the reason of.  A tree is read up to exactly the first end.  The outcome is that of
the tokens cut there; it is the same with any other tokens behind that end, and with any room for
the readers inside and any bound on the rounds that cover the tokens. -/
theorem ofTokens_safe {tokens : List Token} (h : tokens.getLast?.map Token.kind = some .eof) :
    firstEnd tokens < tokens.length ∧ ∃ outcome : Except Fault (List Node),
      (∀ fault, outcome = .error fault → Refuses (untilEnd tokens) fault) ∧
      ofTokens tokens = (outcome.map fun body => ⟨body, firstEnd tokens⟩) ∧
      ofTokens (untilEnd tokens) = (outcome.map fun body => ⟨body, firstEnd tokens⟩) ∧
      ∀ more room rounds, (untilEnd tokens).length ≤ room → (untilEnd tokens).length ≤ rounds →
        statements (inner room) .eof rounds (untilEnd tokens ++ more) =
          outcome.map fun body => (body, (untilEnd tokens).drop (firstEnd tokens) ++ more) := by
  obtain ⟨w, last, after, rfl, hw, hlast⟩ := exists_first_end h
  obtain ⟨outcome, hfault, hrun⟩ := exists_outcome hw hlast
  rw [untilEnd_append hw hlast, firstEnd_append hw hlast]
  refine ⟨by simp, outcome, hfault, ?_, ?_, ?_⟩
  · exact ofTokens_append h fun room rounds => hrun after room rounds
  · exact ofTokens_append (by simp [hlast]) fun room rounds => hrun [] room rounds
  · intro more room rounds hroom hrounds
    rw [List.length_append, List.length_singleton] at hroom hrounds
    rw [List.append_assoc, List.drop_left]
    exact hrun more room rounds hroom hrounds

/-- A name with a text no name has, an end that is not the last, and a brace that nothing opens. -/
theorem ofTokens_safe_stray :
    ∃ outcome : Except Fault (List Node), outcome = .ok [.ident "9 !"] ∧
      ofTokens [⟨.identifier, "9 !"⟩, ⟨.eof, "?"⟩, ⟨.closeBrace, "("⟩, .eof] =
        outcome.map fun body => ⟨body, 1⟩ := by
  have hend : Option.map Token.kind (List.getLast?
      [⟨.identifier, "9 !"⟩, ⟨.eof, "?"⟩, ⟨.closeBrace, "("⟩, .eof]) = some .eof := rfl
  obtain ⟨-, outcome, -, hread, -, hrun⟩ := ofTokens_safe hend
  refine ⟨outcome, ?_, hread⟩
  have hleast := hrun [] 2 2 (by decide) (by decide)
  cases outcome with
  | error fault => cases hleast
  | ok body =>
    cases hleast
    rfl

end Guion.Node
