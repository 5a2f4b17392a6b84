import Guion.Session
import Guion.Proofs.Grammar.Sound
import Guion.Proofs.Rendering.Misread

/-!
# From text to tree and back

A script that is read has a source text, and that text is read as the same tree exactly if no
expression statement in it starts with the return word.

    (parse s w).1 = .ok body ↔ ∃ ts, Writes ts s ∧ Derives (.statements body) ts  (parse_eq_ok_iff)
    (parse text w').1 = .ok body ↔ no expression statement opens with the return word
      where text is the source of the tree of a script                           (parse_source_iff)
-/

namespace Guion

namespace Node

/-- The text of the tree starts with the return word. -/
def OpensWithReturn (e : Node) : Prop :=
  ∃ text rest, e.source = .ok text ∧
    Token.scan text = .ok (⟨.identifier, Token.returnWord⟩ :: rest)

/-! ## Statements of a tree that was read -/

theorem statementsInList_fits {ns : List Node}
    (h : ∀ n ∈ ns, ∀ e ∈ n.statementsIn, Fits .statement e) :
    ∀ e ∈ statementsInList ns, Fits .statement e := by
  induction ns with
  | nil => simp [statementsInList]
  | cons n ns ih =>
    obtain ⟨hn, hns⟩ := List.forall_mem_cons.1 h
    rw [statementsInList]
    exact List.forall_mem_append.2 ⟨hn, ih hns⟩

theorem Fits.statementsIn {position : Position} {n : Node} (h : Fits position n) :
    ∀ e ∈ n.statementsIn, Fits .statement e := by
  induction h with
  | declare _ _ ih => exact ih
  | giveBack _ ih => exact ih
  | when _ hb ihc ihb =>
    simp only [Node.statementsIn, statementsInOption, List.append_nil, List.forall_mem_append]
    exact ⟨ihc, hb, statementsInList_fits ihb⟩
  | whenOtherwise _ hb ho ihc ihb iho =>
    simp only [Node.statementsIn, statementsInOption, List.forall_mem_append]
    exact ⟨ihc, hb, statementsInList_fits ihb, ho, statementsInList_fits iho⟩
  | expression _ ih => exact ih
  | function _ _ hb ih =>
    simp only [Node.statementsIn, List.forall_mem_append]
    exact ⟨hb, statementsInList_fits ih⟩
  | assign _ _ ih ih' =>
    simp only [Node.statementsIn, List.forall_mem_append]
    exact ⟨ih, ih'⟩
  | binary _ _ _ ih ih' =>
    simp only [Node.statementsIn, List.forall_mem_append]
    exact ⟨ih, ih'⟩
  | call _ _ ih ih' =>
    simp only [Node.statementsIn, List.forall_mem_append]
    exact ⟨ih, statementsInList_fits ih'⟩
  | member _ _ ih =>
    simp only [Node.statementsIn, List.append_nil]
    exact ih
  | index _ _ ih ih' =>
    simp only [Node.statementsIn, List.forall_mem_append]
    exact ⟨ih, ih'⟩
  | object _ ih => exact statementsInList_fits ih
  | list _ ih => exact statementsInList_fits ih
  | entry _ _ ih => exact ih
  | _ => simp [Node.statementsIn, statementsInOption]

theorem misread_iff {e : Node} (h : Fits .statement e) :
    e.misread = false ↔ (e.isExpression = true → ¬ e.OpensWithReturn) := by
  obtain ⟨text, hs, hw⟩ := h.source
  have hscan := scan_of_writes hw
  have hopens : e.OpensWithReturn ↔ e.tokens.head? = some (name Token.returnWord) := by
    constructor
    · rintro ⟨text', rest, hs', hr⟩
      obtain rfl : text' = text := by simpa [hs'] using hs
      have hr := Except.ok.inj (hscan.symm.trans hr)
      cases ht : e.tokens with
      | nil => simp [ht, Token.eof] at hr
      | cons t ts =>
        rw [ht] at hr
        exact congrArg some (List.cons.inj hr).1
    · intro hh
      obtain ⟨w, hw⟩ := List.head?_eq_some_iff.1 hh
      exact ⟨text, w ++ [.eof], hs, by rw [hscan, hw]; rfl⟩
  rw [hopens, misread]
  simp

end Node

namespace Session

open Node

/-- What reading a script ends in, the notes that it leaves apart. -/
theorem parse_fst (s : String) (w : World) : (parse s w).1 =
    match Token.scan s with
    | .error fault => .error (.failed (.illegal fault))
    | .ok tokens =>
      match ofTokens tokens with
      | .error fault => .error (.failed (.grammar fault))
      | .ok reading => .ok reading.body := by
  unfold parse
  cases Token.scan s with
  | error fault => rfl
  | ok tokens =>
    dsimp only
    cases ofTokens tokens <;> rfl

/-- A script is read as a body exactly if its tokens derive it. -/
theorem parse_eq_ok_iff (s : String) (w : World) (body : List Node) :
    (parse s w).1 = .ok body ↔ ∃ ts, Writes ts s ∧ Derives (.statements body) ts := by
  rw [parse_fst]
  cases hs : Token.scan s with
  | error fault =>
    refine ⟨nofun, ?_⟩
    rintro ⟨ts, hw, -⟩
    rw [scan_of_writes hw] at hs
    cases hs
  | ok tokens =>
    obtain ⟨ts, rfl, hl⟩ := (Token.scan_eq_ok_iff s tokens).1 hs
    have hunique : (∃ us, Writes us s ∧ Derives (.statements body) us) ↔
        Derives (.statements body) ts := by
      constructor
      · rintro ⟨us, hw, hd⟩
        rwa [writes_unique hl hw]
      · exact fun hd => ⟨ts, hl, hd⟩
    rw [hunique, ← body_ofTokens_iff hl.wellFormed]
    dsimp only
    cases ofTokens (ts ++ [.eof]) with
    | error fault => exact ⟨nofun, nofun⟩
    | ok reading => simp [Except.map]

theorem fits_of_parse {s : String} {w : World} {body : List Node} (h : (parse s w).1 = .ok body) :
    ∀ n ∈ body, Fits .statement n := by
  obtain ⟨ts, hs, hd⟩ := (parse_eq_ok_iff s w body).1 h
  exact hd.fits hs.wellFormed

/-- The tree of a script that was read has a source text.  It is read as the same body if and only
if no expression that stands as a statement somewhere in the body opens with the return word, for
then the text is read as a return. -/
theorem parse_source_iff {s : String} {w : World} {body : List Node}
    (h : (parse s w).1 = .ok body) :
    ∃ text, Node.source (.program body) = .ok text ∧ ∀ w',
      ((parse text w').1 = .ok body ↔
        ∀ e ∈ statementsIn (.program body), e.isExpression = true → ¬ e.OpensWithReturn) := by
  have hfits := fits_of_parse h
  obtain ⟨texts, hsource, -, hlines, -⟩ := sourceStatements_writes fun n hn => (hfits n hn).source
  refine ⟨"\n".intercalate texts, by rw [Node.source, hsource]; rfl, fun w' => ?_⟩
  have hagain : (parse ("\n".intercalate texts) w').1 = .ok body ↔
      Derives (.statements body) (bodyTokens body) := by
    rw [parse_eq_ok_iff]
    constructor
    · rintro ⟨us, hu, hd'⟩
      rwa [writes_unique hlines hu]
    · exact fun hd' => ⟨_, hlines, hd'⟩
  rw [hagain, derives_bodyTokens_iff hfits]
  have hin : ∀ e ∈ statementsIn (.program body), Fits .statement e := by
    rw [Node.statementsIn]
    have hnested := statementsInList_fits fun n hn => (hfits n hn).statementsIn
    exact List.forall_mem_append.2 ⟨hfits, hnested⟩
  constructor
  · exact fun hm e he => (misread_iff (hin e he)).1 (hm e he)
  · exact fun hm e he => (misread_iff (hin e he)).2 (hm e he)

/-- A call of a function named as the return word is written as a return statement. -/
theorem parse_source_call_returnWord :
    (parse "(retorna)(a)" (.initial 1000)).1 = .ok [.call (.ident "retorna") [.ident "a"]] ∧
      ∃ text, Node.source (.program [.call (.ident "retorna") [.ident "a"]]) = .ok text ∧
        (parse text (.initial 1000)).1 ≠ .ok [.call (.ident "retorna") [.ident "a"]] := by
  have named : ∀ t : Token, t.kind = .identifier → Derives (.expression (.ident t.text)) [t] :=
    fun t ht => .disjunction ((Derives.operand (.suffixed (.ident ht))).chain_of_operand _)
  have callee := Derives.parens (o := mark '(') (c := mark ')') rfl
    (named ⟨.identifier, Token.returnWord⟩ rfl) rfl
  have call := Derives.call (o := mark '(') (c := mark ')') (.suffixed callee) rfl
    (.lastElement (named ⟨.identifier, "a"⟩ rfl)) rfl
  have statement := Derives.expressionStatement
    (.disjunction ((Derives.operand call).chain_of_operand _)) (by rintro ⟨_, _, _, ⟨⟩, ⟨⟩, -⟩)
    (by rintro ⟨_, _, ⟨⟩, ⟨⟩, -⟩)
  have noGap : Semicolons [] := nofun
  have body := Derives.moreStatements noGap statement (.noStatement noGap) nofun
  have h : (parse "(retorna)(a)" (.initial 1000)).1 = .ok [.call (.ident "retorna") [.ident "a"]] :=
    (parse_eq_ok_iff _ _ _).2 ⟨_, writes_of_scan rfl, body⟩
  obtain ⟨text, hs, hiff⟩ := parse_source_iff h
  refine ⟨h, text, hs, fun hagain => ?_⟩
  have hin : .call (.ident "retorna") [.ident "a"] ∈
      statementsIn (.program [.call (.ident "retorna") [.ident "a"]]) := by simp [statementsIn]
  have hno := (hiff (.initial 1000)).1 hagain _ hin
  exact hno rfl ⟨"retorna(a)", _, rfl, rfl⟩

end Session

end Guion
