import Guion.Proofs.Stepping
import Guion.Proofs.Growth
import Guion.Proofs.Safety.Sessions

/-!
# What a session with the built-in prelude offers

Names that are declared stay bound as long as nothing is assigned, and starting a session only
declares: first the built-ins, then the functions of the prelude.

    start host settings files .folder w = (.ok session, w') →
      ∀ d ∈ Prelude.definitions, w'.store.Offers session.scope.frame d.1 …      (offers_start)
-/

namespace Guion

/-! ## The functions of the prelude -/

theorem Session.parse_of_scan {code : String} {tokens : List Token} {reading : Node.Reading}
    (hscan : (Token.scan code).toOption = some tokens)
    (hread : (Node.ofTokens tokens).toOption = some reading) (w : World) :
    parse code w = (.ok reading.body, { w with
      trace := .parsed reading.body.length :: .tokenized code.length tokens.length ::
        w.trace }) := by
  unfold parse
  cases htokens : Token.scan code with
  | error fault =>
    rw [htokens] at hscan
    cases hscan
  | ok ts =>
    rw [htokens] at hscan
    cases hscan
    dsimp only
    cases hreading : Node.ofTokens tokens with
    | error fault =>
      rw [hreading] at hread
      cases hread
    | ok r =>
      rw [hreading] at hread
      cases hread
      rfl

namespace Prelude

/-- The body of `paso`. -/
def stepBody : List Node :=
  [.when (.binary (.ident "i") (.call (.ident "longitud") [.ident "lista"]) "==")
      [.giveBack (.ident "resultado")] none,
    .assign (.member (.ident "resultado") (.ident "i") true)
      (.call (.ident "f") [.member (.ident "lista") (.ident "i") true]),
    .giveBack (.call (.ident "paso") [.binary (.ident "i") (.number 1) "+"])]

/-- The body of `mapear`. -/
def mapBody : List Node :=
  [.declare false "resultado" (.list []), .function "paso" ["i"] stepBody,
    .giveBack (.call (.ident "paso") [.number 0])]

/-- The function `mapear` as it is made in a root frame. -/
def mapClosure (root : FrameId) : Closure := ⟨["lista", "f"], mapBody, some ⟨root, []⟩, none⟩

/-- The function `paso` as it is made in the frame of a call of `mapear`. -/
def stepClosure (frame root : FrameId) : Closure := ⟨["i"], stepBody, some ⟨frame, [root]⟩, none⟩

/-- The name, the parameters and the body of a function. -/
abbrev Definition := String × List String × List Node

/-- The functions that the built-in prelude declares. -/
def definitions : List Definition :=
  [("identidad", ["x"], [.giveBack (.ident "x")]),
    ("no", ["x"], [.when (.ident "x") [.giveBack (.ident "falso")] none,
      .giveBack (.ident "verdadero")]),
    ("mapear", ["lista", "f"], mapBody)]

def Definition.node (d : Definition) : Node := .function d.1 d.2.1 d.2.2

set_option maxRecDepth 2000 in
theorem scan_builtin : (Token.scan builtin).toOption.map (fun ts =>
    (ts.length, (Node.ofTokens ts).toOption.map Node.Reading.body)) =
      some (94, some (definitions.map Definition.node)) := by
  -- the characters of a literal are at hand, while those of a text have to be decoded
  have hchars : builtin.toList = _ := String.toList_ofList
  rw [Token.scan, hchars]
  decide +kernel

/-- The world in which the prelude has been read. -/
def read (w : World) : World :=
  { w with trace := .parsed 3 :: .tokenized builtin.length 94 ::
      .loadingPrelude (Root.builtin.text ++ "/base" ++ ending) :: w.trace }

theorem parse_builtin (w : World) : Session.parse builtin
    { w with trace := .loadingPrelude (Root.builtin.text ++ "/base" ++ ending) :: w.trace } =
      (.ok (definitions.map Definition.node), read w) := by
  obtain ⟨tokens, htokens, hread⟩ := Option.map_eq_some_iff.1 scan_builtin
  obtain ⟨hlength, hread⟩ := Prod.mk.inj hread
  obtain ⟨reading, hreading, hbody⟩ := Option.map_eq_some_iff.1 hread
  have hparse := Session.parse_of_scan htokens hreading
    { w with trace := .loadingPrelude (Root.builtin.text ++ "/base" ++ ending) :: w.trace }
  rw [hbody, hlength] at hparse
  exact hparse

end Prelude

/-! ## Names that are bound to functions -/

namespace Store

variable {s t : Store} {f : FrameId} {name : String} {c : Closure}

theorem lt_of_find? {b : Binding} (h : (s.frame f).vars.find? name = some b) :
    f < s.frames.size := by
  by_contra hle
  rw [s.frame_of_size_le (Nat.le_of_not_lt hle)] at h
  cases h

theorem lt_of_function {a : Address} (h : (s.object a).shape = .function c) :
    a < s.objects.size := by
  by_contra hle
  rw [s.object_of_size_le (Nat.le_of_not_lt hle)] at h
  cases h

/-- The frame binds the name to the function. -/
def Offers (s : Store) (f : FrameId) (name : String) (c : Closure) : Prop :=
  ∃ b a, (s.frame f).vars.find? name = some b ∧ b.value = .ref a ∧
    (s.object a).shape = .function c

theorem Offers.lookup (h : s.Offers f name c) :
    ∃ a, s.lookup ⟨f, []⟩ name = .ok (.ref a) ∧ (s.object a).shape = .function c := by
  obtain ⟨b, a, hfind, hvalue, hshape⟩ := h
  exact ⟨a, hvalue ▸ lookup_inner hfind [], hshape⟩

theorem Offers.extends (h : s.Offers f name c) (hst : s.Extends t) : t.Offers f name c := by
  obtain ⟨b, a, hfind, hvalue, hshape⟩ := h
  refine ⟨b, a, ?_, hvalue, ?_⟩
  · rw [hst.frame f (lt_of_find? hfind)]
    exact hfind
  · rw [hst.object a (lt_of_function hshape)]
    exact hshape

/-- The name still stands for the function as long as nobody has bound it to something else. -/
theorem Offers.grows (h : s.Offers f name c) (hst : s.Grows t)
    (hlookup : t.lookup ⟨f, []⟩ name = s.lookup ⟨f, []⟩ name) : t.Offers f name c := by
  obtain ⟨b, a, hfind, hvalue, hshape⟩ := h
  rw [lookup_inner hfind, hvalue] at hlookup
  obtain ⟨g, hg, b', hfind', hvalue'⟩ := exists_of_lookup hlookup
  cases List.mem_singleton.1 hg
  exact ⟨b', a, hfind', hvalue', (hst.object a (lt_of_function hshape)).shape.trans hshape⟩

theorem Offers.bindName (h : s.Offers f name c) {g : FrameId} {name' : String}
    (hnew : name' ∉ (s.frame g).vars.keys) (b' : Binding) :
    (s.bindName g name' b').Offers f name c := by
  obtain ⟨b, a, hfind, hvalue, hshape⟩ := h
  refine ⟨b, a, ?_, hvalue, hshape⟩
  rw [frame_bindName]
  split
  · next hg =>
    have hne : name ≠ name' := by
      rintro rfl
      rw [← hg.1, ← Table.find?_eq_none_iff, hfind] at hnew
      cases hnew
    rw [← hg.1, Table.find?_insert, if_neg hne]
    exact hfind
  · exact hfind

theorem Offers.noteGlobal (h : s.Offers f name c) (scope : Scope) (name' : String) :
    (s.noteGlobal scope name').Offers f name c := by
  obtain ⟨b, a, hfind, hrest⟩ := h
  exact ⟨b, a, by rwa [vars_noteGlobal], hrest⟩

theorem offers_bindName {b : Binding} {a : Address} (hf : f < s.frames.size)
    (hvalue : b.value = .ref a) (hshape : (s.object a).shape = .function c) (name : String) :
    (s.bindName f name b).Offers f name c := by
  refine ⟨b, a, ?_, hvalue, hshape⟩
  rw [frame_bindName, if_pos ⟨rfl, hf⟩]
  exact (Table.find?_insert ..).trans (if_pos rfl)

theorem shape_makeFunction (s : Store) (c : Closure) (entries : List (String × Value))
    (plain : Bool) :
    ((s.makeFunction c entries plain).1.object s.objects.size).shape = .function c :=
  congrArg Object.shape ((s.object_make ..).trans (if_pos rfl))

end Store

/-! ## Built-ins -/

namespace Builtin

variable {scope : Scope} {w w' : World} {name : String} {c : Closure}

theorem offers_of_declareAll {f : FrameId} {constant : Bool} {entries : List (String × Value)}
    (h : w.store.Offers f name c) (hd : declareAll scope constant entries w = (.ok (), w')) :
    w'.store.Offers f name c := by
  induction entries generalizing w with
  | nil =>
    cases hd
    exact h
  | cons e rest ih =>
    obtain ⟨name', v⟩ := e
    obtain ⟨_, w₁, hname, hrest⟩ := Run.bind_eq_ok hd
    rw [declareName_apply] at hname
    split at hname
    · next hm =>
      cases hname
      have hnew := Store.not_mem_keys_of_mayDeclare hm
      refine ih ?_ hrest
      exact (h.bindName hnew ⟨v, constant⟩).noteGlobal scope name'
    · cases hname

theorem offers_declareAll {constant : Bool} {entries : List (String × Value)} {a : Address}
    (hf : scope.frame < w.store.frames.size) (hshape : (w.store.object a).shape = .function c)
    (he : (name, .ref a) ∈ entries) (hd : declareAll scope constant entries w = (.ok (), w')) :
    w'.store.Offers scope.frame name c := by
  induction entries generalizing w with
  | nil => cases he
  | cons e rest ih =>
    obtain ⟨name', v⟩ := e
    obtain ⟨_, w₁, hname, hrest⟩ := Run.bind_eq_ok hd
    rw [declareName_apply] at hname
    split at hname
    · cases hname
      rcases List.mem_cons.1 he with hhead | he
      · cases hhead
        have hbound := Store.offers_bindName (b := ⟨.ref a, constant⟩) hf rfl hshape name
        refine offers_of_declareAll ?_ hrest
        exact hbound.noteGlobal scope name
      · refine ih ?_ ?_ he hrest
        · exact Nat.lt_of_lt_of_eq hf ((Store.frames_size_noteGlobal ..).trans
            (Store.frames_size_bindName ..)).symm
        · exact hshape
    · cases hname

/-- Each of the functions is made. -/
theorem exists_of_makeFunctions {natives : List (String × Native)} {made : List (String × Value)}
    (h : makeFunctions natives w = (.ok made, w')) : w.store.Extends w'.store ∧
      ∀ e ∈ natives, ∃ a, (e.1, .ref a) ∈ made ∧
        (w'.store.object a).shape = .function (Store.nativeClosure e.2) := by
  induction natives generalizing w made with
  | nil =>
    cases h
    exact ⟨.refl _, List.forall_mem_nil _⟩
  | cons e rest ih =>
    obtain ⟨_, w₁, hf, hrest⟩ := Run.bind_eq_ok h
    obtain ⟨madeRest, w₂, hrest, hend⟩ := Run.bind_eq_ok hrest
    cases hf
    cases hend
    obtain ⟨hextends, hall⟩ := ih hrest
    have hshape := w.store.shape_makeFunction (Store.nativeClosure e.2) [("name", .str e.1)] false
    refine ⟨(w.store.extends_make _ _).trans hextends, List.forall_mem_cons.2 ⟨?_, ?_⟩⟩
    · refine ⟨w.store.objects.size, List.mem_cons_self, ?_⟩
      exact (congrArg Object.shape (hextends.object _ (Store.lt_of_function hshape))).trans hshape
    · intro e' he'
      obtain ⟨a, hmem, hrest⟩ := hall e' he'
      exact ⟨a, List.mem_cons_of_mem _ hmem, hrest⟩

theorem offers_register (hf : scope.frame < w.store.frames.size)
    (h : register scope w = (.ok (), w')) : ∀ e ∈ functions,
      w'.store.Offers scope.frame e.1 (Store.nativeClosure e.2) := by
  intro e he
  obtain ⟨made, w₁, hmade, h⟩ := Run.bind_eq_ok h
  obtain ⟨_, w₃, hdefine, h⟩ := Run.bind_eq_ok h
  obtain ⟨_, w₂, hvariables, hconstants⟩ := Run.bind_eq_ok hdefine
  obtain ⟨hextends, hall⟩ := exists_of_makeFunctions hmade
  obtain ⟨a, hmem, hshape⟩ := hall e he
  have hvariable := offers_declareAll (Nat.lt_of_lt_of_le hf hextends.frames_size) hshape hmem
    hvariables
  have hconstant := offers_of_declareAll hvariable hconstants
  cases h
  exact hconstant

end Builtin

/-! ## The prelude -/

namespace Prelude

open Eval

variable {apply : Applier} {scope : Scope} {w w' : World}

/-- A function is declared, or its name is taken. -/
theorem eval_definition (apply : Applier) (scope : Scope) (w : World) (d : Definition)
    (hname : d.1.isEmpty = false) :
    (d.1 ∉ (w.store.frame scope.frame).vars.keys ∧
      eval apply d.node scope w = (.ok (.ref w.store.objects.size),
        { w with store := withFunction scope d.1 d.2.1 d.2.2 w.store })) ∨
    ∃ cause w', eval apply d.node scope w = (.error (.failed cause), w') := by
  by_cases hnew : d.1 ∈ (w.store.frame scope.frame).vars.keys
  · refine .inr ⟨.redeclared d.1, { w with store := (w.store.makeFunction
      ⟨d.2.1, d.2.2, some scope, none⟩ [("name", .str d.1)] false).1 }, ?_⟩
    rw [Definition.node, eval_function_eq hname]
    exact Run.bind_of_error (declare_of_mem (by exact hnew) _)
  · exact .inl ⟨hnew, eval_function hname hnew _ _⟩

/-- A program of functions that runs to its end has declared them and kept what was bound. -/
theorem offers_definitions {definitions : List Definition} {last v : Value}
    (hnames : ∀ d ∈ definitions, d.1.isEmpty = false) (hf : scope.frame < w.store.frames.size)
    (h : endProgram (evalBody apply (definitions.map Definition.node) scope last) w = (.ok v, w')) :
    (∀ name c, w.store.Offers scope.frame name c → w'.store.Offers scope.frame name c) ∧
    ∀ d ∈ definitions, w'.store.Offers scope.frame d.1 ⟨d.2.1, d.2.2, some scope, none⟩ := by
  induction definitions generalizing w last with
  | nil =>
    cases h
    exact ⟨fun _ _ => id, List.forall_mem_nil _⟩
  | cons d rest ih =>
    obtain ⟨hname, hrest⟩ := List.forall_mem_cons.1 hnames
    rw [List.map_cons] at h
    rcases eval_definition apply scope w d hname with ⟨hnew, hd⟩ | ⟨cause, w₁, hd⟩
    · have hprogram :
          endProgram (evalBody apply (d.node :: rest.map Definition.node) scope last) w =
            endProgram (evalBody apply (rest.map Definition.node) scope (.ref w.store.objects.size))
              { w with store := withFunction scope d.1 d.2.1 d.2.2 w.store } := by
        rw [endProgram, evalBody_cons_of_ok hd]
        rfl
      rw [hprogram] at h
      obtain ⟨hkeeps, hall⟩ := ih hrest (by rwa [frames_size_withFunction]) h
      refine ⟨fun name c ho => hkeeps name c ?_, List.forall_mem_cons.2 ⟨?_, hall⟩⟩
      · exact (ho.extends (w.store.extends_make _ _)).bindName hnew _
      · refine hkeeps _ _ ?_
        have hmade := w.store.shape_makeFunction ⟨d.2.1, d.2.2, some scope, none⟩
          [("name", .str d.1)] false
        exact Store.offers_bindName (s := (w.store.makeFunction _ _ _).1) (by exact hf) rfl hmade
          d.1
    · rw [endProgram, evalBody_cons_of_error hd] at h
      cases h

end Prelude

/-! ## Sessions -/

namespace Session

open Eval

variable {host : Host} {settings : Settings} {files : Files} {w w' : World}

/-- The built-in prelude runs as one program. -/
theorem runPrelude_builtin (hroot : Prelude.root settings files = .builtin) (session : Session)
    (w : World) : runPrelude host settings files .folder session w =
      (endProgram (evalBody (call host settings.depthLimit)
        (Prelude.definitions.map Prelude.Definition.node) session.scope .null) >>= fun _ =>
          pure session) (Prelude.read w) := by
  have hload : load host settings.depthLimit session Prelude.builtin
      { w with trace := .loadingPrelude (Prelude.Root.builtin.text ++ "/base" ++ Prelude.ending) ::
        w.trace } = (endProgram (evalBody (call host settings.depthLimit)
          (Prelude.definitions.map Prelude.Definition.node) session.scope .null) >>= fun _ =>
            pure ()) (Prelude.read w) := Run.bind_of_ok (Prelude.parse_builtin w)
  rw [runPrelude, hroot]
  rcases hrun : endProgram (evalBody (call host settings.depthLimit)
    (Prelude.definitions.map Prelude.Definition.node) session.scope .null) (Prelude.read w) with
      ⟨e | v, w'⟩
  · rw [Run.bind_of_error hrun] at hload ⊢
    exact Run.bind_of_error (Run.bind_of_ok rfl |>.trans (Run.bind_of_error hload))
  · rw [Run.bind_of_ok hrun] at hload ⊢
    exact Run.bind_of_ok (Run.bind_of_ok rfl |>.trans (Run.bind_of_ok hload))

theorem start_builtin (hroot : Prelude.root settings files = .builtin) {scope : Scope}
    (hscope : globalScope w = (.ok scope, w')) : start host settings files .folder w =
      (endProgram (evalBody (call host settings.depthLimit)
        (Prelude.definitions.map Prelude.Definition.node) scope .null) >>= fun _ =>
          pure ⟨scope⟩) (Prelude.read w') := by
  rw [start_eq, Run.bind_of_ok hscope, runPrelude_builtin hroot]

/-- A session with the built-in prelude has a single root frame, which offers the built-in functions
and those of the prelude. -/
theorem offers_start {session : Session} (hroot : Prelude.root settings files = .builtin)
    (h : start host settings files .folder w = (.ok session, w')) :
    session.scope.outer = [] ∧
    (∀ e ∈ Builtin.functions,
      w'.store.Offers session.scope.frame e.1 (Store.nativeClosure e.2)) ∧
    ∀ d ∈ Prelude.definitions,
      w'.store.Offers session.scope.frame d.1 ⟨d.2.1, d.2.2, some session.scope, none⟩ := by
  rw [start_eq] at h
  obtain ⟨scope, w₁, hscope, h⟩ := Run.bind_eq_ok h
  obtain ⟨root, w₂, hopen, hregister⟩ := Run.bind_eq_ok hscope
  obtain ⟨_, w₃, hregister, hdone⟩ := Run.bind_eq_ok hregister
  cases hopen
  cases hdone
  have hf : Scope.frame ⟨w.store.frames.size, []⟩ < (w.store.openFrame []).1.frames.size := by
    rw [Store.frames_size_openFrame]
    exact Nat.lt_succ_self _
  have hbuiltins := Builtin.offers_register hf hregister
  rw [runPrelude_builtin hroot] at h
  obtain ⟨v, w₂, hrun, hend⟩ := Run.bind_eq_ok h
  cases hend
  have hf₁ : w.store.frames.size < w₁.store.frames.size := by
    obtain ⟨b, a, hfind, -⟩ := hbuiltins _ List.mem_cons_self
    exact Store.lt_of_find? hfind
  obtain ⟨hkeeps, hdefined⟩ := Prelude.offers_definitions (by decide)
    (by exact hf₁) hrun
  exact ⟨rfl, fun e he => hkeeps _ _ (hbuiltins e he), hdefined⟩

end Session

end Guion
