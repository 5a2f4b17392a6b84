import Guion.Proofs.Simulation.Trees
import Guion.Proofs.Safety.Sessions
import Guion.Proofs.Table

/-!
# Names that nobody mentions

A binding can only be found by its name.  So a further binding in some frame, under a name that
neither the tree nor the code of any function mentions, changes nothing: the runs with it and
without it end in the same way, print the same, and end in worlds from the one of which the other
comes by taking the binding away.

    z ∉ node.names → (no function of the store mentions z) →
      (evaluate host limit node scope (w with z bound)).1 = (evaluate host limit node scope w).1
                                                                       (evaluate_unused_name)
-/

namespace Guion

/-! ## Taking a binding away -/

namespace Table

variable {α : Type}

def erase (t : Table α) (key : String) : Table α := ⟨t.entries.filter fun e => e.1 ≠ key⟩

theorem find?_erase {key k : String} (h : k ≠ key) (t : Table α) :
    (t.erase key).find? k = t.find? k :=
  findIn_filter (p := fun name => name ≠ key) (decide_eq_true h) t.entries

theorem erase_insert {key k : String} (h : k ≠ key) (t : Table α) (v : α) :
    (t.insert k v).erase key = (t.erase key).insert k v :=
  congrArg Table.mk ((filter_insertIn (fun name => name ≠ key) k v t.entries).trans
    (if_pos (decide_eq_true h)))

/-- A name that was not there can be written and taken away again. -/
theorem erase_insert_self {key : String} {t : Table α} (h : key ∉ t.keys) (v : α) :
    (t.insert key v).erase key = t := by
  obtain ⟨es⟩ := t
  refine congrArg Table.mk ?_
  show (insertIn key v es).filter (fun e => e.1 ≠ key) = es
  induction es with
  | nil =>
    rw [insertIn, List.filter_cons_of_neg (by simp)]
    rfl
  | cons e rest ih =>
    obtain ⟨hne, hrest⟩ := not_or.1 fun hk => h (List.mem_cons.2 hk)
    have hne' : e.1 ≠ key := fun he => hne he.symm
    rw [insertIn, if_neg hne', List.filter_cons_of_pos (by simp [hne']), ih hrest]

end Table

namespace Store

variable (s : Store) {f : FrameId} {z : String}

/-- The store without the binding that a frame has for a name. -/
def unbind (f : FrameId) (z : String) : Store :=
  { s with frames := s.frames.modify f fun frame => { frame with vars := frame.vars.erase z } }

theorem vars_unbind {name : String} (h : name ≠ z) (g : FrameId) :
    ((s.unbind f z).frame g).vars.find? name = (s.frame g).vars.find? name := by
  rw [unbind, frame_modify]
  split
  · next hg =>
    rw [hg.1]
    exact Table.find?_erase h _
  · rfl

theorem unbind_openFrame (hf : f < s.frames.size) (outer : List FrameId) :
    (s.openFrame outer).1.unbind f z = ((s.unbind f z).openFrame outer).1 := by
  refine congrArg (Store.mk · s.objects) (Array.ext_getElem? fun g => ?_)
  simp only [openFrame, unbind, Array.getElem?_modify, Array.getElem?_push, Array.size_modify]
  by_cases hg : g = s.frames.size
  · have hne : f ≠ g := fun e => Nat.ne_of_lt hf (e.trans hg)
    rw [if_pos hg, if_pos hg, if_neg hne]
  · rw [if_neg hg, if_neg hg]

theorem unbind_bindName {name : String} (h : name ≠ z) (g : FrameId) (b : Binding) :
    (s.bindName g name b).unbind f z = (s.unbind f z).bindName g name b := by
  refine congrArg (Store.mk · s.objects) (Array.ext_getElem? fun k => ?_)
  simp only [bindName, unbind, Array.getElem?_modify]
  by_cases hg : g = k
  · by_cases hf : f = k
    · simp only [if_pos hg, if_pos hf, Option.map_map]
      refine congrArg (Option.map · _) (funext fun frame => ?_)
      simp only [Function.comp_apply, Table.erase_insert h]
    · simp only [if_pos hg, if_neg hf]
  · simp only [if_neg hg]

theorem unbind_bindName_self (h : s.binds f z = false) (b : Binding) :
    (s.bindName f z b).unbind f z = s := by
  have hnew : z ∉ (s.frame f).vars.keys := (Table.contains_eq_false_iff _ _).1 h
  obtain ⟨frames, objects⟩ := s
  refine congrArg (Store.mk · objects) (Array.ext_getElem? fun k => ?_)
  simp only [bindName, Array.getElem?_modify]
  by_cases hk : f = k
  · subst hk
    simp only [if_true, Option.map_map]
    cases hframe : frames[f]? with
    | none => rfl
    | some frame =>
      have hnew : z ∉ frame.vars.keys := by
        simpa only [Store.frame, hframe, Option.getD_some] using hnew
      simp only [Option.map_some, Function.comp_apply, Table.erase_insert_self hnew]
  · simp only [if_neg hk]

end Store

/-! ## Code -/

namespace Store

/-- All functions of the store use names and natives of the given ones only. -/
def Uses (s : Store) (names : String → Prop) (natives : Native → Prop) : Prop :=
  ∀ a c, (s.object a).shape = .function c → c.Uses names natives

variable {s : Store} {names : String → Prop} {natives : Native → Prop}

theorem Uses.make (h : s.Uses names natives) {shape : Shape}
    (hc : ∀ c, shape = .function c → c.Uses names natives) (entries : List (String × Value)) :
    (s.make shape entries).1.Uses names natives := by
  intro a c hshape
  rw [object_make] at hshape
  split at hshape
  · exact hc c hshape
  · exact h a c hshape

theorem Uses.setProperty (h : s.Uses names natives) (a : Address) (key : String) (v : Value) :
    (s.setProperty a key v).Uses names natives := by
  intro b c hshape
  rw [shape_setProperty] at hshape
  exact h b c hshape

end Store

/-- A native that does the same whatever variables there are.  Those of the language do; a function
of the embedding program gets values, and what it does may depend on them.  It may make values and
write properties, but leaves the variables as they are and brings no code into the store. -/
def Host.IsBlind (host : Host) : Native → Prop
  | .foreign name => ∀ (s s' : Store) (self : Value) (args : List Value), s'.objects = s.objects →
      (host.native name s' self args).1 =
          { s' with objects := (host.native name s self args).1.objects } ∧
        (host.native name s' self args).2 = (host.native name s self args).2 ∧
        ∀ a c, ((host.native name s self args).1.object a).shape = .function c →
          (s.object a).shape = .function c
  | _ => True

/-! ## One binding more -/

/-- The second world has one binding more than the first, and their functions do not mention its
name. -/
structure World.Adds (host : Host) (f : FrameId) (z : String) (b : Binding) (w w' : World) :
    Prop where
  rest : w = { w' with store := w'.store.unbind f z }
  frame : f < w'.store.frames.size
  binding : (w'.store.frame f).vars.find? z = some b
  code : w'.store.Uses (· ≠ z) host.IsBlind

namespace World.Adds

variable {host : Host} {f : FrameId} {z : String} {b : Binding} {w w' : World}
  (h : w.Adds host f z b w')
include h

theorem objects_eq : w'.store.objects = w.store.objects := by rw [h.rest]; rfl

theorem frames_size_eq : w'.store.frames.size = w.store.frames.size := by
  rw [h.rest]
  exact Array.size_modify.symm

theorem object_eq (a : Address) : w'.store.object a = w.store.object a := by
  rw [Store.object, Store.object, h.objects_eq]

theorem vars_eq {name : String} (hn : name ≠ z) (g : FrameId) :
    (w'.store.frame g).vars.find? name = (w.store.frame g).vars.find? name := by
  rw [h.rest]
  exact (w'.store.vars_unbind hn g).symm

theorem stores : w.store.Matches Eq Eq (· ≠ z) w'.store :=
  Store.matches_of_eq h.objects_eq fun g _ hn => h.vars_eq hn g

theorem reserve (limit : Nat) : (Eval.reserve limit w').1 = (Eval.reserve limit w).1 ∧
    (Eval.reserve limit w).2.Adds host f z b (Eval.reserve limit w').2 := by
  obtain ⟨hrest, hframe, hbinding, hcode⟩ := h
  obtain ⟨hstore, -, -⟩ := Eval.reserve_kept limit w'
  have hreserve : Eval.reserve limit w = ((Eval.reserve limit w').1,
      { (Eval.reserve limit w').2 with store := w'.store.unbind f z }) := by
    rw [hrest]
    exact Eval.reserve_withStore limit w' _
  rw [hreserve]
  refine ⟨rfl, ?_, hstore.symm ▸ hframe, hstore.symm ▸ hbinding, hstore.symm ▸ hcode⟩
  rw [hstore]

theorem openFrame (outer : List FrameId) :
    ({ w with store := (w.store.openFrame outer).1 } : World).Adds host f z b
      { w' with store := (w'.store.openFrame outer).1 } where
  rest := by
    rw [h.rest]
    exact congrArg (World.mk · _ _ _ _) (w'.store.unbind_openFrame h.frame outer).symm
  frame := by
    rw [Store.frames_size_openFrame]
    exact Nat.lt_succ_of_lt h.frame
  binding := by
    rw [Store.frame_openFrame]
    exact h.binding
  code := h.code

theorem bindName {name : String} (hn : name ≠ z) (g : FrameId) (b' : Binding) :
    ({ w with store := w.store.bindName g name b' } : World).Adds host f z b
      { w' with store := w'.store.bindName g name b' } where
  rest := by
    rw [h.rest]
    exact congrArg (World.mk · _ _ _ _) (w'.store.unbind_bindName hn g b').symm
  frame := by
    rw [Store.frames_size_bindName]
    exact h.frame
  binding := by
    rw [Store.frame_bindName]
    split
    · next hg =>
      rw [← hg.1, Table.find?_insert, if_neg hn.symm]
      exact h.binding
    · exact h.binding
  code := h.code

theorem make {shape : Shape} (hc : ∀ c, shape = .function c → c.Uses (· ≠ z) host.IsBlind)
    (entries : List (String × Value)) :
    ({ w with store := (w.store.make shape entries).1 } : World).Adds host f z b
      { w' with store := (w'.store.make shape entries).1 } where
  rest := by
    rw [h.rest]
    rfl
  frame := h.frame
  binding := h.binding
  code := h.code.make hc entries

theorem setProperty (a : Address) (key : String) (v : Value) :
    ({ w with store := w.store.setProperty a key v } : World).Adds host f z b
      { w' with store := w'.store.setProperty a key v } where
  rest := by
    rw [h.rest]
    rfl
  frame := h.frame
  binding := h.binding
  code := h.code.setProperty a key v

theorem native {name : String} (hn : host.IsBlind (.foreign name)) (self : Value)
    (args : List Value) :
    ({ w with store := (host.native name w.store self args).1 } : World).Adds host f z b
        { w' with store := (host.native name w'.store self args).1 } ∧
      (host.native name w'.store self args).2 = (host.native name w.store self args).2 := by
  obtain ⟨hself, -, hcode⟩ := hn w.store w.store self args rfl
  obtain ⟨hother, hdata, -⟩ := hn w.store w'.store self args h.objects_eq
  refine ⟨⟨?_, ?_, ?_, fun a c hc => ?_⟩, hdata⟩
  · -- the functions leave the frames as they are, and without the binding they are the same
    have hframes : w.store.frames = (w'.store.unbind f z).frames :=
      congrArg (fun w => w.store.frames) h.rest
    rw [hself, hother, hframes, h.rest]
    rfl
  · rw [hother]
    exact h.frame
  · rw [hother]
    exact h.binding
  · rw [hother] at hc
    have hold : (w.store.object a).shape = .function c := hcode a c hc
    rw [← h.object_eq] at hold
    exact h.code a c hold

end World.Adds

namespace Eval

/-- Runs in a world and in one with a further binding are in step. -/
def unusedName (host : Host) (f : FrameId) (z : String) (b : Binding) :
    Simulation host Fixed where
  Holds _ w w' := w.Adds host f z b w'
  Objects _ := Eq
  Frames _ := Eq
  Names name := name ≠ z
  Natives := host.IsBlind
  objects_mono _ ha := ha
  frames_mono _ hf := hf
  shared _ _ _ := rfl
  stores h := h.stores
  depths h := by rw [h.rest]
  code {_ w w' a _ c} h _ hc := h.code a c ((congrArg Object.shape (h.object_eq a)).trans hc)
  print text h := ⟨by rw [h.rest], h.frame, h.binding, h.code⟩
  note e h := ⟨by rw [h.rest], h.frame, h.binding, h.code⟩
  atDepth depth h := ⟨by rw [h.rest], h.frame, h.binding, h.code⟩
  reserve limit h := h.reserve limit
  openFrame outer _ h := ⟨.mk, le_rfl, h.openFrame outer, h.frames_size_eq.symm⟩
  bindName h hg hn hb := by
    cases hg
    cases hb.eq
    exact h.bindName hn _ _
  make h hs hc he := by
    cases hs.eq
    cases he.eq
    exact ⟨.mk, le_rfl, h.make hc _, (congrArg Array.size h.objects_eq).symm⟩
  setProperty key h ha hv := by
    cases ha
    cases hv.eq
    exact h.setProperty _ key _
  foreign {_ w w' name self self' args args'} h hn hself hargs := by
    cases hself.eq
    cases eq_of_forall₂ (fun _ _ hv => Value.Matches.eq hv) hargs
    obtain ⟨hadds, hdata⟩ := h.native hn self args
    exact ⟨.mk, le_rfl, hadds, hdata, Datum.fixed_any (fun _ => rfl) (fun _ => trivial) _⟩
  dataFunction _ _ _ := Datum.fixed_any (fun _ => rfl) (fun _ => trivial) _

/-- A binding under a name that neither the tree nor a function of the store mentions changes
nothing but itself: the run ends in the same way, prints the same, and leads to the same world up to
that binding, which is still there. -/
theorem evaluate_unused_name (host : Host) (limit : Nat) (node : Node) (scope : Scope) (w : World)
    (f : FrameId) (z : String) (b : Binding) (hf : f < w.store.frames.size)
    (hfree : w.store.binds f z = false) (hnode : z ∉ node.names)
    (hcode : ∀ a c, (w.store.object a).shape = .function c →
      z ∉ c.names ∧ ∀ native ∈ c.native, host.IsBlind native) :
    let run := evaluate host limit node scope w
    let run' := evaluate host limit node scope { w with store := w.store.bindName f z b }
    run'.1 = run.1 ∧ run'.2.output = run.2.output ∧
      { run'.2 with store := run'.2.store.unbind f z } = run.2 ∧
      (run'.2.store.frame f).vars.find? z = some b := by
  have hadds : w.Adds host f z b { w with store := w.store.bindName f z b } := by
    refine ⟨?_, ?_, ?_, fun a c hc => ⟨fun x hx hxz => ?_, (hcode a c hc).2⟩⟩
    · rw [w.store.unbind_bindName_self hfree]
    · rw [Store.frames_size_bindName]
      exact hf
    · rw [Store.frame_bindName, if_pos ⟨rfl, hf⟩, Table.find?_insert, if_pos rfl]
    · exact (hcode a c hc).1 (hxz ▸ hx)
  have hnames : (unusedName host f z b).UsesOnly node.names := fun x hx hxz => hnode (hxz ▸ hx)
  have hruns : (unusedName host f z b).Simulates .mk (unusedName host f z b).Values
      (evaluate host limit node scope) (evaluate host limit node scope) :=
    Simulation.simulates_evaluate limit node hnames (List.forall₂_same.2 fun _ _ => rfl)
  obtain ⟨⟨⟩, -, hends, heq⟩ := hruns .mk w _ le_rfl hadds
  exact ⟨heq.eq rfl, by rw [hends.rest], hends.rest.symm, hends.binding⟩

/-- A frame with a function that counts up a variable of that frame. -/
def tally : World where
  store :=
    { frames := #[⟨⟨[("n", ⟨.num (.int 4), false⟩), ("sumar", ⟨.ref 3, false⟩)]⟩, []⟩]
      objects := Store.initial.objects.push ⟨.function ⟨["x"],
        [.giveBack (.assign (.ident "n") (.binary (.ident "n") (.ident "x") "+"))],
        some ⟨0, []⟩, none⟩, Store.baseProperties.insertAll
          (Store.functionProperties ++ [("name", .str "sumar")])⟩ }
  output := ""
  depth := 0
  trace := []
  room := 1000

theorem code_tally : ∀ a c, (tally.store.object a).shape = .function c →
    "extra" ∉ c.names ∧ ∀ native ∈ c.native, Session.silent.IsBlind native := by
  intro a c hc
  match a with
  | 0 | 1 | 2 =>
    cases hc
    refine ⟨by decide, ?_⟩
    rintro _ ⟨⟩
    trivial
  | 3 =>
    cases hc
    exact ⟨by decide, nofun⟩
  | _ + 4 => cases hc

/-- The function counts up with a further constant in its frame as it does without. -/
theorem evaluate_unused_name_tally :
    let node := Node.call (.ident "sumar") [.number 3]
    let extended : World := { tally with
      store := tally.store.bindName 0 "extra" ⟨.ref 3, true⟩ }
    (evaluate Session.silent 10 node ⟨0, []⟩ tally).1 = .ok (.num (.int 7)) ∧
      (evaluate Session.silent 10 node ⟨0, []⟩ extended).1 =
        (evaluate Session.silent 10 node ⟨0, []⟩ tally).1 ∧
      ((evaluate Session.silent 10 node ⟨0, []⟩ extended).2.store.frame 0).vars.find? "extra" =
        some ⟨.ref 3, true⟩ := by
  intro node extended
  obtain ⟨hsame, -, -, hthere⟩ := evaluate_unused_name Session.silent 10 node ⟨0, []⟩ tally
    0 "extra" ⟨.ref 3, true⟩ (by decide) (by decide) (by decide) code_tally
  exact ⟨by decide +kernel, hsame, hthere⟩

end Eval

end Guion
