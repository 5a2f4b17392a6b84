import Guion.Proofs.Nesting
import Guion.Proofs.Safety.Sessions

/-!
# Worlds only grow

Whatever a run does and however it ends, what was there is still there: frames keep their globals
and their names in order, bindings keep their flag, constants keep their value, stored values keep
their shape and their keys in order, and printed text stays printed.

    w.Grows (evaluate host limit node scope w).2                              (grows_evaluate)

So the constants that a session starts with are there, with their values, after all its scripts.

    History host sessions w → session ∈ sessions →
      w.store.Fixes session.scope.frame Builtin.constants                     (History.fixes)
-/

namespace Guion

/-! ## The order -/

structure Frame.Grows (old new : Frame) : Prop where
  names : old.vars.keys <+: new.vars.keys
  bindings : ∀ name b, old.vars.find? name = some b → ∃ b', new.vars.find? name = some b' ∧
    b'.constant = b.constant ∧ (b.constant = true → b'.value = b.value)
  globals : new.globals = old.globals

structure Object.Grows (old new : Object) : Prop where
  shape : new.shape = old.shape
  keys : old.properties.keys <+: new.properties.keys

structure Store.Grows (old new : Store) : Prop where
  frames_size : old.frames.size ≤ new.frames.size
  objects_size : old.objects.size ≤ new.objects.size
  frame : ∀ f, f < old.frames.size → (old.frame f).Grows (new.frame f)
  object : ∀ a, a < old.objects.size → (old.object a).Grows (new.object a)

structure World.Grows (old new : World) : Prop where
  store : old.store.Grows new.store
  output : ∃ text, new.output = old.output ++ text

theorem Frame.Grows.refl (f : Frame) : f.Grows f :=
  ⟨List.prefix_rfl, fun _ b h => ⟨b, h, rfl, fun _ => rfl⟩, rfl⟩

theorem Frame.Grows.trans {f g h : Frame} (hfg : f.Grows g) (hgh : g.Grows h) : f.Grows h := by
  refine ⟨hfg.names.trans hgh.names, fun name b hb => ?_, hgh.globals.trans hfg.globals⟩
  obtain ⟨b', hb', hc, hv⟩ := hfg.bindings name b hb
  obtain ⟨b'', hb'', hc', hv'⟩ := hgh.bindings name b' hb'
  exact ⟨b'', hb'', hc'.trans hc, fun h => (hv' (hc.trans h)).trans (hv h)⟩

theorem Object.Grows.refl (o : Object) : o.Grows o := ⟨rfl, List.prefix_rfl⟩

theorem Object.Grows.trans {o p q : Object} (hop : o.Grows p) (hpq : p.Grows q) : o.Grows q :=
  ⟨hpq.shape.trans hop.shape, hop.keys.trans hpq.keys⟩

namespace Store

theorem Grows.refl (s : Store) : s.Grows s :=
  ⟨Nat.le_refl _, Nat.le_refl _, fun f _ => .refl (s.frame f), fun a _ => .refl (s.object a)⟩

theorem Grows.trans {s t u : Store} (hst : s.Grows t) (htu : t.Grows u) : s.Grows u where
  frames_size := Nat.le_trans hst.frames_size htu.frames_size
  objects_size := Nat.le_trans hst.objects_size htu.objects_size
  frame f hf := (hst.frame f hf).trans (htu.frame f (Nat.lt_of_lt_of_le hf hst.frames_size))
  object a ha := (hst.object a ha).trans (htu.object a (Nat.lt_of_lt_of_le ha hst.objects_size))

/-! ## Operations of the store -/

theorem grows_openFrame (s : Store) (outer : List FrameId) : s.Grows (s.openFrame outer).1 where
  frames_size := by
    rw [frames_size_openFrame]
    exact Nat.le_succ _
  objects_size := Nat.le_refl _
  frame f _ := by
    rw [frame_openFrame]
    exact .refl _
  object a _ := .refl _

/-- A new binding goes to the end, and one that is written over was not constant. -/
theorem grows_insert {frame : Frame} {name : String} {b : Binding}
    (h : ∀ old, frame.vars.find? name = some old → old.constant = false ∧ b.constant = false) :
    frame.Grows { frame with vars := frame.vars.insert name b } := by
  refine ⟨frame.vars.keys_prefix_insert name b, fun name' b' hb' => ?_, rfl⟩
  dsimp only
  rw [Table.find?_insert]
  by_cases hn : name' = name
  · subst hn
    obtain ⟨hold, hnew⟩ := h b' hb'
    rw [if_pos rfl]
    exact ⟨b, rfl, hnew.trans hold.symm, fun hc => absurd (hold.symm.trans hc) nofun⟩
  · rw [if_neg hn]
    exact ⟨b', hb', rfl, fun _ => rfl⟩

theorem grows_bindName {s : Store} {f : FrameId} {name : String} {b : Binding}
    (h : ∀ old, (s.frame f).vars.find? name = some old →
      old.constant = false ∧ b.constant = false) :
    s.Grows (s.bindName f name b) where
  frames_size := Nat.le_of_eq (s.frames_size_bindName f name b).symm
  objects_size := Nat.le_refl _
  frame g _ := by
    rw [frame_bindName]
    split
    · next hg =>
      rw [hg.1]
      exact grows_insert h
    · exact .refl _
  object a _ := .refl _

theorem grows_make (s : Store) (shape : Shape) (entries : List (String × Value)) :
    s.Grows (s.make shape entries).1 where
  frames_size := Nat.le_refl _
  objects_size := by
    rw [objects_size_make]
    exact Nat.le_succ _
  frame f _ := .refl _
  object a ha := by
    rw [object_make, if_neg (Nat.ne_of_lt ha)]
    exact .refl _

theorem grows_setProperty (s : Store) (a : Address) (key : String) (v : Value) :
    s.Grows (s.setProperty a key v) where
  frames_size := Nat.le_refl _
  objects_size := Nat.le_of_eq (s.objects_size_setProperty a key v).symm
  frame f _ := .refl _
  object b _ := by
    rw [object_setProperty]
    split
    · next hb =>
      rw [hb.1]
      exact ⟨rfl, (s.object a).properties.keys_prefix_insert key v⟩
    · exact .refl _

end Store

theorem World.Grows.refl (w : World) : w.Grows w :=
  ⟨.refl w.store, "", String.append_empty.symm⟩

theorem World.Grows.trans {w w' w'' : World} (h : w.Grows w') (h' : w'.Grows w'') :
    w.Grows w'' := by
  obtain ⟨text, ht⟩ := h.output
  obtain ⟨text', ht'⟩ := h'.output
  exact ⟨h.store.trans h'.store, text ++ text', by rw [ht', ht, String.append_assoc]⟩

theorem World.Grows.step {w w' : World} (h : w.Grows w') {s : Store} (hs : w'.store.Grows s) :
    w.Grows { w' with store := s } := ⟨h.store.trans hs, h.output⟩

/-! ## Runs -/

namespace Eval

/-- The growth since a world is an invariant. -/
def growth {host : Host} {admits : Native → Prop} (hhost : host.ReadOnly admits)
    (start : World) : Invariant host Fixed :=
  .blind hhost start.Grows
    (fun _ _ h hs ho => h.trans ⟨hs ▸ .refl _, ho⟩)
    (fun w outer h => h.step (w.store.grows_openFrame outer))
    (fun _ _ _ _ h hold => h.step (Store.grows_bindName hold))
    (fun w shape entries h => h.step (w.store.grows_make shape entries))
    (fun w a key v h => h.step (w.store.grows_setProperty a key v))

theorem grows_evaluate {host : Host} {admits : Native → Prop} (hhost : host.ReadOnly admits)
    (limit : Nat) (node : Node) (scope : Scope) {w : World} (hw : w.store.Admits admits) :
    w.Grows (evaluate host limit node scope w).2 := by
  have h := (growth hhost w).keeps_evaluate (i := .mk) limit node scope trivial
  obtain ⟨_, -, hgrows, -⟩ := h .mk w le_rfl ⟨.refl w, hw⟩
  exact hgrows.1

end Eval

theorem Session.readOnly_silent : silent.ReadOnly fun _ => True where
  native _ _ _ _ := ⟨rfl, .null⟩
  dataFunction _ _ := .null

/-! ## Constants -/

namespace Store

/-- The frame binds the names to the values as constants. -/
def Fixes (s : Store) (f : FrameId) (entries : List (String × Value)) : Prop :=
  f < s.frames.size ∧ ∀ e ∈ entries, (s.frame f).vars.find? e.1 = some ⟨e.2, true⟩

variable {s s' : Store} {f : FrameId} {entries : List (String × Value)}

theorem Fixes.grows (h : s.Fixes f entries) (hs : s.Grows s') : s'.Fixes f entries := by
  refine ⟨Nat.lt_of_lt_of_le h.1 hs.frames_size, fun e he => ?_⟩
  obtain ⟨b, hb, hconstant, hvalue⟩ := (hs.frame f h.1).bindings e.1 _ (h.2 e he)
  obtain ⟨v, constant⟩ := b
  cases hconstant
  cases hvalue rfl
  exact hb

theorem Fixes.noteGlobal (h : s.Fixes f entries) (scope : Scope) (name : String) :
    (s.noteGlobal scope name).Fixes f entries := by
  refine ⟨Nat.lt_of_lt_of_eq h.1 (s.frames_size_noteGlobal scope name).symm, fun e he => ?_⟩
  rw [vars_noteGlobal]
  exact h.2 e he

theorem Fixes.declareGlobal (h : s.Fixes f entries) (scope : Scope) {name : String} (b : Binding)
    (hnew : name ∉ (s.frame scope.frame).vars.keys) :
    ((s.bindName scope.frame name b).noteGlobal scope name).Fixes f entries := by
  refine (h.grows (grows_bindName fun old hold => ?_)).noteGlobal scope name
  rw [(Table.find?_eq_none_iff _ _).2 hnew] at hold
  cases hold

end Store

namespace Eval

/-- The constants of a frame stay as they are. -/
def fixing {host : Host} {admits : Native → Prop} (hhost : host.ReadOnly admits) (f : FrameId)
    (entries : List (String × Value)) : Invariant host Fixed :=
  .blind hhost (fun w => w.store.Fixes f entries)
    (fun _ _ h hs _ => hs ▸ h)
    (fun w outer h => h.grows (w.store.grows_openFrame outer))
    (fun _ _ _ _ h hold => h.grows (Store.grows_bindName hold))
    (fun w shape entries h => h.grows (w.store.grows_make shape entries))
    (fun w a key v h => h.grows (w.store.grows_setProperty a key v))

theorem fixing_founds {host : Host} {admits : Native → Prop} (hhost : host.ReadOnly admits)
    (hown : ∀ native : Native, native.isOwn = true → admits native) (f : FrameId)
    (entries : List (String × Value)) : (fixing hhost f entries).Founds where
  own h := hown _ h
  declareGlobal h _ _ hnew := ⟨h.1.declareGlobal _ _ hnew, h.2⟩

theorem fixes_of_keeps {host : Host} {admits : Native → Prop} (hhost : host.ReadOnly admits)
    {f : FrameId} {entries : List (String × Value)} {α : Type} {P : Fixed → α → Prop} {m : Run α}
    {w : World} (hm : (fixing hhost f entries).Keeps .mk P m) (h : w.store.Fixes f entries)
    (hw : w.store.Admits admits) : (m w).2.store.Fixes f entries := by
  obtain ⟨_, -, hfixes, -⟩ := hm .mk w le_rfl ⟨h, hw⟩
  exact hfixes.1

end Eval

namespace Builtin

variable {scope : Scope} {w w' : World}

/-- The constants that are declared come to those that the frame has. -/
theorem fixes_declareAll {entries fixed : List (String × Value)}
    (h : w.store.Fixes scope.frame fixed)
    (hd : declareAll scope true entries w = (.ok (), w')) :
    w'.store.Fixes scope.frame (fixed ++ entries) := by
  induction entries generalizing fixed w with
  | nil =>
    cases hd
    rwa [List.append_nil]
  | cons e rest ih =>
    obtain ⟨name, v⟩ := e
    obtain ⟨_, w₁, hname, hrest⟩ := Run.bind_eq_ok hd
    rw [declareName_apply] at hname
    split at hname
    · next hm =>
      cases hname
      have hold := h.declareGlobal scope ⟨v, true⟩ (Store.not_mem_keys_of_mayDeclare hm)
      rw [List.append_cons]
      refine ih ⟨hold.1, fun e he => ?_⟩ hrest
      rcases List.mem_append.1 he with he | he
      · exact hold.2 e he
      · cases List.mem_singleton.1 he
        rw [Store.vars_noteGlobal, Store.frame_bindName, if_pos ⟨rfl, h.1⟩]
        exact (Table.find?_insert ..).trans (if_pos rfl)
    · cases hname

/-- To register the built-ins calls no function, so it does not matter which natives there are. -/
theorem fixes_register (h : scope.frame < w.store.frames.size)
    (hr : register scope w = (.ok (), w')) : w'.store.Fixes scope.frame constants := by
  have founds := Eval.fixing_founds Session.readOnly_silent (fun _ _ => trivial) scope.frame []
  obtain ⟨made, w₁, hmade, hr⟩ := Run.bind_eq_ok hr
  obtain ⟨_, w₃, hdefine, hr⟩ := Run.bind_eq_ok hr
  obtain ⟨_, w₂, hvariables, hconstants⟩ := Run.bind_eq_ok hdefine
  have h₀ : w.store.Fixes scope.frame [] := ⟨h, fun _ he => absurd he List.not_mem_nil⟩
  have h₁ : w₁.store.Fixes scope.frame [] := by
    have kept := Eval.fixes_of_keeps Session.readOnly_silent
      (Eval.Invariant.keeps_makeFunctions founds isOwn_functions) h₀ fun _ _ _ _ _ => trivial
    rwa [hmade] at kept
  have h₂ : w₂.store.Fixes scope.frame [] := by
    have kept : (declareAll scope false made w₁).2.store.Fixes scope.frame [] :=
      Eval.fixes_of_keeps Session.readOnly_silent (Eval.Invariant.keeps_declareAll founds false
        trivial fun e _ => e.2.known_any) h₁ fun _ _ _ _ _ => trivial
    rwa [hvariables] at kept
  have h₃ := fixes_declareAll h₂ hconstants
  cases hr
  exact h₃

end Builtin

namespace Session

theorem fixes_globalScope {w w' : World} {scope : Scope}
    (h : globalScope w = (.ok scope, w')) : w'.store.Fixes scope.frame Builtin.constants := by
  obtain ⟨root, w₁, hroot, hrest⟩ := Run.bind_eq_ok h
  obtain ⟨_, w₂, hregister, hend⟩ := Run.bind_eq_ok hrest
  cases hroot
  cases hend
  have hsize : w.store.frames.size < (w.store.openFrame []).1.frames.size :=
    Nat.lt_of_lt_of_eq (Nat.lt_succ_self _) (w.store.frames_size_openFrame []).symm
  exact Builtin.fixes_register hsize hregister

/-- A session that has started has its constants, whatever its prelude did. -/
theorem fixes_start {host : Host} {settings : Settings} {files : Files} {prelude : PreludeChoice}
    {w w' : World} {session : Session} (hown : w.store.Admits (Native.isOwn · = true))
    (h : start host settings files prelude w = (.ok session, w')) :
    w'.store.Fixes session.scope.frame Builtin.constants := by
  rw [start_eq] at h
  obtain ⟨scope, w₁, hscope, h⟩ := Run.bind_eq_ok h
  have hown₁ : w₁.store.Admits (Native.isOwn · = true) := by
    obtain ⟨_, -, hw, -⟩ := Eval.Invariant.keeps_globalScope (ownership_founds host) .mk w le_rfl
      ⟨trivial, hown⟩
    rw [hscope] at hw
    exact hw.2
  obtain ⟨_, -, hw, hmade⟩ := keeps_runPrelude
    (show (Eval.fixing host.readOnly_isOwn scope.frame Builtin.constants).Covers .mk _ from trivial)
    settings files prelude .mk w₁ le_rfl ⟨fixes_globalScope hscope, hown₁⟩
  rw [h] at hw hmade
  cases hmade
  exact hw.1

theorem History.fixes {host : Host} {sessions : List Session} {w : World}
    (h : History host sessions w) {session : Session} (hm : session ∈ sessions) :
    w.store.Fixes session.scope.frame Builtin.constants := by
  induction h with
  | initial => cases hm
  | @start sessions w settings files prelude hist ih =>
    rcases List.mem_append.1 hm with hm | hm
    · rcases hs : Session.start host settings files prelude w with ⟨e | made, w'⟩ <;>
        rw [hs] at hm
      · cases hm
      · cases List.mem_singleton.1 hm
        exact fixes_start hist.own hs
    · have hfounds := Eval.fixing_founds host.readOnly_isOwn (fun _ hown => hown)
        session.scope.frame Builtin.constants
      have hkeeps := keeps_start (i := .mk) hfounds settings files prelude
      exact Eval.fixes_of_keeps _ hkeeps (ih hm) hist.own
  | load limit code hist _ ih =>
    exact Eval.fixes_of_keeps host.readOnly_isOwn (keeps_load trivial limit code) (ih hm) hist.own
  | eval limit code hist _ ih =>
    exact Eval.fixes_of_keeps host.readOnly_isOwn (keeps_eval trivial limit code) (ih hm) hist.own

/-- However a run ends, the world has grown and the frames that were there stand where they stood,
as long as the functions of the embedding program leave the store as it is; and after all scripts of
all sessions each session has the constants that it started with. -/
theorem evaluate_grows_and_fixes_constants {host : Host} {admits : Native → Prop}
    (hhost : host.ReadOnly admits) :
    (∀ (limit : Nat) (node : Node) (scope : Scope) (w : World), w.store.Admits admits →
      w.Grows (Eval.evaluate host limit node scope w).2 ∧
      ∀ around, w.store.Nested around → scope.Within w.store around →
        ∃ around', (∀ f, f < w.store.frames.size → around' f = around f) ∧
          (Eval.evaluate host limit node scope w).2.store.Nested around') ∧
    ∀ (sessions : List Session) (w : World), History host sessions w → ∀ session ∈ sessions,
      w.store.Fixes session.scope.frame
        [("verdadero", .bool true), ("falso", .bool false), ("nulo", .null)] := by
  refine ⟨fun limit node scope w hw => ⟨?_, fun around h hs => ?_⟩,
    fun sessions w h session hm => ?_⟩
  · exact Eval.grows_evaluate hhost limit node scope hw
  · exact Eval.nested_evaluate hhost limit node hw h hs
  · exact h.fixes hm

/-- A constant is declared and then assigned to. -/
def reassignment : Node :=
  .program [.declare true "k" (.number 1), .assign (.ident "k") (.number 2)]

/-- A session in which the assignment to a constant fails. -/
theorem evaluate_grows_and_fixes_constants_assigned :
    ∃ w around, History silent [⟨⟨0, []⟩⟩] w ∧ w.store.Nested around ∧
      Scope.Within ⟨0, []⟩ w.store around ∧
      w.store.Fixes 0 [("verdadero", .bool true), ("falso", .bool false), ("nulo", .null)] ∧
      (Eval.evaluate silent 10 reassignment ⟨0, []⟩ w).1 =
        .error (.failed (.constantAssigned "k")) ∧
      w.Grows (Eval.evaluate silent 10 reassignment ⟨0, []⟩ w).2 ∧
      ∃ around', (∀ f, f < w.store.frames.size → around' f = around f) ∧
        (Eval.evaluate silent 10 reassignment ⟨0, []⟩ w).2.store.Nested around' := by
  have h := History.first silent
  have hfails : (Eval.evaluate silent 10 reassignment ⟨0, []⟩ (firstWorld silent)).1 =
      .error (.failed (.constantAssigned "k")) := by decide +kernel
  have hm : (⟨⟨0, []⟩⟩ : Session) ∈ [(⟨⟨0, []⟩⟩ : Session)] := List.mem_cons_self
  obtain ⟨around, hnested, hwithin⟩ := h.nested
  obtain ⟨hrun, hconstants⟩ := evaluate_grows_and_fixes_constants readOnly_silent
  obtain ⟨hgrows, hframes⟩ := hrun 10 reassignment ⟨0, []⟩ (firstWorld silent)
    fun _ _ _ _ _ => trivial
  exact ⟨_, around, h, hnested, hwithin _ hm, hconstants _ _ h _ hm, hfails, hgrows,
    hframes around hnested (hwithin _ hm)⟩

end Session

end Guion
