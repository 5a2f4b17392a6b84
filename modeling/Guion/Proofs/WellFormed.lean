import Guion.Proofs.Nesting
import Guion.Proofs.Safety.Sessions

/-!
# Well-formed stores

References point to what exists, frames are nested, names and keys are unique, every value has the
shared methods and every function its own ones besides, and the globals of a frame are names that it
binds.  This holds after every history of sessions: whatever a script overrides, and wherever it
fails, no step of a run leaves the store in another state.

    History host sessions w → w.store.Tidy                                   (History.tidy)
-/

namespace Guion

/-! ## The invariant -/

/-- A frame with unique names, whose values exist, and whose globals are among its names. -/
structure Frame.Tidy (frame : Frame) (size : Nat) : Prop where
  values : ∀ e ∈ frame.vars.entries, e.2.value.Known (· < size)
  names : frame.vars.keys.Nodup
  globals : frame.globals.Nodup
  declared : ∀ name ∈ frame.globals, name ∈ frame.vars.keys

/-- A stored value with unique keys, whose values exist. -/
structure Object.Tidy (o : Object) (size : Nat) : Prop where
  values : ∀ e ∈ o.properties.entries, e.2.Known (· < size)
  keys : o.properties.keys.Nodup

structure Store.Tidy (s : Store) : Prop where
  frames : ∀ f, (s.frame f).Tidy s.objects.size
  objects : ∀ a, (s.object a).Tidy s.objects.size
  shared : ∀ a ∈ sharedAddresses, a < s.objects.size
  methods : ∀ a, a < s.objects.size → ∀ key ∈ ["__pintar__", "__typeof__"],
    key ∈ (s.object a).properties.keys
  /-- The shared methods themselves start without the properties of functions. -/
  functions : ∀ a c, (s.object a).shape = .function c → a ∉ sharedAddresses →
    ∀ key ∈ ["aCadena", "name"], key ∈ (s.object a).properties.keys
  own : s.Admits (Native.isOwn · = true)

/-! ## Frames and stored values by themselves -/

theorem Value.Known.lt_of_le {v : Value} {size size' : Nat} (h : v.Known (· < size))
    (hs : size ≤ size') : v.Known (· < size') :=
  h.mono fun _ ha => Nat.lt_of_lt_of_le ha hs

namespace Frame.Tidy

variable {frame : Frame} {size : Nat}

theorem of_le (h : frame.Tidy size) {size' : Nat} (hs : size ≤ size') : frame.Tidy size' :=
  ⟨fun e he => (h.values e he).lt_of_le hs, h.names, h.globals, h.declared⟩

theorem insert (h : frame.Tidy size) (name : String) {b : Binding}
    (hb : b.value.Known (· < size)) :
    ({ frame with vars := frame.vars.insert name b } : Frame).Tidy size where
  values e he := by
    rcases Table.mem_insert he with rfl | he
    · exact hb
    · exact h.values e he
  names := Table.nodup_keys_insert h.names name b
  globals := h.globals
  declared n hn := (frame.vars.keys_prefix_insert name b).mem (h.declared n hn)

/-- A name that is bound and not a global yet may become one. -/
theorem note (h : frame.Tidy size) {name : String} (hbound : name ∈ frame.vars.keys)
    (hnew : name ∉ frame.globals) :
    ({ frame with globals := frame.globals ++ [name] } : Frame).Tidy size where
  values := h.values
  names := h.names
  globals := by
    refine List.nodup_append.2 ⟨h.globals, by simp, ?_⟩
    rintro a ha _ hb rfl
    exact hnew (List.mem_singleton.1 hb ▸ ha)
  declared n hn := by
    rcases List.mem_append.1 hn with hn | hn
    · exact h.declared n hn
    · exact List.mem_singleton.1 hn ▸ hbound

end Frame.Tidy

theorem Frame.tidy_empty (size : Nat) : (⟨.empty, []⟩ : Frame).Tidy size :=
  ⟨fun _ h => absurd h List.not_mem_nil, List.nodup_nil, List.nodup_nil, fun _ h =>
    absurd h List.not_mem_nil⟩

namespace Object.Tidy

variable {o : Object} {size : Nat}

theorem of_le (h : o.Tidy size) {size' : Nat} (hs : size ≤ size') : o.Tidy size' :=
  ⟨fun e he => (h.values e he).lt_of_le hs, h.keys⟩

theorem insert (h : o.Tidy size) (key : String) {v : Value} (hv : v.Known (· < size)) :
    ({ o with properties := o.properties.insert key v } : Object).Tidy size where
  values e he := by
    rcases Table.mem_insert he with rfl | he
    · exact hv
    · exact h.values e he
  keys := Table.nodup_keys_insert h.keys key v

end Object.Tidy

/-! ## Operations of the store -/

namespace Store.Tidy

variable {s : Store}

theorem openFrame (h : s.Tidy) (outer : List FrameId) : (s.openFrame outer).1.Tidy :=
  ⟨fun f => s.frame_openFrame outer f ▸ h.frames f, h.objects, h.shared, h.methods, h.functions,
    h.own⟩

theorem bindName (h : s.Tidy) (f : FrameId) (name : String) {b : Binding}
    (hb : b.value.Known (· < s.objects.size)) : (s.bindName f name b).Tidy where
  frames g := by
    rw [frame_bindName]
    split
    · exact (h.frames f).insert name hb
    · exact h.frames g
  objects := h.objects
  shared := h.shared
  methods := h.methods
  functions := h.functions
  own := h.own

theorem declareGlobal (h : s.Tidy) (scope : Scope) {name : String} {b : Binding}
    (hb : b.value.Known (· < s.objects.size))
    (hnew : name ∉ (s.frame scope.frame).vars.keys) :
    ((s.bindName scope.frame name b).noteGlobal scope name).Tidy where
  frames g := by
    have hg := (h.bindName scope.frame name hb).frames g
    rw [frame_noteGlobal]
    split
    · next hs =>
      -- a new name is no global yet, since the globals are among the names that are bound
      refine hg.note ?_ ?_
      · rw [frame_bindName, if_pos ⟨hs.1, s.frames_size_bindName .. ▸ hs.2⟩]
        exact Table.mem_keys_insert ..
      · rw [frame_bindName, if_pos ⟨hs.1, s.frames_size_bindName .. ▸ hs.2⟩]
        exact fun hmem => hnew ((h.frames scope.frame).declared name hmem)
    · exact hg
  objects := h.objects
  shared := h.shared
  methods := h.methods
  functions := h.functions
  own := h.own

theorem make (h : s.Tidy) {shape : Shape} {entries : List (String × Value)}
    (hentries : ∀ e ∈ entries, e.2.Known (· < s.objects.size))
    (hshape : ∀ c, shape = .function c → (∀ native ∈ c.native, native.isOwn = true) ∧
      ∀ key ∈ ["aCadena", "name"], key ∈ entries.map Prod.fst) :
    (s.make shape entries).1.Tidy where
  frames f := by
    rw [objects_size_make]
    exact (h.frames f).of_le (Nat.le_succ _)
  objects a := by
    rw [objects_size_make, object_make]
    split
    · refine ⟨fun e he => ?_, Table.nodup_keys_insertAll entries (by decide)⟩
      exact (known_of_mem_insertAll h.shared hentries e he).lt_of_le (Nat.le_succ _)
    · exact (h.objects a).of_le (Nat.le_succ _)
  shared a ha := by
    rw [objects_size_make]
    exact Nat.lt_succ_of_lt (h.shared a ha)
  methods a ha key hkey := by
    rw [object_make]
    split
    · exact (Table.keys_prefix_insertAll entries baseProperties).mem hkey
    · next hne =>
      rw [objects_size_make] at ha
      exact h.methods a (Nat.lt_of_le_of_ne (Nat.le_of_lt_succ ha) hne) key hkey
  functions a c hc hshared key hkey := by
    rw [object_make] at hc ⊢
    split at hc
    · next ha =>
      rw [if_pos ha]
      exact Table.mem_keys_insertAll ((hshape c hc).2 key hkey) _
    · next ha =>
      rw [if_neg ha]
      exact h.functions a c hc hshared key hkey
  own := h.own.make (fun c hc => (hshape c hc).1) entries

theorem keys_subset_setProperty (s : Store) (a b : Address) (key : String) (v : Value) :
    (s.object b).properties.keys ⊆ ((s.setProperty a key v).object b).properties.keys := by
  rw [object_setProperty]
  split
  · next hb =>
    rw [hb.1]
    exact (Table.keys_prefix_insert _ key v).subset
  · exact List.Subset.refl _

theorem setProperty (h : s.Tidy) (a : Address) (key : String) {v : Value}
    (hv : v.Known (· < s.objects.size)) : (s.setProperty a key v).Tidy where
  frames f := by
    rw [objects_size_setProperty]
    exact h.frames f
  objects b := by
    rw [objects_size_setProperty, object_setProperty]
    split
    · exact (h.objects a).insert key hv
    · exact h.objects b
  shared := by
    rw [objects_size_setProperty]
    exact h.shared
  methods b hb k hk := by
    rw [objects_size_setProperty] at hb
    exact keys_subset_setProperty s a b key v (h.methods b hb k hk)
  functions b c hc hshared k hk := by
    rw [shape_setProperty] at hc
    exact keys_subset_setProperty s a b key v (h.functions b c hc hshared k hk)
  own := h.own.setProperty a key v

end Store.Tidy

namespace Store

theorem tidy_sharedMethod (native : Native) (name : String) {size : Nat}
    (h : ∀ a ∈ sharedAddresses, a < size) : (sharedMethod native name).Tidy size := by
  refine ⟨fun e he => ?_, Table.nodup_keys_insert (by decide) "name" _⟩
  have named : ∀ e ∈ [("name", Value.str name)], e.2.Known (· < size) :=
    List.forall_mem_singleton.2 trivial
  exact known_of_mem_insertAll h named e he

theorem tidy_initial : initial.Tidy where
  frames f := by
    rw [initial.frame_of_size_le (Nat.zero_le f)]
    exact Frame.tidy_empty _
  objects a := by
    have shared : ∀ a ∈ sharedAddresses, a < initial.objects.size := by decide
    match a with
    | 0 => exact tidy_sharedMethod _ _ shared
    | 1 => exact tidy_sharedMethod _ _ shared
    | 2 => exact tidy_sharedMethod _ _ shared
    | _ + 3 => exact ⟨fun _ h => absurd h List.not_mem_nil, List.nodup_nil⟩
  shared := by decide
  methods := by decide
  functions a c hc hshared := by
    match a with
    | 0 => exact absurd (by decide) hshared
    | 1 => exact absurd (by decide) hshared
    | 2 => exact absurd (by decide) hshared
    | _ + 3 => cases hc
  own a c hc native hn := by
    obtain ⟨own, hown, rfl⟩ := exists_of_function_initial hc
    cases hn
    exact hown

end Store

/-! ## Runs -/

/-- How many values are stored. -/
structure Extent where
  size : Nat

instance : Preorder Extent where
  le i j := i.size ≤ j.size
  le_refl i := Nat.le_refl i.size
  le_trans _ _ _ := Nat.le_trans

namespace Eval

/-- Tidiness is an invariant of runs without natives of the embedding program. -/
def tidiness (host : Host) : Invariant host Extent where
  Holds i w := w.store.objects.size = i.size ∧ w.store.Tidy
  Knows i a := a < i.size
  Covers _ _ := True
  Admits native := native.isOwn = true
  knows_mono h ha := Nat.lt_of_lt_of_le ha h
  covers_mono _ _ := trivial
  covers_nil _ := trivial
  quiet h hs _ := hs ▸ h
  openFrame {i w outer} h _ := ⟨i, le_rfl, ⟨h.1, h.2.openFrame outer⟩, trivial⟩
  bindName {i w _ f name b} h _ _ hb _ := ⟨h.1, h.2.bindName f name (h.1.symm ▸ hb)⟩
  make {i w shape entries} h hs he := by
    refine ⟨⟨w.store.objects.size + 1⟩, ?_, ⟨w.store.objects_size_make .., h.2.make ?_ ?_⟩, ?_⟩
    · exact h.1 ▸ Nat.le_succ _
    · exact h.1.symm ▸ he
    · rintro c rfl
      rcases hs with hs | hs <;> cases hs
    · exact Nat.lt_succ_self _
  makeFunction {i w c} name h _ hn := by
    refine ⟨⟨w.store.objects.size + 1⟩, ?_, ⟨w.store.objects_size_make .., h.2.make ?_ ?_⟩, ?_⟩
    · exact h.1 ▸ Nat.le_succ _
    · exact Store.known_functionProperties h.2.shared name
    · rintro _ ⟨⟩
      exact ⟨hn, by simp [Store.functionProperties]⟩
    · exact Nat.lt_succ_self _
  setProperty {i w a v} key h _ hv :=
    ⟨(w.store.objects_size_setProperty a key v).trans h.1, h.2.setProperty a key (h.1.symm ▸ hv)⟩
  binding {i w _ f name b} h _ _ hb := h.1 ▸ (h.2.frames f).values _ (Table.mem_of_find? hb)
  property {i w a e} h _ he := h.1 ▸ (h.2.objects a).values e he
  closure h _ hc := ⟨trivial, h.2.own _ _ hc⟩
  foreign _ hf _ _ := nomatch hf
  dataFunction _ hf _ := nomatch hf

theorem tidiness_founds (host : Host) : (tidiness host).Founds where
  own h := h
  declareGlobal {_ _ scope _ _} h _ hb hnew :=
    ⟨h.1, h.2.declareGlobal scope (h.1.symm ▸ hb) hnew⟩

end Eval

/-! ## Sessions -/

/-- A tidy store whose frames stand inside one another as given. -/
structure Store.WellFormed (s : Store) (around : FrameId → List FrameId) : Prop where
  tidy : s.Tidy
  nested : s.Nested around
  /-- The frames outward from a frame are ever older ones. -/
  outward : ∀ f, f < s.frames.size → (f :: around f).Pairwise fun inner outer => outer < inner
  closures : ∀ a c, (s.object a).shape = .function c → ∀ f ∈ c.chain, f < s.frames.size

theorem Store.Tidy.wellFormed {s : Store} (h : s.Tidy) {around : FrameId → List FrameId}
    (hn : s.Nested around) : s.WellFormed around where
  tidy := h
  nested := hn
  outward _ hf := hn.descends hf
  closures a c hc f hf := by
    obtain ⟨scope, hscope, hf⟩ := Closure.exists_of_mem_chain hf
    exact hn.lt_of_mem_chain (hn.scopes a c scope hc hscope) hf

namespace Session

theorem History.tidy {host : Host} {sessions : List Session} {w : World}
    (h : History host sessions w) : w.store.Tidy := by
  have h₀ (room : Int) : (Eval.tidiness host).Holds ⟨3⟩ (.initial room) :=
    ⟨rfl, Store.tidy_initial⟩
  obtain ⟨i, hi, -⟩ := h.holds (Eval.tidiness_founds host) h₀
  exact hi.2

/-- After any scripts of any sessions, whether they failed or not, the store is well-formed and the
sessions are in it. -/
theorem history_wellFormed {host : Host} {sessions : List Session} {w : World}
    (h : History host sessions w) : ∃ around, w.store.WellFormed around ∧
      ∀ session ∈ sessions, session.scope.Within w.store around := by
  obtain ⟨around, hnested, hsessions⟩ := h.nested
  exact ⟨around, h.tidy.wellFormed hnested, hsessions⟩

/-- Overrides a method of an object, writes to the shared method that names types, and fails. -/
def meddling : String :=
  "def o = \x7b__pintar__: 1\x7d; o.__typeof__.name = o; o.__typeof__.__pintar__ = nulo; f()"

/-- After a script that meddles with the methods of its values, and then fails, the store is
well-formed. -/
theorem history_wellFormed_meddling :
    ∃ w, History silent [⟨⟨0, []⟩⟩] w ∧
      (eval silent 10 ⟨⟨0, []⟩⟩ meddling w).1 = .error (.failed (.undeclared "f")) ∧
      ∃ around, (eval silent 10 ⟨⟨0, []⟩⟩ meddling w).2.store.WellFormed around ∧
        ∀ session ∈ [(⟨⟨0, []⟩⟩ : Session)], session.scope.Within
          (eval silent 10 ⟨⟨0, []⟩⟩ meddling w).2.store around := by
  have h := History.first silent
  have hm : (⟨⟨0, []⟩⟩ : Session) ∈ [(⟨⟨0, []⟩⟩ : Session)] := List.mem_cons_self
  have hfails : (eval silent 10 ⟨⟨0, []⟩⟩ meddling (firstWorld silent)).1 =
      .error (.failed (.undeclared "f")) := by decide +kernel
  exact ⟨_, h, hfails, history_wellFormed (h.eval 10 meddling hm)⟩

end Session

end Guion
