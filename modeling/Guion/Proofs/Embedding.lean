import Mathlib.Data.List.Perm.Subperm
import Guion.Proofs.Showing
import Guion.Proofs.Simulation.Sessions
import Guion.Proofs.Termination

/-!
# One store inside another

A store may stand inside a larger one: its values and frames are among those of the larger store,
in the order in which they were made, and the shared methods are the shared methods.  A run in the
small world and a run in the large one are then in step.  Both make new places at their own ends, so
the store that grows in the small world stays inside the one that grows in the large world; and of
the large store nothing changes that the small one does not cover.

    (embedding host base out out' level).Founds                             (embedding_founds)
-/

namespace Guion

/-! ## Places -/

/-- Where the places of a store stand in another one, and how many places the other has. -/
structure Places where
  list : List Nat
  size : Nat

namespace Places

variable {p q : Places} {a a' b b' : Nat}

def Pairs (p : Places) (a a' : Nat) : Prop := p.list[a]? = some a'

/-- The places are those of a store with `n` places in one with `n'` places. -/
structure Spans (p : Places) (n n' : Nat) : Prop where
  length : p.list.length = n
  size : p.size = n'
  nodup : p.list.Nodup
  lt : ∀ a' ∈ p.list, a' < p.size

/-- A further place at the end of both stores. -/
def push (p : Places) : Places := ⟨p.list ++ [p.size], p.size + 1⟩

/-- Every place of a store in itself. -/
def whole (n : Nat) : Places := ⟨List.range n, n⟩

/-- Places that are added are all places that the other store gets. -/
instance : Preorder Places where
  le p q := ∃ m, q.list = p.list ++ List.range' p.size m ∧ q.size = p.size + m
  le_refl p := ⟨0, by simp⟩
  le_trans p q r := by
    rintro ⟨m, hq, hqs⟩ ⟨n, hr, hrs⟩
    refine ⟨m + n, ?_, ?_⟩
    · rw [hr, hq, hqs, List.append_assoc, List.range'_append_1]
    · rw [hrs, hqs, Nat.add_assoc]

theorem le_push (p : Places) : p ≤ p.push := ⟨1, rfl, rfl⟩

theorem Pairs.mem (h : p.Pairs a a') : a' ∈ p.list := List.mem_of_getElem? h

theorem Pairs.lt_length (h : p.Pairs a a') : a < p.list.length :=
  (List.getElem?_eq_some_iff.1 h).1

theorem Pairs.mono (hle : p ≤ q) (h : p.Pairs a a') : q.Pairs a a' := by
  obtain ⟨m, hq, -⟩ := hle
  unfold Pairs
  rw [hq, List.getElem?_append_left h.lt_length]
  exact h

theorem pairs_push (p : Places) : p.push.Pairs p.list.length p.size := List.getElem?_concat_length

theorem pairs_push_cases (h : p.push.Pairs a a') :
    p.Pairs a a' ∨ (a = p.list.length ∧ a' = p.size) := by
  have hlt := h.lt_length
  unfold Pairs push at h
  rw [push, List.length_append, List.length_singleton] at hlt
  by_cases ha : a < p.list.length
  · rw [List.getElem?_append_left ha] at h
    exact .inl h
  · obtain rfl : a = p.list.length := by omega
    rw [List.getElem?_concat_length] at h
    exact .inr ⟨rfl, (Option.some.inj h).symm⟩

theorem pairs_whole {n : Nat} : (whole n).Pairs a a' ↔ a' = a ∧ a < n := by
  unfold Pairs whole
  rw [List.getElem?_eq_some_iff]
  constructor
  · rintro ⟨hlt, heq⟩
    rw [List.getElem_range] at heq
    rw [List.length_range] at hlt
    exact ⟨heq.symm, hlt⟩
  · rintro ⟨rfl, hlt⟩
    exact ⟨by rwa [List.length_range], List.getElem_range _⟩

/-- Only new places of the other store are added, and all of them. -/
theorem mem_list_of_le (hle : p ≤ q) : a ∈ q.list ↔ a ∈ p.list ∨ (p.size ≤ a ∧ a < q.size) := by
  obtain ⟨m, hq, hqs⟩ := hle
  rw [hq, List.mem_append, List.mem_range'_1, hqs]

namespace Spans

variable {n n' : Nat} (h : p.Spans n n')
include h

theorem unique (ha : p.Pairs a a') (hb : p.Pairs b b') : a' = b' ↔ a = b := by
  unfold Pairs at ha hb
  rw [← List.getElem?_inj (Pairs.lt_length ha) h.nodup, ha, hb, Option.some.injEq]

theorem lt_of_pairs (ha : p.Pairs a a') : a < n ∧ a' < n' := by
  refine ⟨h.length ▸ ha.lt_length, ?_⟩
  have hlt := h.lt a' ha.mem
  rwa [h.size] at hlt

theorem le : n ≤ n' := by
  have hsub : p.list ⊆ List.range n' := by
    intro a' ha'
    have hlt := h.lt a' ha'
    rw [h.size] at hlt
    exact List.mem_range.2 hlt
  have hlength := (h.nodup.subperm hsub).length_le
  rwa [List.length_range, h.length] at hlength

theorem pairs_end : p.push.Pairs n n' := by
  have hend := pairs_push p
  rwa [h.length, h.size] at hend

theorem push_cases (ha : p.push.Pairs a a') : p.Pairs a a' ∨ (a = n ∧ a' = n') := by
  have hcases := pairs_push_cases ha
  rwa [h.length, h.size] at hcases

theorem push : p.push.Spans (n + 1) (n' + 1) where
  length := by rw [Places.push, List.length_append, List.length_singleton, h.length]
  size := congrArg (· + 1) h.size
  nodup := by
    refine List.nodup_append.2 ⟨h.nodup, List.nodup_singleton _, fun x hx y hy hxy => ?_⟩
    have hlt := h.lt x hx
    rw [hxy, List.mem_singleton.1 hy] at hlt
    exact Nat.lt_irrefl _ hlt
  lt a' ha' := by
    rcases List.mem_append.1 ha' with ha' | ha'
    · exact Nat.lt_succ_of_lt (h.lt a' ha')
    · rw [List.mem_singleton.1 ha']
      exact Nat.lt_succ_self _

/-- The other store may have more places at its end. -/
theorem grow {m : Nat} (hm : n' ≤ m) : (⟨p.list, m⟩ : Places).Spans n m where
  length := h.length
  size := rfl
  nodup := h.nodup
  lt a' ha' := by
    have hlt := h.lt a' ha'
    rw [h.size] at hlt
    exact Nat.lt_of_lt_of_le hlt hm

end Spans

theorem spans_whole (n : Nat) : (whole n).Spans n n where
  length := List.length_range
  size := rfl
  nodup := List.nodup_range
  lt _ ha' := List.mem_range.1 ha'

end Places

/-- The places of values and the places of frames. -/
abbrev Track := Places × Places

/-! ## Stores -/

/-- The first store stands inside the second one. -/
structure Store.Embeds (t : Track) (s s' : Store) : Prop where
  objects : t.1.Spans s.objects.size s'.objects.size
  frames : t.2.Spans s.frames.size s'.frames.size
  shared : ∀ a ∈ sharedAddresses, t.1.Pairs a a
  methods : ∀ a ∈ sharedAddresses, (s'.object a).shape = (initial.object a).shape
  object {a a' : Address} : t.1.Pairs a a' →
    (s.object a).Matches t.1.Pairs t.2.Pairs (s'.object a')
  vars {f f' : FrameId} : t.2.Pairs f f' →
    (s.frame f).vars.Matches (Binding.Matches t.1.Pairs) (s'.frame f').vars
  own : s.Admits (Native.isOwn · = true)

theorem Object.Matches.mono {objects objects' : Address → Address → Prop}
    {frames frames' : FrameId → FrameId → Prop} (h : ∀ a a', objects a a' → objects' a a')
    (hf : ∀ f f', frames f f' → frames' f f') {o o' : Object} (ho : o.Matches objects frames o') :
    o.Matches objects' frames' o' :=
  ⟨ho.shape.mono hf, ho.properties.mono fun _ _ hv => hv.mono h⟩

theorem Binding.Matches.mono {objects objects' : Address → Address → Prop}
    (h : ∀ a a', objects a a' → objects' a a') {b b' : Binding} (hb : b.Matches objects b') :
    b.Matches objects' b' :=
  ⟨hb.value.mono h, hb.constant⟩

namespace Store.Embeds

variable {t : Track} {s s' : Store} (h : s.Embeds t s')
include h

theorem stores : s.Matches t.1.Pairs t.2.Pairs (fun _ => True) s' where
  unique := h.objects.unique
  object := h.object
  binding hf _ := (h.vars hf).rel_find? _
  shows := show?_of_matches (fun _ _ => h.object) (fun _ _ ha => (h.objects.lt_of_pairs ha).1)
    h.objects.le

theorem openFrame (outer outer' : List FrameId) :
    (s.openFrame outer).1.Embeds (t.1, t.2.push) (s'.openFrame outer').1 where
  objects := h.objects
  frames := by
    rw [frames_size_openFrame, frames_size_openFrame]
    exact h.frames.push
  shared := h.shared
  methods := h.methods
  object ha := (h.object ha).mono (fun _ _ hb => hb) fun _ _ hf => hf.mono t.2.le_push
  vars {f f'} hf := by
    rw [frame_openFrame, frame_openFrame]
    rcases h.frames.push_cases hf with hf | ⟨rfl, rfl⟩
    · exact h.vars hf
    · rw [frame_of_size_le s le_rfl, frame_of_size_le s' le_rfl]
      exact Table.matches_empty
  own := h.own

theorem bindName {f f' : FrameId} (hf : t.2.Pairs f f') (name : String) {b b' : Binding}
    (hb : b.Matches t.1.Pairs b') : (s.bindName f name b).Embeds t (s'.bindName f' name b') where
  objects := h.objects
  frames := by
    rw [frames_size_bindName, frames_size_bindName]
    exact h.frames
  shared := h.shared
  methods := h.methods
  object := h.object
  vars {g g'} hg := by
    obtain ⟨hlt, hlt'⟩ := h.frames.lt_of_pairs hf
    rw [frame_bindName, frame_bindName]
    by_cases hgf : g = f
    · have hgf' : g' = f' := (h.frames.unique hg hf).2 hgf
      rw [if_pos ⟨hgf, hlt⟩, if_pos ⟨hgf', hlt'⟩]
      exact (h.vars hf).insert name hb
    · have hgf' : g' ≠ f' := fun e => hgf ((h.frames.unique hg hf).1 e)
      rw [if_neg fun e => hgf e.1, if_neg fun e => hgf' e.1]
      exact h.vars hg
  own := h.own

theorem noteGlobal (scope scope' : Scope) (name : String) :
    (s.noteGlobal scope name).Embeds t (s'.noteGlobal scope' name) where
  objects := h.objects
  frames := by
    rw [frames_size_noteGlobal, frames_size_noteGlobal]
    exact h.frames
  shared := h.shared
  methods := h.methods
  object := h.object
  vars hf := by
    rw [vars_noteGlobal, vars_noteGlobal]
    exact h.vars hf
  own := h.own

theorem make {shape shape' : Shape} (hshape : shape.Matches t.2.Pairs shape')
    (hown : ∀ c, shape = .function c → ∀ native ∈ c.native, native.isOwn = true)
    {entries entries' : List (String × Value)} (he : EntriesMatch t.1.Pairs entries entries') :
    (s.make shape entries).1.Embeds (t.1.push, t.2) (s'.make shape' entries').1 where
  objects := by
    rw [objects_size_make, objects_size_make]
    exact h.objects.push
  frames := h.frames
  shared a ha := (h.shared a ha).mono t.1.le_push
  methods a ha := by
    have hne : a ≠ s'.objects.size := Nat.ne_of_lt (h.objects.lt_of_pairs (h.shared a ha)).2
    rw [object_make, if_neg hne]
    exact h.methods a ha
  object {a a'} ha := by
    rw [object_make, object_make]
    have grown {o o' : Object} (ho : o.Matches t.1.Pairs t.2.Pairs o') :
        o.Matches t.1.push.Pairs t.2.Pairs o' :=
      ho.mono (fun _ _ hb => hb.mono t.1.le_push) fun _ _ hf => hf
    rcases h.objects.push_cases ha with ha | ⟨rfl, rfl⟩
    · obtain ⟨hlt, hlt'⟩ := h.objects.lt_of_pairs ha
      rw [if_neg (Nat.ne_of_lt hlt), if_neg (Nat.ne_of_lt hlt')]
      exact grown (h.object ha)
    · rw [if_pos rfl, if_pos rfl]
      have hbase : baseProperties.Matches (Value.Matches t.1.Pairs) baseProperties := by
        have hknown : ∀ e ∈ (baseProperties.insertAll []).entries,
            e.2.Known fun a => t.1.Pairs a a := known_of_mem_insertAll h.shared nofun
        exact entriesMatch_self hknown
      exact grown ⟨hshape, hbase.insertAll he⟩
  vars hf := (h.vars hf).mono fun _ _ hb => hb.mono fun _ _ ha => ha.mono t.1.le_push
  own := h.own.make hown entries

theorem setProperty {a a' : Address} (ha : t.1.Pairs a a') (key : String) {v v' : Value}
    (hv : v.Matches t.1.Pairs v') :
    (s.setProperty a key v).Embeds t (s'.setProperty a' key v') where
  objects := by
    rw [objects_size_setProperty, objects_size_setProperty]
    exact h.objects
  frames := h.frames
  shared := h.shared
  methods b hb := (shape_setProperty s' a' b key v').trans (h.methods b hb)
  object {b b'} hb := by
    obtain ⟨hlt, hlt'⟩ := h.objects.lt_of_pairs ha
    rw [object_setProperty, object_setProperty]
    by_cases hba : b = a
    · have hba' : b' = a' := (h.objects.unique hb ha).2 hba
      rw [if_pos ⟨hba, hlt⟩, if_pos ⟨hba', hlt'⟩]
      exact ⟨(h.object ha).shape, (h.object ha).properties.insert key hv⟩
    · have hba' : b' ≠ a' := fun e => hba ((h.objects.unique hb ha).1 e)
      rw [if_neg fun e => hba e.1, if_neg fun e => hba' e.1]
      exact h.object hb
  vars := h.vars
  own := h.own.setProperty a key v

end Store.Embeds

/-! ## The rest of the larger store -/

/-- The places that are not covered read as in an earlier store. -/
structure Store.Leaves (t : Track) (base s : Store) : Prop where
  objects_le : base.objects.size ≤ t.1.size
  frames_le : base.frames.size ≤ t.2.size
  object {a : Address} : a < base.objects.size → a ∉ t.1.list → s.object a = base.object a
  frame {f : FrameId} : f < base.frames.size → f ∉ t.2.list → s.frame f = base.frame f

namespace Store.Leaves

variable {t : Track} {base s : Store} (h : Leaves t base s)
include h

theorem openFrame (outer : List FrameId) :
    Leaves (t.1, t.2.push) base (s.openFrame outer).1 where
  objects_le := h.objects_le
  frames_le := Nat.le_succ_of_le h.frames_le
  object := h.object
  frame hlt hf := by
    rw [frame_openFrame]
    exact h.frame hlt fun hmem => hf (List.mem_append_left _ hmem)

theorem bindName {f : FrameId} (hf : f ∈ t.2.list) (name : String) (b : Binding) :
    Leaves t base (s.bindName f name b) where
  objects_le := h.objects_le
  frames_le := h.frames_le
  object := h.object
  frame {g} hlt hg := by
    have hne : g ≠ f := fun e => hg (e ▸ hf)
    rw [frame_bindName, if_neg fun e => hne e.1]
    exact h.frame hlt hg

theorem noteGlobal {scope : Scope} (hf : scope.frame ∈ t.2.list) (name : String) :
    Leaves t base (s.noteGlobal scope name) where
  objects_le := h.objects_le
  frames_le := h.frames_le
  object := h.object
  frame {g} hlt hg := by
    have hne : g ≠ scope.frame := fun e => hg (e ▸ hf)
    rw [frame_noteGlobal, if_neg fun e => hne e.1]
    exact h.frame hlt hg

theorem make (hsize : t.1.size = s.objects.size) (shape : Shape)
    (entries : List (String × Value)) : Leaves (t.1.push, t.2) base (s.make shape entries).1 where
  objects_le := Nat.le_succ_of_le h.objects_le
  frames_le := h.frames_le
  object {a} hlt ha := by
    have hle : base.objects.size ≤ s.objects.size := hsize ▸ h.objects_le
    have hne : a ≠ s.objects.size := Nat.ne_of_lt (Nat.lt_of_lt_of_le hlt hle)
    rw [object_make, if_neg hne]
    exact h.object hlt fun hmem => ha (List.mem_append_left _ hmem)
  frame := h.frame

theorem setProperty {a : Address} (ha : a ∈ t.1.list) (key : String) (v : Value) :
    Leaves t base (s.setProperty a key v) where
  objects_le := h.objects_le
  frames_le := h.frames_le
  object {b} hlt hb := by
    have hne : b ≠ a := fun e => hb (e ▸ ha)
    rw [object_setProperty, if_neg fun e => hne e.1]
    exact h.object hlt hb
  frame := h.frame

end Store.Leaves

/-! ## Worlds -/

/-- Room is there or can be made in the one world if it is or can be in the other, for what was
raised was raised within what the host allows. -/
theorem World.RoomLe.reserve {w w' : World} (h : w.RoomLe w') (hdepth : w'.depth = w.depth)
    (limit : Nat) : (Eval.reserve limit w').1 = (Eval.reserve limit w).1 ∧
      (Eval.reserve limit w).2.RoomLe (Eval.reserve limit w').2 ∧
      (w'.room = w.room → (Eval.reserve limit w').2.room = (Eval.reserve limit w).2.room) := by
  obtain ⟨hle, hmost⟩ := h
  rcases Eval.reserve_cases limit w with ⟨hroom, hr⟩ | ⟨hzero, hlt, hcan, hr⟩ |
    ⟨hzero, hlt, hcannot, hr⟩
  · rcases Eval.reserve_cases limit w' with ⟨-, hr'⟩ | ⟨hzero', hlt', -, -⟩ | ⟨hzero', hlt', -, -⟩
    · rw [hr, hr']
      exact ⟨rfl, ⟨hle, hmost⟩, id⟩
    · have hroom := hroom (hdepth.symm.trans hzero')
      omega
    · have hroom := hroom (hdepth.symm.trans hzero')
      omega
  · rcases Eval.reserve_cases limit w' with ⟨hroom', hr'⟩ | ⟨-, -, -, hr'⟩ | ⟨-, -, hcannot', -⟩
    · rw [hr, hr']
      have hroom' := hroom' (hdepth.trans hzero)
      refine ⟨rfl, ⟨hroom', hmost.imp_right fun heq => ?_⟩, fun heq => ?_⟩
      · omega
      · omega
    · rw [hr, hr']
      exact ⟨rfl, ⟨Int.le_refl _, .inr rfl⟩, fun _ => rfl⟩
    · omega
  · rcases Eval.reserve_cases limit w' with ⟨hroom', -⟩ | ⟨-, -, hcan', -⟩ | ⟨-, -, -, hr'⟩
    · have hroom' := hroom' (hdepth.trans hzero)
      omega
    · omega
    · rw [hr, hr']
      exact ⟨rfl, ⟨hle, hmost⟩, id⟩

/-- The first world stands inside the second one.  Since the second one had the store `base`,
nothing has changed in it beside the first one, and both have printed the same.  The recursion limit
of the second one may have been raised further, unless the worlds are level. -/
structure World.Embeds (base : Store) (out out' : String) (level : Prop) (t : Track)
    (w w' : World) : Prop where
  store : w.store.Embeds t w'.store
  rest : Store.Leaves t base w'.store
  depth : w'.depth = w.depth
  room : w.RoomLe w'
  level : level → w'.room = w.room
  output : ∃ text, w.output = out ++ text ∧ w'.output = out' ++ text

/-- What a step does to the stores is all that matters if it does nothing else. -/
theorem World.Embeds.withStores {base : Store} {out out' : String} {level : Prop} {t t' : Track}
    {w w' : World} (h : w.Embeds base out out' level t w') {s s' : Store} (hs : s.Embeds t' s')
    (hrest : Store.Leaves t' base s') :
    ({ w with store := s } : World).Embeds base out out' level t' { w' with store := s' } where
  store := hs
  rest := hrest
  depth := h.depth
  room := ⟨h.room.le, h.room.most⟩
  level := h.level
  output := h.output

namespace Eval

/-- Runs in a world and in one around it are in step. -/
def embedding (host : Host) (base : Store) (out out' : String) (level : Prop) :
    Simulation host Track where
  Holds t w w' := w.Embeds base out out' level t w'
  Objects t := t.1.Pairs
  Frames t := t.2.Pairs
  Names _ := True
  Natives native := native.isOwn = true
  objects_mono hle ha := ha.mono hle.1
  frames_mono hle hf := hf.mono hle.2
  shared h := h.store.shared
  stores h := h.store.stores
  depths h := h.depth
  code h _ hc := ⟨fun _ _ => trivial, h.store.own _ _ hc⟩
  print text h := by
    obtain ⟨before, hout, hout'⟩ := h.output
    refine ⟨h.store, h.rest, h.depth, ⟨h.room.le, h.room.most⟩, h.level, before ++ text, ?_, ?_⟩
    · rw [hout, String.append_assoc]
    · rw [hout', String.append_assoc]
  note _ h := ⟨h.store, h.rest, h.depth, ⟨h.room.le, h.room.most⟩, h.level, h.output⟩
  atDepth _ h := ⟨h.store, h.rest, rfl, ⟨h.room.le, h.room.most⟩, h.level, h.output⟩
  reserve {_ w w'} limit h := by
    obtain ⟨hends, hroom, hlevel⟩ := h.room.reserve h.depth limit
    obtain ⟨hstore, houtput, hdepth⟩ := reserve_kept limit w
    obtain ⟨hstore', houtput', hdepth'⟩ := reserve_kept limit w'
    refine ⟨hends, hstore.symm ▸ hstore'.symm ▸ h.store, hstore'.symm ▸ h.rest, ?_, hroom,
      fun hl => hlevel (h.level hl), houtput.symm ▸ houtput'.symm ▸ h.output⟩
    rw [hdepth, hdepth', h.depth]
  openFrame {t _ _} outer outer' h := by
    refine ⟨(t.1, t.2.push), ⟨le_rfl, t.2.le_push⟩, ?_, h.store.frames.pairs_end⟩
    exact h.withStores (h.store.openFrame outer outer') (h.rest.openFrame outer')
  bindName h hf _ hb := h.withStores (h.store.bindName hf _ hb) (h.rest.bindName hf.mem _ _)
  make {t _ _ _ _ _ _} h hs hc he := by
    have hmade := h.store.make hs (fun c hshape => (hc c hshape).native) he
    refine ⟨(t.1.push, t.2), ⟨t.1.le_push, le_rfl⟩, ?_, h.store.objects.pairs_end⟩
    exact h.withStores hmade (h.rest.make h.store.objects.size _ _)
  setProperty key h ha hv :=
    h.withStores (h.store.setProperty ha key hv) (h.rest.setProperty ha.mem key _)
  foreign _ hn := nomatch hn
  dataFunction _ _ hn := nomatch hn

theorem embedding_founds (host : Host) (base : Store) (out out' : String) (level : Prop) :
    (embedding host base out out' level).Founds where
  names _ := trivial
  own h := h
  notes _ _ h := ⟨h.store, h.rest, h.depth, ⟨h.room.le, h.room.most⟩, h.level, h.output⟩
  noteGlobal name h hf :=
    h.withStores (h.store.noteGlobal _ _ name) (h.rest.noteGlobal hf.mem name)

end Eval

end Guion
