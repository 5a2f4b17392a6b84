import Guion.Proofs.Nesting

/-!
# Scopes that a run cannot reach

A run gets from frames to the values that they bind, from a stored value to its properties, and from
a function to the frames around it.  What it cannot reach in this way from the scope in which it
starts, or from the shared methods, it leaves exactly as it was, and it gives no way to get there.
A frame that only the functions made in it hold is therefore changed by nobody who cannot reach one
of these functions.  The functions of the embedding program must keep to the same rule: what they
touch is new or can be reached from the values that they get.

    ¬ s.Reaches scope.Starts p → s.Has p → s.SameAt s' p                   (confined_evaluate)
-/

namespace Guion

/-! ## Places -/

/-- A place of the store that can change. -/
inductive Place where
  | frame (f : FrameId)
  | object (a : Address)
deriving DecidableEq

namespace Store

def Has (s : Store) : Place → Prop
  | .frame f => f < s.frames.size
  | .object a => a < s.objects.size

instance (s : Store) : DecidablePred s.Has
  | .frame f => inferInstanceAs (Decidable (f < s.frames.size))
  | .object a => inferInstanceAs (Decidable (a < s.objects.size))

/-- Two stores hold the same at a place. -/
def SameAt (s s' : Store) : Place → Prop
  | .frame f => s'.frame f = s.frame f
  | .object a => s'.object a = s.object a

/-- One step from a place to another.  A function leads to all frames of its scope, so from a frame
that a function leads to no further link outward is needed. -/
inductive Leads (s : Store) : Place → Place → Prop
  | binding {f : FrameId} {name : String} {b : Binding} {a : Address} :
      (s.frame f).vars.find? name = some b → b.value = .ref a → Leads s (.frame f) (.object a)
  | property {a b : Address} {e : String × Value} :
      e ∈ (s.object a).properties.entries → e.2 = .ref b → Leads s (.object a) (.object b)
  | closure {a : Address} {c : Closure} {f : FrameId} :
      (s.object a).shape = .function c → f ∈ c.chain → Leads s (.object a) (.frame f)

theorem SameAt.trans {s s' s'' : Store} {p : Place} (h : s.SameAt s' p) (h' : s'.SameAt s'' p) :
    s.SameAt s'' p := by
  cases p with
  | frame f => exact Eq.trans h' h
  | object a => exact Eq.trans h' h

/-- What does not exist yet reads as empty, so nothing leads on from there. -/
theorem Leads.has {s : Store} {p q : Place} (h : s.Leads p q) : s.Has p := by
  by_contra hp
  cases h with
  | @binding f name b a hb hv =>
    rw [s.frame_of_size_le (Nat.le_of_not_lt hp)] at hb
    cases hb
  | @property a c e he hv =>
    rw [s.object_of_size_le (Nat.le_of_not_lt hp)] at he
    cases he
  | @closure a c f hc hf =>
    rw [s.object_of_size_le (Nat.le_of_not_lt hp)] at hc
    cases hc

/-- Where two stores hold the same, the same steps lead on. -/
theorem Leads.of_sameAt {s s' : Store} {p q : Place} (h : s'.Leads p q) (hp : s.SameAt s' p) :
    s.Leads p q := by
  cases h with
  | @binding f name b a hb hv =>
    have hf : s'.frame f = s.frame f := hp
    exact .binding (hf ▸ hb) hv
  | @property a c e he hv =>
    have ha : s'.object a = s.object a := hp
    exact .property (ha ▸ he) hv
  | @closure a c f hc hf =>
    have ha : s'.object a = s.object a := hp
    exact .closure (ha ▸ hc) hf

/-- The places to which steps lead from those that are given. -/
inductive Reaches (s : Store) (given : Place → Prop) : Place → Prop
  | given {p : Place} : given p → Reaches s given p
  | step {p q : Place} : Reaches s given p → s.Leads p q → Reaches s given q

end Store

/-- The place that a value refers to. -/
inductive Value.RefersTo : Value → Place → Prop
  | ref (a : Address) : RefersTo (.ref a) (.object a)

/-- What a run in a scope starts from: the frames of the scope and the shared methods. -/
inductive Scope.Starts (scope : Scope) : Place → Prop
  | frame {f : FrameId} : f ∈ scope.chain → Starts scope (.frame f)
  | shared {a : Address} : a ∈ Store.sharedAddresses → Starts scope (.object a)

/-- A frame is one of the scope or stands around a function that is reached. -/
theorem Store.Reaches.frame_cases {s : Store} {scope : Scope} {f : FrameId}
    (h : s.Reaches scope.Starts (.frame f)) :
    f ∈ scope.chain ∨ ∃ a c, s.Reaches scope.Starts (.object a) ∧
      (s.object a).shape = .function c ∧ f ∈ c.chain := by
  cases h with
  | given h =>
    cases h with
    | frame hf => exact .inl hf
  | step hp h =>
    cases h with
    | closure hc hf => exact .inr ⟨_, _, hp, hc, hf⟩

/-! ## Links outward

Frames hold no link to the frame around them; where frames are nested, what is reached is closed
under these links all the same. -/

namespace Store.Nested

variable {s : Store} {around : FrameId → List FrameId} (h : s.Nested around)
include h

theorem around_subset {n : FrameId} (hn : n < s.frames.size) {f : FrameId} (hf : f ∈ around n) :
    around f ⊆ around n := by
  induction n using Nat.strongRecOn with
  | ind n ih =>
    rcases h.older n hn with hnone | ⟨m, hm, hmore⟩
    · rw [hnone] at hf
      cases hf
    · rw [hmore] at hf ⊢
      rcases List.mem_cons.1 hf with rfl | hf
      · exact List.subset_cons_self _ _
      · exact List.subset_cons_of_subset _ (ih m hm (Nat.lt_trans hm hn) hf)

theorem around_subset_chain {scope : Scope} (hs : scope.Within s around) {f : FrameId}
    (hf : f ∈ scope.chain) : around f ⊆ scope.chain := by
  rw [Scope.chain, hs.2] at hf ⊢
  rcases List.mem_cons.1 hf with rfl | hf
  · exact List.subset_cons_self _ _
  · exact List.subset_cons_of_subset _ (h.around_subset hs.1 hf)

/-- With a frame, the frames around it are reached. -/
theorem reaches_around {scope : Scope} (hs : scope.Within s around) {f g : FrameId}
    (hf : s.Reaches scope.Starts (.frame f)) (hg : g ∈ around f) :
    s.Reaches scope.Starts (.frame g) := by
  rcases hf.frame_cases with hf | ⟨a, c, ha, hc, hf⟩
  · exact .given (.frame (h.around_subset_chain hs hf hg))
  · obtain ⟨inner, hscope, hf⟩ := Closure.exists_of_mem_chain hf
    have hg := h.around_subset_chain (h.scopes a c inner hc hscope) hf hg
    exact ha.step (.closure hc (Closure.chain_of_scope hscope ▸ hg))

end Store.Nested

/-- The value that a run hands on: its own, or the one that it returns. -/
def Eval.given? : Except Exit Value → Option Value
  | .ok v => some v
  | .error (.returned v) => some v
  | .error _ => none

/-- What is at hand after a run in a scope. -/
def Eval.AtHand (scope : Scope) (outcome : Except Exit Value) (p : Place) : Prop :=
  scope.Starts p ∨ ∃ v, given? outcome = some v ∧ v.RefersTo p

/-! ## Territories -/

namespace Store

/-- No step leads out of the territory. -/
structure Closed (s : Store) (inside : Place → Prop) : Prop where
  bindings {f : FrameId} {name : String} {b : Binding} : inside (.frame f) →
    (s.frame f).vars.find? name = some b → b.value.Known (inside <| .object ·)
  properties {a : Address} {e : String × Value} : inside (.object a) →
    e ∈ (s.object a).properties.entries → e.2.Known (inside <| .object ·)
  closures {a : Address} {c : Closure} : inside (.object a) → (s.object a).shape = .function c →
    ∀ f ∈ c.chain, inside (.frame f)

variable {s s₀ : Store} {inside given : Place → Prop}

theorem Closed.leads (h : s.Closed inside) {p q : Place} (hp : inside p) (hpq : s.Leads p q) :
    inside q := by
  cases hpq with
  | @binding f name b a hb hv =>
    have hknown := h.bindings hp hb
    rwa [hv] at hknown
  | @property a b e he hv =>
    have hknown := h.properties hp he
    rwa [hv] at hknown
  | closure hc hf => exact h.closures hp hc _ hf

/-- It is enough to follow every step. -/
theorem Closed.of_leads (h : ∀ p q, inside p → s.Leads p q → inside q) : s.Closed inside where
  bindings {f name b} hf hb := by
    obtain ⟨v, constant⟩ := b
    cases v with
    | ref a => exact h _ _ hf (.binding hb rfl)
    | _ => trivial
  properties {a e} ha he := by
    obtain ⟨key, v⟩ := e
    cases v with
    | ref b => exact h _ _ ha (.property he rfl)
    | _ => trivial
  closures ha hc f hf := h _ _ ha (.closure hc hf)

theorem Closed.reaches (h : s.Closed inside) (hgiven : ∀ p, given p → inside p) {p : Place}
    (hp : s.Reaches given p) : inside p := by
  induction hp with
  | given hp => exact hgiven _ hp
  | step _ hpq ih => exact h.leads ih hpq

/-- What may be touched from what is given: what is reached from there, and what does not exist
yet. -/
def Territory (s : Store) (given : Place → Prop) (p : Place) : Prop :=
  s.Reaches given p ∨ ¬ s.Has p

theorem shared_territory (s : Store) (scope : Scope) :
    ∀ a ∈ sharedAddresses, s.Territory scope.Starts (.object a) :=
  fun _ ha => .inl (.given (.shared ha))

theorem closed_territory (s : Store) (given : Place → Prop) : s.Closed (s.Territory given) := by
  refine .of_leads fun p q hp hpq => ?_
  rcases hp with hreach | hnew
  · exact .inl (hreach.step hpq)
  · exact absurd hpq.has hnew

/-- A store that differs from an earlier one only in a territory of that one, and in which no step
leads out of the territory. -/
structure Confined (s : Store) (inside : Place → Prop) (admits : Native → Prop) (s₀ : Store) :
    Prop where
  closed : s.Closed inside
  admitted : s.Admits admits
  outside {p : Place} : ¬ inside p → s₀.SameAt s p
  frames_size : s₀.frames.size ≤ s.frames.size
  objects_size : s₀.objects.size ≤ s.objects.size

namespace Confined

variable {admits : Native → Prop}

theorem has (h : s.Confined inside admits s₀) {p : Place} (hp : s₀.Has p) : s.Has p := by
  cases p with
  | frame f => exact Nat.lt_of_lt_of_le hp h.frames_size
  | object a => exact Nat.lt_of_lt_of_le hp h.objects_size

theorem openFrame (h : s.Confined inside admits s₀) (outer : List FrameId) :
    (s.openFrame outer).1.Confined inside admits s₀ where
  closed := ⟨fun hf hb => h.closed.bindings hf (s.frame_openFrame outer _ ▸ hb),
    h.closed.properties, h.closed.closures⟩
  admitted := h.admitted
  outside {p} hp := by
    cases p with
    | frame f => exact (s.frame_openFrame outer f).trans (h.outside hp)
    | object a => exact h.outside hp
  frames_size := by
    rw [frames_size_openFrame]
    exact Nat.le_succ_of_le h.frames_size
  objects_size := h.objects_size

theorem bindName (h : s.Confined inside admits s₀) {f : FrameId} (hf : inside (.frame f))
    (name : String) {b : Binding} (hb : b.value.Known (inside <| .object ·)) :
    (s.bindName f name b).Confined inside admits s₀ where
  closed := by
    refine ⟨fun {g name' b'} hg hb' => ?_, h.closed.properties, h.closed.closures⟩
    rw [frame_bindName] at hb'
    split at hb'
    · dsimp only at hb'
      rw [Table.find?_insert] at hb'
      split at hb'
      · cases hb'
        exact hb
      · exact h.closed.bindings hf hb'
    · exact h.closed.bindings hg hb'
  admitted := h.admitted
  outside {p} hp := by
    cases p with
    | frame g =>
      have hne : g ≠ f := fun e => hp (e ▸ hf)
      exact (s.frame_bindName f g name b).trans ((if_neg fun e => hne e.1).trans (h.outside hp))
    | object a => exact h.outside hp
  frames_size := Nat.le_trans h.frames_size (Nat.le_of_eq (s.frames_size_bindName f name b).symm)
  objects_size := h.objects_size

theorem noteGlobal (h : s.Confined inside admits s₀) {scope : Scope}
    (hf : inside (.frame scope.frame)) (name : String) :
    (s.noteGlobal scope name).Confined inside admits s₀ where
  closed := by
    refine ⟨fun {g name' b} hg hb => ?_, h.closed.properties, h.closed.closures⟩
    rw [vars_noteGlobal] at hb
    exact h.closed.bindings hg hb
  admitted := h.admitted
  outside {p} hp := by
    cases p with
    | frame g =>
      have hne : g ≠ scope.frame := fun e => hp (e ▸ hf)
      exact (s.frame_noteGlobal scope name g).trans
        ((if_neg fun e => hne e.1).trans (h.outside hp))
    | object a => exact h.outside hp
  frames_size := Nat.le_trans h.frames_size
    (Nat.le_of_eq (s.frames_size_noteGlobal scope name).symm)
  objects_size := h.objects_size

theorem make (h : s.Confined inside admits s₀) (hnew : inside (.object s.objects.size))
    {shape : Shape} {entries : List (String × Value)}
    (hentries : ∀ e ∈ (baseProperties.insertAll entries).entries, e.2.Known (inside <| .object ·))
    (hshape : ∀ c, shape = .function c →
      (∀ f ∈ c.chain, inside (.frame f)) ∧ ∀ native ∈ c.native, admits native) :
    (s.make shape entries).1.Confined inside admits s₀ where
  closed := by
    refine ⟨h.closed.bindings, fun {a e} ha he => ?_, fun {a c} ha hc => ?_⟩
    · rw [object_make] at he
      split at he
      · exact hentries e he
      · exact h.closed.properties ha he
    · rw [object_make] at hc
      split at hc
      · exact (hshape c hc).1
      · exact h.closed.closures ha hc
  admitted := h.admitted.make (fun c hc => (hshape c hc).2) entries
  outside {p} hp := by
    cases p with
    | frame f => exact h.outside hp
    | object a =>
      have hne : a ≠ s.objects.size := fun e => hp (e ▸ hnew)
      exact (s.object_make shape entries a).trans ((if_neg hne).trans (h.outside hp))
  frames_size := h.frames_size
  objects_size := by
    rw [objects_size_make]
    exact Nat.le_succ_of_le h.objects_size

theorem setProperty (h : s.Confined inside admits s₀) {a : Address} (ha : inside (.object a))
    (key : String) {v : Value} (hv : v.Known (inside <| .object ·)) :
    (s.setProperty a key v).Confined inside admits s₀ where
  closed := by
    refine ⟨h.closed.bindings, fun {b e} hb he => ?_, fun {b c} hb hc => ?_⟩
    · rw [object_setProperty] at he
      split at he
      · rcases Table.mem_insert he with rfl | he
        · exact hv
        · exact h.closed.properties ha he
      · exact h.closed.properties hb he
    · rw [shape_setProperty] at hc
      exact h.closed.closures hb hc
  admitted := h.admitted.setProperty a key v
  outside {p} hp := by
    cases p with
    | frame f => exact h.outside hp
    | object b =>
      have hne : b ≠ a := fun e => hp (e ▸ ha)
      exact (s.object_setProperty a b key v).trans ((if_neg fun e => hne e.1).trans (h.outside hp))
  frames_size := h.frames_size
  objects_size := Nat.le_trans h.objects_size
    (Nat.le_of_eq (s.objects_size_setProperty a key v).symm)

/-- What happens in a part of the territory happens in the territory. -/
theorem trans (h : s.Confined inside admits s₀) {t : Store} {part : Place → Prop}
    (ht : t.Confined part admits s) (hpart : ∀ p, part p → inside p) :
    t.Confined inside admits s₀ where
  closed := by
    refine .of_leads fun p q hp hpq => ?_
    by_cases hin : part p
    · exact hpart q (ht.closed.leads hin hpq)
    · exact h.closed.leads hp (hpq.of_sameAt (ht.outside hin))
  admitted := ht.admitted
  outside hp := (h.outside hp).trans (ht.outside fun hin => hp (hpart _ hin))
  frames_size := Nat.le_trans h.frames_size ht.frames_size
  objects_size := Nat.le_trans h.objects_size ht.objects_size

end Confined

theorem confined_self {admits : Native → Prop} (h : s.Admits admits) (given : Place → Prop) :
    s.Confined (s.Territory given) admits s where
  closed := s.closed_territory given
  admitted := h
  outside := by
    rintro (f | a) - <;> rfl
  frames_size := Nat.le_refl _
  objects_size := Nat.le_refl _

end Store

/-! ## Hosts that keep to what they are given -/

/-- What a function of the embedding program starts from: the values that it gets and the shared
methods. -/
inductive Native.Starts (self : Value) (args : List Value) : Place → Prop
  | value {v : Value} {p : Place} : v ∈ self :: args → v.RefersTo p → Starts self args p
  | shared {a : Address} : a ∈ Store.sharedAddresses → Starts self args (.object a)

/-- The admitted functions of the embedding program change only what they make and what can be
reached from the values that they get, hand on nothing else, and make only admitted functions. -/
structure Host.Contained (host : Host) (admits : Native → Prop) : Prop where
  native {name : String} (s : Store) (self : Value) (args : List Value) :
    admits (.foreign name) → s.Admits admits →
    (host.native name s self args).1.Confined (s.Territory (Native.Starts self args)) admits s ∧
      (host.native name s self args).2.Carries
        (s.Territory (Native.Starts self args) <| .object ·) admits
  dataFunction {name : String} {data : List Datum} : admits (.dataFunction name) →
    (∀ d ∈ data, d.Plain) → (host.dataFunction name data).Carries (fun _ => False) admits

/-- Without functions of the embedding program there is nothing to ask of it. -/
theorem Host.contained_isOwn (host : Host) : host.Contained (Native.isOwn · = true) where
  native _ _ _ := nofun
  dataFunction := nofun

/-! ## Runs -/

namespace Eval

variable {host : Host} {admits : Native → Prop}

/-- A run stays in the territory of its scope. -/
def confinement (hhost : host.Contained admits) (s₀ : Store) (scope : Scope) :
    Invariant host Fixed where
  Holds _ w := w.store.Confined (s₀.Territory scope.Starts) admits s₀
  Knows _ a := s₀.Territory scope.Starts (.object a)
  Covers _ chain := ∀ f ∈ chain, s₀.Territory scope.Starts (.frame f)
  Admits := admits
  knows_mono _ h := h
  covers_mono _ h := h
  covers_nil _ := nofun
  quiet h hs _ := hs ▸ h
  openFrame {_ w outer} h hc := by
    refine ⟨.mk, le_rfl, h.openFrame outer, List.forall_mem_cons.2 ⟨.inr ?_, hc⟩⟩
    exact Nat.not_lt.2 h.frames_size
  bindName h hc hf hb _ := h.bindName (hc _ hf) _ hb
  make {_ w shape entries} h hs he := by
    have hnew : s₀.Territory scope.Starts (.object w.store.objects.size) :=
      .inr (Nat.not_lt.2 h.objects_size)
    have hshared := s₀.shared_territory scope
    refine ⟨.mk, le_rfl, h.make hnew (Store.known_of_mem_insertAll hshared he) ?_, hnew⟩
    exact fun c hc => absurd hc (Shape.ne_function hs c)
  makeFunction {_ w c} name h hc hn := by
    have hnew : s₀.Territory scope.Starts (.object w.store.objects.size) :=
      .inr (Nat.not_lt.2 h.objects_size)
    have hshared := s₀.shared_territory scope
    refine ⟨.mk, le_rfl, h.make hnew (Store.known_of_mem_insertAll hshared
      (Store.known_functionProperties hshared name)) ?_, hnew⟩
    rintro _ ⟨⟩
    exact ⟨hc, hn⟩
  setProperty key h ha hv := h.setProperty ha key hv
  binding h hc hf hb := h.closed.bindings (hc _ hf) hb
  property h ha he := h.closed.properties ha he
  closure h ha hc := ⟨h.closed.closures ha hc, h.admitted _ _ hc⟩
  foreign {_ w name self args} h ha hself hargs := by
    obtain ⟨hstore, hdata⟩ := hhost.native w.store self args ha h.admitted
    -- the values that the function gets are in the territory, so what it reaches from them is, and
    -- what is new to the function is new to the run
    have hpart : ∀ p, w.store.Territory (Native.Starts self args) p →
        s₀.Territory scope.Starts p := by
      rintro p (hreach | hnew)
      · refine h.closed.reaches (fun q hq => ?_) hreach
        cases hq with
        | value hv href =>
          cases href
          exact List.forall_mem_cons.2 ⟨hself, hargs⟩ _ hv
        | shared hs => exact s₀.shared_territory scope _ hs
      · exact .inr fun hold => hnew (h.has hold)
    exact ⟨.mk, le_rfl, h.trans hstore hpart, hdata.mono fun _ => hpart _⟩
  dataFunction _ ha hplain := (hhost.dataFunction ha hplain).mono nofun

theorem confinement_founds (hhost : host.Contained admits)
    (hown : ∀ native : Native, native.isOwn = true → admits native) (s₀ : Store) (scope : Scope) :
    (confinement hhost s₀ scope).Founds where
  own {native} := hown native
  declareGlobal h hc hb _ :=
    (h.bindName (hc _ List.mem_cons_self) _ hb).noteGlobal (hc _ List.mem_cons_self) _

theorem confined_evaluate (hhost : host.Contained admits) (limit : Nat) (node : Node)
    (scope : Scope) {w : World} (hw : w.store.Admits admits) :
    (evaluate host limit node scope w).2.store.Confined (w.store.Territory scope.Starts) admits
        w.store ∧
      ∀ v, given? (evaluate host limit node scope w).1 = some v →
        v.Known (w.store.Territory scope.Starts <| .object ·) := by
  have hscope : (confinement hhost w.store scope).Covers .mk scope.chain :=
    fun f hf => .inl (.given (.frame hf))
  obtain ⟨_, -, hend, hvalue⟩ := (confinement hhost w.store scope).keeps_evaluate limit node scope
    hscope .mk w le_rfl (Store.confined_self hw scope.Starts)
  refine ⟨hend, fun v hv => ?_⟩
  cases ho : (evaluate host limit node scope w).1 with
  | ok u =>
    rw [ho] at hv hvalue
    cases hv
    exact hvalue
  | error e =>
    rw [ho] at hv hvalue
    cases e with
    | returned u =>
      cases hv
      exact hvalue
    | _ => cases hv

/-- A run changes only what it makes and what it can reach from its scope and the shared methods;
what can be reached afterwards, from there or from its value, was within its reach or is new.  So
a frame that was not around the run is changed only if the run reaches a function made in it. -/
theorem evaluate_changes_only_reached (hhost : host.Contained admits) (limit : Nat) (node : Node)
    (scope : Scope) (w : World) (hw : w.store.Admits admits) :
    (∀ p, w.store.Has p → ¬ w.store.Reaches scope.Starts p →
      w.store.SameAt (evaluate host limit node scope w).2.store p) ∧
    (∀ p, w.store.Has p → (evaluate host limit node scope w).2.store.Reaches
        (AtHand scope (evaluate host limit node scope w).1) p →
      w.store.Reaches scope.Starts p) ∧
    ∀ f, f < w.store.frames.size →
      (evaluate host limit node scope w).2.store.frame f ≠ w.store.frame f →
      f ∈ scope.chain ∨ ∃ a c, w.store.Reaches scope.Starts (.object a) ∧
        (w.store.object a).shape = .function c ∧ f ∈ c.chain := by
  obtain ⟨hend, hvalue⟩ := confined_evaluate hhost limit node scope hw
  have same (p : Place) (hp : w.store.Has p) (hreach : ¬ w.store.Reaches scope.Starts p) :
      w.store.SameAt (evaluate host limit node scope w).2.store p :=
    hend.outside fun h => h.elim hreach fun hnew => hnew hp
  refine ⟨same, fun p hp hreach => ?_, fun f hf hchanged => ?_⟩
  · have hinside := hend.closed.reaches (fun q hq => ?_) hreach
    · exact hinside.elim id fun hnew => absurd hp hnew
    · rcases hq with hq | ⟨_, hv, ⟨a⟩⟩
      · exact .inl (.given hq)
      · exact hvalue _ hv
  · by_contra hfar
    exact hchanged (same (.frame f) hf fun h => hfar h.frame_cases)

/-! ## Two counters -/

/-- An embedding program whose functions mark their first argument and hand it back. -/
def marking : Host where
  native _ s _ args := match args with
    | [] => (s, .null)
    | .ref a :: _ => (s.setProperty a "visto" (.bool true), .value (.ref a) none)
    | v :: _ => (s, .value v none)
  dataFunction _ data := data.headD .null

theorem contained_marking : marking.Contained fun _ => True where
  native s self args _ hs := by
    have hself := Store.confined_self hs (Native.Starts self args)
    cases args with
    | nil => exact ⟨hself, .null⟩
    | cons v args =>
      cases v with
      | ref a =>
        have ha : s.Territory (Native.Starts self (.ref a :: args)) (.object a) :=
          .inl (.given (.value (List.mem_cons_of_mem _ List.mem_cons_self) (.ref a)))
        exact ⟨hself.setProperty ha "visto" trivial, .value none ha⟩
      | _ => exact ⟨hself, .value none trivial⟩
  dataFunction {_ data} _ hplain := by
    cases data with
    | nil => exact .null
    | cons d data => exact (hplain d List.mem_cons_self).carries _ _

/-- A function that counts its calls in the frame around it. -/
def counter (scope : Scope) : Object :=
  ⟨.function ⟨[], [.assign (.ident "n") (.binary (.ident "n") (.number 1) "+")], some scope, none⟩,
    Store.baseProperties.insertAll (Store.functionProperties ++ [("name", .str "contar")])⟩

/-- Two counters, each with a frame of its own, and a function of the embedding program that marks
values.  Only the first counter has a name. -/
def counters : World where
  store :=
    { frames := #[⟨⟨[("contar", ⟨.ref 3, false⟩), ("marcar", ⟨.ref 5, false⟩)]⟩, []⟩,
        ⟨⟨[("n", ⟨.num (.int 0), false⟩)]⟩, []⟩, ⟨⟨[("n", ⟨.num (.int 0), false⟩)]⟩, []⟩]
      objects := Store.initial.objects ++ #[counter ⟨1, [0]⟩, counter ⟨2, [0]⟩,
        Store.sharedMethod (.foreign "marcar") "marcar"] }
  output := ""
  depth := 0
  trace := []
  room := 1000

/-- Calls the first counter by way of the embedding program. -/
def countOnce : Node := .call (.call (.ident "marcar") [.ident "contar"]) []

/-- Nothing but the second counter leads to its frame, and nothing leads to the second counter. -/
theorem closed_counters :
    counters.store.Closed fun p => p ≠ .frame 2 ∧ p ≠ .object 4 where
  bindings {f name b} hf hb := by
    have he := Table.mem_of_find? hb
    match f with
    | 0 =>
      rcases List.mem_cons.1 he with he | he
      · cases he
        exact ⟨nofun, nofun⟩
      · cases List.mem_singleton.1 he
        exact ⟨nofun, nofun⟩
    | 1 => cases List.mem_singleton.1 he; trivial
    | 2 => exact absurd rfl hf.1
    | _ + 3 => cases he
  properties {a e} ha he := by
    have shared : ∀ b ∈ Store.sharedAddresses,
        Place.object b ≠ .frame 2 ∧ Place.object b ≠ .object 4 := by decide
    have named (name : String) : ∀ e ∈ [("name", Value.str name)],
        e.2.Known fun b => Place.object b ≠ .frame 2 ∧ Place.object b ≠ .object 4 :=
      List.forall_mem_singleton.2 trivial
    match a with
    | 0 => exact Store.known_of_mem_insertAll shared (named _) e he
    | 1 => exact Store.known_of_mem_insertAll shared (named _) e he
    | 2 => exact Store.known_of_mem_insertAll shared (named _) e he
    | 3 =>
      have entries := Store.known_functionProperties shared "contar"
      exact Store.known_of_mem_insertAll shared entries e he
    | 4 => exact absurd rfl ha.2
    | 5 => exact Store.known_of_mem_insertAll shared (named _) e he
    | _ + 6 => cases he
  closures {a c} ha hc f hf := by
    match a with
    | 0 => cases hc; cases hf
    | 1 => cases hc; cases hf
    | 2 => cases hc; cases hf
    | 3 =>
      cases hc
      have hne : f ≠ 2 := by
        rintro rfl
        revert hf
        decide
      exact ⟨fun h => hne (Place.frame.inj h), nofun⟩
    | 4 => exact absurd rfl ha.2
    | 5 => cases hc; cases hf
    | _ + 6 => cases hc

/-- A call of the first counter changes its frame and leaves that of the second one. -/
theorem evaluate_changes_only_reached_counters :
    let w := (evaluate marking 10 countOnce ⟨0, []⟩ counters).2
    counters.store.Has (.frame 2) ∧ ¬ counters.store.Reaches (Scope.Starts ⟨0, []⟩) (.frame 2) ∧
      w.store.frame 2 = counters.store.frame 2 ∧
      w.store.frame 1 ≠ counters.store.frame 1 ∧
      ∃ a c, counters.store.Reaches (Scope.Starts ⟨0, []⟩) (.object a) ∧
        (counters.store.object a).shape = .function c ∧ 1 ∈ c.chain := by
  have hfar : ¬ counters.store.Reaches (Scope.Starts ⟨0, []⟩) (.frame 2) := by
    refine fun h => (closed_counters.reaches (fun p hp => ?_) h).1 rfl
    cases hp with
    | frame hf =>
      cases List.mem_singleton.1 hf
      decide
    | shared ha =>
      revert ha
      decide +revert
  have hchanged : (evaluate marking 10 countOnce ⟨0, []⟩ counters).2.store.frame 1 ≠
      counters.store.frame 1 := by decide +kernel
  obtain ⟨hsame, -, hframes⟩ := evaluate_changes_only_reached contained_marking 10 countOnce ⟨0, []⟩
    counters fun _ _ _ _ _ => trivial
  refine ⟨by decide, hfar, hsame (.frame 2) (by decide) hfar, hchanged, ?_⟩
  exact (hframes 1 (by decide) hchanged).resolve_left (by decide)

end Eval

end Guion
