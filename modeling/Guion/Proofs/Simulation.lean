import Guion.Proofs.Matching

/-!
# Two runs in step

A simulation relates worlds whose stores match, and says how the operations of the store, done on
corresponding places, keep them related.  Two runs of one tree then go through the same steps: they
read what matches, fail for the same causes, call the same functions and end in values that match.
What corresponds may grow along the runs, so the relation is indexed by a preorder as invariants
are.

    sim.Simulates i sim.Values (evaluate host limit node scope) (evaluate host limit node scope')
                                                                       (simulates_evaluate)
-/

namespace Guion

/-- The names that the code of a function uses are among the given ones, and so is its native. -/
structure Closure.Uses (c : Closure) (names : String → Prop) (natives : Native → Prop) : Prop where
  names : ∀ x ∈ c.names, names x
  native : ∀ native ∈ c.native, natives native

/-- The same names, and values that match. -/
abbrev EntriesMatch (objects : Address → Address → Prop) :
    List (String × Value) → List (String × Value) → Prop :=
  List.Forall₂ fun e e' => e'.1 = e.1 ∧ e.2.Matches objects e'.2

theorem entriesMatch_self {objects : Address → Address → Prop} {entries : List (String × Value)}
    (h : ∀ e ∈ entries, e.2.Known fun a => objects a a) : EntriesMatch objects entries entries :=
  List.forall₂_same.2 fun e he => ⟨rfl, (h e he).matches⟩

theorem EntriesMatch.eq {entries entries' : List (String × Value)}
    (h : EntriesMatch Eq entries entries') : entries = entries' :=
  eq_of_forall₂ (fun _ _ he => Prod.ext he.1.symm he.2.eq) h

namespace Eval

/-- Pairs of worlds that are related, the addresses and frames that correspond in them, and the
names and natives that runs may use; how the operations of the store keep worlds related; and that
functions which correspond use no other names and natives. -/
structure Simulation (host : Host) (I : Type) [Preorder I] where
  Holds : I → World → World → Prop
  Objects : I → Address → Address → Prop
  Frames : I → FrameId → FrameId → Prop
  Names : String → Prop
  Natives : Native → Prop
  objects_mono {i j : I} {a a' : Address} : i ≤ j → Objects i a a' → Objects j a a'
  frames_mono {i j : I} {f f' : FrameId} : i ≤ j → Frames i f f' → Frames j f f'
  shared {i : I} {w w' : World} : Holds i w w' → ∀ a ∈ Store.sharedAddresses, Objects i a a
  stores {i : I} {w w' : World} : Holds i w w' →
    w.store.Matches (Objects i) (Frames i) Names w'.store
  depths {i : I} {w w' : World} : Holds i w w' → w'.depth = w.depth
  code {i : I} {w w' : World} {a a' : Address} {c : Closure} : Holds i w w' → Objects i a a' →
    (w.store.object a).shape = .function c → c.Uses Names Natives
  print {i : I} {w w' : World} (text : String) : Holds i w w' →
    Holds i { w with output := w.output ++ text } { w' with output := w'.output ++ text }
  note {i : I} {w w' : World} (e : Event) : Holds i w w' →
    Holds i { w with trace := e :: w.trace } { w' with trace := e :: w'.trace }
  atDepth {i : I} {w w' : World} (depth : Nat) : Holds i w w' →
    Holds i { w with depth := depth } { w' with depth := depth }
  reserve {i : I} {w w' : World} (limit : Nat) : Holds i w w' →
    (reserve limit w').1 = (reserve limit w).1 ∧ Holds i (reserve limit w).2 (reserve limit w').2
  openFrame {i : I} {w w' : World} (outer outer' : List FrameId) : Holds i w w' →
    ∃ j, i ≤ j ∧ Holds j { w with store := (w.store.openFrame outer).1 }
      { w' with store := (w'.store.openFrame outer').1 } ∧
      Frames j w.store.frames.size w'.store.frames.size
  bindName {i : I} {w w' : World} {f f' : FrameId} {name : String} {b b' : Binding} :
    Holds i w w' → Frames i f f' → Names name → b.Matches (Objects i) b' →
    Holds i { w with store := w.store.bindName f name b }
      { w' with store := w'.store.bindName f' name b' }
  make {i : I} {w w' : World} {shape shape' : Shape} {entries entries' : List (String × Value)} :
    Holds i w w' → shape.Matches (Frames i) shape' →
    (∀ c, shape = .function c → c.Uses Names Natives) →
    EntriesMatch (Objects i) entries entries' →
    ∃ j, i ≤ j ∧ Holds j { w with store := (w.store.make shape entries).1 }
      { w' with store := (w'.store.make shape' entries').1 } ∧
      Objects j w.store.objects.size w'.store.objects.size
  setProperty {i : I} {w w' : World} {a a' : Address} {v v' : Value} (key : String) :
    Holds i w w' → Objects i a a' → v.Matches (Objects i) v' →
    Holds i { w with store := w.store.setProperty a key v }
      { w' with store := w'.store.setProperty a' key v' }
  foreign {i : I} {w w' : World} {name : String} {self self' : Value} {args args' : List Value} :
    Holds i w w' → Natives (.foreign name) → self.Matches (Objects i) self' →
    List.Forall₂ (Value.Matches (Objects i)) args args' →
    ∃ j, i ≤ j ∧ Holds j { w with store := (host.native name w.store self args).1 }
        { w' with store := (host.native name w'.store self' args').1 } ∧
      (host.native name w'.store self' args').2 = (host.native name w.store self args).2 ∧
      (host.native name w.store self args).2.Fixed (fun a => Objects j a a) Natives
  dataFunction {i : I} {w w' : World} {name : String} (data : List Datum) : Holds i w w' →
    Natives (.dataFunction name) →
    (host.dataFunction name data).Fixed (fun a => Objects i a a) Natives

namespace Simulation

variable {host : Host} {I : Type} [Preorder I] (sim : Simulation host I) {i : I} {α β : Type}

/-- Values that match. -/
def Values (i : I) (v v' : Value) : Prop := v.Matches (sim.Objects i) v'

/-- Chains of frames that correspond. -/
def Chains (i : I) (fs fs' : List FrameId) : Prop := List.Forall₂ (sim.Frames i) fs fs'

/-- Two runs ended alike. -/
inductive Ends (i : I) (Q : I → α → α → Prop) : Except Exit α → Except Exit α → Prop
  | ok {a a' : α} : Q i a a' → Ends i Q (.ok a) (.ok a')
  | returned {v v' : Value} : sim.Values i v v' →
      Ends i Q (.error (.returned v)) (.error (.returned v'))
  | failed (cause : Failure) : Ends i Q (.error (.failed cause)) (.error (.failed cause))
  | exhausted : Ends i Q (.error .exhausted) (.error .exhausted)

/-- From related worlds the runs lead to related worlds, at a later index, and end alike. -/
def Simulates (i : I) (Q : I → α → α → Prop) (m m' : Run α) : Prop :=
  ∀ j w w', i ≤ j → sim.Holds j w w' →
    ∃ k, j ≤ k ∧ sim.Holds k (m w).2 (m' w').2 ∧ sim.Ends k Q (m w).1 (m' w').1

variable {sim}

theorem Values.mono {i j : I} (h : i ≤ j) {v v' : Value} (hv : sim.Values i v v') :
    sim.Values j v v' :=
  Value.Matches.mono (fun _ _ => sim.objects_mono h) hv

theorem Chains.mono {i j : I} (h : i ≤ j) {fs fs' : List FrameId} (hfs : sim.Chains i fs fs') :
    sim.Chains j fs fs' :=
  List.Forall₂.imp (fun _ _ => sim.frames_mono h) hfs

theorem values_all_mono {i j : I} (h : i ≤ j) {vs vs' : List Value}
    (hvs : List.Forall₂ (sim.Values i) vs vs') : List.Forall₂ (sim.Values j) vs vs' :=
  hvs.imp fun _ _ hv => hv.mono h

/-! ## Steps -/

variable {P : I → α → α → Prop} {Q : I → β → β → Prop}

theorem Ends.of_error {e e' : Exit} (h : sim.Ends i P (.error e) (.error e')) :
    sim.Ends i Q (.error e) (.error e') := by
  cases h with
  | returned hv => exact .returned hv
  | failed cause => exact .failed cause
  | exhausted => exact .exhausted

theorem Values.eq (hobjects : sim.Objects i = Eq) {v v' : Value} (hv : sim.Values i v v') :
    v' = v := by
  unfold Values at hv
  rw [hobjects] at hv
  exact hv.eq.symm

/-- Where addresses correspond only to themselves, runs that end alike end in the same way. -/
theorem Ends.eq (hobjects : sim.Objects i = Eq) {x x' : Except Exit Value}
    (h : sim.Ends i sim.Values x x') : x' = x := by
  cases h with
  | ok hv => rw [hv.eq hobjects]
  | returned hv => rw [hv.eq hobjects]
  | failed cause => rfl
  | exhausted => rfl

/-- Runs that leave the index as it is. -/
theorem simulates_of_step {m m' : Run α} (h : ∀ j w w', i ≤ j → sim.Holds j w w' →
      sim.Holds j (m w).2 (m' w').2 ∧ sim.Ends j P (m w).1 (m' w').1) :
    sim.Simulates i P m m' := fun j w w' hij hw => ⟨j, le_rfl, h j w w' hij hw⟩

theorem simulates_bind {m m' : Run α} {f f' : α → Run β} (hm : sim.Simulates i P m m')
    (hf : ∀ j a a', i ≤ j → P j a a' → sim.Simulates j Q (f a) (f' a')) :
    sim.Simulates i Q (m >>= f) (m' >>= f') := by
  intro j w w' hij hw
  obtain ⟨k, hjk, hk, he⟩ := hm j w w' hij hw
  rw [Run.bind_apply, Run.bind_apply]
  rcases hmw : m w with ⟨e | a, u⟩ <;> rcases hmw' : m' w' with ⟨e' | a', u'⟩ <;>
    rw [hmw, hmw'] at hk he
  · exact ⟨k, hjk, hk, he.of_error⟩
  · cases he
  · cases he
  · cases he with
    | ok ha =>
      obtain ⟨l, hkl, hl, he'⟩ := hf k a a' (hij.trans hjk) ha k u u' le_rfl hk
      exact ⟨l, hjk.trans hkl, hl, he'⟩

theorem Simulates.later {m m' : Run α} (hm : sim.Simulates i P m m') {j : I} (h : i ≤ j) :
    sim.Simulates j P m m' := fun k w w' hjk hw => hm k w w' (h.trans hjk) hw

theorem Simulates.imp {m m' : Run α} {P' : I → α → α → Prop} (hm : sim.Simulates i P m m')
    (h : ∀ j a a', i ≤ j → P j a a' → P' j a a') : sim.Simulates i P' m m' := by
  intro j w w' hij hw
  obtain ⟨k, hjk, hk, he⟩ := hm j w w' hij hw
  refine ⟨k, hjk, hk, ?_⟩
  generalize (m w).1 = x, (m' w').1 = x' at he
  cases he with
  | ok ha => exact .ok (h k _ _ (hij.trans hjk) ha)
  | returned hv => exact .returned hv
  | failed cause => exact .failed cause
  | exhausted => exact .exhausted

theorem simulates_pure {a a' : α} (h : ∀ j, i ≤ j → P j a a') :
    sim.Simulates i P (pure a : Run α) (pure a') :=
  simulates_of_step fun j _ _ hij hw => ⟨hw, .ok (h j hij)⟩

theorem simulates_fail (cause : Failure) :
    sim.Simulates i P (Run.fail cause : Run α) (Run.fail cause) :=
  simulates_of_step fun _ _ _ _ hw => ⟨hw, .failed cause⟩

theorem simulates_note (e : Event) :
    sim.Simulates i (fun _ _ _ => True) (Run.note e) (Run.note e) :=
  simulates_of_step fun _ _ _ _ hw => ⟨sim.note e hw, .ok trivial⟩

theorem simulates_inspect {look look' : Store → Except Failure α}
    (h : ∀ j w w', i ≤ j → sim.Holds j w w' → Agrees (P j) (look w.store) (look' w'.store)) :
    sim.Simulates i P (Run.inspect look) (Run.inspect look') := by
  refine simulates_of_step fun j w w' hij hw => ?_
  have hlook := h j w w' hij hw
  unfold Run.inspect
  generalize look w.store = x, look' w'.store = x' at hlook
  cases hlook with
  | ok ha => exact ⟨hw, .ok ha⟩
  | error cause => exact ⟨hw, .failed cause⟩

/-- Runs that depend on the stores in which they start. -/
theorem simulates_store {f f' : Store → Run β}
    (h : ∀ j w w', i ≤ j → sim.Holds j w w' →
      sim.Simulates j Q (f w.store) (f' w'.store)) :
    sim.Simulates i Q (Run.store >>= f) (Run.store >>= f') :=
  fun j w w' hij hw => h j w w' hij hw j w w' le_rfl hw

theorem simulates_endProgram {m m' : Run Value} (hm : sim.Simulates i sim.Values m m') :
    sim.Simulates i sim.Values (endProgram m) (endProgram m') := by
  intro j w w' hij hw
  obtain ⟨k, hjk, hk, he⟩ := hm j w w' hij hw
  unfold endProgram
  generalize m w = r, m' w' = r' at hk he
  obtain ⟨x, u⟩ := r
  obtain ⟨x', u'⟩ := r'
  cases he with
  | ok hv => exact ⟨k, hjk, hk, .ok hv⟩
  | returned hv => exact ⟨k, hjk, hk, .ok hv⟩
  | failed cause => exact ⟨k, hjk, hk, .failed cause⟩
  | exhausted => exact ⟨k, hjk, hk, .exhausted⟩

/-! ## Parts of the rules -/

section

variable {scope scope' : Scope} (hs : sim.Chains i scope.chain scope'.chain)

theorem simulates_openFrame {outer outer' : List FrameId} (h : sim.Chains i outer outer') :
    sim.Simulates i (fun j scope scope' => sim.Chains j scope.chain scope'.chain)
      (Run.create fun s => s.openFrame outer) (Run.create fun s => s.openFrame outer') := by
  intro j w w' hij hw
  obtain ⟨k, hjk, hk, hf⟩ := sim.openFrame outer outer' hw
  exact ⟨k, hjk, hk, .ok (.cons hf (h.mono (hij.trans hjk)))⟩

theorem simulates_make {shape shape' : Shape}
    (hshape : ∀ j, i ≤ j → shape.Matches (sim.Frames j) shape')
    (hc : ∀ c, shape = .function c → c.Uses sim.Names sim.Natives)
    {entries entries' : List (String × Value)}
    (he : ∀ j w w', i ≤ j → sim.Holds j w w' → EntriesMatch (sim.Objects j) entries entries') :
    sim.Simulates i sim.Values (Run.create fun s => s.make shape entries)
      (Run.create fun s => s.make shape' entries') := by
  intro j w w' hij hw
  obtain ⟨k, hjk, hk, ha⟩ := sim.make hw (hshape j hij) hc (he j w w' hij hw)
  exact ⟨k, hjk, hk, .ok (.ref ha)⟩

include hs

theorem simulates_declare {name : String} (hn : sim.Names name) (constant : Bool) {v v' : Value}
    (hv : sim.Values i v v') : sim.Simulates i (fun _ _ _ => True)
      (declare scope name ⟨v, constant⟩) (declare scope' name ⟨v', constant⟩) := by
  refine simulates_bind (P := fun _ _ _ => True)
    (simulates_inspect fun j w w' hij hw => ?_) fun j _ _ hij _ => ?_
  · exact (sim.stores hw).agrees_mayDeclare (hs.mono hij) hn
  · refine simulates_of_step fun k w w' hjk hw => ⟨?_, .ok trivial⟩
    have hik := hij.trans hjk
    obtain ⟨hf, -⟩ := List.forall₂_cons.1 (hs.mono hik)
    exact sim.bindName hw hf hn ⟨hv.mono hik, rfl⟩

theorem simulates_assignName {name : String} (hn : sim.Names name) {v v' : Value}
    (hv : sim.Values i v v') :
    sim.Simulates i sim.Values (assignName scope name v) (assignName scope' name v') := by
  refine simulates_bind (P := sim.Frames) (simulates_inspect fun j w w' hij hw => ?_)
    fun j f f' hij hf => ?_
  · exact (sim.stores hw).agrees_assignable (hs.mono hij) hn
  · refine simulates_of_step fun k w w' hjk hw => ?_
    have hvk := hv.mono (hij.trans hjk)
    exact ⟨sim.bindName hw (sim.frames_mono hjk hf) hn ⟨hvk, rfl⟩, .ok hvk⟩

theorem simulates_lookup {name : String} (hn : sim.Names name) :
    sim.Simulates i sim.Values (Run.inspect fun s => s.lookup scope name)
      (Run.inspect fun s => s.lookup scope' name) :=
  simulates_inspect fun _ _ _ hij hw => (sim.stores hw).agrees_lookup (hs.mono hij) hn

theorem simulates_makeFunction (name : String) {params : List String} {body : List Node}
    (hn : ∀ x ∈ (Node.function name params body).names, sim.Names x) :
    sim.Simulates i sim.Values (Eval.makeFunction scope name params body)
      (Eval.makeFunction scope' name params body) := by
  obtain ⟨hname, hcode⟩ := List.forall_mem_append.1 hn
  have made : sim.Simulates i sim.Values
      (Run.create fun s =>
        s.makeFunction ⟨params, body, some scope, none⟩ [("name", .str name)] false)
      (Run.create fun s =>
        s.makeFunction ⟨params, body, some scope', none⟩ [("name", .str name)] false) := by
    have hc (j : I) (hij : i ≤ j) : Closure.Matches (sim.Frames j)
        ⟨params, body, some scope, none⟩ ⟨params, body, some scope', none⟩ :=
      ⟨rfl, rfl, rfl, hs.mono hij⟩
    refine simulates_make (fun j hij => .function (hc j hij)) ?_ fun j w w' _ hw => ?_
    · rintro _ ⟨⟩
      exact ⟨hcode, nofun⟩
    · exact entriesMatch_self (Store.known_functionProperties (sim.shared hw) name)
  refine simulates_bind made fun j f f' hij hf => ?_
  split
  · exact simulates_pure fun k hjk => hf.mono hjk
  · next hnamed =>
    rw [if_neg hnamed] at hname
    exact simulates_bind (simulates_declare (hs.mono hij) (hname name List.mem_cons_self) false hf)
      fun k _ _ hjk _ => simulates_pure fun l hkl => hf.mono (hjk.trans hkl)

end

theorem simulates_getProperty {a a' : Address} (name : String) (ha : sim.Objects i a a') :
    sim.Simulates i sim.Values (Run.inspect fun s => .ok (s.getProperty a name))
      (Run.inspect fun s => .ok (s.getProperty a' name)) :=
  simulates_inspect fun _ _ _ hij hw =>
    .ok (((sim.stores hw).object (sim.objects_mono hij ha)).get name)

theorem simulates_setProperty {a a' : Address} (name : String) {v v' : Value}
    (ha : sim.Objects i a a') (hv : sim.Values i v v') :
    sim.Simulates i (fun _ _ _ => True) (Run.update fun s => s.setProperty a name v)
      (Run.update fun s => s.setProperty a' name v') :=
  simulates_of_step fun _ _ _ hij hw =>
    ⟨sim.setProperty name hw (sim.objects_mono hij ha) (hv.mono hij), .ok trivial⟩

theorem simulates_ownerOf {v v' : Value} (hv : sim.Values i v v') :
    sim.Simulates i sim.Objects (ownerOf v) (ownerOf v') := by
  have refused (u : Value) (hu : sim.Values i u u) :
      sim.Simulates i sim.Objects (Run.inspect fun s => .error (.noProperties (s.typeName u)))
        (Run.inspect fun s => .error (.noProperties (s.typeName u))) := by
    refine simulates_inspect fun j w w' hij hw => ?_
    rw [(sim.stores hw).typeName_eq (hu.mono hij)]
    exact .error _
  cases hv with
  | ref ha => exact simulates_pure fun j hij => sim.objects_mono hij ha
  | null => exact refused _ .null
  | bool b => exact refused _ (.bool b)
  | num n => exact refused _ (.num n)
  | str t => exact refused _ (.str t)

/-- Owners that correspond, and one name. -/
def Properties (sim : Simulation host I) (i : I) (p p' : Address × String) : Prop :=
  sim.Objects i p.1 p'.1 ∧ p'.2 = p.2

theorem simulates_target {owner owner' keyValue keyValue' : Run Value} (key : Node)
    (computed : Bool) (ho : sim.Simulates i sim.Values owner owner')
    (hk : sim.Simulates i sim.Values keyValue keyValue') :
    sim.Simulates i sim.Properties (target owner key computed keyValue)
      (target owner' key computed keyValue') := by
  refine simulates_bind ho fun j v v' hij hv =>
    simulates_bind (simulates_ownerOf hv) fun k a a' hjk ha => ?_
  have found (l : I) (hkl : k ≤ l) (name : String) :
      sim.Simulates l sim.Properties (pure (a, name)) (pure (a', name)) :=
    simulates_pure fun m hlm => ⟨sim.objects_mono (hkl.trans hlm) ha, rfl⟩
  split
  · refine simulates_bind (hk.later (hij.trans hjk)) fun l u u' hkl hu => ?_
    refine simulates_bind (P := fun _ name name' => name' = name)
      (simulates_inspect fun m w w' hlm hw => ?_) fun m name name' hlm hname => ?_
    · exact agrees_of_eq ((sim.stores hw).key_eq (hu.mono hlm)) fun _ => rfl
    · rw [hname]
      exact found m (hkl.trans hlm) name
  · split
    · exact found k le_rfl _
    · exact found k le_rfl _
    · exact simulates_fail _

theorem simulates_apply (symbol : String) {l l' r r' : Value} (hl : sim.Values i l l')
    (hr : sim.Values i r r') :
    sim.Simulates i sim.Values (Run.inspect fun s => Operator.apply s symbol l r)
      (Run.inspect fun s => Operator.apply s symbol l' r') := by
  refine simulates_inspect fun j w w' hij hw => ?_
  rw [(sim.stores hw).apply_eq (hl.mono hij) (hr.mono hij)]
  cases hresult : Operator.apply w.store symbol l r with
  | error cause => exact .error cause
  | ok v => exact .ok (Operator.known_apply hresult).matches

end Simulation

end Eval

end Guion
