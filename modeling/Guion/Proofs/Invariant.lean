import Mathlib.Order.Basic
import Guion.Proofs.Safety

/-!
# What operations on the store keep, evaluation keeps

An invariant says what holds of a world, which addresses and chains of frames a run may meet in it,
and which natives it may find there.  The run only gets at what it was given, at what it makes and
at what it finds from there, so the operations of the store on such places are all that an
invariant has to be checked against.  What is known may grow along a run: it is indexed by a
preorder, and a run goes from an index to a later one.

    inv.Covers i scope.chain → inv.Keeps i inv.Known (evaluate host limit node scope)
                                                                            (keeps_evaluate)
-/

namespace Guion

/-! ## Known values -/

/-- A value that is no reference, or a reference to an address with the property. -/
def Value.Known (knows : Address → Prop) : Value → Prop
  | .ref a => knows a
  | _ => True

theorem Value.Known.mono {knows knows' : Address → Prop} (h : ∀ a, knows a → knows' a) {v : Value}
    (hv : v.Known knows) : v.Known knows' := by
  cases v with
  | ref a => exact h a hv
  | _ => trivial

theorem Value.known_any (v : Value) : v.Known fun _ => True := by
  cases v <;> trivial

/-- Data whose runtime values are known and whose functions are admitted. -/
inductive Datum.Carries (knows : Address → Prop) (admits : Native → Prop) : Datum → Prop
  | null : Carries knows admits .null
  | bool (b : Bool) : Carries knows admits (.bool b)
  | num (n : Num) : Carries knows admits (.num n)
  | text (t : String) : Carries knows admits (.text t)
  | list {items : List Datum} : (∀ d ∈ items, Carries knows admits d) →
      Carries knows admits (.list items)
  | sequence {items : List Datum} : (∀ d ∈ items, Carries knows admits d) →
      Carries knows admits (.sequence items)
  | record {entries : List (Datum × Datum)} : (∀ e ∈ entries, Carries knows admits e.2) →
      Carries knows admits (.record entries)
  | function {id name : String} : admits (.dataFunction id) →
      Carries knows admits (.function id name)
  | unsupported (thing : Unsupported) : Carries knows admits (.unsupported thing)
  | value {v : Value} (held : Option Nat) : v.Known knows → Carries knows admits (.value v held)

theorem Datum.Plain.carries {d : Datum} (h : d.Plain) (knows : Address → Prop)
    (admits : Native → Prop) : d.Carries knows admits := by
  induction h with
  | null => exact .null
  | bool b => exact .bool b
  | num n => exact .num n
  | text t => exact .text t
  | list _ ih => exact .list ih
  | record _ ih => exact .record ih

theorem Datum.Carries.mono {knows knows' : Address → Prop} {admits : Native → Prop}
    (h : ∀ a, knows a → knows' a) {d : Datum} (hd : d.Carries knows admits) :
    d.Carries knows' admits := by
  induction hd with
  | null => exact .null
  | bool b => exact .bool b
  | num n => exact .num n
  | text t => exact .text t
  | list _ ih => exact .list ih
  | sequence _ ih => exact .sequence ih
  | record _ ih => exact .record ih
  | function ha => exact .function ha
  | unsupported thing => exact .unsupported thing
  | value held hv => exact .value held (hv.mono h)

namespace Datum

mutual

theorem carries_any : ∀ d : Datum, d.Carries (fun _ => True) (fun _ => True)
  | .null => .null
  | .bool b => .bool b
  | .num n => .num n
  | .text t => .text t
  | .list items => .list (carries_any_items items)
  | .sequence items => .sequence (carries_any_items items)
  | .record entries => .record (carries_any_entries entries)
  | .function _ _ => .function trivial
  | .unsupported thing => .unsupported thing
  | .value v held => .value held v.known_any

theorem carries_any_items : ∀ items : List Datum,
    ∀ d ∈ items, d.Carries (fun _ => True) (fun _ => True)
  | [] => nofun
  | d :: ds => List.forall_mem_cons.2 ⟨carries_any d, carries_any_items ds⟩

theorem carries_any_entries : ∀ entries : List (Datum × Datum),
    ∀ e ∈ entries, e.2.Carries (fun _ => True) (fun _ => True)
  | [] => nofun
  | (_, d) :: rest => List.forall_mem_cons.2 ⟨carries_any d, carries_any_entries rest⟩

end

end Datum

/-! ## New values -/

namespace Store

variable {knows : Address → Prop} (hshared : ∀ a ∈ sharedAddresses, knows a)
include hshared

/-- The properties of a new value are its own and those that it starts with, which are shared. -/
theorem known_of_mem_insertAll {entries : List (String × Value)}
    (h : ∀ e ∈ entries, e.2.Known knows) :
    ∀ e ∈ (baseProperties.insertAll entries).entries, e.2.Known knows := by
  intro e he
  rcases Table.mem_insertAll he with he | he
  · exact h e he
  · simp only [baseProperties, List.mem_cons, List.not_mem_nil, or_false] at he
    rcases he with rfl | rfl
    · exact hshared showAddress (by decide)
    · exact hshared typeOfAddress (by decide)

theorem known_functionProperties (name : String) :
    ∀ e ∈ functionProperties ++ [("name", .str name)], e.2.Known knows := by
  intro e he
  simp only [functionProperties, List.mem_append, List.mem_cons, List.not_mem_nil, or_false] at he
  rcases he with (rfl | rfl) | rfl
  · exact hshared sourceAddress (by decide)
  · trivial
  · trivial

end Store

/-! ## Functions that are not written in the language -/

namespace Store

/-- The natives of all functions in the store are admitted ones. -/
def Admits (s : Store) (admits : Native → Prop) : Prop :=
  ∀ a c, (s.object a).shape = .function c → ∀ native ∈ c.native, admits native

variable {s : Store} {admits : Native → Prop}

theorem Admits.make (h : s.Admits admits) {shape : Shape}
    (hshape : ∀ c, shape = .function c → ∀ native ∈ c.native, admits native)
    (entries : List (String × Value)) : (s.make shape entries).1.Admits admits := by
  intro a c hc
  rw [object_make] at hc
  split at hc
  · exact hshape c hc
  · exact h a c hc

theorem Admits.setProperty (h : s.Admits admits) (a : Address) (key : String) (v : Value) :
    (s.setProperty a key v).Admits admits := by
  intro b c hc
  rw [shape_setProperty] at hc
  exact h b c hc

end Store

/-- Objects and lists are no functions. -/
theorem Shape.ne_function {shape : Shape} (h : shape = .object ∨ shape = .list) (c : Closure) :
    shape ≠ .function c := by
  rcases h with rfl | rfl <;> nofun

/-- The admitted functions of the embedding program leave the store as it is and make only admitted
functions. -/
structure Host.ReadOnly (host : Host) (admits : Native → Prop) : Prop where
  native {name : String} (s : Store) (self : Value) (args : List Value) :
    admits (.foreign name) → (host.native name s self args).1 = s ∧
      (host.native name s self args).2.Carries (fun _ => True) admits
  dataFunction {name : String} {data : List Datum} : admits (.dataFunction name) →
    (∀ d ∈ data, d.Plain) → (host.dataFunction name data).Carries (fun _ => True) admits

/-- Without functions of the embedding program there is nothing to ask of it. -/
theorem Host.readOnly_isOwn (host : Host) : host.ReadOnly (Native.isOwn · = true) where
  native _ _ _ := nofun
  dataFunction := nofun

/-- The frames around the calls of a function. -/
def Closure.chain (c : Closure) : List FrameId := (c.scope.map Scope.chain).getD []

theorem Closure.chain_of_scope {c : Closure} {scope : Scope} (h : c.scope = some scope) :
    c.chain = scope.chain := by
  rw [chain, h]
  rfl

theorem Closure.exists_of_mem_chain {c : Closure} {f : FrameId} (h : f ∈ c.chain) :
    ∃ scope, c.scope = some scope ∧ f ∈ scope.chain := by
  cases hscope : c.scope with
  | none =>
    rw [chain, hscope] at h
    cases h
  | some scope => exact ⟨scope, rfl, chain_of_scope hscope ▸ h⟩

/-! ## Operators give no references -/

namespace Operator

variable {knows : Address → Prop} {s : Store} {symbol : String} {l r v : Value}

theorem known_onNumbers {op : Num → Num → Except Num.Fault Num}
    (h : onNumbers s symbol op l r = .ok v) : v.Known knows := by
  unfold onNumbers at h
  split at h
  · next m n =>
    cases hn : op m n with
    | error fault =>
      rw [hn] at h
      cases h
    | ok x =>
      rw [hn] at h
      cases h
      trivial
  · cases h

theorem known_joinTexts (h : joinTexts s l r = .ok v) : v.Known knows := by
  unfold joinTexts at h
  cases hl : s.display l with
  | error cause =>
    rw [hl] at h
    cases h
  | ok left =>
    cases hr : s.display r with
    | error cause =>
      rw [hl, hr] at h
      cases h
    | ok right =>
      rw [hl, hr] at h
      cases h
      trivial

theorem known_plus (h : plus s l r = .ok v) : v.Known knows := by
  unfold plus at h
  split at h
  · exact known_joinTexts h
  · exact known_joinTexts h
  · exact known_onNumbers h

theorem known_apply (h : apply s symbol l r = .ok v) : v.Known knows := by
  unfold apply at h
  split at h
  · exact known_plus h
  · split at h
    · exact known_onNumbers h
    · split at h
      · cases h
        trivial
      · split at h
        · cases h
          trivial
        · cases h

end Operator

/-! ## Invariants -/

namespace Eval

/-- The index of an invariant that knows from the start what a run may meet. -/
inductive Fixed where
  | mk

instance : Preorder Fixed where
  le _ _ := True
  le_refl _ := trivial
  le_trans _ _ _ _ _ := trivial

/-- What holds of a world, and the addresses, chains and natives that a run may meet in it; how
the operations of the store keep it; and that nothing else can be found from there. -/
structure Invariant (host : Host) (I : Type) [Preorder I] where
  Holds : I → World → Prop
  Knows : I → Address → Prop
  Covers : I → List FrameId → Prop
  Admits : Native → Prop
  knows_mono {i j : I} {a : Address} : i ≤ j → Knows i a → Knows j a
  covers_mono {i j : I} {chain : List FrameId} : i ≤ j → Covers i chain → Covers j chain
  covers_nil (i : I) : Covers i []
  /-- Printing, notes and the depth do not matter. -/
  quiet {i : I} {w w' : World} : Holds i w → w'.store = w.store →
    (∃ text, w'.output = w.output ++ text) → Holds i w'
  openFrame {i : I} {w : World} {outer : List FrameId} : Holds i w → Covers i outer →
    ∃ j, i ≤ j ∧ Holds j { w with store := (w.store.openFrame outer).1 } ∧
      Covers j (w.store.frames.size :: outer)
  /-- A binding is written where the name is new or not constant. -/
  bindName {i : I} {w : World} {chain : List FrameId} {f : FrameId} {name : String} {b : Binding} :
    Holds i w → Covers i chain → f ∈ chain → b.value.Known (Knows i) →
    (∀ old, (w.store.frame f).vars.find? name = some old →
      old.constant = false ∧ b.constant = false) →
    Holds i { w with store := w.store.bindName f name b }
  make {i : I} {w : World} {shape : Shape} {entries : List (String × Value)} : Holds i w →
    shape = .object ∨ shape = .list → (∀ e ∈ entries, e.2.Known (Knows i)) →
    ∃ j, i ≤ j ∧ Holds j { w with store := (w.store.make shape entries).1 } ∧
      Knows j w.store.objects.size
  makeFunction {i : I} {w : World} {c : Closure} (name : String) : Holds i w → Covers i c.chain →
    (∀ native ∈ c.native, Admits native) →
    ∃ j, i ≤ j ∧
      Holds j { w with store := (w.store.makeFunction c [("name", .str name)] false).1 } ∧
      Knows j w.store.objects.size
  setProperty {i : I} {w : World} {a : Address} {v : Value} (key : String) : Holds i w →
    Knows i a → v.Known (Knows i) → Holds i { w with store := w.store.setProperty a key v }
  binding {i : I} {w : World} {chain : List FrameId} {f : FrameId} {name : String} {b : Binding} :
    Holds i w → Covers i chain → f ∈ chain → (w.store.frame f).vars.find? name = some b →
    b.value.Known (Knows i)
  property {i : I} {w : World} {a : Address} {e : String × Value} : Holds i w → Knows i a →
    e ∈ (w.store.object a).properties.entries → e.2.Known (Knows i)
  closure {i : I} {w : World} {a : Address} {c : Closure} : Holds i w → Knows i a →
    (w.store.object a).shape = .function c →
    Covers i c.chain ∧ ∀ native ∈ c.native, Admits native
  foreign {i : I} {w : World} {name : String} {self : Value} {args : List Value} : Holds i w →
    Admits (.foreign name) → self.Known (Knows i) → (∀ v ∈ args, v.Known (Knows i)) →
    ∃ j, i ≤ j ∧ Holds j { w with store := (host.native name w.store self args).1 } ∧
      (host.native name w.store self args).2.Carries (Knows j) Admits
  dataFunction {i : I} {w : World} {name : String} {data : List Datum} : Holds i w →
    Admits (.dataFunction name) → (∀ d ∈ data, d.Plain) →
    (host.dataFunction name data).Carries (Knows i) Admits

namespace Invariant

/-- An invariant that holds whatever values are met. -/
def blind {host : Host} {admits : Native → Prop} (hhost : host.ReadOnly admits)
    (Holds : World → Prop)
    (quiet : ∀ w w' : World, Holds w → w'.store = w.store →
      (∃ text, w'.output = w.output ++ text) → Holds w')
    (openFrame : ∀ w outer, Holds w → Holds { w with store := (w.store.openFrame outer).1 })
    (bindName : ∀ w f name b, Holds w → (∀ old, (w.store.frame f).vars.find? name = some old →
      old.constant = false ∧ b.constant = false) →
      Holds { w with store := w.store.bindName f name b })
    (make : ∀ w shape entries, Holds w → Holds { w with store := (w.store.make shape entries).1 })
    (setProperty : ∀ w a key v, Holds w → Holds { w with store := w.store.setProperty a key v }) :
    Invariant host Fixed where
  Holds _ w := Holds w ∧ w.store.Admits admits
  Knows _ _ := True
  Covers _ _ := True
  Admits := admits
  knows_mono _ _ := trivial
  covers_mono _ _ := trivial
  covers_nil _ := trivial
  quiet h hs ho := ⟨quiet _ _ h.1 hs ho, hs ▸ h.2⟩
  openFrame h _ := ⟨.mk, le_rfl, ⟨openFrame _ _ h.1, h.2⟩, trivial⟩
  bindName h _ _ _ hold := ⟨bindName _ _ _ _ h.1 hold, h.2⟩
  make h hs _ := by
    refine ⟨.mk, le_rfl, ⟨make _ _ _ h.1, h.2.make ?_ _⟩, trivial⟩
    exact fun c hc => absurd hc (Shape.ne_function hs c)
  makeFunction _ h _ hn := by
    refine ⟨.mk, le_rfl, ⟨make _ _ _ h.1, h.2.make ?_ _⟩, trivial⟩
    rintro _ ⟨⟩
    exact hn
  setProperty key h _ _ := ⟨setProperty _ _ key _ h.1, h.2.setProperty _ key _⟩
  binding _ _ _ _ := Value.known_any _
  property _ _ _ := Value.known_any _
  closure h _ hc := ⟨trivial, h.2 _ _ hc⟩
  foreign {i w name self args} h ha _ _ := by
    obtain ⟨hstore, hdata⟩ := hhost.native w.store self args ha
    rw [hstore]
    exact ⟨i, le_rfl, h, hdata⟩
  dataFunction _ ha hplain := hhost.dataFunction ha hplain

variable {host : Host} {I : Type} [Preorder I] (inv : Invariant host I) {i : I} {α β : Type}

def Known (i : I) (v : Value) : Prop := v.Known (inv.Knows i)

/-- What is known of the way a run ended. -/
def Ends (i : I) (Q : I → α → Prop) : Except Exit α → Prop
  | .ok a => Q i a
  | .error (.returned v) => inv.Known i v
  | .error _ => True

/-- From any later index at which the invariant holds, the run leads to one at which it holds. -/
def Keeps (i : I) (Q : I → α → Prop) (m : Run α) : Prop :=
  ∀ j w, i ≤ j → inv.Holds j w → ∃ k, j ≤ k ∧ inv.Holds k (m w).2 ∧ inv.Ends k Q (m w).1

variable {inv}

theorem Known.mono {i j : I} (h : i ≤ j) {v : Value} (hv : inv.Known i v) : inv.Known j v :=
  Value.Known.mono (fun _ => inv.knows_mono h) hv

theorem known_all_mono {i j : I} (h : i ≤ j) {vs : List Value} (hvs : ∀ v ∈ vs, inv.Known i v) :
    ∀ v ∈ vs, inv.Known j v := fun v hv => (hvs v hv).mono h

/-! ## Steps -/

theorem Ends.of_error {P : I → α → Prop} {Q : I → β → Prop} {e : Exit}
    (h : inv.Ends i P (.error e)) : inv.Ends i Q (.error e) := by
  cases e with
  | returned v => exact h
  | _ => trivial

variable {P : I → α → Prop} {Q : I → β → Prop}

/-- A run that leaves the index as it is. -/
theorem keeps_of_step {m : Run α}
    (h : ∀ j w, i ≤ j → inv.Holds j w → inv.Holds j (m w).2 ∧ inv.Ends j P (m w).1) :
    inv.Keeps i P m := fun j w hij hw => ⟨j, le_rfl, h j w hij hw⟩

theorem keeps_bind {m : Run α} {f : α → Run β} (hm : inv.Keeps i P m)
    (hf : ∀ j a, i ≤ j → P j a → inv.Keeps j Q (f a)) : inv.Keeps i Q (m >>= f) := by
  intro j w hij hw
  obtain ⟨k, hjk, hk, he⟩ := hm j w hij hw
  rw [Run.bind_apply]
  rcases hmw : m w with ⟨e | a, w'⟩ <;> rw [hmw] at hk he
  · exact ⟨k, hjk, hk, he.of_error⟩
  · obtain ⟨l, hkl, hl, he'⟩ := hf k a (hij.trans hjk) he k w' le_rfl hk
    exact ⟨l, hjk.trans hkl, hl, he'⟩

theorem Keeps.later {m : Run α} (hm : inv.Keeps i P m) {j : I} (h : i ≤ j) : inv.Keeps j P m :=
  fun k w hjk hw => hm k w (h.trans hjk) hw

theorem Keeps.imp {m : Run α} {P' : I → α → Prop} (hm : inv.Keeps i P m)
    (h : ∀ j a, i ≤ j → P j a → P' j a) : inv.Keeps i P' m := by
  intro j w hij hw
  obtain ⟨k, hjk, hk, he⟩ := hm j w hij hw
  refine ⟨k, hjk, hk, ?_⟩
  cases ho : (m w).1 with
  | error e =>
    rw [ho] at he
    exact he.of_error
  | ok a =>
    rw [ho] at he
    exact h k a (hij.trans hjk) he

theorem keeps_pure {a : α} (h : ∀ j, i ≤ j → P j a) : inv.Keeps i P (pure a : Run α) :=
  keeps_of_step fun j _ hij hw => ⟨hw, h j hij⟩

theorem keeps_fail (cause : Failure) : inv.Keeps i P (Run.fail cause : Run α) :=
  keeps_of_step fun _ _ _ hw => ⟨hw, trivial⟩

theorem keeps_note (e : Event) : inv.Keeps i (fun _ _ => True) (Run.note e) :=
  keeps_of_step fun _ _ _ hw => ⟨inv.quiet hw rfl ⟨"", String.append_empty.symm⟩, trivial⟩

theorem keeps_inspect {look : Store → Except Failure α}
    (h : ∀ j w a, i ≤ j → inv.Holds j w → look w.store = .ok a → P j a) :
    inv.Keeps i P (Run.inspect look) := by
  refine keeps_of_step fun j w hij hw => ?_
  unfold Run.inspect
  cases hl : look w.store with
  | error cause => exact ⟨hw, trivial⟩
  | ok a => exact ⟨hw, h j w a hij hw hl⟩

/-- A run that goes on from what a look at the store found. -/
theorem keeps_inspect_bind {look : Store → Except Failure α} {f : α → Run β}
    (h : ∀ j w a, i ≤ j → inv.Holds j w → look w.store = .ok a →
      inv.Holds j (f a w).2 ∧ inv.Ends j Q (f a w).1) :
    inv.Keeps i Q (Run.inspect look >>= f) := by
  refine keeps_of_step fun j w hij hw => ?_
  rw [Run.bind_apply, Run.inspect]
  cases hl : look w.store with
  | error cause => exact ⟨hw, trivial⟩
  | ok a => exact h j w a hij hw hl

/-- A run that depends on the store in which it starts. -/
theorem keeps_store {f : Store → Run β}
    (h : ∀ j w, i ≤ j → inv.Holds j w → inv.Keeps j Q (f w.store)) :
    inv.Keeps i Q (Run.store >>= f) := fun j w hij hw => h j w hij hw j w le_rfl hw

theorem keeps_endProgram {m : Run Value} (hm : inv.Keeps i inv.Known m) :
    inv.Keeps i inv.Known (endProgram m) := by
  intro j w hij hw
  obtain ⟨k, hjk, hk, he⟩ := hm j w hij hw
  unfold endProgram
  rcases hmw : m w with ⟨(v | cause | _) | v, w'⟩ <;> rw [hmw] at hk he <;>
    exact ⟨k, hjk, hk, he⟩

/-! ## Parts of the rules -/

theorem keeps_openFrame {outer : List FrameId} (h : inv.Covers i outer) :
    inv.Keeps i (fun j scope => inv.Covers j scope.chain)
      (Run.create fun s => s.openFrame outer) :=
  fun _ _ hij hw => inv.openFrame hw (inv.covers_mono hij h)

theorem keeps_make {shape : Shape} (hs : shape = .object ∨ shape = .list)
    {entries : List (String × Value)} (h : ∀ e ∈ entries, inv.Known i e.2) :
    inv.Keeps i inv.Known (Run.create fun s => s.make shape entries) :=
  fun _ _ hij hw => inv.make hw hs fun e he => (h e he).mono hij

theorem keeps_declare {scope : Scope} (name : String) {b : Binding}
    (hs : inv.Covers i scope.chain) (hb : inv.Known i b.value) :
    inv.Keeps i (fun _ _ => True) (declare scope name b) := by
  refine keeps_inspect_bind fun j w a hij hw hl => ⟨?_, trivial⟩
  have hnew := Store.not_mem_keys_of_mayDeclare hl
  refine inv.bindName hw (inv.covers_mono hij hs) List.mem_cons_self (Known.mono hij hb) ?_
  intro old hold
  rw [(Table.find?_eq_none_iff _ _).2 hnew] at hold
  cases hold

theorem keeps_assignName {scope : Scope} (name : String) {v : Value}
    (hs : inv.Covers i scope.chain) (hv : inv.Known i v) :
    inv.Keeps i inv.Known (assignName scope name v) := by
  refine keeps_inspect_bind fun j w f hij hw hl => ⟨?_, hv.mono hij⟩
  obtain ⟨hf, b, hb, hc⟩ := Store.exists_of_assignable hl
  refine inv.bindName hw (inv.covers_mono hij hs) hf (hv.mono hij) fun old hold => ?_
  rw [hb] at hold
  cases hold
  exact ⟨hc, rfl⟩

theorem keeps_lookup {scope : Scope} (name : String) (hs : inv.Covers i scope.chain) :
    inv.Keeps i inv.Known (Run.inspect fun s => s.lookup scope name) := by
  refine keeps_inspect fun j w v hij hw hl => ?_
  obtain ⟨f, hf, b, hb, rfl⟩ := Store.exists_of_lookup hl
  exact inv.binding hw (inv.covers_mono hij hs) hf hb

theorem keeps_getProperty {a : Address} (name : String) (ha : inv.Knows i a) :
    inv.Keeps i inv.Known (Run.inspect fun s => .ok (s.getProperty a name)) := by
  refine keeps_inspect fun j w v hij hw hl => ?_
  cases hl
  rcases w.store.getProperty_cases a name with h | h
  · rw [h]
    trivial
  · exact inv.property hw (inv.knows_mono hij ha) h

theorem keeps_setProperty {a : Address} (name : String) {v : Value} (ha : inv.Knows i a)
    (hv : inv.Known i v) :
    inv.Keeps i (fun _ _ => True) (Run.update fun s => s.setProperty a name v) :=
  keeps_of_step fun _ _ hij hw =>
    ⟨inv.setProperty name hw (inv.knows_mono hij ha) (hv.mono hij), trivial⟩

theorem keeps_makeFunction {scope : Scope} (name : String) (params : List String)
    (body : List Node) (hs : inv.Covers i scope.chain) :
    inv.Keeps i inv.Known (Eval.makeFunction scope name params body) := by
  have made : inv.Keeps i inv.Known (Run.create fun s =>
      s.makeFunction ⟨params, body, some scope, none⟩ [("name", .str name)] false) :=
    fun _ _ hij hw => inv.makeFunction name hw (inv.covers_mono hij hs) nofun
  refine keeps_bind made fun j f hij hf => ?_
  split
  · exact keeps_pure fun k hjk => hf.mono hjk
  · exact keeps_bind (keeps_declare name (inv.covers_mono hij hs) hf) fun k _ hjk _ =>
      keeps_pure fun l hkl => hf.mono (hjk.trans hkl)

theorem keeps_ownerOf {v : Value} (hv : inv.Known i v) : inv.Keeps i inv.Knows (ownerOf v) := by
  unfold ownerOf
  split
  · exact keeps_pure fun j hij => inv.knows_mono hij hv
  · exact keeps_inspect fun _ _ _ _ _ hl => nomatch hl

theorem keeps_target {owner keyValue : Run Value} (key : Node) (computed : Bool)
    (ho : inv.Keeps i inv.Known owner) (hk : inv.Keeps i inv.Known keyValue) :
    inv.Keeps i (fun j p => inv.Knows j p.1) (target owner key computed keyValue) := by
  refine keeps_bind ho fun j v hij hv => keeps_bind (keeps_ownerOf hv) fun k a hjk ha => ?_
  have found (name : String) : inv.Keeps k (fun j (p : Address × String) => inv.Knows j p.1)
      (pure (a, name)) := keeps_pure fun l hkl => inv.knows_mono hkl ha
  split
  · refine keeps_bind (hk.later (hij.trans hjk)) fun l v' hkl _ => ?_
    exact keeps_bind (P := fun _ _ => True) (keeps_inspect fun _ _ _ _ _ _ => trivial)
      fun l' name hll' _ => (found name).later (hkl.trans hll')
  · split
    · exact found _
    · exact found _
    · exact keeps_fail _

end Invariant

end Eval

end Guion
