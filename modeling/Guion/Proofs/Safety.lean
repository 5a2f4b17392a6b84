import Guion.Proofs.Causes
import Guion.Proofs.Rendering
import Guion.Proofs.Store

/-!
# Runs without internal failures

The rules of the evaluator have branches for trees that only a program can build: nodes without a
rule, keys that are no names, operators that do not exist, functions that cannot be written.  A run
is safe if it takes none of them as long as the body of every function in the store was read and
the natives in the store are those of the language, and if it leaves such a store.

    s.Sound → OfScript (look s)         looks at the store fail only as scripts may
    native.isOwn = true → Safe early (native.call host self args)                (safe_native)
-/

namespace Guion

/-! ## Failures of scripts -/

/-- Failures that a script may end in: faults of its text, of its names, types and numbers, calls
and values that nest too deep, calls for which the host has no room, and assignments to something
that is no place. -/
def Failure.ofScript : Failure → Bool
  | .illegal _ | .grammar _ | .redeclared _ | .undeclared _ | .constantAssigned _ | .notCallable _
  | .noProperties _ | .notNumbers .. | .lengthOfNothing | .noLength _ | .noSource _ | .badKey _
  | .unconvertible _ | .badTarget _ | .numeric _ | .tooDeep _ | .noRoom | .stackExhausted
  | .endless => true
  | .unsupported _ | .badProperty _ | .unknownOperator _ | .unwritable _ | .malformed
  | .notFile _ => false

/-- What fails only as scripts may. -/
def OfScript {α : Type} (x : Except Failure α) : Prop :=
  ∀ cause, x = .error cause → cause.ofScript = true

section

variable {α β : Type}

theorem ofScript_ok (a : α) : OfScript (.ok a) := failsWith_ok a

theorem ofScript_error {cause : Failure} (h : cause.ofScript = true) :
    OfScript (.error cause : Except Failure α) := failsWith_error h

theorem ofScript_bind {x : Except Failure α} {f : α → Except Failure β} (hx : OfScript x)
    (hf : ∀ a, OfScript (f a)) : OfScript (x >>= f) := failsWith_bind hx hf

theorem ofScript_map {x : Except Failure α} (hx : OfScript x) (f : α → β) :
    OfScript (x.map f) := failsWith_map hx f

theorem ofScript_numeric (x : Except Num.Fault α) : OfScript (x.mapError Failure.numeric) :=
  failsWith_mapError (P := (·.ofScript = true)) (fun _ => rfl) x

theorem ofScript_mapM {f : α → Except Failure β} (hf : ∀ a, OfScript (f a)) (xs : List α) :
    OfScript (xs.mapM f) := failsWith_mapM hf xs

end

/-! ## Sound stores -/

/-- A native of the language itself. -/
def Native.isOwn : Native → Bool
  | .foreign _ | .dataFunction _ => false
  | _ => true

/-- A function whose body was read, or a native of the language. -/
def Shape.Sound : Shape → Prop
  | .function c => (∀ n ∈ c.body, Node.Fits .statement n) ∧ ∀ native ∈ c.native, native.isOwn = true
  | _ => True

theorem Shape.sound_native {native : Native} (h : native.isOwn = true) :
    (Shape.function (Store.nativeClosure native)).Sound :=
  ⟨nofun, fun _ he => Option.some.inj he ▸ h⟩

namespace Store

/-- Every stored function has a body that was read or is a native of the language. -/
def Sound (s : Store) : Prop := ∀ a, (s.object a).shape.Sound

theorem sound_initial : initial.Sound := by
  intro a
  match a with
  | 0 => exact @Shape.sound_native .showSelf rfl
  | 1 => exact @Shape.sound_native .typeOfSelf rfl
  | 2 => exact @Shape.sound_native .sourceOfSelf rfl
  | _ + 3 => trivial

variable {s : Store}

theorem Sound.make (h : s.Sound) (shape : Shape) (hs : shape.Sound)
    (entries : List (String × Value)) : (s.make shape entries).1.Sound := by
  intro a
  rw [Store.make, object_alloc]
  split
  · exact hs
  · exact h a

theorem Sound.setProperty (h : s.Sound) (a : Address) (key : String) (v : Value) :
    (s.setProperty a key v).Sound := by
  intro b
  rw [shape_setProperty]
  exact h b

theorem Sound.openFrame (h : s.Sound) (outer : List FrameId) : (s.openFrame outer).1.Sound := h

theorem Sound.bindName (h : s.Sound) (f : FrameId) (name : String) (b : Binding) :
    (s.bindName f name b).Sound := h

end Store

/-! ## Safe runs -/

/-- How a run ends without an internal failure; `early` says whether it may also end in a return or
in an exhausted budget. -/
inductive EndsWell (early : Prop) {α : Type} : Except Exit α → Prop
  | value (a : α) : EndsWell early (.ok a)
  | failed {cause : Failure} : cause.ofScript = true → EndsWell early (.error (.failed cause))
  | returned (v : Value) : early → EndsWell early (.error (.returned v))
  | exhausted : early → EndsWell early (.error .exhausted)

/-- From a sound store the run ends without an internal failure and leaves a sound store. -/
def Safe (early : Prop) {α : Type} (m : Run α) : Prop :=
  ∀ w : World, w.store.Sound → EndsWell early (m w).1 ∧ (m w).2.store.Sound

variable {early : Prop}

section

variable {α β : Type}

theorem EndsWell.of_error {e : Exit} (h : EndsWell early (.error e : Except Exit α)) :
    EndsWell early (.error e : Except Exit β) := by
  cases h with
  | failed h => exact .failed h
  | returned v h => exact .returned v h
  | exhausted h => exact .exhausted h

theorem safe_pure (a : α) : Safe early (pure a : Run α) := fun _ hw => ⟨.value a, hw⟩

theorem safe_bind {m : Run α} {f : α → Run β} (hm : Safe early m) (hf : ∀ a, Safe early (f a)) :
    Safe early (m >>= f) := by
  intro w hw
  obtain ⟨he, hs⟩ := hm w hw
  rw [Run.bind_apply]
  rcases hmw : m w with ⟨e | a, w'⟩
  · rw [hmw] at he hs
    exact ⟨he.of_error, hs⟩
  · rw [hmw] at hs
    exact hf a w' hs

theorem safe_fail {cause : Failure} (h : cause.ofScript = true) :
    Safe early (Run.fail cause : Run α) := fun _ hw => ⟨.failed h, hw⟩

theorem safe_note (e : Event) : Safe early (Run.note e) := fun _ hw => ⟨.value (), hw⟩

/-- A run that depends on the store in which it starts. -/
theorem safe_ofStore {f : Store → Run α} (h : ∀ s : Store, s.Sound → Safe early (f s)) :
    Safe early (Run.store >>= f) := fun w hw => h w.store hw w hw

/-- A look that fails only as scripts may. -/
theorem safe_inspect {look : Store → Except Failure α}
    (h : ∀ s : Store, s.Sound → OfScript (look s)) : Safe early (Run.inspect look) := by
  intro w hw
  unfold Run.inspect
  cases hl : look w.store with
  | error cause => exact ⟨.failed (h w.store hw cause hl), hw⟩
  | ok a => exact ⟨.value a, hw⟩

theorem safe_create {step : Store → Store × α} (h : ∀ s : Store, s.Sound → (step s).1.Sound) :
    Safe early (Run.create step) := fun _ hw => ⟨.value _, h _ hw⟩

theorem safe_update {step : Store → Store} (h : ∀ s : Store, s.Sound → (step s).Sound) :
    Safe early (Run.update step) := fun _ hw => ⟨.value (), h _ hw⟩

end

/-! ## Looks at the store -/

namespace Store

variable (s : Store) (scope : Scope) (name : String)

theorem ofScript_mayDeclare : OfScript (s.mayDeclare scope name) :=
  s.failsWith_mayDeclare scope rfl

theorem ofScript_lookup : OfScript (s.lookup scope name) := s.failsWith_lookup scope rfl

theorem ofScript_assignable : OfScript (s.assignable scope name) :=
  s.failsWith_assignable scope rfl rfl

theorem ofScript_display (v : Value) : OfScript (s.display v) :=
  s.failsWith_display v rfl fun _ => rfl

theorem ofScript_showOrFail (v : Value) : OfScript (s.showOrFail v) := s.failsWith_showOrFail v rfl

theorem ofScript_lengthOf (v : Value) : OfScript (s.lengthOf v) :=
  s.failsWith_lengthOf v fun _ => rfl

end Store

theorem ofScript_key (s : Store) (v : Value) : OfScript (v.key s) :=
  s.failsWith_key v (fun _ => rfl) fun _ => rfl

namespace Operator

theorem ofScript_onNumbers (s : Store) (symbol : String) (op : Num → Num → Except Num.Fault Num)
    (l r : Value) : OfScript (onNumbers s symbol op l r) :=
  failsWith_onNumbers s l r (fun _ => rfl) (fun _ _ => rfl) op

theorem ofScript_plus (s : Store) (l r : Value) : OfScript (plus s l r) :=
  failsWith_plus s l r (fun _ => rfl) (fun _ _ => rfl) rfl

/-- The symbols of the language that do not stop at the left operand are operators on values. -/
theorem ofScript_apply {symbol : String} (h : symbol ∈ Node.symbols)
    (hs : isShortCircuit symbol = false) (s : Store) (l r : Value) :
    OfScript (apply s symbol l r) := by
  simp only [Node.symbols, List.mem_cons, List.not_mem_nil, or_false] at h
  rcases h with rfl | rfl | rfl | rfl | rfl | rfl | rfl | rfl | rfl
  · cases hs
  · cases hs
  · exact ofScript_ok _
  · exact ofScript_ok _
  · exact ofScript_plus s l r
  · exact ofScript_onNumbers s "-" Num.subtract l r
  · exact ofScript_onNumbers s "*" Num.multiply l r
  · exact ofScript_onNumbers s "/" Num.divide l r
  · exact ofScript_onNumbers s "%" Num.modulo l r

end Operator

/-! ## Data that natives of the language give back -/

/-- Data without functions and other things of the embedding program. -/
inductive Datum.Plain : Datum → Prop
  | null : Plain .null
  | bool (b : Bool) : Plain (.bool b)
  | num (n : Num) : Plain (.num n)
  | text (t : String) : Plain (.text t)
  | list {items : List Datum} : (∀ d ∈ items, Plain d) → Plain (.list items)
  | record {entries : List (Datum × Datum)} : (∀ e ∈ entries, Plain e.2) → Plain (.record entries)

theorem forall_mem_of_mapM {α β : Type} {f : α → Option β} {P : β → Prop}
    (h : ∀ a b, f a = some b → P b) : ∀ {xs : List α} {ys : List β}, xs.mapM f = some ys →
      ∀ y ∈ ys, P y := by
  intro xs
  induction xs with
  | nil =>
    intro ys hys
    cases hys
    simp
  | cons x xs ih =>
    intro ys hys
    rw [List.mapM_cons] at hys
    obtain ⟨b, hb, hys⟩ := Option.bind_eq_some_iff.1 hys
    obtain ⟨bs, hbs, hys⟩ := Option.bind_eq_some_iff.1 hys
    cases hys
    exact List.forall_mem_cons.2 ⟨h x b hb, ih hbs⟩

namespace Store

theorem plain_showWithin (s : Store) : ∀ (depth : Nat) (v : Value) (d : Datum),
    s.showWithin depth v = some d → d.Plain := by
  intro depth
  induction depth with
  | zero =>
    intro v d h
    cases v with
    | ref a =>
      simp only [showWithin] at h
      split at h <;> cases h
      exact .text _
    | _ => cases h; constructor
  | succ depth ih =>
    intro v d h
    cases v with
    | ref a =>
      simp only [showWithin] at h
      split at h
      · cases h
        exact .text _
      · obtain ⟨items, hi, rfl⟩ := Option.map_eq_some_iff.1 h
        exact .list (forall_mem_of_mapM (fun e d hd => ih e.2 d hd) hi)
      all_goals
        obtain ⟨entries, he, rfl⟩ := Option.map_eq_some_iff.1 h
        refine .record (forall_mem_of_mapM (fun e p hp => ?_) he)
        obtain ⟨d, hd, rfl⟩ := Option.map_eq_some_iff.1 hp
        exact ih e.2 d hd
    | _ => cases h; constructor

/-- A step that fails only as scripts may and else leaves a sound store. -/
def Kept {α : Type} (x : Except Failure (Store × α)) : Prop :=
  OfScript x ∧ ∀ p, x = .ok p → p.1.Sound

theorem kept_ok {α : Type} {p : Store × α} (h : p.1.Sound) : Kept (.ok p) := by
  refine ⟨ofScript_ok p, ?_⟩
  rintro _ ⟨⟩
  exact h

theorem kept_bind {α β : Type} {x : Except Failure (Store × α)}
    {f : Store × α → Except Failure (Store × β)} (hx : Kept x) (hf : ∀ p, p.1.Sound → Kept (f p)) :
    Kept (x >>= f) := by
  cases x with
  | error cause => exact ⟨ofScript_error (hx.1 cause rfl), nofun⟩
  | ok p => exact hf p (hx.2 p rfl)

theorem kept_look {α β : Type} {x : Except Failure α} {f : α → Except Failure (Store × β)}
    (hx : OfScript x) (hf : ∀ a, Kept (f a)) : Kept (x >>= f) := by
  cases x with
  | error cause => exact ⟨ofScript_error (hx cause rfl), nofun⟩
  | ok a => exact hf a

theorem kept_ofItems {items : List Datum}
    (h : ∀ d ∈ items, ∀ s : Store, s.Sound → Kept (s.ofDatum d)) :
    ∀ s : Store, s.Sound → Kept (s.ofItems items) := by
  induction items with
  | nil => exact fun s hs => kept_ok hs
  | cons d ds ih =>
    obtain ⟨hd, hds⟩ := List.forall_mem_cons.1 h
    intro s hs
    rw [ofItems]
    exact kept_bind (hd s hs) fun p hp => kept_bind (ih hds p.1 hp) fun q hq => kept_ok hq

theorem kept_ofEntries {entries : List (Datum × Datum)}
    (h : ∀ e ∈ entries, ∀ s : Store, s.Sound → Kept (s.ofDatum e.2)) :
    ∀ (s : Store) (made : Table Value), s.Sound → Kept (s.ofEntries made entries) := by
  induction entries with
  | nil => exact fun s made hs => kept_ok hs
  | cons e rest ih =>
    obtain ⟨he, hrest⟩ := List.forall_mem_cons.1 h
    obtain ⟨key, d⟩ := e
    intro s made hs
    rw [ofEntries]
    exact kept_look (ofScript_numeric _) fun name => kept_bind (he s hs) fun p hp =>
      ih hrest p.1 _ hp

/-- Plain data become values without new functions. -/
theorem kept_ofDatum {d : Datum} (h : d.Plain) : ∀ s : Store, s.Sound → Kept (s.ofDatum d) := by
  induction h with
  | list _ ih =>
    intro s hs
    rw [ofDatum]
    exact kept_bind (kept_ofItems ih s hs) fun p hp => kept_ok (hp.make .list trivial _)
  | record _ ih =>
    intro s hs
    rw [ofDatum]
    exact kept_bind (kept_ofEntries ih s .empty hs) fun p hp =>
      kept_ok (hp.make .object trivial _)
  | _ => exact fun s hs => kept_ok hs

end Store

/-! ## Natives -/

/-- A function whose body was read can be written. -/
theorem ofScript_functionSource {c : Closure} (h : (Shape.function c).Sound) (o : Object) :
    OfScript (Store.functionSource o c) := by
  unfold Store.functionSource
  split
  · exact ofScript_ok _
  · obtain ⟨texts, ht, -⟩ := Node.sourceStatements_writes fun n hn => (h.1 n hn).source
    have hs : Node.functionSource o.functionName c.params c.body =
        .ok (Node.functionText o.functionName c.params (Node.blockText texts)) := by
      rw [Node.functionSource, ht]
      rfl
    rw [hs]
    exact ofScript_ok _

theorem ofScript_sourceOf {s : Store} (hs : s.Sound) (v : Value) : OfScript (s.sourceOf v) := by
  unfold Store.sourceOf
  split
  · next a =>
    split
    · next c hc =>
      have hshape : (s.object a).shape = .function c := by
        unfold Object.closure? at hc
        split at hc
        · next hshape => rw [hshape, Option.some.inj hc]
        · cases hc
      have hsound := hs a
      rw [hshape] at hsound
      exact ofScript_functionSource hsound _
    · exact ofScript_error rfl
  · exact ofScript_error rfl

theorem plain_showOrFail {s : Store} {v : Value} {d : Datum} (h : s.showOrFail v = .ok d) :
    d.Plain := by
  unfold Store.showOrFail at h
  split at h
  · next d' hd =>
    cases h
    exact s.plain_showWithin _ v d hd
  · cases h

theorem plain_map {α : Type} {x : Except Failure α} {f : α → Datum} (hf : ∀ a, (f a).Plain)
    {d : Datum} (h : x.map f = .ok d) : d.Plain := by
  cases x with
  | error cause => cases h
  | ok a =>
    cases h
    exact hf a

/-- A safe run whose values are plain data. -/
def SafePlain (early : Prop) (m : Run Datum) : Prop :=
  Safe early m ∧ ∀ w d, (m w).1 = .ok d → d.Plain

theorem safePlain_inspect {look : Store → Except Failure Datum}
    (h : ∀ s : Store, s.Sound → OfScript (look s)) (hp : ∀ s d, look s = .ok d → d.Plain) :
    SafePlain early (Run.inspect look) := by
  refine ⟨safe_inspect h, fun w d hd => ?_⟩
  unfold Run.inspect at hd
  split at hd
  · next a ha =>
    cases hd
    exact hp w.store d ha
  · cases hd

theorem safePlain_pure {d : Datum} (h : d.Plain) : SafePlain early (pure d) := by
  refine ⟨safe_pure d, ?_⟩
  rintro w _ ⟨⟩
  exact h

theorem safePlain_bind {α : Type} {m : Run α} {f : α → Run Datum} (hm : Safe early m)
    (hf : ∀ a, SafePlain early (f a)) : SafePlain early (m >>= f) := by
  refine ⟨safe_bind hm fun a => (hf a).1, fun w d hd => ?_⟩
  rw [Run.bind_apply] at hd
  split at hd
  · next a w' _ => exact (hf a).2 w' d hd
  · cases hd

theorem safe_printArguments (args : List Value) : Safe early (Native.printArguments args) := by
  refine safe_bind (safe_inspect fun s _ => ofScript_mapM s.ofScript_display args) fun texts => ?_
  exact fun w hw => ⟨.value (), hw⟩

/-- What the natives of the language give back. -/
theorem safePlain_result (host : Host) {native : Native} (h : native.isOwn = true) (self : Value)
    (args : List Value) : SafePlain early (native.result host self args) := by
  cases native with
  | showSelf =>
    exact safePlain_inspect (fun s _ => s.ofScript_showOrFail self) fun s d => plain_showOrFail
  | typeOfSelf =>
    exact safePlain_inspect (fun s _ => ofScript_ok _) fun s d hd => by cases hd; exact .text _
  | sourceOfSelf =>
    exact safePlain_inspect (fun s hs => ofScript_map (ofScript_sourceOf hs self) _) fun s d =>
      plain_map Datum.Plain.text
  | printLine =>
    exact safePlain_bind (safe_printArguments args) fun _ => safePlain_pure .null
  | typeName =>
    exact safePlain_inspect (fun s _ => ofScript_ok _) fun s d hd => by cases hd; exact .text _
  | length =>
    cases args with
    | nil => exact ⟨safe_fail rfl, nofun⟩
    | cons v args =>
      have counted : ∀ s : Store, OfScript (do let n ← s.lengthOf v; pure (n : Int)) := fun s =>
        ofScript_bind (s.ofScript_lengthOf v) fun _ => ofScript_ok _
      exact safePlain_inspect (fun s _ => ofScript_map (counted s) _) fun s d =>
        plain_map fun n => .num _
  | text =>
    cases args with
    | nil => exact safePlain_pure (.text "")
    | cons v args =>
      exact safePlain_inspect (fun s _ => ofScript_map (s.ofScript_display v) _) fun s d =>
        plain_map Datum.Plain.text
  | foreign name => cases h
  | dataFunction name => cases h

theorem safe_attempt {α : Type} {step : Store → Except Failure (Store × α)}
    (h : ∀ s : Store, s.Sound → Store.Kept (step s)) : Safe early (Run.attempt step) := by
  intro w hw
  obtain ⟨hfail, hkept⟩ := h w.store hw
  unfold Run.attempt
  split
  · next s a hs => exact ⟨.value a, hkept (s, a) hs⟩
  · next cause hc => exact ⟨.failed (hfail cause hc), hw⟩

theorem safe_native (host : Host) {native : Native} (h : native.isOwn = true) (self : Value)
    (args : List Value) : Safe early (native.call host self args) := by
  obtain ⟨hsafe, hplain⟩ := safePlain_result host h self args
  intro w hw
  obtain ⟨he, hs⟩ := hsafe w hw
  have hp := hplain w
  unfold Native.call
  rw [Run.bind_apply]
  rcases hr : native.result host self args w with ⟨e | d, w'⟩
  · rw [hr] at he hs
    exact ⟨he.of_error, hs⟩
  · rw [hr] at hp hs
    exact safe_attempt (fun s hs => Store.kept_ofDatum (hp d rfl) s hs) w' hs

end Guion
