import Guion.Session
import Guion.Proofs.Invariant.Trees

/-!
# Invariants of sessions

A session starts with a new root frame, in which the built-ins are declared as globals, and then
runs scripts; each script is a program in the root scope.  An invariant of evaluation that also
allows for the declaration of globals holds after every history of sessions, whatever the scripts
are and whether or not they fail.

    inv.Founds → (∀ room, inv.Holds i (.initial room)) → History host sessions w →
      ∃ j, inv.Holds j w ∧ ∀ session ∈ sessions, inv.Covers j session.scope.chain
                                                                            (History.holds)
-/

namespace Guion

/-- All functions of the initial store are natives of the language. -/
theorem Store.exists_of_function_initial {a : Address} {c : Closure}
    (h : (initial.object a).shape = .function c) :
    ∃ native : Native, native.isOwn = true ∧ c = nativeClosure native := by
  match a with
  | 0 => exact ⟨.showSelf, rfl, (Shape.function.inj h).symm⟩
  | 1 => exact ⟨.typeOfSelf, rfl, (Shape.function.inj h).symm⟩
  | 2 => exact ⟨.sourceOfSelf, rfl, (Shape.function.inj h).symm⟩
  | _ + 3 => cases h

theorem Store.admits_initial : initial.Admits (Native.isOwn · = true) := by
  intro a c hc native hn
  obtain ⟨own, hown, rfl⟩ := exists_of_function_initial hc
  cases hn
  exact hown

/-! ## Scripts -/

namespace Session

open Eval (Invariant)

variable {host : Host} {I : Type} [Preorder I] {inv : Invariant host I} {i : I}

theorem keeps_parse (code : String) : inv.Keeps i (fun _ _ => True) (parse code) := by
  unfold parse
  cases Token.scan code with
  | error fault => exact Invariant.keeps_fail _
  | ok tokens =>
    refine Invariant.keeps_bind (Invariant.keeps_note _) fun j _ _ _ => ?_
    cases Node.ofTokens tokens with
    | error fault => exact Invariant.keeps_fail _
    | ok reading =>
      exact Invariant.keeps_bind (Invariant.keeps_note _) fun _ _ _ _ =>
        Invariant.keeps_pure fun _ _ => trivial

variable {session : Session} (hs : inv.Covers i session.scope.chain)
include hs

theorem keeps_load (limit : Nat) (code : String) :
    inv.Keeps i (fun _ _ => True) (session.load host limit code) :=
  Invariant.keeps_bind (keeps_parse code) fun _ body hij _ =>
    Invariant.keeps_bind (inv.keeps_evaluate limit (.program body) session.scope
      (inv.covers_mono hij hs)) fun _ _ _ _ => Invariant.keeps_pure fun _ _ => trivial

theorem keeps_eval (limit : Nat) (code : String) :
    inv.Keeps i inv.Known (session.eval host limit code) :=
  Invariant.keeps_bind (keeps_parse code) fun _ body hij _ =>
    Invariant.keeps_bind (Invariant.keeps_note _) fun _ _ hjk _ =>
      inv.keeps_evaluate limit (.program body) session.scope
        (inv.covers_mono (hij.trans hjk) hs)

theorem keeps_loadScripts (limit : Nat) (scripts : List Prelude.Script) :
    inv.Keeps i (fun _ _ => True) (session.loadScripts host limit scripts) := by
  induction scripts generalizing i with
  | nil => exact Invariant.keeps_pure fun _ _ => trivial
  | cons script rest ih =>
    refine Invariant.keeps_bind (Invariant.keeps_note _) fun j _ hij _ => ?_
    have hsj := inv.covers_mono hij hs
    split
    · next code _ =>
      exact Invariant.keeps_bind (keeps_load hsj limit code) fun k _ hjk _ =>
        ih (inv.covers_mono hjk hsj)
    · exact Invariant.keeps_fail _

end Session

/-! ## Starting a session -/

namespace Builtin

theorem isOwn_functions : ∀ e ∈ functions, e.2.isOwn = true := by decide

/-- A name that is free is declared and noted as a global. -/
theorem declareName_apply (scope : Scope) (name : String) (v : Value) (constant : Bool)
    (w : World) : declareName scope name v constant true w =
      match w.store.mayDeclare scope name with
      | .ok _ => (.ok v, { w with
          store := (w.store.bindName scope.frame name ⟨v, constant⟩).noteGlobal scope name
          trace := .registeredGlobal name constant :: w.trace })
      | .error cause => (.error (.failed cause), w) := by
  unfold declareName Eval.declare
  simp only [Run.bind_apply, Run.inspect]
  cases w.store.mayDeclare scope name <;> rfl

end Builtin

namespace Eval.Invariant

variable {host : Host} {I : Type} [Preorder I] {inv : Invariant host I} {i : I}

/-- The invariant allows for the natives of the language and for the declaration of globals. -/
structure Founds (inv : Invariant host I) : Prop where
  own {native : Native} : native.isOwn = true → inv.Admits native
  declareGlobal {i : I} {w : World} {scope : Scope} {name : String} {b : Binding} :
    inv.Holds i w → inv.Covers i scope.chain → inv.Known i b.value →
    name ∉ (w.store.frame scope.frame).vars.keys →
    inv.Holds i { w with store := (w.store.bindName scope.frame name b).noteGlobal scope name }

variable (h : inv.Founds)
include h

theorem keeps_declareName {scope : Scope} (hs : inv.Covers i scope.chain)
    (name : String) {v : Value} (constant : Bool) (hv : inv.Known i v) :
    inv.Keeps i (fun _ _ => True) (Builtin.declareName scope name v constant true) := by
  refine keeps_of_step fun j w hij hw => ?_
  rw [Builtin.declareName_apply]
  cases hm : w.store.mayDeclare scope name with
  | error cause => exact ⟨hw, trivial⟩
  | ok _ =>
    have hnew := Store.not_mem_keys_of_mayDeclare hm
    have hd := h.declareGlobal (b := ⟨v, constant⟩) hw (inv.covers_mono hij hs)
      (hv.mono hij) hnew
    exact ⟨inv.quiet hd rfl ⟨"", String.append_empty.symm⟩, trivial⟩

theorem keeps_declareAll {scope : Scope} (constant : Bool) :
    ∀ {i : I} {entries : List (String × Value)}, inv.Covers i scope.chain →
      (∀ e ∈ entries, inv.Known i e.2) →
      inv.Keeps i (fun _ _ => True) (Builtin.declareAll scope constant entries)
  | _, [], _, _ => keeps_pure fun _ _ => trivial
  | _, (name, v) :: rest, hs, hvs => by
    obtain ⟨hv, hrest⟩ := List.forall_mem_cons.1 hvs
    refine keeps_bind (keeps_declareName h hs name constant hv) fun j _ hij _ => ?_
    exact keeps_declareAll constant (inv.covers_mono hij hs) fun e he =>
      (hrest e he).mono hij

theorem keeps_makeFunctions : ∀ {i : I} {natives : List (String × Native)},
    (∀ e ∈ natives, e.2.isOwn = true) →
    inv.Keeps i (fun j made => ∀ e ∈ made, inv.Known j e.2) (Builtin.makeFunctions natives)
  | _, [], _ => keeps_pure fun _ _ => nofun
  | i, (name, native) :: rest, hn => by
    obtain ⟨hnative, hrest⟩ := List.forall_mem_cons.1 hn
    have made : inv.Keeps i inv.Known (Run.create fun s =>
        s.makeFunction (Store.nativeClosure native) [("name", .str name)] false) := by
      refine fun j w _ hw => inv.makeFunction name hw (inv.covers_nil j) ?_
      rintro _ ⟨⟩
      exact h.own hnative
    refine keeps_bind made fun j f _ hf =>
      keeps_bind (keeps_makeFunctions hrest) fun k fs hjk hfs => ?_
    exact keeps_pure fun l hkl => List.forall_mem_cons.2
      ⟨hf.mono (hjk.trans hkl), fun e he => (hfs e he).mono hkl⟩

theorem keeps_register {scope : Scope} (hs : inv.Covers i scope.chain) :
    inv.Keeps i (fun _ _ => True) (Builtin.register scope) := by
  have plain : ∀ {j}, ∀ e ∈ Builtin.constants, inv.Known j e.2 := by
    intro j e he
    simp only [Builtin.constants, List.mem_cons, List.not_mem_nil, or_false] at he
    rcases he with rfl | rfl | rfl <;> trivial
  refine keeps_bind (keeps_makeFunctions h Builtin.isOwn_functions) fun j made hij hmade => ?_
  have hsj := inv.covers_mono hij hs
  refine keeps_bind (P := fun _ _ => True) ?_ fun k _ _ _ => ?_
  · exact keeps_bind (keeps_declareAll h false hsj hmade) fun k _ hjk _ =>
      keeps_declareAll h true (inv.covers_mono hjk hsj) plain
  · exact keeps_store fun _ _ _ _ => keeps_note _

theorem keeps_globalScope :
    inv.Keeps i (fun j scope => inv.Covers j scope.chain) Session.globalScope := by
  refine keeps_bind (keeps_openFrame (inv.covers_nil i)) fun j scope _ hs => ?_
  exact keeps_bind (keeps_register h hs) fun k _ hjk _ =>
    keeps_pure fun _ hkl => inv.covers_mono (hjk.trans hkl) hs

end Eval.Invariant

namespace Session

open Eval (Invariant)

/-- What a session does once it has its root scope. -/
def runPrelude (host : Host) (settings : Settings) (files : Files) (prelude : PreludeChoice)
    (session : Session) : Run Session :=
  match prelude with
  | .none => return session
  | .code text =>
    if text.isEmpty then return session
    else do
      load host settings.depthLimit session text
      return session
  | .folder =>
    match Prelude.scripts? files (Prelude.root settings files) with
    | some scripts => do
      loadScripts host settings.depthLimit session scripts
      return session
    | none => do
      Run.note .noPrelude
      return session

theorem start_eq (host : Host) (settings : Settings) (files : Files) (prelude : PreludeChoice) :
    start host settings files prelude =
      globalScope >>= fun scope => runPrelude host settings files prelude ⟨scope⟩ := by
  refine bind_congr fun scope => ?_
  cases prelude with
  | none => rfl
  | code text => rfl
  | folder =>
    unfold runPrelude
    cases Prelude.scripts? files (Prelude.root settings files) with
    | none => rfl
    | some scripts => rfl

variable {host : Host} {I : Type} [Preorder I] {inv : Invariant host I} {i : I}

/-- A prelude leaves the session as it is. -/
theorem keeps_runPrelude {session : Session} (hs : inv.Covers i session.scope.chain)
    (settings : Settings) (files : Files) (prelude : PreludeChoice) :
    inv.Keeps i (fun _ made => made = session)
      (runPrelude host settings files prelude session) := by
  have done (j : I) : inv.Keeps j (fun _ made => made = session) (pure session) :=
    Invariant.keeps_pure fun _ _ => rfl
  unfold runPrelude
  cases prelude with
  | none => exact done i
  | code text =>
    dsimp only
    split
    · exact done i
    · exact Invariant.keeps_bind (keeps_load hs _ text) fun j _ _ _ => done j
  | folder =>
    dsimp only
    split
    · next scripts _ =>
      exact Invariant.keeps_bind (keeps_loadScripts hs _ scripts) fun j _ _ _ => done j
    · exact Invariant.keeps_bind (Invariant.keeps_note _) fun j _ _ _ => done j

theorem keeps_start (h : inv.Founds) (settings : Settings)
    (files : Files) (prelude : PreludeChoice) :
    inv.Keeps i (fun j session => inv.Covers j session.scope.chain)
      (start host settings files prelude) := by
  rw [start_eq]
  refine Invariant.keeps_bind (Invariant.keeps_globalScope h) fun j scope _ hs => ?_
  have hprelude : inv.Keeps j (fun _ made => made = ⟨scope⟩)
      (runPrelude host settings files prelude ⟨scope⟩) :=
    keeps_runPrelude hs settings files prelude
  refine hprelude.imp fun k made hjk hmade => ?_
  rw [hmade]
  exact inv.covers_mono hjk hs

/-! ## Histories -/

/-- The worlds that sessions lead to, with the sessions that were started in them.  A session may
have any prelude, and every script runs under a limit of its own; what a script or a prelude that
fails has done is kept.  The host starts with any recursion limit. -/
inductive History (host : Host) : List Session → World → Prop
  | initial (room : Int) : History host [] (.initial room)
  | start {sessions : List Session} {w : World} (settings : Settings) (files : Files)
      (prelude : PreludeChoice) : History host sessions w →
      History host ((start host settings files prelude w).1.toOption.toList ++ sessions)
        (start host settings files prelude w).2
  | load {sessions : List Session} {w : World} {session : Session} (limit : Nat) (code : String) :
      History host sessions w → session ∈ sessions →
      History host sessions (session.load host limit code w).2
  | eval {sessions : List Session} {w : World} {session : Session} (limit : Nat) (code : String) :
      History host sessions w → session ∈ sessions →
      History host sessions (session.eval host limit code w).2

/-- The world in which a first session has started without a prelude. -/
def firstWorld (host : Host) : World :=
  (start host ⟨none, none, none⟩ .empty .none (.initial 1000)).2

theorem History.first (host : Host) : History host [⟨⟨0, []⟩⟩] (firstWorld host) := by
  have hscope : (globalScope (.initial 1000)).1 = .ok ⟨0, []⟩ := by decide +kernel
  have hs : (Session.start host ⟨none, none, none⟩ .empty .none (.initial 1000)).1 =
      .ok ⟨⟨0, []⟩⟩ := by
    rw [start_eq, Run.bind_apply]
    rcases hg : globalScope (.initial 1000) with ⟨outcome, w⟩
    rw [hg] at hscope
    cases hscope
    rfl
  have h := (initial 1000 : History host [] _).start ⟨none, none, none⟩ .empty .none
  rwa [hs] at h

/-- An invariant that allows for the built-ins holds after every history. -/
theorem History.holds (h : inv.Founds) (h₀ : ∀ room, inv.Holds i (.initial room))
    {sessions : List Session} {w : World} (hist : History host sessions w) :
    ∃ j, inv.Holds j w ∧ ∀ session ∈ sessions, inv.Covers j session.scope.chain := by
  induction hist with
  | initial room => exact ⟨i, h₀ room, nofun⟩
  | @start sessions w settings files prelude _ ih =>
    obtain ⟨j, hw, hs⟩ := ih
    obtain ⟨k, hjk, hk, he⟩ := keeps_start h settings files prelude j w le_rfl hw
    refine ⟨k, hk, fun session hm => ?_⟩
    rcases List.mem_append.1 hm with hm | hm
    · cases ho : (Session.start host settings files prelude w).1 with
      | error e =>
        rw [ho] at hm
        cases hm
      | ok made =>
        rw [ho] at hm he
        rw [List.mem_singleton.1 hm]
        exact he
    · exact inv.covers_mono hjk (hs session hm)
  | load limit code _ hm ih =>
    obtain ⟨j, hw, hs⟩ := ih
    obtain ⟨k, hjk, hk, -⟩ := keeps_load (hs _ hm) limit code j _ le_rfl hw
    exact ⟨k, hk, fun session hm => inv.covers_mono hjk (hs session hm)⟩
  | eval limit code _ hm ih =>
    obtain ⟨j, hw, hs⟩ := ih
    obtain ⟨k, hjk, hk, -⟩ := keeps_eval (hs _ hm) limit code j _ le_rfl hw
    exact ⟨k, hk, fun session hm => inv.covers_mono hjk (hs session hm)⟩

/-- That all natives are those of the language is an invariant. -/
def ownership (host : Host) : Invariant host Eval.Fixed :=
  .blind host.readOnly_isOwn (fun _ => True) (fun _ _ _ _ _ => trivial) (fun _ _ _ => trivial)
    (fun _ _ _ _ _ _ => trivial) (fun _ _ _ _ => trivial) (fun _ _ _ _ _ => trivial)

theorem ownership_founds (host : Host) : (ownership host).Founds where
  own h := h
  declareGlobal h _ _ _ := ⟨trivial, h.2⟩

/-- Sessions bring no natives of the embedding program into the store. -/
theorem History.own {sessions : List Session} {w : World} (hist : History host sessions w) :
    w.store.Admits (Native.isOwn · = true) := by
  have h₀ (room : Int) : (ownership host).Holds .mk (.initial room) :=
    ⟨trivial, Store.admits_initial⟩
  obtain ⟨_, h, -⟩ := hist.holds (ownership_founds host) h₀
  exact h.2

end Session

end Guion
