import Guion.Proofs.History
import Guion.Proofs.Simulation.Trees

/-!
# Sessions in step

A simulation that allows for all names, for the natives of the language and for the declaration of
globals keeps sessions in step: what starts in two related worlds, and what runs in scopes that
correspond.

    sim.Simulates i (scopes that correspond) (start host settings files prelude)
      (start host settings files prelude)                                     (simulates_start)
    sim.Simulates i sim.Values (session.eval host limit code) (session'.eval host limit code)
                                                                               (simulates_eval)
-/

namespace Guion

namespace Eval.Simulation

variable {host : Host} {I : Type} [Preorder I] {sim : Simulation host I} {i : I}

/-- The simulation allows for all names, for the natives of the language and for the declaration of
globals, and it does not matter what is noted. -/
structure Founds (sim : Simulation host I) : Prop where
  names (name : String) : sim.Names name
  own {native : Native} : native.isOwn = true → sim.Natives native
  notes {i : I} {w w' : World} (e e' : Event) : sim.Holds i w w' →
    sim.Holds i { w with trace := e :: w.trace } { w' with trace := e' :: w'.trace }
  noteGlobal {i : I} {w w' : World} {scope scope' : Scope} (name : String) : sim.Holds i w w' →
    sim.Frames i scope.frame scope'.frame →
    sim.Holds i { w with store := w.store.noteGlobal scope name }
      { w' with store := w'.store.noteGlobal scope' name }

/-! ## Built-ins -/

variable (h : sim.Founds)
include h

theorem simulates_declareName {scope scope' : Scope}
    (hs : sim.Chains i scope.chain scope'.chain) (name : String) {v v' : Value} (constant : Bool)
    (hv : sim.Values i v v') : sim.Simulates i (fun _ _ _ => True)
      (Builtin.declareName scope name v constant true)
      (Builtin.declareName scope' name v' constant true) := by
  refine simulates_bind (simulates_declare hs (h.names name) constant hv) fun j _ _ hij _ => ?_
  obtain ⟨hf, -⟩ := List.forall₂_cons.1 (hs.mono hij)
  refine simulates_of_step fun k w w' hjk hw => ⟨?_, .ok trivial⟩
  exact sim.note _ (h.noteGlobal name hw (sim.frames_mono hjk hf))

theorem simulates_declareAll {scope scope' : Scope} (constant : Bool) :
    ∀ {i : I} {entries entries' : List (String × Value)},
      sim.Chains i scope.chain scope'.chain → EntriesMatch (sim.Objects i) entries entries' →
      sim.Simulates i (fun _ _ _ => True) (Builtin.declareAll scope constant entries)
        (Builtin.declareAll scope' constant entries')
  | _, _, _, _, .nil => simulates_pure fun _ _ => trivial
  | _, (name, v) :: _, (_, v') :: _, hs, .cons ⟨rfl, hv⟩ hrest => by
    refine simulates_bind (simulates_declareName h hs name constant hv) fun j _ _ hij _ => ?_
    exact simulates_declareAll constant (hs.mono hij)
      (hrest.imp fun _ _ he => ⟨he.1, Values.mono hij he.2⟩)

theorem simulates_makeFunctions : ∀ {i : I} {natives : List (String × Native)},
    (∀ e ∈ natives, e.2.isOwn = true) →
    sim.Simulates i (fun j => EntriesMatch (sim.Objects j)) (Builtin.makeFunctions natives)
      (Builtin.makeFunctions natives)
  | _, [], _ => simulates_pure fun _ _ => .nil
  | i, (name, native) :: rest, hn => by
    obtain ⟨hnative, hrest⟩ := List.forall_mem_cons.1 hn
    have made : sim.Simulates i sim.Values
        (Run.create fun s =>
          s.makeFunction (Store.nativeClosure native) [("name", .str name)] false)
        (Run.create fun s =>
          s.makeFunction (Store.nativeClosure native) [("name", .str name)] false) := by
      have hc (j : I) : Closure.Matches (sim.Frames j) (Store.nativeClosure native)
          (Store.nativeClosure native) := ⟨rfl, rfl, rfl, .nil⟩
      refine simulates_make (fun j _ => .function (hc j)) ?_ fun j w w' _ hw => ?_
      · rintro _ ⟨⟩
        refine ⟨nofun, ?_⟩
        rintro _ ⟨⟩
        exact h.own hnative
      · exact entriesMatch_self (Store.known_functionProperties (sim.shared hw) name)
    refine simulates_bind made fun j f f' _ hf =>
      simulates_bind (simulates_makeFunctions hrest) fun k fs fs' hjk hfs => ?_
    exact simulates_pure fun l hkl => .cons ⟨rfl, hf.mono (hjk.trans hkl)⟩
      (hfs.imp fun _ _ he => ⟨he.1, Values.mono hkl he.2⟩)

theorem simulates_register {scope scope' : Scope} (hs : sim.Chains i scope.chain scope'.chain) :
    sim.Simulates i (fun _ _ _ => True) (Builtin.register scope) (Builtin.register scope') := by
  have plain (j : I) : EntriesMatch (sim.Objects j) Builtin.constants Builtin.constants := by
    refine entriesMatch_self fun e he => ?_
    simp only [Builtin.constants, List.mem_cons, List.not_mem_nil, or_false] at he
    rcases he with rfl | rfl | rfl <;> trivial
  refine simulates_bind (simulates_makeFunctions h Builtin.isOwn_functions)
    fun j made made' hij hmade => ?_
  have hsj := hs.mono hij
  refine simulates_bind (P := fun _ _ _ => True) ?_ fun k _ _ _ _ => ?_
  · exact simulates_bind (simulates_declareAll h false hsj hmade) fun k _ _ hjk _ =>
      simulates_declareAll h true (hsj.mono hjk) (plain k)
  · exact simulates_of_step fun _ _ _ _ hw => ⟨h.notes _ _ hw, .ok trivial⟩

theorem simulates_globalScope :
    sim.Simulates i (fun j scope scope' => sim.Chains j scope.chain scope'.chain)
      Session.globalScope Session.globalScope := by
  refine simulates_bind (simulates_openFrame .nil) fun j scope scope' _ hs => ?_
  exact simulates_bind (simulates_register h hs) fun k _ _ hjk _ =>
    simulates_pure fun _ hkl => hs.mono (hjk.trans hkl)

end Eval.Simulation

/-! ## Scripts -/

namespace Session

open Eval (Simulation)
open Eval.Simulation

variable {host : Host} {I : Type} [Preorder I] {sim : Simulation host I} {i : I}

theorem simulates_parse (code : String) :
    sim.Simulates i (fun _ body body' => body' = body) (parse code) (parse code) := by
  unfold parse
  cases Token.scan code with
  | error fault => exact simulates_fail _
  | ok tokens =>
    refine simulates_bind (simulates_note _) fun j _ _ _ _ => ?_
    cases Node.ofTokens tokens with
    | error fault => exact simulates_fail _
    | ok reading =>
      exact simulates_bind (simulates_note _) fun _ _ _ _ _ => simulates_pure fun _ _ => rfl

variable (h : sim.Founds) {session session' : Session}
  (hs : sim.Chains i session.scope.chain session'.scope.chain)
include h hs

theorem simulates_load (limit : Nat) (code : String) : sim.Simulates i (fun _ _ _ => True)
    (session.load host limit code) (session'.load host limit code) := by
  refine simulates_bind (simulates_parse code) fun j body body' hij hbody => ?_
  rw [hbody]
  exact simulates_bind (simulates_evaluate limit _ (fun x _ => h.names x) (hs.mono hij))
    fun _ _ _ _ _ => simulates_pure fun _ _ => trivial

theorem simulates_eval (limit : Nat) (code : String) : sim.Simulates i sim.Values
    (session.eval host limit code) (session'.eval host limit code) := by
  refine simulates_bind (simulates_parse code) fun j body body' hij hbody => ?_
  rw [hbody]
  exact simulates_bind (simulates_note _) fun k _ _ hjk _ =>
    simulates_evaluate limit _ (fun x _ => h.names x) (hs.mono (hij.trans hjk))

theorem simulates_loadScripts (limit : Nat) (scripts : List Prelude.Script) :
    sim.Simulates i (fun _ _ _ => True) (session.loadScripts host limit scripts)
      (session'.loadScripts host limit scripts) := by
  induction scripts generalizing i with
  | nil => exact simulates_pure fun _ _ => trivial
  | cons script rest ih =>
    refine simulates_bind (simulates_note _) fun j _ _ hij _ => ?_
    have hsj := hs.mono hij
    cases script.code with
    | some code =>
      exact simulates_bind (simulates_load h hsj limit code) fun k _ _ hjk _ => ih (hsj.mono hjk)
    | none => exact simulates_fail _

/-- Preludes leave the sessions as they are. -/
theorem simulates_runPrelude (settings : Settings) (files : Files) (prelude : PreludeChoice) :
    sim.Simulates i (fun _ made made' => made = session ∧ made' = session')
      (runPrelude host settings files prelude session)
      (runPrelude host settings files prelude session') := by
  have done (j : I) : sim.Simulates j (fun _ made made' => made = session ∧ made' = session')
      (pure session) (pure session') := simulates_pure fun _ _ => ⟨rfl, rfl⟩
  unfold runPrelude
  cases prelude with
  | none => exact done i
  | code text =>
    dsimp only
    split
    · exact done i
    · exact simulates_bind (simulates_load h hs _ text) fun j _ _ _ _ => done j
  | folder =>
    dsimp only
    split
    · next scripts _ =>
      exact simulates_bind (simulates_loadScripts h hs _ scripts) fun j _ _ _ _ => done j
    · exact simulates_bind (simulates_note _) fun j _ _ _ _ => done j

omit hs

theorem simulates_start (settings : Settings) (files : Files) (prelude : PreludeChoice) :
    sim.Simulates i (fun j made made' => sim.Chains j made.scope.chain made'.scope.chain)
      (start host settings files prelude) (start host settings files prelude) := by
  rw [start_eq]
  refine simulates_bind (simulates_globalScope h) fun j scope scope' _ hs => ?_
  have hprelude : sim.Simulates j (fun _ made made' => made = ⟨scope⟩ ∧ made' = ⟨scope'⟩)
      (runPrelude host settings files prelude ⟨scope⟩)
      (runPrelude host settings files prelude ⟨scope'⟩) :=
    simulates_runPrelude h hs settings files prelude
  refine hprelude.imp fun k made made' hjk hmade => ?_
  rw [hmade.1, hmade.2]
  exact hs.mono hjk

end Session

end Guion
