import Guion.Proofs.RoundTrip
import Guion.Proofs.Safety.Trees

/-!
# Sessions fail only as scripts may

As long as every script enters a session as text, the store stays sound: the built-ins are natives
of the language and every function that a script makes has a body that was read.  So each script
gives a value or fails as scripts may, whatever the scripts before it did and whether they failed.
Left out are folder preludes in which a folder has the name of a script.

    Reachable host sessions w → w.store.Sound                                  (Reachable.sound)
    … → EndsWell False (session.eval host limit code w).1                   (reachable_endsWell)
-/

namespace Guion

/-! ## Divisors -/

/-- Rounding keeps positive numbers positive, because the bits it drops are never all of them. -/
theorem Binary64.roundUnits_pos {num : Nat} (h : 0 < num) : 0 < roundUnits num 1 := by
  unfold roundUnits
  simp only [Nat.div_one, Nat.shiftLeft_eq, Nat.one_mul]
  have hle : 2 ^ (num.log2 - 52) ≤ num :=
    Nat.le_trans (Nat.pow_le_pow_right (by decide) (Nat.sub_le _ _)) (Nat.log2_self_le (by omega))
  have hq : 0 < num / 2 ^ (num.log2 - 52) := Nat.div_pos hle (Nat.two_pow_pos _)
  refine Nat.mul_pos ?_ (Nat.two_pow_pos _)
  unfold nearestEven
  dsimp only
  split
  · exact hq
  · split
    · exact Nat.succ_pos _
    · split
      · exact hq
      · exact Nat.succ_pos _

theorem Num.isZero_ofInt (i : Int) {y : Binary64} (h : inRange (.ofInt i) = .ok y) :
    y.isZero = (i == 0) := by
  have hone : 0 < Binary64.one := by
    unfold Binary64.one
    generalize 1074 = k
    exact Nat.pow_pos (by decide)
  unfold Binary64.ofInt Binary64.ofRatio Binary64.ofUnits at h
  split at h
  · cases h
    by_cases hi : i = 0
    · subst hi
      rw [Int.natAbs_zero, Nat.zero_mul]
      rfl
    · have hpos := Binary64.roundUnits_pos (Nat.mul_pos (Int.natAbs_pos.2 hi) hone)
      rw [beq_eq_false_iff_ne.2 hi]
      exact beq_eq_false_iff_ne.2 (Nat.ne_of_gt hpos)
  · cases h

/-- A number is rounded to zero only if it is zero. -/
theorem Num.isZero_toBinary64 {n : Num} {y : Binary64} (h : n.toBinary64 = .ok y) :
    y.isZero = n.isZero := by
  cases n with
  | int i => exact isZero_ofInt i h
  | float x =>
    cases h
    rfl

/-- A zero divisor is refused, and any other divisor is not zero after rounding either. -/
def Num.DivisorChecked (n m : Num) : Prop :=
  if m.isZero then
    n.divide m = .error .divisionByZero ∧ n.modulo m = .error .moduloByZero
  else ∀ y, m.toBinary64 = .ok y → y.isZero = false

theorem Num.divisorChecked (n m : Num) : n.DivisorChecked m := by
  unfold DivisorChecked
  split
  · next h => exact ⟨if_pos h, if_pos h⟩
  · next h =>
    intro y hy
    rw [isZero_toBinary64 hy]
    simpa using h

/-! ## Scripts -/

namespace Session

/-- Reading leaves notes and nothing else. -/
theorem parse_store (code : String) (w : World) : (parse code w).2.store = w.store := by
  unfold parse
  cases Token.scan code with
  | error fault => rfl
  | ok tokens =>
    dsimp only
    cases Node.ofTokens tokens <;> rfl

theorem endsWell_parse (early : Prop) (code : String) (w : World) :
    EndsWell early (parse code w).1 := by
  rw [parse_fst]
  split
  · exact .failed rfl
  · split
    · exact .failed rfl
    · exact .value _

/-- A run of what was read. -/
theorem safe_parse {early : Prop} {α : Type} {f : List Node → Run α} (code : String)
    (hf : ∀ body, (∀ n ∈ body, Node.Fits .statement n) → Safe early (f body)) :
    Safe early (parse code >>= f) := by
  intro w hw
  have hs : (parse code w).2.store.Sound := (parse_store code w).symm ▸ hw
  have he := endsWell_parse early code w
  rw [Run.bind_apply]
  rcases hp : parse code w with ⟨e | body, w'⟩ <;> rw [hp] at he hs
  · exact ⟨he.of_error, hs⟩
  · exact hf body (fits_of_parse (s := code) (w := w) (by rw [hp])) w' hs

variable (host : Host) (limit : Nat) (session : Session)

theorem safe_load (code : String) : Safe False (session.load host limit code) :=
  safe_parse code fun _ hb =>
    safe_bind (Eval.safe_program host limit hb session.scope) fun _ => safe_pure ()

theorem safe_eval (code : String) : Safe False (session.eval host limit code) :=
  safe_parse code fun _ hb => safe_bind (safe_note _) fun _ =>
    Eval.safe_program host limit hb session.scope

theorem safe_loadScripts {scripts : List Prelude.Script}
    (h : ∀ script ∈ scripts, script.code.isSome = true) :
    Safe False (session.loadScripts host limit scripts) := by
  induction scripts with
  | nil => exact safe_pure ()
  | cons script rest ih =>
    obtain ⟨hs, hrest⟩ := List.forall_mem_cons.1 h
    refine safe_bind (safe_note _) fun _ => ?_
    split
    · next code _ => exact safe_bind (session.safe_load host limit code) fun _ => ih hrest
    · next hn =>
      rw [hn] at hs
      cases hs

end Session

/-! ## Starting a session -/

namespace Builtin

theorem safe_declareName (scope : Scope) (name : String) (value : Value)
    (constant isGlobal : Bool) : Safe False (declareName scope name value constant isGlobal) := by
  refine safe_bind (Eval.safe_declare scope name _) fun _ => ?_
  split
  · exact safe_bind (safe_update fun _ hs => hs) fun _ =>
      safe_bind (safe_note _) fun _ => safe_pure value
  · exact safe_pure value

theorem safe_declareAll (scope : Scope) (constant : Bool) : ∀ entries : List (String × Value),
    Safe False (declareAll scope constant entries)
  | [] => safe_pure ()
  | (name, value) :: rest =>
    safe_bind (safe_declareName scope name value constant true) fun _ =>
      safe_declareAll scope constant rest

theorem safe_makeFunctions : ∀ {natives : List (String × Native)},
    (∀ e ∈ natives, e.2.isOwn = true) → Safe False (makeFunctions natives)
  | [], _ => safe_pure []
  | (name, native) :: rest, h => by
    obtain ⟨hn, hrest⟩ := List.forall_mem_cons.1 h
    exact safe_bind (safe_create fun s hs => hs.make _ (Shape.sound_native hn) _) fun f =>
      safe_bind (safe_makeFunctions hrest) fun made => safe_pure _

theorem safe_register (scope : Scope) : Safe False (register scope) := by
  have own : ∀ e ∈ functions, e.2.isOwn = true := by decide
  refine safe_bind (safe_makeFunctions own) fun made => ?_
  refine safe_bind (safe_bind (safe_declareAll scope false made) fun _ =>
    safe_declareAll scope true constants) fun _ => ?_
  exact safe_ofStore fun s _ => safe_note _

end Builtin

namespace Session

/-- The prelude comes as text: in a folder, everything with the name of a script is a file. -/
def IsText (settings : Settings) (files : Files) (prelude : PreludeChoice) : Prop :=
  prelude = .folder → ∀ scripts,
    Prelude.scripts? files (Prelude.root settings files) = some scripts →
    ∀ script ∈ scripts, script.code.isSome = true

theorem isText_of_root_builtin {settings : Settings} {files : Files}
    (h : Prelude.root settings files = .builtin) (prelude : PreludeChoice) :
    IsText settings files prelude := by
  rintro - scripts hs
  rw [h] at hs
  cases hs
  exact List.forall_mem_singleton.2 rfl

theorem safe_globalScope : Safe False globalScope :=
  safe_bind (safe_create fun _ hs => hs.openFrame []) fun scope =>
    safe_bind (Builtin.safe_register scope) fun _ => safe_pure scope

theorem safe_start (host : Host) (settings : Settings) (files : Files) {prelude : PreludeChoice}
    (h : IsText settings files prelude) : Safe False (start host settings files prelude) := by
  refine safe_bind safe_globalScope fun scope => ?_
  cases prelude with
  | none => exact safe_pure _
  | code text =>
    dsimp only
    split
    · exact safe_pure _
    · exact safe_bind (safe_load host settings.depthLimit ⟨scope⟩ text) fun _ => safe_pure _
  | folder =>
    dsimp only
    split
    · next scripts hs =>
      exact safe_bind (safe_loadScripts host settings.depthLimit ⟨scope⟩ (h rfl scripts hs))
        fun _ => safe_pure _
    · exact safe_bind (safe_note _) fun _ => safe_pure _

/-! ## Runs of sessions -/

/-- The worlds that sessions lead to, with the sessions that were started in them.  Every script
enters as text and under a limit of its own; what a script that fails has done is kept.  The host
starts with any recursion limit. -/
inductive Reachable (host : Host) : List Session → World → Prop
  | initial (room : Int) : Reachable host [] (.initial room)
  | start {sessions : List Session} {w : World} {settings : Settings} {files : Files}
      {prelude : PreludeChoice} : Reachable host sessions w → IsText settings files prelude →
      Reachable host ((start host settings files prelude w).1.toOption.toList ++ sessions)
        (start host settings files prelude w).2
  | load {sessions : List Session} {w : World} {session : Session} (limit : Nat) (code : String) :
      Reachable host sessions w → session ∈ sessions →
      Reachable host sessions (session.load host limit code w).2
  | eval {sessions : List Session} {w : World} {session : Session} (limit : Nat) (code : String) :
      Reachable host sessions w → session ∈ sessions →
      Reachable host sessions (session.eval host limit code w).2

theorem Reachable.sound {host : Host} {sessions : List Session} {w : World}
    (h : Reachable host sessions w) : w.store.Sound := by
  induction h with
  | initial room => exact Store.sound_initial
  | start _ ht ih => exact (safe_start host _ _ ht _ ih).2
  | load limit code _ _ ih => exact (safe_load host limit _ code _ ih).2
  | eval limit code _ _ ih => exact (safe_eval host limit _ code _ ih).2

/-- In every world that scripts can lead to, each further script gives a value or fails as scripts
may, and so does each further session.  No number that passed as a divisor is rounded to zero. -/
theorem reachable_endsWell {host : Host} {sessions : List Session} {w : World}
    (h : Reachable host sessions w) :
    (∀ session ∈ sessions, ∀ limit code,
      EndsWell False (session.eval host limit code w).1 ∧
      EndsWell False (session.load host limit code w).1) ∧
    (∀ settings files prelude, IsText settings files prelude →
      EndsWell False (start host settings files prelude w).1) ∧
    ∀ n m : Num, n.DivisorChecked m := by
  refine ⟨fun session _ limit code => ?_, fun settings files prelude ht => ?_,
    Num.divisorChecked⟩
  · exact ⟨(safe_eval host limit session code w h.sound).1,
      (safe_load host limit session code w h.sound).1⟩
  · exact (safe_start host settings files ht w h.sound).1

/-- An embedding program whose functions all give null. -/
def silent : Host := ⟨fun _ s _ _ => (s, .null), fun _ _ => .null⟩

/-- A session in which a function divides by zero, and one that is started beside it. -/
theorem reachable_endsWell_division :
    ∃ w, Reachable silent [⟨⟨0, []⟩⟩] w ∧
      EndsWell False (eval silent 10 ⟨⟨0, []⟩⟩ "f(0)" w).1 ∧
      EndsWell False (start silent ⟨none, none, none⟩ .empty .folder w).1 := by
  have default : ∀ prelude, IsText ⟨none, none, none⟩ .empty prelude := isText_of_root_builtin rfl
  obtain ⟨w, hstart⟩ : ∃ w, Reachable silent [⟨⟨0, []⟩⟩] w := by
    have hs : (start silent ⟨none, none, none⟩ .empty .none (.initial 1000)).1.toOption =
        some ⟨⟨0, []⟩⟩ := by decide +kernel
    have h := (Reachable.initial 1000 : Reachable silent [] _).start (default .none)
    rw [hs] at h
    exact ⟨_, h⟩
  have hmem : (⟨⟨0, []⟩⟩ : Session) ∈ [(⟨⟨0, []⟩⟩ : Session)] := List.mem_cons_self
  have hload := hstart.load 10 "funcion f(x) \x7bretorna 1 / x;\x7d" hmem
  obtain ⟨hscripts, hsessions, -⟩ := reachable_endsWell hload
  have hdivision := hscripts ⟨⟨0, []⟩⟩ hmem 10 "f(0)"
  have hbeside := hsessions ⟨none, none, none⟩ .empty .folder (default .folder)
  exact ⟨_, hload, hdivision.1, hbeside⟩

end Session

end Guion
