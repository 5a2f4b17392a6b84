import Mathlib.Data.Fintype.Pigeonhole
import Mathlib.Logic.Relation
import Mathlib.Order.WellFounded
import Guion.Proofs.Showing
import Guion.Proofs.WellFormed

/-!
# Values that cannot be shown

Showing an object, a list or a value of a named type shows the values of its shown properties;
functions are labels, and hidden properties are left out.  So a value has no data exactly if such
steps can be taken from it without end, and in a store of finitely many values that means that they
come back to a value that they started from.

    (∃ d, s.show? v = some d) ↔ ¬ s.Endless v                                (show?_ends_iff)
    s.Endless v ↔ some value that is shown with `v` is shown with itself     (endless_iff_cycle)
-/

namespace Guion

namespace Store

variable {s : Store}

/-! ## Steps -/

/-- One step of showing: from an object, a list or a value of a named type to a value in it. -/
inductive Shows (s : Store) : Value → Value → Prop
  | property {a : Address} {e : String × Value} : (∀ c, (s.object a).shape ≠ .function c) →
      e ∈ (s.object a).shown → Shows s (.ref a) e.2

/-- Steps of showing can be taken from the value without end. -/
def Endless (s : Store) (v : Value) : Prop :=
  ∃ path : Nat → Value, path 0 = v ∧ ∀ n, s.Shows (path n) (path (n + 1))

theorem Shows.exists_ref {v u : Value} (h : s.Shows v u) : ∃ a, v = .ref a := by
  cases h with
  | @property a => exact ⟨a, rfl⟩

/-- All steps lead to values that exist. -/
theorem Shows.known (hs : ∀ a, (s.object a).Tidy s.objects.size) {v u : Value} (h : s.Shows v u) :
    u.Known (· < s.objects.size) := by
  cases h with
  | @property a e _ he => exact (hs a).values e (List.mem_of_mem_filter he)

/-! ## What ends and what can be shown -/

/-- A value that is shown within a depth has no steps but to values shown within less. -/
theorem EndsWithin.shows {depth : Nat} {v u : Value} (h : s.EndsWithin depth v)
    (hvu : s.Shows v u) : ∃ lower, depth = lower + 1 ∧ s.EndsWithin lower u := by
  cases hvu with
  | @property a e hshape he =>
    cases depth with
    | zero =>
      unfold EndsWithin at h
      rw [showWithin] at h
      split at h
      · next c hc => exact absurd hc (hshape c)
      · cases h
    | succ lower =>
      have hall := (endsWithin_succ.1 h).resolve_left (not_exists.2 hshape)
      exact ⟨lower, rfl, hall e he⟩

theorem acc_of_endsWithin {depth : Nat} : ∀ {v : Value}, s.EndsWithin depth v →
    Acc (fun u v => s.Shows v u) v := by
  induction depth with
  | zero =>
    refine fun {v} h => .intro v fun u hvu => ?_
    obtain ⟨_, hdepth, -⟩ := h.shows hvu
    cases hdepth
  | succ depth ih =>
    refine fun {v} h => .intro v fun u hvu => ?_
    obtain ⟨lower, hdepth, hu⟩ := h.shows hvu
    cases hdepth
    exact ih hu

/-- Finitely many values that are each shown within some depth are all shown within one. -/
theorem exists_endsWithin_all : ∀ {entries : List (String × Value)},
    (∀ e ∈ entries, ∃ depth, s.EndsWithin depth e.2) →
    ∃ depth, ∀ e ∈ entries, s.EndsWithin depth e.2
  | [], _ => ⟨0, List.forall_mem_nil _⟩
  | e :: rest, h => by
    obtain ⟨⟨depth, he⟩, hrest⟩ := List.forall_mem_cons.1 h
    obtain ⟨depth', hrest⟩ := exists_endsWithin_all hrest
    refine ⟨max depth depth', List.forall_mem_cons.2 ⟨he.of_le (Nat.le_max_left ..), ?_⟩⟩
    exact fun e he => (hrest e he).of_le (Nat.le_max_right ..)

theorem endsWithin_of_acc {v : Value} (h : Acc (fun u v => s.Shows v u) v) :
    ∃ depth, s.EndsWithin depth v := by
  induction h with
  | intro v _ ih =>
    cases v with
    | ref a =>
      by_cases hshape : ∃ c, (s.object a).shape = .function c
      · exact ⟨1, endsWithin_succ.2 (.inl hshape)⟩
      · obtain ⟨depth, hall⟩ := exists_endsWithin_all fun e he =>
          ih e.2 (.property (fun c hc => hshape ⟨c, hc⟩) he)
        exact ⟨depth + 1, endsWithin_succ.2 (.inr hall)⟩
    | _ => exact ⟨0, endsWithin_of_ne_ref (by simp) 0⟩

/-- Within every depth there is an answer, or steps can be taken without end. -/
theorem endless_iff_not_endsWithin {v : Value} :
    s.Endless v ↔ ∀ depth, ¬ s.EndsWithin depth v := by
  unfold Endless
  rw [← not_acc_iff_exists_descending_chain (r := fun u v => s.Shows v u)]
  refine ⟨fun h depth hends => h (acc_of_endsWithin hends), fun h hacc => ?_⟩
  obtain ⟨depth, hends⟩ := endsWithin_of_acc hacc
  exact h depth hends

/-! ## Cycles -/

theorem not_transGen_self_of_acc {v : Value} (h : Acc (fun u v => s.Shows v u) v) :
    ¬ Relation.TransGen s.Shows v v := by
  induction h with
  | intro v _ ih =>
    intro hcycle
    -- the first value on the way round is on the same cycle
    obtain ⟨u, hvu, hback⟩ := Relation.TransGen.head'_iff.1 hcycle
    exact ih u hvu (Relation.TransGen.tail' hback hvu)

/-- From a cycle there is no way down, and none to it. -/
theorem not_acc_of_cycle {v u : Value} (hvu : Relation.ReflTransGen s.Shows v u)
    (hcycle : Relation.TransGen s.Shows u u) : ¬ Acc (fun u v => s.Shows v u) v := by
  induction hvu using Relation.ReflTransGen.head_induction_on with
  | refl => exact fun hacc => not_transGen_self_of_acc hacc hcycle
  | head hstep _ ih => exact fun hacc => ih (hacc.inv hstep)

theorem reflTransGen_of_path {path : Nat → Value} (h : ∀ n, s.Shows (path n) (path (n + 1)))
    {n m : Nat} (hnm : n ≤ m) : Relation.ReflTransGen s.Shows (path n) (path m) := by
  induction hnm with
  | refl => exact .refl
  | @step m _ ih => exact ih.tail (h m)

/-- A path without end comes back to one of its values, for there are only finitely many. -/
theorem exists_cycle_of_path (hs : ∀ a, (s.object a).Tidy s.objects.size) {path : Nat → Value}
    (hpath : ∀ n, s.Shows (path n) (path (n + 1))) :
    ∃ n, Relation.TransGen s.Shows (path n) (path n) := by
  have hplaces : ∀ n, ∃ a : Fin s.objects.size, path (n + 1) = .ref a := by
    intro n
    obtain ⟨a, ha⟩ := (hpath (n + 1)).exists_ref
    have hknown := (hpath n).known hs
    rw [ha] at hknown
    exact ⟨⟨a, hknown⟩, ha⟩
  choose place hplace using hplaces
  obtain ⟨i, j, hne, hsame⟩ := Finite.exists_ne_map_eq_of_infinite place
  have hback : path (i + 1) = path (j + 1) := by rw [hplace, hplace, hsame]
  rcases Nat.lt_or_gt_of_ne hne with hij | hji
  · have hround := reflTransGen_of_path hpath (Nat.succ_le_succ hij)
    rw [← hback] at hround
    exact ⟨i + 1, Relation.TransGen.head' (hpath (i + 1)) hround⟩
  · have hround := reflTransGen_of_path hpath (Nat.succ_le_succ hji)
    rw [hback] at hround
    exact ⟨j + 1, Relation.TransGen.head' (hpath (j + 1)) hround⟩

theorem endless_iff_cycle (hs : ∀ a, (s.object a).Tidy s.objects.size) {v : Value} :
    s.Endless v ↔ ∃ u, Relation.ReflTransGen s.Shows v u ∧ Relation.TransGen s.Shows u u := by
  constructor
  · rintro ⟨path, rfl, hpath⟩
    obtain ⟨n, hcycle⟩ := exists_cycle_of_path hs hpath
    exact ⟨path n, reflTransGen_of_path hpath (Nat.zero_le n), hcycle⟩
  · rintro ⟨u, hvu, hcycle⟩
    exact endless_iff_not_endsWithin.2 fun _ hends =>
      not_acc_of_cycle hvu hcycle (acc_of_endsWithin hends)

/-! ## The data of a value -/

/-- A value has data exactly if no steps of showing can be taken from it without end, that is, if
no value that is shown with it is shown with itself; else every depth of showing it is too small.
Values that are only shared, and ways round that go through hidden properties or through functions,
are no hindrance. -/
theorem show?_ends_iff (hs : ∀ a, (s.object a).Tidy s.objects.size) {v : Value}
    (hv : v.Known (· < s.objects.size)) :
    ((∃ d, s.show? v = some d) ↔ ¬ s.Endless v) ∧
    (s.Endless v ↔ ∃ u, Relation.ReflTransGen s.Shows v u ∧ Relation.TransGen s.Shows u u) ∧
    (s.Endless v → s.showOrFail v = .error .endless ∧ ∀ depth, s.showWithin depth v = none) ∧
    ∀ a c, v = .ref a → (s.object a).shape = .function c → ∃ d, s.show? v = some d := by
  have hfinds : (∃ d, s.show? v = some d) ↔ ∃ depth, s.EndsWithin depth v := by
    rw [← Option.isSome_iff_exists]
    refine ⟨fun h => ⟨_, h⟩, fun ⟨depth, h⟩ => ?_⟩
    have hsize : ∀ a, a < s.objects.size → a < s.objects.size := fun _ => id
    exact h.at_size hsize (fun a _ => (hs a).values) hv
  have hends : (∃ d, s.show? v = some d) ↔ ¬ s.Endless v := by
    rw [hfinds, endless_iff_not_endsWithin, not_forall_not]
  refine ⟨hends, endless_iff_cycle hs, fun hendless => ⟨?_, fun depth => ?_⟩, ?_⟩
  · have hnone : s.show? v = none := by
      rw [← Option.not_isSome_iff_eq_none, Option.isSome_iff_exists, hends]
      exact not_not_intro hendless
    rw [showOrFail, hnone]
  · exact Option.not_isSome_iff_eq_none.1 (endless_iff_not_endsWithin.1 hendless depth)
  · rintro a c rfl hc
    exact hfinds.2 ⟨1, endsWithin_succ.2 (.inl ⟨c, hc⟩)⟩

end Store

namespace Session

/-- A list that holds one value twice, an object in itself, an object whose way back to itself is
hidden, and a function in itself. -/
def tangled : String :=
  "def a = [1]; def b = [a, a]; def c = \x7b\x7d; c.yo = c; def d = \x7b\x7d; d.__yo__ = d;
   funcion f(x)\x7b\x7d; f.yo = f; d.f = f"

def tangledWorld : World := (eval silent 10 ⟨⟨0, []⟩⟩ tangled (firstWorld silent)).2

/-- Of the values of the session only the object in itself cannot be shown. -/
theorem show?_ends_iff_tangled : History silent [⟨⟨0, []⟩⟩] tangledWorld ∧
    tangledWorld.store.Endless (.ref 9) ∧ tangledWorld.store.showOrFail (.ref 9) = .error .endless ∧
    ∀ a ∈ [8, 10, 11], ¬ tangledWorld.store.Endless (.ref a) := by
  have h : History silent [⟨⟨0, []⟩⟩] tangledWorld :=
    (History.first silent).eval 10 tangled List.mem_cons_self
  obtain ⟨hsize, hnone, hsome⟩ :
      (∀ a ∈ [8, 9, 10, 11], a < tangledWorld.store.objects.size) ∧
        (tangledWorld.store.show? (.ref 9)).isSome = false ∧
        ∀ a ∈ [8, 10, 11], (tangledWorld.store.show? (.ref a)).isSome = true := by
    decide +kernel
  have hmem : ∀ a ∈ [8, 10, 11], a ∈ [8, 9, 10, 11] := by decide
  obtain ⟨hends, -, hfails, -⟩ := Store.show?_ends_iff (v := .ref 9) h.tidy.objects
    (hsize 9 (by decide))
  have hendless : tangledWorld.store.Endless (.ref 9) := by
    by_contra hnot
    rw [← hends, ← Option.isSome_iff_exists, hnone] at hnot
    cases hnot
  refine ⟨h, hendless, (hfails hendless).1, fun a ha => ?_⟩
  obtain ⟨hends, -⟩ := Store.show?_ends_iff (v := .ref a) h.tidy.objects (hsize a (hmem a ha))
  exact hends.1 (Option.isSome_iff_exists.1 (hsome a ha))

end Session

end Guion
