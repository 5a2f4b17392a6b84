import Mathlib.Data.Fintype.Card
import Guion.Proofs.Matching

/-!
# How deep a value nests

A value is shown up to a depth, and no value that can be shown at all nests deeper than there are
stored values.  A value that needs a depth of `k + 1` and no less holds one that needs `k`, so there
are values for all depths below, and no two of them are the same.

    s.show? v = some d ↔ ∃ depth, s.showWithin depth v = some d              (show?_eq_some_iff)

So what is shown does not depend on how many values there are besides.

    v.Matches objects v' → s'.show? v' = s.show? v                           (show?_of_matches)
-/

namespace Guion

section

variable {α β : Type}

theorem mapM_eq_some_of_imp {f f' : α → Option β} (h : ∀ a b, f a = some b → f' a = some b) :
    ∀ {xs : List α} {ys : List β}, xs.mapM f = some ys → xs.mapM f' = some ys := by
  intro xs
  induction xs with
  | nil => exact fun hys => hys
  | cons x xs ih =>
    intro ys hys
    rw [List.mapM_cons] at hys ⊢
    obtain ⟨b, hb, hys⟩ := Option.bind_eq_some_iff.1 hys
    obtain ⟨bs, hbs, hys⟩ := Option.bind_eq_some_iff.1 hys
    rw [h x b hb, ih hbs]
    exact hys

theorem isSome_mapM_iff {f : α → Option β} {xs : List α} :
    (xs.mapM f).isSome = true ↔ ∀ x ∈ xs, (f x).isSome = true := by
  induction xs with
  | nil => simp
  | cons x xs ih =>
    rw [List.mapM_cons, List.forall_mem_cons, ← ih]
    cases f x with
    | none => simp
    | some b => cases xs.mapM f <;> simp

end

namespace Store

variable {s : Store}

/-! ## Depths -/

/-- The value is shown within the depth. -/
def EndsWithin (s : Store) (depth : Nat) (v : Value) : Prop :=
  (s.showWithin depth v).isSome = true

theorem endsWithin_succ {depth : Nat} {a : Address} :
    s.EndsWithin (depth + 1) (.ref a) ↔ (∃ c, (s.object a).shape = .function c) ∨
      ∀ e ∈ (s.object a).shown, s.EndsWithin depth e.2 := by
  unfold EndsWithin
  rw [showWithin]
  cases (s.object a).shape <;> simp [isSome_mapM_iff]

/-- What is no reference is shown within any depth. -/
theorem endsWithin_of_ne_ref {v : Value} (h : ∀ a, v ≠ .ref a) (depth : Nat) :
    s.EndsWithin depth v := by
  cases v with
  | ref a => exact absurd rfl (h a)
  | _ => cases depth <;> rfl

theorem showWithin_succ : ∀ {depth : Nat} {v : Value} {d : Datum},
    s.showWithin depth v = some d → s.showWithin (depth + 1) v = some d := by
  intro depth
  induction depth with
  | zero =>
    intro v d h
    cases v with
    | ref a =>
      simp only [showWithin] at h ⊢
      split at h
      · next hshape =>
        rw [hshape]
        exact h
      · cases h
    | _ => exact h
  | succ depth ih =>
    intro v d h
    cases v with
    | ref a =>
      rw [showWithin] at h ⊢
      split at h
      · exact h
      · obtain ⟨items, hi, rfl⟩ := Option.map_eq_some_iff.1 h
        exact Option.map_eq_some_iff.2 ⟨items, mapM_eq_some_of_imp (fun _ _ => ih) hi, rfl⟩
      all_goals
        obtain ⟨entries, he, rfl⟩ := Option.map_eq_some_iff.1 h
        refine Option.map_eq_some_iff.2 ⟨entries, mapM_eq_some_of_imp (fun e p hp => ?_) he, rfl⟩
        obtain ⟨d, hd, rfl⟩ := Option.map_eq_some_iff.1 hp
        exact Option.map_eq_some_iff.2 ⟨d, ih hd, rfl⟩
    | _ => exact h

/-- What is shown within a depth is shown within every greater one. -/
theorem showWithin_of_le {depth depth' : Nat} (hle : depth ≤ depth') {v : Value} {d : Datum}
    (h : s.showWithin depth v = some d) : s.showWithin depth' v = some d := by
  induction hle with
  | refl => exact h
  | step _ ih => exact showWithin_succ ih

theorem EndsWithin.of_le {depth depth' : Nat} (hle : depth ≤ depth') {v : Value}
    (h : s.EndsWithin depth v) : s.EndsWithin depth' v := by
  obtain ⟨d, hd⟩ := Option.isSome_iff_exists.1 h
  exact Option.isSome_iff_exists.2 ⟨d, showWithin_of_le hle hd⟩

/-! ## Levels -/

/-- The depth that a value needs is one more than the given one. -/
def Level (s : Store) (depth : Nat) (a : Address) : Prop :=
  s.EndsWithin (depth + 1) (.ref a) ∧ ¬ s.EndsWithin depth (.ref a)

/-- No value is at two levels. -/
theorem Level.unique {depth depth' : Nat} {a : Address} (h : s.Level depth a)
    (h' : s.Level depth' a) : depth = depth' := by
  have hle : ¬ depth + 1 ≤ depth' := fun hle => h'.2 (h.1.of_le hle)
  have hle' : ¬ depth' + 1 ≤ depth := fun hle => h.2 (h'.1.of_le hle)
  omega

/-- A value above the lowest level holds one of the next lower level. -/
theorem Level.exists_shown {depth : Nat} {a : Address} (h : s.Level (depth + 1) a) :
    ∃ e ∈ (s.object a).shown, ∃ b, e.2 = .ref b ∧ s.Level depth b := by
  obtain ⟨hends, hnot⟩ := h
  rw [endsWithin_succ, not_or] at hnot
  obtain ⟨hshape, hdeep⟩ := hnot
  obtain ⟨e, he⟩ := not_forall.1 hdeep
  obtain ⟨hmem, he⟩ := Classical.not_imp.1 he
  have hall := (endsWithin_succ.1 hends).resolve_left hshape
  refine ⟨e, hmem, ?_⟩
  cases hv : e.2 with
  | ref b => exact ⟨b, rfl, hv ▸ hall e hmem, hv ▸ he⟩
  | _ => exact absurd (endsWithin_of_ne_ref (by simp [hv]) depth) he

section

variable {inside : Address → Prop} (hsize : ∀ a, inside a → a < s.objects.size)
  (hclosed : ∀ a, inside a → ∀ e ∈ (s.object a).properties.entries, e.2.Known inside)
include hclosed

/-- Below a level there is a value at every level. -/
theorem exists_level {depth : Nat} : ∀ {a : Address}, s.Level depth a → inside a →
    ∀ lower ≤ depth, ∃ b, inside b ∧ s.Level lower b := by
  induction depth with
  | zero =>
    intro a h ha lower hlower
    obtain rfl : lower = 0 := by omega
    exact ⟨a, ha, h⟩
  | succ depth ih =>
    intro a h ha lower hlower
    by_cases hl : lower = depth + 1
    · rw [hl]
      exact ⟨a, ha, h⟩
    · obtain ⟨e, he, b, hb, hlevel⟩ := h.exists_shown
      have hknown := hclosed a ha e (List.mem_of_mem_filter he)
      rw [hb] at hknown
      exact ih hlevel hknown lower (by omega)

include hsize

/-- There are no more levels than stored values: values at different levels are different. -/
theorem Level.lt_size {depth : Nat} {a : Address} (h : s.Level depth a) (ha : inside a) :
    depth < s.objects.size := by
  have hlevels : ∀ lower : Fin (depth + 1), ∃ b : Fin s.objects.size, s.Level lower b := by
    intro lower
    obtain ⟨b, hb, hlevel⟩ := exists_level hclosed h ha lower (Nat.le_of_lt_succ lower.isLt)
    exact ⟨⟨b, hsize b hb⟩, hlevel⟩
  choose place hplace using hlevels
  have hinjective : Function.Injective place := by
    intro lower lower' heq
    have hsame := hplace lower'
    rw [← heq] at hsame
    exact Fin.ext ((hplace lower).unique hsame)
  have hcard := Fintype.card_le_of_injective place hinjective
  rw [Fintype.card_fin, Fintype.card_fin] at hcard
  omega

/-- The least depth within which a value ends is at most the number of stored values. -/
theorem EndsWithin.at_size {depth : Nat} {v : Value} (h : s.EndsWithin depth v)
    (hv : v.Known inside) : s.EndsWithin s.objects.size v := by
  classical
  have hends : ∃ n, s.EndsWithin n v := ⟨depth, h⟩
  have hmin : ∀ n, n < Nat.find hends → ¬ s.EndsWithin n v := fun n => Nat.find_min hends
  refine (Nat.find_spec hends).of_le ?_
  cases hleast : Nat.find hends with
  | zero => exact Nat.zero_le _
  | succ n =>
    have hlt : n < Nat.find hends := hleast ▸ Nat.lt_succ_self n
    cases v with
    | ref a => exact Level.lt_size hsize hclosed ⟨hleast ▸ Nat.find_spec hends, hmin n hlt⟩ hv
    | _ => exact absurd (endsWithin_of_ne_ref (by simp) n) (hmin n hlt)

theorem show?_eq_some_iff {v : Value} {d : Datum} (hv : v.Known inside) :
    s.show? v = some d ↔ ∃ depth, s.showWithin depth v = some d := by
  constructor
  · exact fun h => ⟨_, h⟩
  · rintro ⟨depth, h⟩
    have hends : s.EndsWithin depth v := by
      rw [EndsWithin, h]
      rfl
    obtain ⟨d', hd'⟩ := Option.isSome_iff_exists.1 (hends.at_size hsize hclosed hv)
    -- both depths show the same
    have hone := showWithin_of_le (Nat.le_max_left depth s.objects.size) h
    have hother := showWithin_of_le (Nat.le_max_right depth s.objects.size) hd'
    rw [hone] at hother
    rw [show?, hd', hother]

end

/-! ## Matching values show the same -/

section

variable {s' : Store} {objects : Address → Address → Prop} {frames : FrameId → FrameId → Prop}
  (h : ∀ a a', objects a a' → (s.object a).Matches objects frames (s'.object a'))
include h

theorem showWithin_of_matches : ∀ (depth : Nat) {v v' : Value}, v.Matches objects v' →
    s'.showWithin depth v' = s.showWithin depth v := by
  intro depth
  induction depth with
  | zero =>
    intro v v' hv
    cases hv with
    | @ref a a' ha =>
      have hname := (h a a' ha).functionName_eq
      have hshape := (h a a' ha).shape
      rw [showWithin, showWithin, functionLabel, functionLabel, hname]
      generalize (s.object a).shape = shape, (s'.object a').shape = shape' at hshape
      cases hshape <;> rfl
    | _ => rfl
  | succ depth ih =>
    intro v v' hv
    cases hv with
    | @ref a a' ha =>
      have hname := (h a a' ha).functionName_eq
      have hshape := (h a a' ha).shape
      have hshown := (h a a' ha).shown
      have hlist := mapM_eq_of_forall₂ (m := Option) (fun _ _ he => ih he.2) hshown
      have hrecord : ((s'.object a').shown.mapM fun e =>
          (s'.showWithin depth e.2).map fun d => (Datum.text e.1, d)) =
          (s.object a).shown.mapM fun e =>
            (s.showWithin depth e.2).map fun d => (Datum.text e.1, d) := by
        refine mapM_eq_of_forall₂ (fun e e' he => ?_) hshown
        rw [he.1, ih he.2]
      rw [showWithin, showWithin, functionLabel, functionLabel, hname, hlist, hrecord]
      generalize (s.object a).shape = shape, (s'.object a').shape = shape' at hshape
      cases hshape <;> rfl
    | _ => rfl

/-- Values that match show the same, however many values the second store has besides. -/
theorem show?_of_matches (hdomain : ∀ a a', objects a a' → a < s.objects.size)
    (hsize : s.objects.size ≤ s'.objects.size) {v v' : Value} (hv : v.Matches objects v') :
    s'.show? v' = s.show? v := by
  have hclosed : ∀ a, (∃ a', objects a a') →
      ∀ e ∈ (s.object a).properties.entries, e.2.Known fun b => ∃ b', objects b b' := by
    rintro a ⟨a', ha⟩ e he
    obtain ⟨e', -, -, hmatch⟩ := exists_of_mem_forall₂ (h a a' ha).properties he
    exact hmatch.known
  rw [show?, showWithin_of_matches h _ hv]
  cases hd : s.showWithin s'.objects.size v with
  | some d =>
    have hexists : ∀ a, (∃ a', objects a a') → a < s.objects.size := by
      rintro a ⟨a', ha⟩
      exact hdomain a a' ha
    exact ((show?_eq_some_iff hexists hclosed hv.known).2 ⟨_, hd⟩).symm
  | none =>
    cases hs : s.show? v with
    | none => rfl
    | some d =>
      have hmore := showWithin_of_le hsize hs
      rw [hd] at hmore
      cases hmore

end

end Store

end Guion
