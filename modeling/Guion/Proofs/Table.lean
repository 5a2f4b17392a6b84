import Guion.Table

/-!
# Parts of tables

The entries of a table under some of the names, and tables that no name has been written to twice.

    (t.insertAll es).entries = t.entries ++ es     for names that are new     (entries_insertAll)
-/

namespace Guion.Table

variable {α : Type}

/-! ## Entries under some names -/

theorem findIn_filter {p : String → Bool} {k : String} (hp : p k = true)
    (es : List (String × α)) : findIn k (es.filter fun e => p e.1) = findIn k es := by
  induction es with
  | nil => rfl
  | cons e rest ih =>
    obtain ⟨k₀, v₀⟩ := e
    by_cases hk : k₀ = k
    · subst hk
      rw [List.filter_cons, if_pos hp, findIn, findIn, if_pos rfl, if_pos rfl]
    · rw [findIn, if_neg hk, ← ih, List.filter_cons]
      split
      · rw [findIn, if_neg hk]
      · rfl

theorem filter_insertIn (p : String → Bool) (k : String) (v : α) (es : List (String × α)) :
    (insertIn k v es).filter (fun e => p e.1) =
      if p k then insertIn k v (es.filter fun e => p e.1) else es.filter fun e => p e.1 := by
  induction es with
  | nil => cases hp : p k <;> simp [insertIn, hp]
  | cons e rest ih =>
    obtain ⟨k₀, v₀⟩ := e
    by_cases hk : k₀ = k
    · subst hk
      cases hp : p k₀ <;> simp [insertIn, hp]
    · rw [insertIn, if_neg hk, List.filter_cons, List.filter_cons, ih]
      cases hp : p k <;> cases hp₀ : p k₀ <;> simp [insertIn, hk]

/-- The entries under some names, after further entries, are those that were there and those of the
further ones. -/
theorem filter_insertAll (p : String → Bool) {es : List (String × α)} : ∀ {t : Table α},
    (t.insertAll es).entries.filter (fun e => p e.1) =
      (insertAll ⟨t.entries.filter fun e => p e.1⟩ (es.filter fun e => p e.1)).entries := by
  induction es with
  | nil => exact rfl
  | cons e es ih =>
    intro t
    refine (ih (t := t.insert e.1 e.2)).trans ?_
    rw [insert, filter_insertIn, List.filter_cons]
    cases p e.1 <;> rfl

/-! ## Tables without repeated names -/

theorem findIn_of_mem {k : String} {v : α} {es : List (String × α)} (h : (es.map Prod.fst).Nodup)
    (he : (k, v) ∈ es) : findIn k es = some v := by
  induction es with
  | nil => cases he
  | cons e rest ih =>
    obtain ⟨k₀, v₀⟩ := e
    obtain ⟨hnew, hrest⟩ := List.nodup_cons.1 h
    rw [findIn]
    rcases List.mem_cons.1 he with he | he
    · cases he
      exact if_pos rfl
    · have hne : k₀ ≠ k := by
        rintro rfl
        exact hnew (List.mem_map.2 ⟨_, he, rfl⟩)
      rw [if_neg hne]
      exact ih hrest he

theorem insertIn_of_not_mem {k : String} (v : α) {es : List (String × α)}
    (h : k ∉ es.map Prod.fst) : insertIn k v es = es ++ [(k, v)] := by
  induction es with
  | nil => rfl
  | cons e rest ih =>
    obtain ⟨k₀, v₀⟩ := e
    have hne : k₀ ≠ k := fun e => h (e ▸ List.mem_cons_self)
    rw [insertIn, if_neg hne, ih fun hk => h (List.mem_cons_of_mem _ hk), List.cons_append]

/-- New names go to the end in the order in which they come. -/
theorem entries_insertAll {es : List (String × α)} : ∀ {t : Table α},
    (t.keys ++ es.map Prod.fst).Nodup → (t.insertAll es).entries = t.entries ++ es := by
  induction es with
  | nil => exact fun _ => (List.append_nil _).symm
  | cons e es ih =>
    intro t h
    have hnew : e.1 ∉ t.keys := fun he => (List.nodup_append.1 h).2.2 _ he _ List.mem_cons_self rfl
    have hentries : (t.insert e.1 e.2).entries = t.entries ++ [e] := insertIn_of_not_mem e.2 hnew
    have hkeys : (t.insert e.1 e.2).keys = t.keys ++ [e.1] := by
      rw [keys_insert, if_neg hnew]
    refine (ih (t := t.insert e.1 e.2) ?_).trans ?_
    · rwa [hkeys, ← List.append_cons]
    · rw [hentries, ← List.append_cons]

end Guion.Table
