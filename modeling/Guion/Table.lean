/-!
# Ordered tables

A table maps names to values and remembers in which order the names came in.  Writing to a name
that is present replaces its value and keeps its place; a new name goes to the end.

    (t.insert k v).find? k' = if k' = k then some v else t.find? k'     (find?_insert)
    (t.insert k v).keys = if k ∈ t.keys then t.keys else t.keys ++ [k]  (keys_insert)
-/

namespace Guion

structure Table (α : Type) where
  entries : List (String × α)
deriving DecidableEq, Repr, Inhabited

namespace Table

variable {α : Type}

/-! ## Operations -/

def empty : Table α := ⟨[]⟩

def keys (t : Table α) : List String := t.entries.map Prod.fst

def findIn (key : String) : List (String × α) → Option α
  | [] => none
  | (k, v) :: rest => if k = key then some v else findIn key rest

def find? (t : Table α) (key : String) : Option α := findIn key t.entries

def contains (t : Table α) (key : String) : Bool := (t.find? key).isSome

def insertIn (key : String) (value : α) : List (String × α) → List (String × α)
  | [] => [(key, value)]
  | (k, v) :: rest => if k = key then (k, value) :: rest else (k, v) :: insertIn key value rest

def insert (t : Table α) (key : String) (value : α) : Table α := ⟨insertIn key value t.entries⟩

/-- Writes the entries one after the other. -/
def insertAll (t : Table α) (entries : List (String × α)) : Table α :=
  entries.foldl (fun t e => t.insert e.1 e.2) t

def ofList (entries : List (String × α)) : Table α := empty.insertAll entries

/-! ## Lemmas -/

theorem findIn_insertIn (k k' : String) (v : α) (es : List (String × α)) :
    findIn k' (insertIn k v es) = if k' = k then some v else findIn k' es := by
  induction es with
  | nil => simp [insertIn, findIn, eq_comm]
  | cons e rest ih =>
    obtain ⟨k₀, v₀⟩ := e
    by_cases h : k₀ = k
    · subst h
      simp only [insertIn, findIn, if_true, eq_comm (a := k₀)]
      split <;> rfl
    · by_cases h' : k₀ = k'
      · subst h'
        simp [insertIn, findIn, h]
      · simp [insertIn, findIn, h, h', ih]

theorem find?_insert (t : Table α) (k k' : String) (v : α) :
    (t.insert k v).find? k' = if k' = k then some v else t.find? k' :=
  findIn_insertIn k k' v t.entries

theorem keys_insertIn (k : String) (v : α) (es : List (String × α)) :
    (insertIn k v es).map Prod.fst =
      if k ∈ es.map Prod.fst then es.map Prod.fst else es.map Prod.fst ++ [k] := by
  induction es with
  | nil => simp [insertIn]
  | cons e rest ih =>
    obtain ⟨k₀, v₀⟩ := e
    by_cases h : k₀ = k
    · simp [insertIn, h]
    · have h' : k ≠ k₀ := fun e => h e.symm
      by_cases hm : k ∈ rest.map Prod.fst <;> simp_all [insertIn]

theorem keys_insert (t : Table α) (k : String) (v : α) :
    (t.insert k v).keys = if k ∈ t.keys then t.keys else t.keys ++ [k] :=
  keys_insertIn k v t.entries

theorem findIn_eq_none_iff (k : String) (es : List (String × α)) :
    findIn k es = none ↔ k ∉ es.map Prod.fst := by
  induction es with
  | nil => simp [findIn]
  | cons e rest ih =>
    obtain ⟨k₀, v₀⟩ := e
    by_cases h : k₀ = k
    · simp [findIn, h]
    · have h' : k ≠ k₀ := fun e => h e.symm
      simp [findIn, h, h', ih]

theorem find?_eq_none_iff (t : Table α) (k : String) : t.find? k = none ↔ k ∉ t.keys :=
  findIn_eq_none_iff k t.entries

theorem contains_eq_false_iff (t : Table α) (k : String) : t.contains k = false ↔ k ∉ t.keys := by
  rw [contains, Option.isSome_eq_false_iff, Option.isNone_iff_eq_none, find?_eq_none_iff]

theorem mem_of_findIn {k : String} {v : α} {es : List (String × α)} (h : findIn k es = some v) :
    (k, v) ∈ es := by
  induction es with
  | nil => cases h
  | cons e rest ih =>
    obtain ⟨k₀, v₀⟩ := e
    rw [findIn] at h
    split at h
    · next hk =>
      cases h
      rw [hk]
      exact List.mem_cons_self
    · exact List.mem_cons_of_mem _ (ih h)

theorem mem_of_find? {t : Table α} {k : String} {v : α} (h : t.find? k = some v) :
    (k, v) ∈ t.entries :=
  mem_of_findIn h

theorem mem_insertIn {k : String} {v : α} {e : String × α} {es : List (String × α)}
    (h : e ∈ insertIn k v es) : e = (k, v) ∨ e ∈ es := by
  induction es with
  | nil => exact .inl (List.mem_singleton.1 h)
  | cons e₀ rest ih =>
    obtain ⟨k₀, v₀⟩ := e₀
    rw [insertIn] at h
    split at h
    · next hk =>
      rcases List.mem_cons.1 h with rfl | h
      · exact .inl (by rw [hk])
      · exact .inr (List.mem_cons_of_mem _ h)
    · rcases List.mem_cons.1 h with rfl | h
      · exact .inr List.mem_cons_self
      · exact (ih h).imp id (List.mem_cons_of_mem _)

theorem mem_insert {t : Table α} {k : String} {v : α} {e : String × α}
    (h : e ∈ (t.insert k v).entries) : e = (k, v) ∨ e ∈ t.entries :=
  mem_insertIn h

theorem mem_insertAll {es : List (String × α)} : ∀ {t : Table α} {e : String × α},
    e ∈ (t.insertAll es).entries → e ∈ es ∨ e ∈ t.entries := by
  induction es with
  | nil => exact fun h => .inr h
  | cons e₀ es ih =>
    intro t e h
    rcases ih (t := t.insert e₀.1 e₀.2) h with h | h
    · exact .inl (List.mem_cons_of_mem _ h)
    · rcases mem_insert h with rfl | h
      · exact .inl List.mem_cons_self
      · exact .inr h

/-! ### Names that are there stay where they are -/

theorem keys_prefix_insert (t : Table α) (k : String) (v : α) : t.keys <+: (t.insert k v).keys := by
  rw [keys_insert]
  split
  · exact List.prefix_rfl
  · exact List.prefix_append _ _

theorem keys_prefix_insertAll (es : List (String × α)) :
    ∀ t : Table α, t.keys <+: (t.insertAll es).keys := by
  induction es with
  | nil => exact fun _ => List.prefix_rfl
  | cons e es ih => exact fun t => (t.keys_prefix_insert e.1 e.2).trans (ih _)

theorem mem_keys_insert (t : Table α) (k : String) (v : α) : k ∈ (t.insert k v).keys := by
  rw [keys_insert]
  split
  · assumption
  · exact List.mem_append_right _ List.mem_cons_self

theorem mem_keys_insertAll {es : List (String × α)} {k : String} (h : k ∈ es.map Prod.fst) :
    ∀ t : Table α, k ∈ (t.insertAll es).keys := by
  induction es with
  | nil => cases h
  | cons e es ih =>
    intro t
    rcases List.mem_cons.1 h with rfl | h
    · exact (keys_prefix_insertAll es _).mem (t.mem_keys_insert e.1 e.2)
    · exact ih h _

theorem nodup_keys_insert {t : Table α} (h : t.keys.Nodup) (k : String) (v : α) :
    (t.insert k v).keys.Nodup := by
  rw [keys_insert]
  split
  · exact h
  · next hk =>
    refine List.nodup_append.2 ⟨h, by simp, fun a ha b hb hab => hk ?_⟩
    rwa [← List.mem_singleton.1 hb, ← hab]

theorem nodup_keys_insertAll (es : List (String × α)) : ∀ {t : Table α}, t.keys.Nodup →
    (t.insertAll es).keys.Nodup := by
  induction es with
  | nil => exact fun h => h
  | cons e es ih => exact fun h => ih (nodup_keys_insert h e.1 e.2)

end Table

end Guion
