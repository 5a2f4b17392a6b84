import Guion.Proofs.Cycles
import Guion.Proofs.Growth
import Guion.Proofs.Table

/-!
# The order of the elements of a list

A list keeps its elements in its table of properties, so they stand in the order in which their
keys came in.  A new list has the keys `0`, `1`, … in this order; an assignment keeps them so
exactly if it takes a hidden key, one that is there, or the next index, and what was lost does not
come back.

    o.elements = o.shownKeys.map o.get                                     (elements_eq_map_get)
    (o.assigned ws).InOrder ↔ o.InOrder ∧ o.TakesInTurn ws                 (inOrder_assigned_iff)
-/

namespace Guion

/-! ## Texts of indices -/

namespace Num

theorem natText_injective : Function.Injective natText := by
  intro m n h
  calc m = Nat.ofDigitChars 10 (natText m).toList 0 := (ofDigitChars_natText m).symm
    _ = Nat.ofDigitChars 10 (natText n).toList 0 := by rw [h]
    _ = n := ofDigitChars_natText n

/-- An index is shown: its text starts with a digit. -/
theorem isHidden_natText (n : Nat) : isHidden (natText n) = false := by
  have hdigits := (isDigits_natText n).2
  unfold isHidden
  cases htext : (natText n).toList with
  | nil => rfl
  | cons c cs =>
    have hne : c ≠ '_' := by
      rintro rfl
      rw [htext] at hdigits
      exact absurd (hdigits '_' List.mem_cons_self) (by decide)
    have hstarts : ['_', '_'].isPrefixOf (c :: cs) = false := by
      rw [List.isPrefixOf_cons_cons, beq_false_of_ne hne.symm, Bool.false_and]
    simp only [hstarts, Bool.and_false, Bool.false_and]

end Num

/-! ## Elements -/

namespace Object

/-- The values that are shown, in order: of a list, its elements. -/
def elements (o : Object) : List Value := o.shown.map Prod.snd

def shownKeys (o : Object) : List String := o.shown.map Prod.fst

/-- The shown keys are the indices in order. -/
def InOrder (o : Object) : Prop := o.shownKeys = (List.range o.elements.length).map Num.natText

instance (o : Object) : Decidable o.InOrder := inferInstanceAs (Decidable (_ = _))

theorem shownKeys_eq (o : Object) : o.shownKeys = o.properties.keys.filter (!isHidden ·) := by
  rw [shownKeys, shown, Table.keys, List.filter_map]
  rfl

theorem length_shownKeys (o : Object) : o.shownKeys.length = o.elements.length := by
  rw [shownKeys, elements, List.length_map, List.length_map]

theorem nodup_shownKeys {o : Object} (h : o.properties.keys.Nodup) : o.shownKeys.Nodup := by
  rw [shownKeys_eq]
  exact h.filter _

theorem InOrder.nodup {o : Object} (h : o.InOrder) : o.shownKeys.Nodup := by
  rw [h]
  exact List.Nodup.map Num.natText_injective List.nodup_range

/-- Each element is what its key gives. -/
theorem elements_eq_map_get {o : Object} (h : o.shownKeys.Nodup) :
    o.elements = o.shownKeys.map o.get := by
  rw [elements, shownKeys, List.map_map]
  refine List.map_congr_left fun e he => ?_
  have hshown : (!isHidden e.1) = true := (List.mem_filter.1 he).2
  have hfind : o.properties.find? e.1 = some e.2 :=
    (Table.findIn_filter (p := fun key => !isHidden key) hshown _).symm.trans
      (Table.findIn_of_mem h he)
  show e.2 = o.get e.1
  rw [get, hfind]
  rfl

theorem InOrder.getElem? {o : Object} (h : o.InOrder) {i : Nat} (hi : i < o.elements.length) :
    o.elements[i]? = some (o.get (Num.natText i)) := by
  have helements := elements_eq_map_get h.nodup
  rw [h, List.map_map] at helements
  rw [helements, List.getElem?_map, List.getElem?_range hi]
  rfl

/-! ## New lists -/

theorem keys_indexed (values : List Value) :
    (Store.indexed values).map Prod.fst = (List.range values.length).map Num.natText := by
  rw [Store.indexed, List.map_map, List.range_eq_range', ← List.zipIdx_map_snd, List.map_map]
  rfl

theorem values_indexed (values : List Value) : (Store.indexed values).map Prod.snd = values := by
  rw [Store.indexed, List.map_map]
  exact List.zipIdx_map_fst 0 values

theorem entries_indexed (values : List Value) :
    (Store.baseProperties.insertAll (Store.indexed values)).entries =
      Store.baseProperties.entries ++ Store.indexed values := by
  refine Table.entries_insertAll ?_
  rw [keys_indexed]
  refine List.nodup_append.2 ⟨by decide, ?_, ?_⟩
  · exact List.Nodup.map Num.natText_injective List.nodup_range
  · -- the methods that every value starts with are hidden, and indices are not
    rintro key hkey _ hindex rfl
    obtain ⟨i, -, rfl⟩ := List.mem_map.1 hindex
    have hhidden : ∀ key ∈ Store.baseProperties.keys, isHidden key = true := by decide
    exact absurd (hhidden _ hkey) (by rw [Num.isHidden_natText]; decide)

/-- The list of the given elements. -/
def ofElements (values : List Value) : Object :=
  ⟨.list, Store.baseProperties.insertAll (Store.indexed values)⟩

theorem shown_ofElements (values : List Value) :
    (ofElements values).shown = Store.indexed values := by
  rw [shown, ofElements, entries_indexed, List.filter_append]
  have hbase : Store.baseProperties.entries.filter (fun e => !isHidden e.1) = [] := by decide
  rw [hbase, List.nil_append, List.filter_eq_self]
  intro e he
  have hkey : e.1 ∈ (List.range values.length).map Num.natText :=
    keys_indexed values ▸ List.mem_map_of_mem he
  obtain ⟨i, -, hi⟩ := List.mem_map.1 hkey
  rw [← hi, Num.isHidden_natText]
  rfl

theorem elements_ofElements (values : List Value) : (ofElements values).elements = values := by
  rw [elements, shown_ofElements, values_indexed]

theorem inOrder_ofElements (values : List Value) : (ofElements values).InOrder := by
  rw [InOrder, elements_ofElements, shownKeys, shown_ofElements, keys_indexed]

/-! ## Assignments -/

/-- The value after an assignment to one of its properties. -/
def assign (o : Object) (key : String) (v : Value) : Object :=
  { o with properties := o.properties.insert key v }

/-- The value after assignments one after the other. -/
def assigned (o : Object) (ws : List (String × Value)) : Object :=
  ws.foldl (fun o e => o.assign e.1 e.2) o

/-- The keys that an assignment may take without leaving the order of the indices: hidden, those
that are there, and the next index. -/
def Takes (o : Object) (key : String) : Prop :=
  isHidden key = true ∨ key ∈ o.properties.keys ∨ key = Num.natText o.elements.length

/-- Each assignment takes such a key when its turn comes. -/
def TakesInTurn (o : Object) : List (String × Value) → Prop
  | [] => True
  | (key, v) :: rest => o.Takes key ∧ (o.assign key v).TakesInTurn rest

instance (o : Object) (key : String) : Decidable (o.Takes key) :=
  inferInstanceAs (Decidable (_ ∨ _ ∨ _))

instance decidableTakesInTurn : ∀ (o : Object) (ws : List (String × Value)),
    Decidable (o.TakesInTurn ws)
  | _, [] => isTrue trivial
  | o, (key, v) :: rest => @instDecidableAnd _ _ _ (decidableTakesInTurn (o.assign key v) rest)

/-- An assignment to a new key that is shown adds it at the end; any other adds none. -/
theorem shownKeys_assign (o : Object) (key : String) (v : Value) :
    (o.assign key v).shownKeys =
      if isHidden key = true ∨ key ∈ o.properties.keys then o.shownKeys
      else o.shownKeys ++ [key] := by
  rw [shownKeys_eq, shownKeys_eq, assign, Table.keys_insert]
  by_cases hk : key ∈ o.properties.keys
  · rw [if_pos hk, if_pos (.inr hk)]
  · rw [if_neg hk, List.filter_append]
    cases hh : isHidden key with
    | true => simp [hh]
    | false => simp [hh, hk]

/-- The keys are the indices in order after an assignment exactly if they were so before it and it
takes a key that leaves them so. -/
theorem inOrder_assign_iff (o : Object) (key : String) (v : Value) :
    (o.assign key v).InOrder ↔ o.InOrder ∧ o.Takes key := by
  unfold InOrder Takes
  rw [← length_shownKeys, ← length_shownKeys, shownKeys_assign]
  by_cases h : isHidden key = true ∨ key ∈ o.properties.keys
  · rw [if_pos h]
    refine ⟨fun hs => ⟨hs, ?_⟩, And.left⟩
    exact h.imp_right .inl
  · have hnext : isHidden key = true ∨ key ∈ o.properties.keys ∨
        key = Num.natText o.shownKeys.length ↔ key = Num.natText o.shownKeys.length := by
      rw [← or_assoc, or_iff_right h]
    rw [if_neg h, hnext, List.length_append, List.length_singleton, List.range_succ,
      List.map_append, List.map_singleton, List.append_singleton_inj]

/-- After any assignments the keys are the indices in order exactly if they were so before and each
assignment took a key that left them so. -/
theorem inOrder_assigned_iff (ws : List (String × Value)) :
    ∀ o : Object, (o.assigned ws).InOrder ↔ o.InOrder ∧ o.TakesInTurn ws := by
  induction ws with
  | nil => exact fun o => (and_iff_left trivial).symm
  | cons e rest ih =>
    intro o
    show ((o.assign e.1 e.2).assigned rest).InOrder ↔
      o.InOrder ∧ o.Takes e.1 ∧ (o.assign e.1 e.2).TakesInTurn rest
    rw [ih, inOrder_assign_iff, and_assoc]

/-- The shown keys of a value that has grown start with those that it had. -/
theorem Grows.shownKeys {old new : Object} (h : old.Grows new) :
    old.shownKeys <+: new.shownKeys := by
  rw [shownKeys_eq, shownKeys_eq]
  exact h.keys.filter _

end Object

/-! ## Lists of a store -/

namespace Store

variable {s : Store}

/-- Assigns properties of a value one after the other. -/
def setProperties (s : Store) (a : Address) (ws : List (String × Value)) : Store :=
  ws.foldl (fun s e => s.setProperty a e.1 e.2) s

theorem object_setProperties {a : Address} : ∀ {ws : List (String × Value)} {s : Store},
    a < s.objects.size → (s.setProperties a ws).object a = (s.object a).assigned ws
  | [], _, _ => rfl
  | e :: rest, s, h => by
    have hsize := s.objects_size_setProperty a e.1 e.2
    have hstep : (s.setProperty a e.1 e.2).object a = (s.object a).assign e.1 e.2 := by
      rw [object_setProperty, if_pos ⟨rfl, h⟩]
      rfl
    have hrest : ((s.setProperty a e.1 e.2).setProperties a rest).object a =
        ((s.setProperty a e.1 e.2).object a).assigned rest := object_setProperties (hsize ▸ h)
    rw [hstep] at hrest
    exact hrest

theorem lt_of_list {a : Address} (h : (s.object a).shape = .list) : a < s.objects.size := by
  by_contra hle
  rw [s.object_of_size_le (Nat.le_of_not_lt hle)] at h
  cases h

/-- A list is shown as the list of what its elements are shown as. -/
theorem show?_list (hs : ∀ a, (s.object a).Tidy s.objects.size) {a : Address}
    (hlist : (s.object a).shape = .list) :
    s.show? (.ref a) = ((s.object a).elements.mapM s.show?).map .list := by
  obtain ⟨n, hn⟩ := Nat.exists_eq_succ_of_ne_zero (Nat.ne_zero_of_lt (lt_of_list hlist))
  have hlist? : s.show? (.ref a) =
      ((s.object a).shown.mapM fun e => s.showWithin n e.2).map .list := by
    rw [show?, hn, showWithin, hlist]
  have helements : (s.object a).elements.mapM s.show? =
      (s.object a).shown.mapM fun e => s.showWithin (n + 1) e.2 := by
    rw [Object.elements, List.mapM_map]
    simp only [Function.comp_def, show?, hn, Nat.succ_eq_add_one]
  rw [hlist?, helements]
  congr 1
  cases hds : (s.object a).shown.mapM fun e => s.showWithin n e.2 with
  | some ds => exact (mapM_eq_some_of_imp (fun _ _ => showWithin_succ) hds).symm
  | none =>
    -- elements that can be shown at all need less depth than the list, and that has room
    refine (Option.not_isSome_iff_eq_none.1 fun hsome => ?_).symm
    have hends : s.EndsWithin (n + 2) (.ref a) := endsWithin_succ.2 (.inr (isSome_mapM_iff.1 hsome))
    have hroom := hends.at_size (show ∀ a, a < s.objects.size → a < s.objects.size from fun _ => id)
      (fun a _ => (hs a).values) (lt_of_list hlist)
    rw [hn] at hroom
    have hnot : ¬ ∃ c, (s.object a).shape = .function c := by
      rintro ⟨c, hc⟩
      rw [hlist] at hc
      cases hc
    have hall := (endsWithin_succ.1 hroom).resolve_left hnot
    have hnone := isSome_mapM_iff.2 hall
    rw [hds] at hnone
    cases hnone

end Store

/-! ## Lists of sessions -/

namespace Session

/-- After any scripts the elements of a list are what its shown keys give, in the order in which
these came in; they are what `0`, `1`, … give where these are the keys in this order.  That is so of
a new list, and assignments one after the other leave it so exactly if each takes a hidden key, one
that is there, or the next index; a run leaves the keys that are there in their places. -/
theorem elements_follow_keys {host : Host} {sessions : List Session} {w : World}
    (h : History host sessions w) {a : Address} (hlist : (w.store.object a).shape = .list) :
    w.store.lengthOf (.ref a) = .ok (w.store.object a).elements.length ∧
    w.store.show? (.ref a) = ((w.store.object a).elements.mapM w.store.show?).map .list ∧
    (w.store.object a).elements =
      (w.store.object a).shownKeys.map (w.store.getProperty a) ∧
    ((w.store.object a).InOrder → ∀ i, i < (w.store.object a).elements.length →
      (w.store.object a).elements[i]? = some (w.store.getProperty a (Num.natText i))) ∧
    (∀ values, ((w.store.makeList values).1.object w.store.objects.size).InOrder ∧
      ((w.store.makeList values).1.object w.store.objects.size).elements = values) ∧
    (∀ ws, ((w.store.setProperties a ws).object a).InOrder ↔
      (w.store.object a).InOrder ∧ (w.store.object a).TakesInTurn ws) ∧
    ∀ limit node scope, (w.store.object a).shownKeys <+:
      ((Eval.evaluate host limit node scope w).2.store.object a).shownKeys := by
  have hsize := Store.lt_of_list hlist
  have hkeys := Object.nodup_shownKeys (h.tidy.objects a).keys
  refine ⟨?_, Store.show?_list h.tidy.objects hlist, Object.elements_eq_map_get hkeys,
    fun horder i hi => horder.getElem? hi, fun values => ?_, fun ws => ?_,
    fun limit node scope => ?_⟩
  · rw [Store.lengthOf, Object.elements, List.length_map]
  · have hnew : (w.store.makeList values).1.object w.store.objects.size =
        Object.ofElements values := (w.store.object_make ..).trans (if_pos rfl)
    rw [hnew]
    exact ⟨Object.inOrder_ofElements values, Object.elements_ofElements values⟩
  · rw [Store.object_setProperties hsize]
    exact Object.inOrder_assigned_iff ws _
  · have hgrows := Eval.grows_evaluate host.readOnly_isOwn limit node scope h.own
    exact (hgrows.store.object a hsize).shownKeys

/-- Takes the next index twice. -/
def appending : String := "def l = [4]; l[1] = 5; l[2] = 6; l[0] = 3"

def appendingWorld : World := (eval silent 10 ⟨⟨0, []⟩⟩ appending (firstWorld silent)).2

/-- A list that was appended to is in order, and it no longer is if it skips an index. -/
theorem elements_follow_keys_appending : History silent [⟨⟨0, []⟩⟩] appendingWorld ∧
    (appendingWorld.store.object 7).shape = .list ∧
    (∀ i, i < 3 → (appendingWorld.store.object 7).elements[i]? =
      some (appendingWorld.store.getProperty 7 (Num.natText i))) ∧
    ¬ ((appendingWorld.store.setProperties 7 [("3", .null), ("5", .null)]).object 7).InOrder := by
  have h : History silent [⟨⟨0, []⟩⟩] appendingWorld :=
    (History.first silent).eval 10 appending List.mem_cons_self
  obtain ⟨hlist, hlength, horder⟩ : (appendingWorld.store.object 7).shape = .list ∧
      (appendingWorld.store.object 7).elements.length = 3 ∧
      (appendingWorld.store.object 7).InOrder := by decide +kernel
  have hskips : ¬ (appendingWorld.store.object 7).TakesInTurn [("3", .null), ("5", .null)] := by
    decide +kernel
  obtain ⟨-, -, -, hindex, -, hassign, -⟩ := elements_follow_keys h hlist
  refine ⟨h, hlist, fun i hi => hindex horder i (hlength ▸ hi), fun hend => ?_⟩
  exact hskips ((hassign _).1 hend).2

/-- Takes the second index before the first. -/
def backwards : String := "def l = []; l[1] = 5; l[0] = 7"

/-- The elements of a list need not follow the indices. -/
theorem elements_backwards : ∃ w, History silent [⟨⟨0, []⟩⟩] w ∧
    (w.store.object 7).shape = .list ∧ w.store.lengthOf (.ref 7) = .ok 2 ∧
    (w.store.object 7).elements[0]? ≠ some (w.store.getProperty 7 (Num.natText 0)) := by
  have h := (History.first silent).eval 10 backwards List.mem_cons_self
  exact ⟨_, h, by decide +kernel, by decide +kernel, by decide +kernel⟩

end Session

end Guion
