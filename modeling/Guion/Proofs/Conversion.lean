import Guion.Proofs.Conversion.Making

/-!
# From data to values and back

Every stored value that the result of a conversion holds is new or a shared method.  What a value
shows is already data as a script can have it, so showing it to a script makes a copy.

    s.ofDatum d = .ok (s', v) → s'.show? v = some (d.settled s)                  (show?_ofDatum)
-/

namespace Guion

namespace Store

/-! ## What the result holds -/

/-- The stored values that a value holds.  Those that the shared methods have been given are not
among them: every value has these methods. -/
inductive Holds (s : Store) : Value → Address → Prop
  | self (a : Address) : Holds s (.ref a) a
  | property {a b : Address} {e : String × Value} : a ∉ sharedAddresses →
      e ∈ (s.object a).properties.entries → Holds s e.2 b → Holds s (.ref a) b

theorem Made.of_holds {s s' : Store} (h : s.Made s') {v : Value} {a : Address} (ha : s'.Holds v a)
    (hv : v.Known fun b => s.objects.size ≤ b ∨ b ∈ sharedAddresses) :
    s.objects.size ≤ a ∨ a ∈ sharedAddresses := by
  induction ha with
  | self a => exact hv
  | property hnot he _ ih => exact ih (h.new _ (hv.resolve_right hnot) _ he)

/-- Nothing new is reached from what was there. -/
theorem Made.of_reaches {s s' : Store} (h : s.Made s')
    (hframes : ∀ f, (s.frame f).Tidy s.objects.size)
    (hobjects : ∀ a, (s.object a).Tidy s.objects.size) {v : Value}
    (hv : v.Known (· < s.objects.size)) {a : Address} (ha : s'.Reaches v.RefersTo (.object a)) :
    a < s.objects.size := by
  have hframe : ∀ f, s'.frame f = s.frame f := fun f => by rw [frame, frame, h.frames]
  have hall : ∀ p, s'.Reaches v.RefersTo p → ∀ a, p = .object a → a < s.objects.size := by
    intro p hp
    induction hp with
    | given hgiven =>
      cases hgiven with
      | ref a =>
        rintro _ ⟨⟩
        exact hv
    | step _ hleads ih =>
      cases hleads with
      | binding hfind hvalue =>
        rintro _ ⟨⟩
        rw [hframe] at hfind
        have hknown := (hframes _).values _ (Table.mem_of_find? hfind)
        rwa [hvalue] at hknown
      | property he hvalue =>
        rintro _ ⟨⟩
        rw [h.old _ (ih _ rfl)] at he
        have hknown := (hobjects _).values _ he
        rwa [hvalue] at hknown
      | closure => rintro _ ⟨⟩
  exact hall _ ha a rfl

end Store

/-! ## What is shown is as a script can have it -/

/-- Data that becomes a value and is shown again as it is. -/
structure Datum.IsSettled (base : Store) (d : Datum) : Prop where
  supported : ¬ d.HasUnsupported
  keyed : d.Keyed base
  settled : d.settled base = d

namespace Datum

variable {base : Store}

theorem isSettled_of_items {d : Datum} (hd : ∀ thing, d ≠ .unsupported thing)
    (hkeys : ∀ entries, d = .record entries → ∀ e ∈ entries, ∃ name, e.1.keyText base = .ok name)
    (h : ∀ item ∈ d.items, item.IsSettled base) (hsettled : d.settled base = d) :
    d.IsSettled base where
  supported := by
    rintro ⟨thing, hpart⟩
    rcases part_iff.1 hpart with rfl | ⟨item, hi, hpart⟩
    · exact hd thing rfl
    · exact (h item hi).supported ⟨thing, hpart⟩
  keyed := keyed_iff.2 ⟨hkeys, fun item hi => (h item hi).keyed⟩
  settled := hsettled

theorem isSettled_of_items_eq_nil {d : Datum} (hd : ∀ thing, d ≠ .unsupported thing)
    (h : d.items = []) (hsettled : d.settled base = d) : d.IsSettled base :=
  ⟨not_hasUnsupported_of_items_eq_nil hd h, keyed_of_items_eq_nil h, hsettled⟩

theorem isSettled_list {items : List Datum} (h : ∀ d ∈ items, d.IsSettled base) :
    (list items).IsSettled base := by
  refine isSettled_of_items (by rintro _ ⟨⟩) (by rintro _ ⟨⟩) h ?_
  rw [Datum.settled, settledItems_eq, List.map_congr_left fun d hd => (h d hd).settled,
    List.map_id']

/-- A record of different texts, none of which is hidden. -/
theorem isSettled_record {entries : List (String × Datum)} (hnames : (entries.map Prod.fst).Nodup)
    (hshown : ∀ e ∈ entries, isHidden e.1 = false) (h : ∀ e ∈ entries, e.2.IsSettled base) :
    (record (entries.map fun e => (.text e.1, e.2))).IsSettled base := by
  refine isSettled_of_items (by rintro _ ⟨⟩) ?_ ?_ ?_
  · rintro _ ⟨⟩ e he
    obtain ⟨e, -, rfl⟩ := List.mem_map.1 he
    exact ⟨e.1, rfl⟩
  · intro item hi
    rw [items, List.map_map] at hi
    obtain ⟨e, he, rfl⟩ := List.mem_map.1 hi
    exact h e he
  · have hentries : settledEntries base (entries.map fun e => (.text e.1, e.2)) = entries := by
      rw [settledEntries_eq, List.map_map]
      refine (List.map_congr_left fun e he => ?_).trans (List.map_id _)
      exact congrArg (Prod.mk e.1) (h e he).settled
    have htable : (Table.ofList entries).entries = entries :=
      Table.entries_insertAll (t := .empty) hnames
    rw [Datum.settled, hentries, htable, List.filter_eq_self.2 fun e he => by rw [hshown e he]; rfl]

end Datum

namespace Store

/-- What the properties of a value are shown as, under their names. -/
theorem exists_entries_of_mapM {β : Type} {f : β → Option Datum} {pairs : List (String × β)}
    {es : List (Datum × Datum)}
    (h : pairs.mapM (fun e => (f e.2).map fun d => (.text e.1, d)) = some es) :
    ∃ entries : List (String × Datum), es = entries.map (fun e => (.text e.1, e.2)) ∧
      entries.map Prod.fst = pairs.map Prod.fst ∧ ∀ e ∈ entries, ∃ b, f b = some e.2 := by
  have hall := mapM_eq_some_iff.1 h
  clear h
  induction hall with
  | nil => exact ⟨[], rfl, rfl, List.forall_mem_nil _⟩
  | cons he _ ih =>
    obtain ⟨d, hd, rfl⟩ := Option.map_eq_some_iff.1 he
    obtain ⟨entries, rfl, hnames, hentries⟩ := ih
    exact ⟨(_, d) :: entries, rfl, congrArg (_ :: ·) hnames,
      List.forall_mem_cons.2 ⟨⟨_, hd⟩, hentries⟩⟩

/-- What is shown of a value is data as a script can have it. -/
theorem isSettled_showWithin {s : Store} (base : Store)
    (hkeys : ∀ a, (s.object a).properties.keys.Nodup) : ∀ {depth : Nat} {v : Value} {d : Datum},
      s.showWithin depth v = some d → d.IsSettled base := by
  intro depth
  induction depth with
  | zero =>
    intro v d h
    cases v with
    | ref a =>
      simp only [showWithin] at h
      split at h <;> cases h
      exact Datum.isSettled_of_items_eq_nil (by rintro _ ⟨⟩) rfl rfl
    | _ => cases h; exact Datum.isSettled_of_items_eq_nil (by rintro _ ⟨⟩) rfl rfl
  | succ depth ih =>
    intro v d h
    cases v with
    | ref a =>
      have hnodup := Object.nodup_shownKeys (hkeys a)
      have hshown : ∀ name ∈ (s.object a).shownKeys, isHidden name = false := by
        intro name hname
        rw [Object.shownKeys_eq] at hname
        simpa using List.of_mem_filter hname
      rw [showWithin] at h
      split at h
      · cases h
        exact Datum.isSettled_of_items_eq_nil (by rintro _ ⟨⟩) rfl rfl
      · obtain ⟨items, hitems, rfl⟩ := Option.map_eq_some_iff.1 h
        exact Datum.isSettled_list (forall_mem_of_mapM (fun _ _ hd => ih hd) hitems)
      all_goals
        obtain ⟨es, hes, rfl⟩ := Option.map_eq_some_iff.1 h
        obtain ⟨entries, rfl, hnames, hentries⟩ := exists_entries_of_mapM hes
        refine Datum.isSettled_record (hnames ▸ hnodup) (fun e he => ?_) fun e he => ?_
        · have hname : e.1 ∈ entries.map Prod.fst := List.mem_map_of_mem he
          rw [hnames] at hname
          exact hshown _ hname
        · obtain ⟨v, hv⟩ := hentries e he
          exact ih hv
    | _ => cases h; exact Datum.isSettled_of_items_eq_nil (by rintro _ ⟨⟩) rfl rfl

section

variable {s s' : Store} {d : Datum} {v : Value} (hd : d.Inert)
include hd

theorem yields_of_ofDatum (hof : s.ofDatum d = .ok (s', v)) : ¬ d.HasUnsupported ∧ d.Keyed s ∧
    s.Yields s' [v] fun t depth => t.showWithin depth v = some (d.settled s) := by
  have hends := settles s hd s
  rw [hof] at hends
  cases hends with
  | ok hnone hkeyed hmade => exact ⟨hnone, hkeyed, hmade⟩

theorem cause_of_ofDatum {cause : Failure} (hof : s.ofDatum d = .error cause) :
    (∃ thing, d.Part (.unsupported thing) ∧ cause = .unconvertible (unsupportedType thing)) ∨
      ¬ d.Keyed s ∧ cause = .numeric .digits := by
  have hends := settles s hd s
  rw [hof] at hends
  cases hends with
  | unconvertible hpart => exact .inl ⟨_, hpart, rfl⟩
  | unkeyed hkeys => exact .inr ⟨hkeys, rfl⟩

/-- Data that can become a value becomes one. -/
theorem exists_ofDatum (hnone : ¬ d.HasUnsupported) (hkeyed : d.Keyed s) :
    ∃ s' v, s.ofDatum d = .ok (s', v) := by
  cases hof : s.ofDatum d with
  | ok p => exact ⟨p.1, p.2, rfl⟩
  | error cause =>
    rcases cause_of_ofDatum hd hof with ⟨thing, hpart, -⟩ | ⟨hkeys, -⟩
    · exact absurd ⟨thing, hpart⟩ hnone
    · exact absurd hkeyed hkeys

/-- Data with keys that have texts fails to become a value exactly if something in it has none. -/
theorem unconvertible_iff (hkeyed : d.Keyed s) :
    (∃ type, s.ofDatum d = .error (.unconvertible type)) ↔ d.HasUnsupported := by
  constructor
  · rintro ⟨type, hof⟩
    rcases cause_of_ofDatum hd hof with ⟨thing, hpart, -⟩ | ⟨hkeys, -⟩
    · exact ⟨thing, hpart⟩
    · exact absurd hkeyed hkeys
  · intro hunsupported
    cases hof : s.ofDatum d with
    | ok p => exact absurd hunsupported (yields_of_ofDatum hd hof).1
    | error cause =>
      rcases cause_of_ofDatum hd hof with ⟨thing, -, rfl⟩ | ⟨hkeys, -⟩
      · exact ⟨_, rfl⟩
      · exact absurd hkeyed hkeys

end

theorem Yields.show? {s s' : Store} {v : Value} {d : Datum}
    (h : s.Yields s' [v] fun t depth => t.showWithin depth v = some d) : s'.show? v = some d :=
  h.shown s' _ (.refl s') (Nat.le_add_left _ _)

/-- All that the value holds is new or shared. -/
theorem Yields.of_holds {s s' : Store} {v : Value} {shows : Store → Nat → Prop}
    (h : s.Yields s' [v] shows) {a : Address} (ha : s'.Holds v a) :
    s.objects.size ≤ a ∨ a ∈ sharedAddresses :=
  h.made.of_holds ha ((h.fresh v List.mem_cons_self).mono fun _ => .inl)

end Store

theorem Native.call_showSelf {host : Host} {w : World} {v copy : Value} {d : Datum} {s' : Store}
    (hshow : w.store.show? v = some d) (hof : w.store.ofDatum d = .ok (s', copy))
    (args : List Value) :
    Native.showSelf.call host v args w = (.ok copy, { w with store := s' }) := by
  rw [Native.call, Native.result, Run.bind_apply, Run.inspect, Store.showOrFail, hshow]
  simp only [Run.attempt, hof]

namespace Store

/-! ## There and back -/

/-- Data without functions and stored values becomes a value unless something in it has no value or
a key has no text, and the failure is then due to one of these.  The value shows the data as a
script can have it and holds nothing that was there but shared methods.  So what a value shows
becomes a value that shows the same, and the method that shows a value gives a script a copy that
has no part of it. -/
theorem show?_ofDatum :
    (∀ (s : Store) (d : Datum), d.Inert →
      ((∃ p, s.ofDatum d = .ok p) ↔ ¬ d.HasUnsupported ∧ d.Keyed s) ∧
      (d.Keyed s → ((∃ type, s.ofDatum d = .error (.unconvertible type)) ↔ d.HasUnsupported)) ∧
      (∀ cause, s.ofDatum d = .error cause →
        (∃ thing, d.Part (.unsupported thing) ∧ cause = .unconvertible (unsupportedType thing)) ∨
          ¬ d.Keyed s ∧ cause = .numeric .digits) ∧
      ∀ s' v, s.ofDatum d = .ok (s', v) → s'.show? v = some (d.settled s) ∧ s.Extends s' ∧
        ∀ a, s'.Holds v a → s.objects.size ≤ a ∨ a ∈ sharedAddresses) ∧
    ∀ (w : World), (∀ f, (w.store.frame f).Tidy w.store.objects.size) →
      (∀ a, (w.store.object a).Tidy w.store.objects.size) →
      ∀ v d, v.Known (· < w.store.objects.size) → w.store.show? v = some d →
        ∃ s' copy, w.store.ofDatum d = .ok (s', copy) ∧ s'.show? copy = some d ∧
          w.store.Extends s' ∧
          (∀ host limit a c args, (w.store.object a).shape = .function c →
            c.native = some .showSelf →
            Eval.call host limit (.ref a) args (some v) w = (.ok copy, { w with store := s' })) ∧
          ∀ a, s'.Holds copy a → s'.Reaches v.RefersTo (.object a) → a ∈ sharedAddresses := by
  refine ⟨fun s d hd => ⟨⟨?_, ?_⟩, unconvertible_iff hd, fun _ => cause_of_ofDatum hd, ?_⟩,
    fun w hframes hobjects v d hv hshow => ?_⟩
  · rintro ⟨p, hof⟩
    obtain ⟨hnone, hkeyed, -⟩ := yields_of_ofDatum hd hof
    exact ⟨hnone, hkeyed⟩
  · rintro ⟨hnone, hkeyed⟩
    obtain ⟨s', v, hof⟩ := exists_ofDatum hd hnone hkeyed
    exact ⟨_, hof⟩
  · intro s' v hof
    obtain ⟨-, -, hmade⟩ := yields_of_ofDatum hd hof
    exact ⟨hmade.show?, hmade.made.extends, fun a => hmade.of_holds⟩
  · have hd : d.Inert := w.store.fixed_showWithin _ v d hshow
    have hsettled := isSettled_showWithin w.store (fun a => (hobjects a).keys) hshow
    obtain ⟨s', copy, hof⟩ := exists_ofDatum hd hsettled.supported hsettled.keyed
    obtain ⟨-, -, hmade⟩ := yields_of_ofDatum hd hof
    refine ⟨s', copy, hof, hsettled.settled ▸ hmade.show?, hmade.made.extends, ?_, ?_⟩
    · intro host limit a c args hshape hnative
      rw [Eval.call_native hshape hnative]
      exact Native.call_showSelf hshow hof args
    · intro a hcopy hreached
      -- what the value reaches was there, and the copy is new
      refine (hmade.of_holds hcopy).resolve_left fun hnew => ?_
      exact Nat.not_lt_of_le hnew (hmade.made.of_reaches hframes hobjects hv hreached)

end Store

/-- A record in which two keys have one text and one key is hidden. -/
def Datum.clashing : Datum := .record
  [(.null, .num (.int 1)), (.text "__x__", .num (.int 2)), (.text "None", .sequence [.null]),
    (.bool true, .text "a")]

namespace Session

/-- An object with a list that starts at its sixth index, and with something else in the place of
the method that shows it. -/
def overriding : String := "def o = {}; o.l = []; o.l[5] = pintar; o.__pintar__ = o"

def overridingWorld : World := (eval silent 10 ⟨⟨0, []⟩⟩ overriding (firstWorld silent)).2

/-- Keys that clash, and an object that has replaced the method that shows it. -/
theorem show?_ofDatum_clashing :
    (∃ s' v, Store.initial.ofDatum Datum.clashing = .ok (s', v) ∧ s'.show? v =
      some (.record [(.text "None", .list [.null]), (.text "True", .text "a")])) ∧
    ∃ d, overridingWorld.store.show? (.ref 7) = some d ∧ ∃ s' copy,
      overridingWorld.store.ofDatum d = .ok (s', copy) ∧ s'.show? copy = some d ∧
      ∀ a, s'.Holds copy a → s'.Reaches (Value.RefersTo (.ref 7)) (.object a) →
        a ∈ Store.sharedAddresses := by
  constructor
  · have hinert : Datum.clashing.Inert := by
      refine .record ?_ ?_ <;> simp only [List.forall_mem_cons]
      · exact ⟨.null, .text _, .text _, .bool _, List.forall_mem_nil _⟩
      · exact ⟨.num _, .num _, .sequence (List.forall_mem_singleton.2 .null), .text _,
          List.forall_mem_nil _⟩
    have hof : ∃ p, Store.initial.ofDatum Datum.clashing = .ok p := ⟨_, rfl⟩
    have hsettled : Datum.clashing.settled Store.initial =
        .record [(.text "None", .list [.null]), (.text "True", .text "a")] := rfl
    obtain ⟨⟨s', v⟩, hof⟩ := hof
    obtain ⟨-, -, -, hmade⟩ := Store.show?_ofDatum.1 Store.initial _ hinert
    exact ⟨s', v, hof, hsettled ▸ (hmade s' v hof).1⟩
  · have hhistory : History silent [⟨⟨0, []⟩⟩] overridingWorld :=
      (History.first silent).eval 10 overriding List.mem_cons_self
    have hends : (overridingWorld.store.show? (.ref 7)).isSome = true := by decide +kernel
    have hsize : 7 < overridingWorld.store.objects.size := by decide +kernel
    obtain ⟨d, hd⟩ := Option.isSome_iff_exists.1 hends
    obtain ⟨s', copy, hof, hshow, -, -, hshared⟩ := Store.show?_ofDatum.2 overridingWorld
      hhistory.tidy.frames hhistory.tidy.objects (.ref 7) d hsize hd
    exact ⟨d, hd, s', copy, hof, hshow, hshared⟩

/-- The least number that has no text. -/
def overlong : Nat := Nat.pow 10 Num.digitLimit

theorem intText_overlong : Num.intText overlong = .error .digits := by
  have hle : Nat.pow 10 Num.digitLimit ≤ overlong := by
    unfold overlong
    exact Nat.le_refl _
  rw [Num.intText, Int.natAbs_natCast, if_neg (Nat.not_lt_of_le hle)]

/-- A record whose key has no text. -/
def unkeyed : Datum := .record [(.num (.int overlong), .null)]

/-- Gives a list to the method that shows it. -/
def giving : String := "def l = [1]; l.__pintar__.x = l"

def givingWorld : World := (eval silent 10 ⟨⟨0, []⟩⟩ giving (firstWorld silent)).2

/-- The world after the method has shown the list. -/
def copyingWorld : World :=
  (Eval.call silent 10 (.ref Store.showAddress) [] (some (.ref 7)) givingWorld).2

/-- A key can be too long for a text, and a copy can lead back to the value through the methods that
both have. -/
theorem ofDatum_unkeyed : (unkeyed.Inert ∧ ¬ unkeyed.HasUnsupported ∧
      ∀ s : Store, s.ofDatum unkeyed = .error (.numeric .digits)) ∧
    History silent [⟨⟨0, []⟩⟩] givingWorld ∧
      Eval.call silent 10 (.ref Store.showAddress) [] (some (.ref 7)) givingWorld =
        (.ok (.ref 8), copyingWorld) ∧
      copyingWorld.store.Reaches (Value.RefersTo (.ref 8)) (.object 7) ∧
      7 ∉ Store.sharedAddresses := by
  have htext : ∀ s, (Datum.num (.int overlong)).keyText s = .error .digits := fun _ =>
    intText_overlong
  have hvalue : (Eval.call silent 10 (.ref Store.showAddress) [] (some (.ref 7)) givingWorld).1 =
      .ok (.ref 8) := by decide +kernel
  refine ⟨⟨?_, ?_, fun s => ?_⟩, (History.first silent).eval 10 giving List.mem_cons_self, ?_⟩
  · exact .record (List.forall_mem_singleton.2 (.num _)) (List.forall_mem_singleton.2 .null)
  · rintro ⟨thing, hpart⟩
    rcases Datum.part_unsupported_record_cons.1 hpart with hpart | hpart <;>
      rcases Datum.part_iff.1 hpart with h | ⟨_, hi, -⟩ <;> first | cases h | cases hi
  · rw [unkeyed, Store.ofDatum, Store.ofEntries, htext]
    rfl
  · refine ⟨?_, ?_, by decide⟩
    · rw [← hvalue]
      unfold copyingWorld
      exact (Prod.mk.eta).symm
    · refine .step (.step (.given (.ref 8)) (.property (e := ("__pintar__", .ref 0)) ?_ rfl))
        (.property (e := ("x", .ref 7)) ?_ rfl)
      · decide +kernel
      · decide +kernel

end Session

end Guion
