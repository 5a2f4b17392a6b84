import Guion.Proofs.Extension
import Guion.Proofs.ListOrder
import Guion.Proofs.Encapsulation

/-!
# What data becomes

Data that holds no function and refers to no stored value becomes a value unless something in it has
no value, or a key has no text.  What the value shows is the data as a script can have it: sequences
are lists, keys are texts, the last item of a repeated key counts, and hidden keys are left out.

    d.Inert → Settles base d                                                          (settles)
-/

namespace Guion

section

variable {α β : Type}

theorem mapM_eq_some_iff {f : α → Option β} {xs : List α} {ys : List β} :
    xs.mapM f = some ys ↔ List.Forall₂ (fun x y => f x = some y) xs ys := by
  induction xs generalizing ys with
  | nil =>
    rw [List.mapM_nil, List.forall₂_nil_left_iff]
    exact ⟨fun h => (Option.some.inj h).symm, fun h => congrArg some h.symm⟩
  | cons x xs ih =>
    rw [List.mapM_cons, List.forall₂_cons_left_iff]
    constructor
    · intro h
      obtain ⟨y, hy, h⟩ := Option.bind_eq_some_iff.1 h
      obtain ⟨rest, hrest, h⟩ := Option.bind_eq_some_iff.1 h
      exact ⟨y, rest, hy, ih.1 hrest, (Option.some.inj h).symm⟩
    · rintro ⟨y, rest, hy, hrest, rfl⟩
      rw [hy, ih.2 hrest]
      rfl

end

/-! ## Tables -/

namespace Table

variable {α β : Type}

theorem forall₂_insertAll {S : α → β → Prop} {es : List (String × α)} {es' : List (String × β)}
    (h : List.Forall₂ (fun e e' => e'.1 = e.1 ∧ S e.2 e'.2) es es') :
    ∀ (t : Table α) (t' : Table β),
      List.Forall₂ (fun e e' => e'.1 = e.1 ∧ S e.2 e'.2) t.entries t'.entries →
      List.Forall₂ (fun e e' => e'.1 = e.1 ∧ S e.2 e'.2) (t.insertAll es).entries
        (t'.insertAll es').entries := by
  induction h with
  | nil => exact fun _ _ ht => ht
  | @cons e e' es es' he _ ih =>
    intro t t' ht
    obtain ⟨k, v⟩ := e
    obtain ⟨k', v'⟩ := e'
    obtain ⟨rfl, hv⟩ := he
    exact ih _ _ (forall₂_insertIn ht k' hv)

end Table

/-- Of the entries that a new value is given, it shows those that are not hidden. -/
theorem Object.shown_of_nodup (shape : Shape) {entries : List (String × Value)}
    (h : (entries.map Prod.fst).Nodup) :
    Object.shown ⟨shape, Store.baseProperties.insertAll entries⟩ =
      entries.filter fun e => !isHidden e.1 := by
  have hbase : Store.baseProperties.entries.filter (fun e => !isHidden e.1) = [] := by decide
  rw [shown, Table.filter_insertAll (!isHidden ·), hbase]
  exact Table.entries_insertAll (t := ⟨[]⟩) (h.sublist (List.filter_sublist.map _))

/-! ## Parts of data -/

namespace Datum

/-- Data without functions and without references to stored values. -/
def Inert (d : Datum) : Prop := d.Fixed (fun _ => False) (fun _ => False)

/-- What stands in the places of values. -/
def items : Datum → List Datum
  | .list items | .sequence items => items
  | .record entries => entries.map Prod.snd
  | _ => []

/-- The data itself and all that stands in the place of a value inside of it. -/
inductive Part : Datum → Datum → Prop
  | self (d : Datum) : Part d d
  | item {d item part : Datum} : item ∈ d.items → Part item part → Part d part

/-- Something that has no value stands in the place of one. -/
def HasUnsupported (d : Datum) : Prop := ∃ thing, d.Part (.unsupported thing)

/-- Every key has a text. -/
def Keyed (s : Store) (d : Datum) : Prop :=
  ∀ entries, d.Part (.record entries) → ∀ e ∈ entries, ∃ name, e.1.keyText s = .ok name

theorem part_iff {d part : Datum} : d.Part part ↔ d = part ∨ ∃ item ∈ d.items, item.Part part := by
  constructor
  · intro h
    cases h with
    | self => exact .inl rfl
    | item hi hp => exact .inr ⟨_, hi, hp⟩
  · rintro (rfl | ⟨item, hi, hp⟩)
    · exact .self d
    · exact .item hi hp

theorem part_unsupported_list_cons {d : Datum} {ds : List Datum} {thing : Unsupported} :
    (list (d :: ds)).Part (.unsupported thing) ↔
      d.Part (.unsupported thing) ∨ (list ds).Part (.unsupported thing) := by
  rw [part_iff, part_iff (d := .list ds)]
  simp [items]

theorem part_unsupported_record_cons {key d : Datum} {rest : List (Datum × Datum)}
    {thing : Unsupported} : (record ((key, d) :: rest)).Part (.unsupported thing) ↔
      d.Part (.unsupported thing) ∨ (record rest).Part (.unsupported thing) := by
  rw [part_iff, part_iff (d := .record rest)]
  simp [items]

theorem keyed_iff {s : Store} {d : Datum} :
    d.Keyed s ↔
      (∀ entries, d = .record entries → ∀ e ∈ entries, ∃ name, e.1.keyText s = .ok name) ∧
        ∀ item ∈ d.items, item.Keyed s := by
  unfold Keyed
  simp only [part_iff (d := d)]
  grind

/-- Data with nothing in the place of a value has only itself as a part. -/
theorem not_hasUnsupported_of_items_eq_nil {d : Datum} (hd : ∀ thing, d ≠ .unsupported thing)
    (h : d.items = []) : ¬ d.HasUnsupported := by
  rintro ⟨thing, hpart⟩
  rcases part_iff.1 hpart with hself | ⟨item, hi, -⟩
  · exact hd thing hself
  · rw [h] at hi
    cases hi

theorem keyed_of_items_eq_nil {s : Store} {d : Datum} (h : d.items = []) : d.Keyed s := by
  refine keyed_iff.2 ⟨?_, fun item hi => ?_⟩
  · rintro entries rfl e he
    have hnone : e.2 ∈ ([] : List Datum) := h ▸ List.mem_map_of_mem he
    cases hnone
  · rw [h] at hi
    cases hi

theorem keyed_list_cons {s : Store} {d : Datum} {ds : List Datum} :
    (list (d :: ds)).Keyed s ↔ d.Keyed s ∧ (list ds).Keyed s := by
  rw [keyed_iff, keyed_iff (d := .list ds)]
  simp [items]

theorem keyed_record_cons {s : Store} {key d : Datum} {rest : List (Datum × Datum)} :
    (record ((key, d) :: rest)).Keyed s ↔
      (∃ name, key.keyText s = .ok name) ∧ d.Keyed s ∧ (record rest).Keyed s := by
  rw [keyed_iff, keyed_iff (d := .record rest)]
  simp only [items, record.injEq, forall_eq', List.map_cons, List.forall_mem_cons]
  exact and_and_and_comm.trans and_assoc

/-! ## Data as a script can have it -/

/-- The text of a key, or none. -/
def keyName (s : Store) (key : Datum) : String := (key.keyText s).toOption.getD ""

mutual

/-- Sequences are lists; keys are texts, each in its first place with its last item, and hidden ones
are left out. -/
def settled (s : Store) : Datum → Datum
  | .list items | .sequence items => .list (settledItems s items)
  | .record entries =>
    .record (((Table.ofList (settledEntries s entries)).entries.filter fun e => !isHidden e.1).map
      fun e => (.text e.1, e.2))
  | .value .null _ => .null
  | .value (.bool b) _ => .bool b
  | .value (.num n) _ => .num n
  | .value (.str t) _ => .text t
  | d => d

def settledItems (s : Store) : List Datum → List Datum
  | [] => []
  | d :: ds => settled s d :: settledItems s ds

def settledEntries (s : Store) : List (Datum × Datum) → List (String × Datum)
  | [] => []
  | (key, d) :: rest => (key.keyName s, settled s d) :: settledEntries s rest

end

theorem settledItems_eq (s : Store) (items : List Datum) :
    settledItems s items = items.map (settled s) := by
  induction items with
  | nil => rfl
  | cons d ds ih => rw [settledItems, ih, List.map_cons]

theorem settledEntries_eq (s : Store) (entries : List (Datum × Datum)) :
    settledEntries s entries = entries.map fun e => (e.1.keyName s, e.2.settled s) := by
  induction entries with
  | nil => rfl
  | cons e rest ih => rw [settledEntries, ih, List.map_cons]

/-! ## Keys of inert data -/

theorem Inert.keyText_eq {d : Datum} (h : d.Inert) (s s' : Store) : d.keyText s' = d.keyText s := by
  refine Fixed.keyText_eq h fun v hv => ?_
  cases v with
  | ref a => exact absurd hv id
  | _ => rfl

/-- Only the digit limit keeps a number from having a text. -/
theorem failsWith_text (n : Num) : FailsWith (· = .digits) n.text := by
  cases n with
  | int i =>
    rw [Num.text, Num.intText]
    split
    · exact failsWith_ok _
    · exact failsWith_error rfl
  | float x => exact failsWith_ok _

section

variable {s : Store}

theorem failsWith_debugList {items : List Datum}
    (h : ∀ d ∈ items, FailsWith (· = .digits) (d.debug s)) :
    FailsWith (· = .digits) (debugList s items) := by
  induction items with
  | nil => exact failsWith_ok _
  | cons d ds ih =>
    obtain ⟨hd, hds⟩ := List.forall_mem_cons.1 h
    rw [debugList]
    exact failsWith_bind hd fun _ => failsWith_bind (ih hds) fun _ => failsWith_ok _

theorem failsWith_debugEntries {entries : List (Datum × Datum)}
    (hkeys : ∀ e ∈ entries, FailsWith (· = .digits) (e.1.debug s))
    (h : ∀ e ∈ entries, FailsWith (· = .digits) (e.2.debug s)) :
    FailsWith (· = .digits) (debugEntries s entries) := by
  induction entries with
  | nil => exact failsWith_ok _
  | cons e rest ih =>
    obtain ⟨hkey, hkeys⟩ := List.forall_mem_cons.1 hkeys
    obtain ⟨hd, h⟩ := List.forall_mem_cons.1 h
    rw [debugEntries]
    exact failsWith_bind hkey fun _ => failsWith_bind hd fun _ =>
      failsWith_bind (ih hkeys h) fun _ => failsWith_ok _

theorem Inert.failsWith_debug {d : Datum} (h : d.Inert) : FailsWith (· = .digits) (d.debug s) := by
  induction h with
  | num n => exact failsWith_text n
  | list _ ih =>
    rw [debug]
    exact failsWith_bind (failsWith_debugList ih) fun _ => failsWith_ok _
  | sequence _ ih =>
    rw [debug]
    exact failsWith_bind (failsWith_debugList ih) fun _ => failsWith_ok _
  | record _ _ ihkeys ih =>
    rw [debug]
    exact failsWith_bind (failsWith_debugEntries ihkeys ih) fun _ => failsWith_ok _
  | @value v held hv =>
    cases v with
    | num n => exact failsWith_map (failsWith_text n) _
    | ref a => exact absurd hv id
    | _ => exact failsWith_ok _
  | _ => exact failsWith_ok _

theorem Inert.failsWith_keyText {d : Datum} (h : d.Inert) :
    FailsWith (· = .digits) (d.keyText s) := by
  have hdebug := h.failsWith_debug (s := s)
  cases d with
  | text t => exact failsWith_ok _
  | _ => exact hdebug

end

end Datum

/-! ## What a conversion makes -/

namespace Store

variable {s s₁ s₂ : Store}

/-- New values only, which refer to new values and to the shared methods. -/
structure Made (s s' : Store) : Prop where
  frames : s'.frames = s.frames
  objects_size : s.objects.size ≤ s'.objects.size
  old : ∀ a, a < s.objects.size → s'.object a = s.object a
  new : ∀ a, s.objects.size ≤ a → ∀ e ∈ (s'.object a).properties.entries,
    e.2.Known fun b => s.objects.size ≤ b ∨ b ∈ sharedAddresses

theorem Made.refl (s : Store) : s.Made s where
  frames := rfl
  objects_size := Nat.le_refl _
  old _ _ := rfl
  new a ha e he := by
    rw [s.object_of_size_le ha] at he
    cases he

theorem Made.trans (h₁ : s.Made s₁) (h₂ : s₁.Made s₂) : s.Made s₂ where
  frames := h₂.frames.trans h₁.frames
  objects_size := Nat.le_trans h₁.objects_size h₂.objects_size
  old a ha := (h₂.old a (Nat.lt_of_lt_of_le ha h₁.objects_size)).trans (h₁.old a ha)
  new a ha e he := by
    by_cases ha₁ : a < s₁.objects.size
    · rw [h₂.old a ha₁] at he
      exact h₁.new a ha e he
    · refine (h₂.new a (Nat.le_of_not_lt ha₁) e he).mono fun b hb => ?_
      exact hb.imp_left (Nat.le_trans h₁.objects_size)

theorem Made.extends (h : s.Made s₁) : s.Extends s₁ where
  frames_size := Nat.le_of_eq (congrArg Array.size h.frames).symm
  objects_size := h.objects_size
  frame f _ := by rw [frame, frame, h.frames]
  object := h.old

theorem made_make (s : Store) (shape : Shape) {entries : List (String × Value)}
    (h : ∀ e ∈ entries, e.2.Known (s₁.objects.size ≤ ·)) (hle : s₁.Made s) :
    s₁.Made (s.make shape entries).1 := by
  have hextends := hle.extends.trans (s.extends_make shape entries)
  refine ⟨hle.frames, hextends.objects_size, hextends.object, fun a ha e he => ?_⟩
  rw [object_make] at he
  split at he
  · rcases Table.mem_insertAll he with he | he
    · exact (h e he).mono fun _ => .inl
    · have hshared : ∀ e ∈ baseProperties.entries, e.2.Known (· ∈ sharedAddresses) := by
        simp [baseProperties, Value.Known, sharedAddresses]
      exact (hshared e he).mono fun _ => .inr
  · exact hle.new a ha e he

/-- A conversion made the values, and later stores show them as `shows` says within any depth that
is at least the number of values that it made. -/
structure Yields (s s' : Store) (values : List Value) (shows : Store → Nat → Prop) : Prop where
  made : s.Made s'
  fresh : ∀ v ∈ values, v.Known (s.objects.size ≤ ·)
  shown : ∀ t depth, s'.Extends t → s'.objects.size ≤ s.objects.size + depth → shows t depth

variable {values values' : List Value} {shows shows' : Store → Nat → Prop}

theorem Yields.append (h₁ : s.Yields s₁ values shows) (h₂ : s₁.Yields s₂ values' shows') :
    s.Yields s₂ (values ++ values') fun t depth => shows t depth ∧ shows' t depth where
  made := h₁.made.trans h₂.made
  fresh := by
    refine List.forall_mem_append.2 ⟨h₁.fresh, fun v hv => (h₂.fresh v hv).mono fun a ha => ?_⟩
    exact Nat.le_trans h₁.made.objects_size ha
  shown t depth ht hdepth := by
    have hle₁ := h₁.made.objects_size
    have hle₂ := h₂.made.objects_size
    exact ⟨h₁.shown t depth (h₂.made.extends.trans ht) (by omega),
      h₂.shown t depth ht (by omega)⟩

theorem Yields.imp (h : s.Yields s₁ values shows)
    (himp : ∀ t depth, shows t depth → shows' t depth) : s.Yields s₁ values shows' :=
  ⟨h.made, h.fresh, fun t depth ht hdepth => himp t depth (h.shown t depth ht hdepth)⟩

/-- A value with the values that were made as properties takes one more level. -/
theorem Yields.make (h : s.Yields s₁ values shows) (shape : Shape)
    {entries : List (String × Value)} (hentries : ∀ e ∈ entries, e.2 ∈ values) :
    s.Yields (s₁.make shape entries).1 [.ref s₁.objects.size] fun t depth =>
      t.object s₁.objects.size = ⟨shape, baseProperties.insertAll entries⟩ ∧
        ∃ inner, depth = inner + 1 ∧ shows t inner where
  made := made_make s₁ shape (fun e he => h.fresh _ (hentries e he)) h.made
  fresh := List.forall_mem_singleton.2 h.made.objects_size
  shown t depth ht hdepth := by
    have hle := h.made.objects_size
    have hsize := s₁.objects_size_make shape entries
    refine ⟨?_, depth - 1, by omega, ?_⟩
    · rw [ht.object _ (by omega), object_make, if_pos rfl]
    · exact h.shown t _ ((s₁.extends_make shape entries).trans ht) (by omega)

/-- How a conversion of data ends: it makes what it should, or it meets something that has no value,
or a key that has no text. -/
inductive Converts {α : Type} (base : Store) (d : Datum) (yields : Store → α → Prop) :
    Except Failure (Store × α) → Prop
  | ok {s' : Store} {made : α} : ¬ d.HasUnsupported → d.Keyed base → yields s' made →
      Converts base d yields (.ok (s', made))
  | unconvertible {thing : Unsupported} : d.Part (.unsupported thing) →
      Converts base d yields (.error (.unconvertible (unsupportedType thing)))
  | unkeyed : ¬ d.Keyed base → Converts base d yields (.error (.numeric .digits))

/-- A conversion goes on after that of something in it. -/
theorem Converts.bind {α β : Type} {base : Store} {whole d : Datum} {yields : Store → α → Prop}
    {yields' : Store → β → Prop} {x : Except Failure (Store × α)}
    {f : Store × α → Except Failure (Store × β)} (hx : Converts base d yields x)
    (hunsupported : ∀ thing, d.Part (.unsupported thing) → whole.Part (.unsupported thing))
    (hkeyed : whole.Keyed base → d.Keyed base)
    (hf : ∀ s' made, ¬ d.HasUnsupported → d.Keyed base → yields s' made →
      Converts base whole yields' (f (s', made))) : Converts base whole yields' (x >>= f) := by
  cases hx with
  | ok hnone hkeys hmade => exact hf _ _ hnone hkeys hmade
  | unconvertible hpart => exact .unconvertible (hunsupported _ hpart)
  | unkeyed hkeys => exact .unkeyed fun h => hkeys (hkeyed h)

section

variable {base : Store}

/-- A conversion of data that makes a value showing it as a script can have it. -/
def Settles (base : Store) (d : Datum) : Prop := ∀ s : Store, Converts base d
  (fun s' v => s.Yields s' [v] fun t depth => t.showWithin depth v = some (d.settled base))
  (s.ofDatum d)

theorem converts_ofItems {items : List Datum} (h : ∀ d ∈ items, Settles base d) :
    ∀ s : Store, Converts base (.list items)
      (fun s' values => s.Yields s' values fun t depth =>
        List.Forall₂ (fun v d => t.showWithin depth v = some d) values
          (Datum.settledItems base items))
      (s.ofItems items) := by
  induction items with
  | nil =>
    intro s
    rw [ofItems]
    refine .ok (Datum.not_hasUnsupported_of_items_eq_nil ?_ rfl) (Datum.keyed_of_items_eq_nil rfl)
      ⟨.refl s, List.forall_mem_nil _, fun _ _ _ _ => .nil⟩
    rintro _ ⟨⟩
  | cons d ds ih =>
    intro s
    obtain ⟨hd, hds⟩ := List.forall_mem_cons.1 h
    rw [ofItems]
    refine (hd s).bind (fun _ hpart => Datum.part_unsupported_list_cons.2 (.inl hpart))
      (fun hkeys => (Datum.keyed_list_cons.1 hkeys).1) fun s₁ v hnone hkeys hv => ?_
    refine (ih hds s₁).bind (fun _ hpart => Datum.part_unsupported_list_cons.2 (.inr hpart))
      (fun hkeys => (Datum.keyed_list_cons.1 hkeys).2) fun s₂ vs hnone' hkeys' hvs => ?_
    refine .ok ?_ (Datum.keyed_list_cons.2 ⟨hkeys, hkeys'⟩) ?_
    · rintro ⟨thing, hpart⟩
      exact (Datum.part_unsupported_list_cons.1 hpart).elim (hnone ⟨thing, ·⟩) (hnone' ⟨thing, ·⟩)
    · exact (hv.append hvs).imp fun t depth hboth => .cons hboth.1 hboth.2

theorem converts_ofEntries {entries : List (Datum × Datum)} (hkeys : ∀ e ∈ entries, e.1.Inert)
    (h : ∀ e ∈ entries, Settles base e.2) : ∀ (s : Store) (made : Table Value),
    Converts base (.record entries)
      (fun s' table => ∃ pairs, table = made.insertAll pairs ∧
        s.Yields s' (pairs.map Prod.snd) fun t depth =>
          List.Forall₂ (fun e e' => e'.1 = e.1 ∧ t.showWithin depth e.2 = some e'.2) pairs
            (Datum.settledEntries base entries))
      (s.ofEntries made entries) := by
  induction entries with
  | nil =>
    intro s made
    rw [ofEntries]
    refine .ok (Datum.not_hasUnsupported_of_items_eq_nil ?_ rfl) (Datum.keyed_of_items_eq_nil rfl)
      ⟨[], rfl, .refl s, List.forall_mem_nil _, fun _ _ _ _ => .nil⟩
    rintro _ ⟨⟩
  | cons e rest ih =>
    intro s made
    obtain ⟨key, d⟩ := e
    obtain ⟨hkey, hrestKeys⟩ := List.forall_mem_cons.1 hkeys
    obtain ⟨hd, hrest⟩ := List.forall_mem_cons.1 h
    have htext : key.keyText s = key.keyText base := hkey.keyText_eq base s
    rw [ofEntries, htext]
    cases hname : key.keyText base with
    | error fault =>
      obtain rfl := hkey.failsWith_keyText fault hname
      refine .unkeyed fun hkeyed => ?_
      obtain ⟨⟨name, hok⟩, -⟩ := Datum.keyed_record_cons.1 hkeyed
      rw [hname] at hok
      cases hok
    | ok name =>
      have hkeyName : key.keyName base = name := by rw [Datum.keyName, hname]; rfl
      refine (hd s).bind (fun _ hpart => Datum.part_unsupported_record_cons.2 (.inl hpart))
        (fun hkeyed => (Datum.keyed_record_cons.1 hkeyed).2.1) fun s₁ v hnone hkeyed hv => ?_
      show Converts base _ _ (s₁.ofEntries (made.insert name v) rest)
      rw [← bind_pure (s₁.ofEntries (made.insert name v) rest)]
      refine (ih hrestKeys hrest s₁ _).bind
        (fun _ hpart => Datum.part_unsupported_record_cons.2 (.inr hpart))
        (fun hkeyed => (Datum.keyed_record_cons.1 hkeyed).2.2)
        fun s₂ table hnone' hkeyed' hmade => ?_
      obtain ⟨pairs, rfl, hpairs⟩ := hmade
      refine .ok ?_ (Datum.keyed_record_cons.2 ⟨⟨name, hname⟩, hkeyed, hkeyed'⟩) ?_
      · rintro ⟨thing, hpart⟩
        exact (Datum.part_unsupported_record_cons.1 hpart).elim (hnone ⟨thing, ·⟩)
          (hnone' ⟨thing, ·⟩)
      · refine ⟨(name, v) :: pairs, rfl, (hv.append hpairs).imp fun t depth hboth => ?_⟩
        exact .cons ⟨hkeyName, hboth.1⟩ hboth.2

/-- A list shows its items. -/
theorem Yields.makeList {s s₁ : Store} {values : List Value} {ds : List Datum}
    (h : s.Yields s₁ values fun t depth =>
      List.Forall₂ (fun v d => t.showWithin depth v = some d) values ds) :
    s.Yields (s₁.makeList values).1 [(s₁.makeList values).2] fun t depth =>
      t.showWithin depth (s₁.makeList values).2 = some (.list ds) := by
  have hvalues : ∀ e ∈ indexed values, e.2 ∈ values := fun e he =>
    Object.values_indexed values ▸ List.mem_map_of_mem he
  refine (h.make .list hvalues).imp ?_
  rintro t _ ⟨hobject, inner, rfl, hshows⟩
  have hshown : (t.object s₁.objects.size).shown = indexed values := by
    rw [hobject]
    exact Object.shown_ofElements values
  have hitems : (indexed values).mapM (fun e => t.showWithin inner e.2) = some ds := by
    have hmap := List.mapM_map (m := Option) (l := indexed values) (f := Prod.snd)
      (g := t.showWithin inner)
    rw [Object.values_indexed] at hmap
    exact hmap.symm.trans (mapM_eq_some_iff.2 hshows)
  show t.showWithin (inner + 1) (.ref s₁.objects.size) = some (.list ds)
  rw [showWithin, hshown, hitems, hobject]
  rfl

/-- An object shows the entries that it was given, each name in its first place with its last value,
except for hidden ones. -/
theorem Yields.makeObject {s s₁ : Store} {pairs : List (String × Value)}
    {shown : List (String × Datum)}
    (h : s.Yields s₁ (pairs.map Prod.snd) fun t depth =>
      List.Forall₂ (fun e e' => e'.1 = e.1 ∧ t.showWithin depth e.2 = some e'.2) pairs shown) :
    s.Yields (s₁.make .object (Table.ofList pairs).entries).1 [.ref s₁.objects.size] fun t depth =>
      t.showWithin depth (.ref s₁.objects.size) =
        some (.record (((Table.ofList shown).entries.filter fun e => !isHidden e.1).map
          fun e => (.text e.1, e.2))) := by
  have hpairs : ∀ e ∈ (Table.ofList pairs).entries, e.2 ∈ pairs.map Prod.snd := fun e he =>
    List.mem_map_of_mem ((Table.mem_insertAll he).resolve_right List.not_mem_nil)
  have hkeys : (Table.ofList pairs).keys.Nodup := Table.nodup_keys_insertAll pairs List.nodup_nil
  refine (h.make .object hpairs).imp ?_
  rintro t _ ⟨hobject, inner, rfl, hshows⟩
  have hshown : (t.object s₁.objects.size).shown =
      (Table.ofList pairs).entries.filter fun e => !isHidden e.1 := by
    rw [hobject]
    exact Object.shown_of_nodup .object hkeys
  have hentries : List.Forall₂ (fun e e' => e'.1 = e.1 ∧ t.showWithin inner e.2 = some e'.2)
      ((Table.ofList pairs).entries.filter fun e => !isHidden e.1)
      ((Table.ofList shown).entries.filter fun e => !isHidden e.1) := by
    have htables := Table.forall₂_insertAll (S := fun v d => t.showWithin inner v = some d) hshows
      .empty .empty .nil
    refine List.rel_filter (fun e e' he => ?_) htables
    show (!isHidden e.1) = true ↔ (!isHidden e'.1) = true
    rw [he.1]
  rw [showWithin, hshown, hobject]
  refine Option.map_eq_some_iff.2 ⟨_, mapM_eq_some_iff.2 ?_, rfl⟩
  rw [List.forall₂_map_right_iff]
  refine hentries.imp fun e e' he => ?_
  rw [he.1, he.2]
  rfl

/-- Data that is a value by itself. -/
theorem settles_of_eq {d : Datum} {v : Value} (hof : ∀ s : Store, s.ofDatum d = .ok (s, v))
    (hitems : d.items = []) (hknown : v.Known fun _ => False)
    (hshow : ∀ (t : Store) (depth : Nat), t.showWithin depth v = some (d.settled base)) :
    Settles base d := by
  intro s
  rw [hof s]
  refine .ok (Datum.not_hasUnsupported_of_items_eq_nil ?_ hitems)
    (Datum.keyed_of_items_eq_nil hitems) ⟨.refl s, ?_, fun t depth _ _ => hshow t depth⟩
  · rintro thing rfl
    cases hof s
  · exact List.forall_mem_singleton.2 (hknown.mono fun _ => False.elim)

/-- Data without functions and stored values becomes a value that shows it as a script can have
it. -/
theorem settles (base : Store) {d : Datum} (h : d.Inert) : Settles base d := by
  induction h with
  | list _ ih =>
    intro s
    rw [ofDatum]
    refine (converts_ofItems ih s).bind (fun _ hpart => hpart) (fun hkeyed => hkeyed)
      fun s₁ values hnone hkeyed hvalues => .ok hnone hkeyed ?_
    exact hvalues.makeList
  | @sequence items _ ih =>
    -- the items are those of a list, and so are the parts below the sequence itself
    have hparts : ∀ thing, (Datum.sequence items).Part (.unsupported thing) ↔
        (Datum.list items).Part (.unsupported thing) := by
      intro thing
      rw [Datum.part_iff, Datum.part_iff (d := .list items)]
      simp [Datum.items]
    have hkeys : (Datum.sequence items).Keyed base ↔ (Datum.list items).Keyed base := by
      rw [Datum.keyed_iff, Datum.keyed_iff (d := .list items)]
      simp [Datum.items]
    intro s
    rw [ofDatum]
    refine (converts_ofItems ih s).bind (fun thing => (hparts thing).2) hkeys.1
      fun s₁ values hnone hkeyed hvalues => .ok ?_ (hkeys.2 hkeyed) hvalues.makeList
    rintro ⟨thing, hpart⟩
    exact hnone ⟨thing, (hparts thing).1 hpart⟩
  | record hkeys _ _ ih =>
    intro s
    rw [ofDatum]
    refine (converts_ofEntries hkeys ih s .empty).bind (fun _ hpart => hpart)
      (fun hkeyed => hkeyed) fun s₁ table hnone hkeyed hmade => .ok hnone hkeyed ?_
    obtain ⟨pairs, rfl, hpairs⟩ := hmade
    exact hpairs.makeObject
  | function h => exact absurd h id
  | unsupported thing => exact fun s => .unconvertible (.self _)
  | @value v held hv =>
    cases v with
    | ref a => exact absurd hv id
    | _ => exact settles_of_eq (fun _ => rfl) rfl trivial fun _ depth => by cases depth <;> rfl
  | _ => exact settles_of_eq (fun _ => rfl) rfl trivial fun _ depth => by cases depth <;> rfl

end

end Store

end Guion
