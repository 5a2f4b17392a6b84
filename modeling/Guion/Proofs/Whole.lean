import Guion.Proofs.Safety
import Guion.Proofs.Conversion.Making

/-!
# Numbers that stay whole

Numbers come from literals, from operators, from natives and from data, and division is the only
one of these that makes a number of two integers that is none.  A store is whole if every number in
it is an integer and no function in it divides.  A run is exact if from a whole store it leads to a
whole store, ends with whole values only, and does not fail because a number is out of range.

    symbol ≠ "/" → l.Whole → r.Whole → Gives Value.Whole (apply s symbol l r)         (gives_apply)
    s.Whole → v.Whole → s.showWithin depth v = some d → d.Whole                  (whole_showWithin)
    native.isOwn = true → Exact fits Value.Whole (native.call host self args)        (exact_native)
-/

namespace Guion

/-! ## Values and data -/

/-- No number that is not an integer. -/
def Value.Whole (v : Value) : Prop := ∀ x, v ≠ .num (.float x)

namespace Value

theorem whole_null : null.Whole := by rintro x ⟨⟩

theorem whole_bool (b : Bool) : (bool b).Whole := by rintro x ⟨⟩

theorem whole_str (t : String) : (str t).Whole := by rintro x ⟨⟩

theorem whole_ref (a : Address) : (ref a).Whole := by rintro x ⟨⟩

theorem whole_int (i : Int) : (num (.int i)).Whole := by rintro x ⟨⟩

theorem Whole.exists_int {n : Num} (h : (num n).Whole) : ∃ i, n = .int i := by
  cases n with
  | int i => exact ⟨i, rfl⟩
  | float x => exact absurd rfl (h x)

end Value

/-- Data as a script has it, in which every number is an integer. -/
inductive Datum.Whole : Datum → Prop
  | null : Whole .null
  | bool (b : Bool) : Whole (.bool b)
  | int (i : Int) : Whole (.num (.int i))
  | text (t : String) : Whole (.text t)
  | list {items : List Datum} : (∀ d ∈ items, Whole d) → Whole (.list items)
  | record {entries : List (Datum × Datum)} : (∀ e ∈ entries, ∃ key, e.1 = .text key) →
      (∀ e ∈ entries, Whole e.2) → Whole (.record entries)

/-! ## Stores -/

namespace Node

mutual

/-- The symbols of the operators in a tree. -/
def symbolsIn : Node → List String
  | .program body | .otherwise body | .function _ _ body => symbolsInList body
  | .declare _ _ value | .giveBack value => symbolsIn value
  | .when condition body alternative =>
    symbolsIn condition ++ (symbolsInList body ++ symbolsInOption alternative)
  | .assign a b | .member a b _ => symbolsIn a ++ symbolsIn b
  | .binary a b symbol => symbol :: (symbolsIn a ++ symbolsIn b)
  | .call callee args => symbolsIn callee ++ symbolsInList args
  | .property _ value => symbolsInOption value
  | .object ns | .list ns => symbolsInList ns
  | .ident _ | .propertyName _ | .number _ | .string _ | .foreign _ => []

def symbolsInList : List Node → List String
  | [] => []
  | node :: rest => symbolsIn node ++ symbolsInList rest

def symbolsInOption : Option Node → List String
  | none => []
  | some node => symbolsIn node

end

/-- Statements that were read and in which nothing is divided. -/
def Undivided (body : List Node) : Prop :=
  (∀ n ∈ body, Fits .statement n) ∧ "/" ∉ symbolsInList body

end Node

/-- A function that does not divide, or a native of the language. -/
def Shape.Whole : Shape → Prop
  | .function c => Node.Undivided c.body ∧ ∀ native ∈ c.native, native.isOwn = true
  | _ => True

theorem Node.undivided_nil : Undivided [] := ⟨List.forall_mem_nil _, List.not_mem_nil⟩

theorem Shape.whole_native {native : Native} (h : native.isOwn = true) :
    (Shape.function (Store.nativeClosure native)).Whole :=
  ⟨Node.undivided_nil, fun _ he => Option.some.inj he ▸ h⟩

namespace Store

/-- Every number in a binding or in a property is an integer, and no function divides. -/
structure Whole (s : Store) : Prop where
  bindings : ∀ f, ∀ e ∈ (s.frame f).vars.entries, e.2.value.Whole
  properties : ∀ a, ∀ e ∈ (s.object a).properties.entries, e.2.Whole
  shapes : ∀ a, (s.object a).shape.Whole

theorem whole_baseProperties : ∀ e ∈ baseProperties.entries, e.2.Whole :=
  List.forall_mem_cons.2 ⟨Value.whole_ref _, List.forall_mem_singleton.2 (Value.whole_ref _)⟩

namespace Whole

variable {s : Store}

theorem getProperty (h : s.Whole) (a : Address) (key : String) : (s.getProperty a key).Whole := by
  rcases s.getProperty_cases a key with hnull | hmem
  · rw [hnull]
    exact Value.whole_null
  · exact h.properties a _ hmem

theorem openFrame (h : s.Whole) (outer : List FrameId) : (s.openFrame outer).1.Whole where
  bindings f := by
    rw [frame_openFrame]
    exact h.bindings f
  properties := h.properties
  shapes := h.shapes

theorem bindName (h : s.Whole) (f : FrameId) (name : String) {b : Binding}
    (hb : b.value.Whole) : (s.bindName f name b).Whole where
  bindings g e he := by
    rw [frame_bindName] at he
    split at he
    · rcases Table.mem_insert he with rfl | he
      · exact hb
      · exact h.bindings f e he
    · exact h.bindings g e he
  properties := h.properties
  shapes := h.shapes

theorem noteGlobal (h : s.Whole) (scope : Scope) (name : String) :
    (s.noteGlobal scope name).Whole where
  bindings f := by
    rw [vars_noteGlobal]
    exact h.bindings f
  properties := h.properties
  shapes := h.shapes

theorem make (h : s.Whole) (shape : Shape) (hshape : shape.Whole)
    {entries : List (String × Value)} (hentries : ∀ e ∈ entries, e.2.Whole) :
    (s.make shape entries).1.Whole where
  bindings := h.bindings
  properties a e he := by
    rw [object_make] at he
    split at he
    · exact (Table.mem_insertAll he).elim (hentries e) (whole_baseProperties e)
    · exact h.properties a e he
  shapes a := by
    rw [object_make]
    split
    · exact hshape
    · exact h.shapes a

theorem makeList (h : s.Whole) {values : List Value} (hvalues : ∀ v ∈ values, v.Whole) :
    (s.makeList values).1.Whole := by
  refine h.make .list trivial fun e he => hvalues e.2 ?_
  exact Object.values_indexed values ▸ List.mem_map_of_mem he

theorem makeFunction (h : s.Whole) {c : Closure} (hc : (Shape.function c).Whole) (name : String) :
    (s.makeFunction c [("name", .str name)] false).1.Whole := by
  refine h.make _ hc (List.forall_mem_append.2 ⟨?_, ?_⟩)
  · exact List.forall_mem_cons.2
      ⟨Value.whole_ref _, List.forall_mem_singleton.2 (Value.whole_str _)⟩
  · exact List.forall_mem_singleton.2 (Value.whole_str name)

theorem setProperty (h : s.Whole) (a : Address) (key : String) {v : Value} (hv : v.Whole) :
    (s.setProperty a key v).Whole where
  bindings := h.bindings
  properties b e he := by
    rw [object_setProperty] at he
    split at he
    · rcases Table.mem_insert he with rfl | he
      · exact hv
      · exact h.properties a e he
    · exact h.properties b e he
  shapes b := by
    rw [shape_setProperty]
    exact h.shapes b

end Whole

theorem whole_initial : initial.Whole where
  bindings f e he := by
    rw [initial.frame_of_size_le (Nat.zero_le f)] at he
    cases he
  properties a e he := by
    have hmethod (native : Native) (name : String) :
        ∀ e ∈ (sharedMethod native name).properties.entries, e.2.Whole := by
      intro e he
      rcases Table.mem_insert he with rfl | he
      · exact Value.whole_str name
      · exact whole_baseProperties e he
    match a with
    | 0 => exact hmethod .showSelf _ e he
    | 1 => exact hmethod .typeOfSelf _ e he
    | 2 => exact hmethod .sourceOfSelf _ e he
    | a + 3 => cases he
  shapes a := by
    match a with
    | 0 => exact @Shape.whole_native .showSelf rfl
    | 1 => exact @Shape.whole_native .typeOfSelf rfl
    | 2 => exact @Shape.whole_native .sourceOfSelf rfl
    | _ + 3 => trivial

end Store

/-! ## Looks -/

/-- Every cause but the two of the host for which a number is too large: one that is out of range,
and a recursion limit that cannot be set. -/
def Failure.InRange : Failure → Prop
  | .numeric .outOfRange | .noRoom => False
  | _ => True

/-- What gives something with the property, or else fails, but not because a number is too large. -/
def Gives {α : Type} (P : α → Prop) (x : Except Failure α) : Prop :=
  (∀ a, x = .ok a → P a) ∧ FailsWith Failure.InRange x

section

variable {α β : Type} {P : α → Prop} {Q : β → Prop}

theorem gives_ok {a : α} (h : P a) : Gives P (.ok a) := by
  refine ⟨?_, failsWith_ok a⟩
  rintro _ ⟨⟩
  exact h

theorem gives_error {cause : Failure} (h : cause.InRange) : Gives P (.error cause) :=
  ⟨by rintro a ⟨⟩, failsWith_error h⟩

theorem gives_bind {x : Except Failure α} {f : α → Except Failure β} (hx : Gives P x)
    (hf : ∀ a, P a → Gives Q (f a)) : Gives Q (x >>= f) := by
  cases x with
  | error cause => exact gives_error (hx.2 cause rfl)
  | ok a => exact hf a (hx.1 a rfl)

theorem gives_map {x : Except Failure α} (hx : Gives P x) {f : α → β} (hf : ∀ a, P a → Q (f a)) :
    Gives Q (x.map f) := by
  cases x with
  | error cause => exact gives_error (hx.2 cause rfl)
  | ok a => exact gives_ok (hf a (hx.1 a rfl))

theorem gives_true {x : Except Failure α} (h : FailsWith Failure.InRange x) :
    Gives (fun _ => True) x := ⟨fun _ _ => trivial, h⟩

/-- The text of a number has no limit but that of its digits. -/
theorem gives_digits {x : Except Num.Fault α} (h : FailsWith (· = .digits) x) :
    Gives (fun _ => True) (x.mapError .numeric) := by
  cases x with
  | error fault =>
    obtain rfl := h fault rfl
    exact gives_error trivial
  | ok a => exact gives_ok trivial

theorem gives_mapM {f : α → Except Failure β} {xs : List α} (h : ∀ a ∈ xs, Gives Q (f a)) :
    Gives (fun ys => ∀ y ∈ ys, Q y) (xs.mapM f) := by
  induction xs with
  | nil => exact gives_ok (List.forall_mem_nil _)
  | cons x xs ih =>
    obtain ⟨hx, hxs⟩ := List.forall_mem_cons.1 h
    rw [List.mapM_cons]
    exact gives_bind hx fun y hy => gives_bind (ih hxs) fun ys hys =>
      gives_ok (List.forall_mem_cons.2 ⟨hy, hys⟩)

end

/-! ## What is shown -/

theorem exists_of_mem_mapM {α β : Type} {f : α → Option β} {xs : List α} {ys : List β}
    (h : xs.mapM f = some ys) {y : β} (hy : y ∈ ys) : ∃ x ∈ xs, f x = some y :=
  exists_of_mem_forall₂ (mapM_eq_some_iff.1 h).flip hy

namespace Store

variable {s : Store} (hs : s.Whole)
include hs

theorem whole_showWithin : ∀ (depth : Nat) {v : Value} {d : Datum}, v.Whole →
    s.showWithin depth v = some d → d.Whole := by
  -- a value by itself is shown as it is, whatever the depth
  have plain {depth : Nat} {v : Value} {d : Datum} (hv : v.Whole) (href : ∀ a, v ≠ .ref a)
      (h : s.showWithin depth v = some d) : d.Whole := by
    cases v with
    | num n =>
      obtain ⟨i, rfl⟩ := hv.exists_int
      cases depth <;> cases h <;> exact .int i
    | ref a => exact absurd rfl (href a)
    | _ => cases depth <;> cases h <;> constructor
  intro depth
  induction depth with
  | zero =>
    intro v d hv h
    cases v with
    | ref a =>
      simp only [showWithin] at h
      split at h <;> cases h
      exact .text _
    | _ => exact plain hv (by rintro a ⟨⟩) h
  | succ depth ih =>
    intro v d hv h
    cases v with
    | ref a =>
      have hshown : ∀ e ∈ (s.object a).shown, e.2.Whole := fun e he =>
        hs.properties a e (List.mem_of_mem_filter he)
      simp only [showWithin] at h
      split at h
      · cases h
        exact .text _
      · obtain ⟨items, hitems, rfl⟩ := Option.map_eq_some_iff.1 h
        refine .list fun d hd => ?_
        obtain ⟨e, he, hshow⟩ := exists_of_mem_mapM hitems hd
        exact ih (hshown e he) hshow
      all_goals
        obtain ⟨entries, hentries, rfl⟩ := Option.map_eq_some_iff.1 h
        have hentry : ∀ p ∈ entries, ∃ e ∈ (s.object a).shown, ∃ d,
            s.showWithin depth e.2 = some d ∧ (.text e.1, d) = p := by
          intro p hp
          obtain ⟨e, he, hshow⟩ := exists_of_mem_mapM hentries hp
          exact ⟨e, he, Option.map_eq_some_iff.1 hshow⟩
        refine .record (fun p hp => ?_) fun p hp => ?_
        · obtain ⟨e, -, d, -, rfl⟩ := hentry p hp
          exact ⟨e.1, rfl⟩
        · obtain ⟨e, he, d, hshow, rfl⟩ := hentry p hp
          exact ih (hshown e he) hshow
    | _ => exact plain hv (by rintro a ⟨⟩) h

theorem gives_showOrFail {v : Value} (hv : v.Whole) : Gives Datum.Whole (s.showOrFail v) := by
  unfold showOrFail
  split
  · next d hd => exact gives_ok (whole_showWithin hs _ hv hd)
  · exact gives_error trivial

end Store

/-! ## Text of data -/

namespace Datum

variable {s : Store}

theorem failsWith_listTexts {items : List Datum}
    (h : ∀ d ∈ items, FailsWith (· = .digits) (d.nestedText s)) :
    FailsWith (· = .digits) (listTexts s items) := by
  induction items with
  | nil => exact failsWith_ok _
  | cons d ds ih =>
    obtain ⟨hd, hds⟩ := List.forall_mem_cons.1 h
    rw [listTexts]
    exact failsWith_bind hd fun _ => failsWith_bind (ih hds) fun _ => failsWith_ok _

theorem failsWith_entryTexts {entries : List (Datum × Datum)}
    (hkeys : ∀ e ∈ entries, ∃ key, e.1 = .text key)
    (h : ∀ e ∈ entries, FailsWith (· = .digits) (e.2.nestedText s)) :
    FailsWith (· = .digits) (entryTexts s entries) := by
  induction entries with
  | nil => exact failsWith_ok _
  | cons e rest ih =>
    obtain ⟨⟨key, hkey⟩, hkeys⟩ := List.forall_mem_cons.1 hkeys
    obtain ⟨hd, h⟩ := List.forall_mem_cons.1 h
    rw [entryTexts, hkey]
    exact failsWith_bind (failsWith_ok _) fun _ => failsWith_bind hd fun _ =>
      failsWith_bind (ih hkeys h) fun _ => failsWith_ok _

/-- Only the digit limit keeps data from having a text. -/
theorem Whole.failsWith_nestedText {d : Datum} (h : d.Whole) :
    FailsWith (· = .digits) (d.nestedText s) := by
  induction h with
  | int i => exact failsWith_text (.int i)
  | list _ ih =>
    rw [nestedText]
    exact failsWith_bind (failsWith_listTexts ih) fun _ => failsWith_ok _
  | record hkeys _ ih =>
    rw [nestedText]
    exact failsWith_bind (failsWith_entryTexts hkeys ih) fun _ => failsWith_ok _
  | _ => exact failsWith_ok _

theorem Whole.failsWith_topText {d : Datum} (h : d.Whole) :
    FailsWith (· = .digits) (d.topText s) := by
  have hnested := h.failsWith_nestedText (s := s)
  cases d with
  | text t => exact failsWith_ok _
  | _ => exact hnested

end Datum

/-! ## Operators -/

theorem Store.gives_display {s : Store} (hs : s.Whole) {v : Value} (hv : v.Whole) :
    Gives (fun _ => True) (s.display v) := by
  unfold display
  split
  · exact gives_error trivial
  · next d hd => exact gives_digits (whole_showWithin hs _ hv hd).failsWith_topText

theorem gives_key (s : Store) {v : Value} (hv : v.Whole) : Gives (fun _ => True) (v.key s) := by
  cases v with
  | str t => exact gives_ok trivial
  | num n =>
    obtain ⟨i, rfl⟩ := hv.exists_int
    have hdigits : FailsWith (· = .digits) (Num.keyText (.int i)) := Datum.failsWith_text (.int i)
    rw [Value.key]
    exact gives_digits hdigits
  | _ => exact gives_error trivial

namespace Operator

variable {s : Store} {l r : Value}

/-- An operation on integers that gives an integer, if it does not refuse a zero. -/
theorem gives_onNumbers (symbol : String) {op : Num → Num → Except Num.Fault Num}
    (hop : ∀ i j : Int, (∃ k : Int, op (.int i) (.int j) = .ok (.int k)) ∨
      op (.int i) (.int j) = .error .moduloByZero) (hl : l.Whole) (hr : r.Whole) :
    Gives Value.Whole (onNumbers s symbol op l r) := by
  have hrefused {m n : String} : Gives Value.Whole (.error (Failure.notNumbers symbol m n)) :=
    gives_error trivial
  cases l with
  | num m =>
    cases r with
    | num n =>
      obtain ⟨i, rfl⟩ := hl.exists_int
      obtain ⟨j, rfl⟩ := hr.exists_int
      rw [onNumbers]
      rcases hop i j with ⟨k, hk⟩ | hzero
      · rw [hk]
        exact gives_ok (Value.whole_int k)
      · rw [hzero]
        exact gives_error trivial
    | _ => exact hrefused
  | _ => cases r <;> exact hrefused

theorem gives_plus (hs : s.Whole) (hl : l.Whole) (hr : r.Whole) :
    Gives Value.Whole (plus s l r) := by
  have htexts : Gives Value.Whole (joinTexts s l r) :=
    gives_bind (Store.gives_display hs hl) fun _ _ =>
      gives_bind (Store.gives_display hs hr) fun _ _ => gives_ok (Value.whole_str _)
  unfold plus
  split
  · exact htexts
  · exact htexts
  · exact gives_onNumbers "+" (fun i j => .inl ⟨i + j, rfl⟩) hl hr

/-- Of two integers a modulo that is not refused is one. -/
theorem modulo_int (i j : Int) : (∃ k : Int, Num.modulo (.int i) (.int j) = .ok (.int k)) ∨
    Num.modulo (.int i) (.int j) = .error .moduloByZero := by
  rw [Num.modulo]
  split
  · exact .inr rfl
  · exact .inl ⟨i.fmod j, rfl⟩

/-- Every operator but division gives whole values for whole ones. -/
theorem gives_apply {symbol : String} (hdivision : symbol ≠ "/") (hs : s.Whole) (hl : l.Whole)
    (hr : r.Whole) : Gives Value.Whole (apply s symbol l r) := by
  unfold apply
  split
  · exact gives_plus hs hl hr
  · split
    · next op hop =>
      unfold arithmetic? at hop
      rw [if_neg hdivision] at hop
      split at hop
      · cases hop
        exact gives_onNumbers symbol (fun i j => .inl ⟨i - j, rfl⟩) hl hr
      · split at hop
        · cases hop
          exact gives_onNumbers symbol (fun i j => .inl ⟨i * j, rfl⟩) hl hr
        · split at hop
          · cases hop
            exact gives_onNumbers symbol modulo_int hl hr
          · cases hop
    · split
      · exact gives_ok (Value.whole_bool _)
      · split
        · exact gives_ok (Value.whole_bool _)
        · exact gives_error trivial

end Operator

/-! ## Exact runs -/

/-- How an exact run ends: with a result that has the property, with a whole value on its way to the
enclosing call, or in a failure that no number out of range has caused.  That there is no room for
the calls of a script is possible only if the recursion limit they need does not fit. -/
inductive EndsExactly (fits : Prop) {α : Type} (P : α → Prop) : Except Exit α → Prop
  | value {a : α} : P a → EndsExactly fits P (.ok a)
  | returned {v : Value} : v.Whole → EndsExactly fits P (.error (.returned v))
  | failed {cause : Failure} : cause.InRange → EndsExactly fits P (.error (.failed cause))
  | noRoom : ¬ fits → EndsExactly fits P (.error (.failed .noRoom))
  | exhausted : EndsExactly fits P (.error .exhausted)

/-- From a whole store the run ends exactly and leaves a whole store. -/
def Exact (fits : Prop) {α : Type} (P : α → Prop) (m : Run α) : Prop :=
  ∀ w : World, w.store.Whole → EndsExactly fits P (m w).1 ∧ (m w).2.store.Whole

section

variable {fits : Prop} {α β : Type} {P : α → Prop} {Q : β → Prop}

theorem EndsExactly.of_error {e : Exit} (h : EndsExactly fits P (.error e)) :
    EndsExactly fits Q (.error e) := by
  cases h with
  | returned h => exact .returned h
  | failed h => exact .failed h
  | noRoom h => exact .noRoom h
  | exhausted => exact .exhausted

theorem exact_pure {a : α} (h : P a) : Exact fits P (pure a) := fun _ hw => ⟨.value h, hw⟩

theorem exact_bind {m : Run α} {f : α → Run β} (hm : Exact fits P m)
    (hf : ∀ a, P a → Exact fits Q (f a)) : Exact fits Q (m >>= f) := by
  intro w hw
  obtain ⟨he, hs⟩ := hm w hw
  rw [Run.bind_apply]
  rcases hmw : m w with ⟨e | a, w'⟩
  · rw [hmw] at he hs
    exact ⟨he.of_error, hs⟩
  · rw [hmw] at he hs
    cases he with
    | value ha => exact hf a ha w' hs

theorem exact_fail {cause : Failure} (h : cause.InRange) : Exact fits P (Run.fail cause : Run α) :=
  fun _ hw => ⟨.failed h, hw⟩

theorem exact_note (e : Event) : Exact fits (fun _ => True) (Run.note e) :=
  fun _ hw => ⟨.value trivial, hw⟩

/-- A run that depends on the store in which it starts. -/
theorem exact_ofStore {f : Store → Run α} (h : ∀ s : Store, s.Whole → Exact fits P (f s)) :
    Exact fits P (Run.store >>= f) := fun w hw => h w.store hw w hw

theorem exact_inspect {look : Store → Except Failure α}
    (h : ∀ s : Store, s.Whole → Gives P (look s)) : Exact fits P (Run.inspect look) := by
  intro w hw
  obtain ⟨hgives, hfails⟩ := h w.store hw
  unfold Run.inspect
  cases hl : look w.store with
  | error cause => exact ⟨.failed (hfails cause hl), hw⟩
  | ok a => exact ⟨.value (hgives a hl), hw⟩

theorem exact_create {step : Store → Store × α}
    (h : ∀ s : Store, s.Whole → (step s).1.Whole ∧ P (step s).2) : Exact fits P (Run.create step) :=
  fun w hw => ⟨.value (h w.store hw).2, (h w.store hw).1⟩

theorem exact_update {step : Store → Store} (h : ∀ s : Store, s.Whole → (step s).Whole) :
    Exact fits (fun _ => True) (Run.update step) := fun w hw => ⟨.value trivial, h w.store hw⟩

theorem exact_attempt {step : Store → Except Failure (Store × α)}
    (h : ∀ s : Store, s.Whole → Gives (fun p => p.1.Whole ∧ P p.2) (step s)) :
    Exact fits P (Run.attempt step) := by
  intro w hw
  obtain ⟨hgives, hfails⟩ := h w.store hw
  unfold Run.attempt
  split
  · next s a hstep => exact ⟨.value (hgives _ hstep).2, (hgives _ hstep).1⟩
  · next cause hstep => exact ⟨.failed (hfails cause hstep), hw⟩

end

/-! ## Natives -/

namespace Store

/-- Whole data in a whole store make a whole value. -/
def MakesWhole (d : Datum) : Prop := ∀ s : Store, s.Whole →
  Gives (fun p : Store × Value => p.1.Whole ∧ p.2.Whole) (s.ofDatum d)

theorem gives_ofItems {items : List Datum} (h : ∀ d ∈ items, MakesWhole d) :
    ∀ s : Store, s.Whole →
      Gives (fun p : Store × List Value => p.1.Whole ∧ ∀ v ∈ p.2, v.Whole) (s.ofItems items) := by
  induction items with
  | nil => exact fun s hs => gives_ok ⟨hs, List.forall_mem_nil _⟩
  | cons d ds ih =>
    obtain ⟨hd, hds⟩ := List.forall_mem_cons.1 h
    intro s hs
    rw [ofItems]
    exact gives_bind (hd s hs) fun p hp => gives_bind (ih hds p.1 hp.1) fun q hq =>
      gives_ok ⟨hq.1, List.forall_mem_cons.2 ⟨hp.2, hq.2⟩⟩

theorem gives_ofEntries {entries : List (Datum × Datum)}
    (hkeys : ∀ e ∈ entries, ∃ key, e.1 = .text key) (h : ∀ e ∈ entries, MakesWhole e.2) :
    ∀ (s : Store) (made : Table Value), s.Whole → (∀ e ∈ made.entries, e.2.Whole) →
      Gives (fun p : Store × Table Value => p.1.Whole ∧ ∀ e ∈ p.2.entries, e.2.Whole)
        (s.ofEntries made entries) := by
  induction entries with
  | nil => exact fun s made hs hmade => gives_ok ⟨hs, hmade⟩
  | cons e rest ih =>
    obtain ⟨key, d⟩ := e
    obtain ⟨⟨name, rfl⟩, hrestKeys⟩ := List.forall_mem_cons.1 hkeys
    obtain ⟨hd, hrest⟩ := List.forall_mem_cons.1 h
    intro s made hs hmade
    rw [ofEntries]
    refine gives_bind (P := fun _ => True) (gives_ok trivial) fun _ _ =>
      gives_bind (hd s hs) fun p hp => ?_
    refine ih hrestKeys hrest p.1 _ hp.1 fun e he => ?_
    rcases Table.mem_insert he with rfl | he
    · exact hp.2
    · exact hmade e he

theorem gives_ofDatum {d : Datum} (h : d.Whole) : MakesWhole d := by
  induction h with
  | null => exact fun s hs => gives_ok ⟨hs, Value.whole_null⟩
  | bool b => exact fun s hs => gives_ok ⟨hs, Value.whole_bool b⟩
  | int i => exact fun s hs => gives_ok ⟨hs, Value.whole_int i⟩
  | text t => exact fun s hs => gives_ok ⟨hs, Value.whole_str t⟩
  | list _ ih =>
    intro s hs
    rw [ofDatum]
    exact gives_bind (gives_ofItems ih s hs) fun p hp =>
      gives_ok ⟨hp.1.makeList hp.2, Value.whole_ref _⟩
  | record hkeys _ ih =>
    intro s hs
    rw [ofDatum]
    exact gives_bind (gives_ofEntries hkeys ih s .empty hs (List.forall_mem_nil _)) fun p hp =>
      gives_ok ⟨hp.1.make .object trivial hp.2, Value.whole_ref _⟩

end Store

section

variable {fits : Prop}

theorem exact_printArguments {args : List Value} (hargs : ∀ v ∈ args, v.Whole) :
    Exact fits (fun _ => True) (Native.printArguments args) := by
  have htexts {s : Store} (hs : s.Whole) :
      Gives (fun texts => ∀ text ∈ texts, True) (args.mapM s.display) :=
    gives_mapM fun v hv => Store.gives_display hs (hargs v hv)
  refine exact_bind (exact_inspect fun _ hs => htexts hs) fun texts _ => ?_
  exact fun w hw => ⟨.value trivial, hw⟩

/-- The natives of the language give back whole data: copies of what is whole, texts and counts. -/
theorem exact_result (host : Host) {native : Native} (h : native.isOwn = true) {self : Value}
    (hself : self.Whole) {args : List Value} (hargs : ∀ v ∈ args, v.Whole) :
    Exact fits Datum.Whole (native.result host self args) := by
  have hfirst : (args.headD .null).Whole := by
    cases args with
    | nil => exact Value.whole_null
    | cons v args => exact hargs v List.mem_cons_self
  cases native with
  | showSelf => exact exact_inspect fun s hs => Store.gives_showOrFail hs hself
  | typeOfSelf => exact exact_inspect fun s _ => gives_ok (.text _)
  | sourceOfSelf =>
    refine exact_inspect fun s _ => gives_map (gives_true ?_) fun text _ => .text text
    exact s.failsWith_sourceOf self (fun _ => trivial) fun _ => trivial
  | printLine =>
    exact exact_bind (exact_printArguments hargs) fun _ _ => exact_pure .null
  | typeName => exact exact_inspect fun s _ => gives_ok (.text _)
  | length =>
    cases args with
    | nil => exact exact_fail trivial
    | cons v args =>
      have hlength (s : Store) : Gives (fun _ => True) (do let n ← s.lengthOf v; pure (n : Int)) :=
        gives_bind (gives_true (s.failsWith_lengthOf v fun _ => trivial)) fun _ _ =>
          gives_ok trivial
      exact exact_inspect fun s _ => gives_map (hlength s) fun n _ => .int n
  | text =>
    cases args with
    | nil => exact exact_pure (.text "")
    | cons v args =>
      exact exact_inspect fun s hs => gives_map (Store.gives_display hs hfirst) fun text _ =>
        .text text
  | foreign name => cases h
  | dataFunction name => cases h

theorem exact_native (host : Host) {native : Native} (h : native.isOwn = true) {self : Value}
    (hself : self.Whole) {args : List Value} (hargs : ∀ v ∈ args, v.Whole) :
    Exact fits Value.Whole (native.call host self args) := by
  refine exact_bind (exact_result host h hself hargs) fun d hd => ?_
  exact exact_attempt fun s hs => Store.gives_ofDatum hd s hs

end

end Guion
