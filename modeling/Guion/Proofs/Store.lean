import Guion.Scope

/-!
# Operations on the store, place by place

What each operation leaves at each frame and at each address, and where looks at the store find
what they give.  A place that does not exist yet reads as an empty one, so opening a frame changes
what no frame reads.

    (s.bindName f name b).frame g = s.frame g          unless g = f          (frame_bindName)
    (s.make shape entries).1.object a = s.object a     unless a is new       (object_make)
    (s.setProperty a key v).object b = s.object b      unless b = a          (object_setProperty)
-/

namespace Guion.Store

variable (s : Store)

/-! ## Frames -/

theorem frame_of_size_le {f : FrameId} (h : s.frames.size ≤ f) : s.frame f = ⟨.empty, []⟩ := by
  rw [frame, Array.getElem?_eq_none h]
  rfl

theorem frame_openFrame (outer : List FrameId) (f : FrameId) :
    (s.openFrame outer).1.frame f = s.frame f := by
  simp only [openFrame, frame, Array.getElem?_push]
  split
  · next h =>
    rw [Array.getElem?_eq_none (Nat.le_of_eq h.symm)]
    rfl
  · rfl

theorem frames_size_openFrame (outer : List FrameId) :
    (s.openFrame outer).1.frames.size = s.frames.size + 1 :=
  Array.size_push _

theorem frame_modify (f g : FrameId) (step : Frame → Frame) :
    ({ s with frames := s.frames.modify f step } : Store).frame g =
      if g = f ∧ f < s.frames.size then step (s.frame f) else s.frame g := by
  simp only [frame, Array.getElem?_modify]
  by_cases h : f = g
  · subst h
    by_cases hf : f < s.frames.size <;> simp [hf]
  · have h' : g ≠ f := fun e => h e.symm
    simp [h, h']

theorem frame_bindName (f g : FrameId) (name : String) (b : Binding) :
    (s.bindName f name b).frame g =
      if g = f ∧ f < s.frames.size then
        { s.frame f with vars := (s.frame f).vars.insert name b }
      else s.frame g :=
  s.frame_modify f g _

theorem frames_size_bindName (f : FrameId) (name : String) (b : Binding) :
    (s.bindName f name b).frames.size = s.frames.size :=
  Array.size_modify

theorem frame_noteGlobal (scope : Scope) (name : String) (f : FrameId) :
    (s.noteGlobal scope name).frame f =
      if f = scope.frame ∧ scope.frame < s.frames.size then
        { s.frame f with globals := (s.frame f).globals ++ [name] }
      else s.frame f := by
  refine (s.frame_modify scope.frame f _).trans (ite_congr rfl (fun h => ?_) fun _ => rfl)
  rw [h.1]

theorem frames_size_noteGlobal (scope : Scope) (name : String) :
    (s.noteGlobal scope name).frames.size = s.frames.size :=
  Array.size_modify

theorem vars_noteGlobal (scope : Scope) (name : String) (f : FrameId) :
    ((s.noteGlobal scope name).frame f).vars = (s.frame f).vars := by
  rw [frame_noteGlobal]
  split <;> rfl

/-! ## Stored values -/

/-- The addresses of the methods that all values share. -/
def sharedAddresses : List Address := [showAddress, typeOfAddress, sourceAddress]

theorem object_of_size_le {a : Address} (h : s.objects.size ≤ a) :
    s.object a = ⟨.object, .empty⟩ := by
  rw [object, Array.getElem?_eq_none h]
  rfl

theorem object_alloc (o : Object) (a : Address) :
    (s.alloc o).1.object a = if a = s.objects.size then o else s.object a := by
  simp only [alloc, object, Array.getElem?_push]
  split <;> simp_all

theorem object_make (shape : Shape) (entries : List (String × Value)) (a : Address) :
    (s.make shape entries).1.object a =
      if a = s.objects.size then ⟨shape, baseProperties.insertAll entries⟩ else s.object a :=
  s.object_alloc _ a

theorem objects_size_make (shape : Shape) (entries : List (String × Value)) :
    (s.make shape entries).1.objects.size = s.objects.size + 1 :=
  Array.size_push _

theorem object_setProperty (a b : Address) (key : String) (v : Value) :
    (s.setProperty a key v).object b =
      if b = a ∧ a < s.objects.size then
        { s.object a with properties := (s.object a).properties.insert key v }
      else s.object b := by
  simp only [setProperty, object, Array.getElem?_modify]
  by_cases h : a = b
  · subst h
    by_cases ha : a < s.objects.size <;> simp [ha]
  · have h' : b ≠ a := fun e => h e.symm
    simp [h, h']

theorem objects_size_setProperty (a : Address) (key : String) (v : Value) :
    (s.setProperty a key v).objects.size = s.objects.size :=
  Array.size_modify

theorem shape_setProperty (a b : Address) (key : String) (v : Value) :
    ((s.setProperty a key v).object b).shape = (s.object b).shape := by
  rw [object_setProperty]
  split
  · next h => rw [h.1]
  · rfl

/-! ## Looks -/

variable {s} {scope : Scope} {name : String}

theorem not_mem_keys_of_mayDeclare (h : s.mayDeclare scope name = .ok ()) :
    name ∉ (s.frame scope.frame).vars.keys := by
  unfold mayDeclare at h
  split at h
  · cases h
  · next hb =>
    rw [binds, Bool.not_eq_true] at hb
    exact (Table.contains_eq_false_iff _ _).1 hb

theorem exists_of_binding {b : Binding} (h : s.binding scope name = .ok b) :
    ∃ f ∈ scope.chain, s.resolve? name scope.chain = some f ∧
      (s.frame f).vars.find? name = some b := by
  unfold binding at h
  split at h
  · next b' hb =>
    cases h
    obtain ⟨f, hf, hb⟩ := Option.bind_eq_some_iff.1 hb
    exact ⟨f, List.mem_of_find?_eq_some hf, hf, hb⟩
  · cases h

/-- A look-up finds a binding in one of the frames. -/
theorem exists_of_lookup {v : Value} (h : s.lookup scope name = .ok v) :
    ∃ f ∈ scope.chain, ∃ b, (s.frame f).vars.find? name = some b ∧ b.value = v := by
  unfold lookup at h
  cases hb : s.binding scope name with
  | error cause =>
    rw [hb] at h
    cases h
  | ok b =>
    rw [hb] at h
    cases h
    obtain ⟨f, hf, -, hb⟩ := exists_of_binding hb
    exact ⟨f, hf, b, hb, rfl⟩

/-- The binding that an assignment replaces is in one of the frames and is not constant. -/
theorem exists_of_assignable {f : FrameId} (h : s.assignable scope name = .ok f) :
    f ∈ scope.chain ∧ ∃ b, (s.frame f).vars.find? name = some b ∧ b.constant = false := by
  unfold assignable isConstant at h
  cases hb : s.binding scope name with
  | error cause =>
    rw [hb] at h
    cases h
  | ok b =>
    obtain ⟨g, hg, hr, hfind⟩ := exists_of_binding hb
    obtain ⟨v, constant⟩ := b
    rw [hb] at h
    cases constant with
    | true => cases h
    | false =>
      have h : s.resolve scope name = .ok f := h
      rw [resolve, hr] at h
      cases h
      exact ⟨hg, _, hfind, rfl⟩

/-- A property is null or one of the entries. -/
theorem getProperty_cases (s : Store) (a : Address) (key : String) :
    s.getProperty a key = .null ∨
      (key, s.getProperty a key) ∈ (s.object a).properties.entries := by
  unfold getProperty Object.get
  cases h : (s.object a).properties.find? key with
  | none => exact .inl rfl
  | some v => exact .inr (Table.mem_of_find? h)

end Guion.Store
