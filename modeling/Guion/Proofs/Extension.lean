import Guion.Proofs.Store

/-!
# Stores that only have more

A store extends another if every frame and every stored value of that one is in it as it was.  New
frames and new values extend a store, and so do writes to what the extension has added.

    s.Extends t → s.objects.size ≤ a → s.Extends (t.setProperty a key v)      (Extends.setProperty)
-/

namespace Guion.Store

/-- Nothing that was there has changed. -/
structure Extends (s t : Store) : Prop where
  frames_size : s.frames.size ≤ t.frames.size
  objects_size : s.objects.size ≤ t.objects.size
  frame : ∀ f, f < s.frames.size → t.frame f = s.frame f
  object : ∀ a, a < s.objects.size → t.object a = s.object a

variable {s t u : Store}

theorem Extends.refl (s : Store) : s.Extends s :=
  ⟨Nat.le_refl _, Nat.le_refl _, fun _ _ => rfl, fun _ _ => rfl⟩

theorem Extends.trans (hst : s.Extends t) (htu : t.Extends u) : s.Extends u where
  frames_size := Nat.le_trans hst.frames_size htu.frames_size
  objects_size := Nat.le_trans hst.objects_size htu.objects_size
  frame f hf := (htu.frame f (Nat.lt_of_lt_of_le hf hst.frames_size)).trans (hst.frame f hf)
  object a ha := (htu.object a (Nat.lt_of_lt_of_le ha hst.objects_size)).trans (hst.object a ha)

theorem extends_openFrame (s : Store) (outer : List FrameId) : s.Extends (s.openFrame outer).1 where
  frames_size := by
    rw [frames_size_openFrame]
    exact Nat.le_succ _
  objects_size := Nat.le_refl _
  frame f _ := s.frame_openFrame outer f
  object _ _ := rfl

theorem extends_make (s : Store) (shape : Shape) (entries : List (String × Value)) :
    s.Extends (s.make shape entries).1 where
  frames_size := Nat.le_refl _
  objects_size := by
    rw [objects_size_make]
    exact Nat.le_succ _
  frame _ _ := rfl
  object a ha := (s.object_make shape entries a).trans (if_neg (Nat.ne_of_lt ha))

/-- A binding in a frame that was added changes nothing that was there. -/
theorem Extends.bindName (h : s.Extends t) {f : FrameId} (hf : s.frames.size ≤ f) (name : String)
    (b : Binding) : s.Extends (t.bindName f name b) where
  frames_size := Nat.le_trans h.frames_size (Nat.le_of_eq (t.frames_size_bindName f name b).symm)
  objects_size := h.objects_size
  frame g hg := by
    have hne : g ≠ f := Nat.ne_of_lt (Nat.lt_of_lt_of_le hg hf)
    rw [frame_bindName, if_neg fun e => hne e.1]
    exact h.frame g hg
  object := h.object

/-- A property of a value that was added changes nothing that was there. -/
theorem Extends.setProperty (h : s.Extends t) {a : Address} (ha : s.objects.size ≤ a)
    (key : String) (v : Value) : s.Extends (t.setProperty a key v) where
  frames_size := h.frames_size
  objects_size :=
    Nat.le_trans h.objects_size (Nat.le_of_eq (t.objects_size_setProperty a key v).symm)
  frame := h.frame
  object b hb := by
    have hne : b ≠ a := Nat.ne_of_lt (Nat.lt_of_lt_of_le hb ha)
    rw [object_setProperty, if_neg fun e => hne e.1]
    exact h.object b hb

end Guion.Store
