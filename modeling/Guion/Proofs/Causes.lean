import Guion.Eval

/-!
# The causes for which a look at the store fails

A look at the store fails for few causes, and a property of failures that these causes have is one
of every failure of the look.

    P (.redeclared name) → FailsWith P (s.mayDeclare scope name)          (failsWith_mayDeclare)

No look fails as a call beyond the depth limit does; only calls do.
-/

namespace Guion

/-- What fails only with a cause that has the property. -/
def FailsWith {ε : Type} (P : ε → Prop) {α : Type} (x : Except ε α) : Prop :=
  ∀ cause, x = .error cause → P cause

section

variable {ε α β : Type} {P : ε → Prop}

theorem failsWith_ok (a : α) : FailsWith P (.ok a) := nofun

theorem failsWith_error {cause : ε} (h : P cause) :
    FailsWith P (.error cause : Except ε α) := by
  rintro _ ⟨⟩
  exact h

theorem failsWith_bind {x : Except ε α} {f : α → Except ε β} (hx : FailsWith P x)
    (hf : ∀ a, FailsWith P (f a)) : FailsWith P (x >>= f) := by
  cases x with
  | error cause => exact failsWith_error (hx cause rfl)
  | ok a => exact hf a

theorem failsWith_map {x : Except ε α} (hx : FailsWith P x) (f : α → β) :
    FailsWith P (x.map f) := by
  cases x with
  | error cause => exact failsWith_error (hx cause rfl)
  | ok a => exact failsWith_ok _

end

variable {P : Failure → Prop}

section

variable {α β : Type}

theorem failsWith_mapError {ε : Type} {cause : ε → Failure} (h : ∀ e, P (cause e))
    (x : Except ε α) : FailsWith P (x.mapError cause) := by
  cases x with
  | error e => exact failsWith_error (h e)
  | ok a => exact failsWith_ok a

theorem failsWith_mapM {f : α → Except Failure β} (hf : ∀ a, FailsWith P (f a)) (xs : List α) :
    FailsWith P (xs.mapM f) := by
  induction xs with
  | nil => exact failsWith_ok _
  | cons x xs ih =>
    rw [List.mapM_cons]
    exact failsWith_bind (hf x) fun _ => failsWith_bind ih fun _ => failsWith_ok _

end

/-! ## Names -/

namespace Store

variable (s : Store) (scope : Scope) {name : String}

theorem failsWith_mayDeclare (h : P (.redeclared name)) :
    FailsWith P (s.mayDeclare scope name) := by
  unfold mayDeclare
  split
  · exact failsWith_error h
  · exact failsWith_ok ()

theorem failsWith_binding (h : P (.undeclared name)) : FailsWith P (s.binding scope name) := by
  unfold binding
  split
  · exact failsWith_ok _
  · exact failsWith_error h

theorem failsWith_lookup (h : P (.undeclared name)) : FailsWith P (s.lookup scope name) :=
  failsWith_map (s.failsWith_binding scope h) _

theorem failsWith_assignable (h : P (.undeclared name)) (hc : P (.constantAssigned name)) :
    FailsWith P (s.assignable scope name) := by
  refine failsWith_bind (failsWith_map (s.failsWith_binding scope h) _) fun constant => ?_
  split
  · exact failsWith_error hc
  · unfold resolve
    split
    · exact failsWith_ok _
    · exact failsWith_error h

/-! ## Values -/

variable (v : Value)

theorem failsWith_showOrFail (h : P .endless) : FailsWith P (s.showOrFail v) := by
  unfold showOrFail
  split
  · exact failsWith_ok _
  · exact failsWith_error h

theorem failsWith_display (h : P .endless) (hn : ∀ fault, P (.numeric fault)) :
    FailsWith P (s.display v) := by
  unfold display
  split
  · exact failsWith_error h
  · exact failsWith_mapError hn _

theorem failsWith_lengthOf (h : ∀ type, P (.noLength type)) : FailsWith P (s.lengthOf v) := by
  unfold lengthOf
  split
  · exact failsWith_ok _
  · exact failsWith_ok _
  · exact failsWith_error (h _)

theorem failsWith_key (h : ∀ type, P (.badKey type)) (hn : ∀ fault, P (.numeric fault)) :
    FailsWith P (v.key s) := by
  unfold Value.key
  split
  · exact failsWith_ok _
  · exact failsWith_mapError hn _
  · exact failsWith_error (h _)

theorem failsWith_sourceOf (h : ∀ type, P (.noSource type)) (hw : ∀ cause, P (.unwritable cause)) :
    FailsWith P (s.sourceOf v) := by
  unfold sourceOf
  split
  · split
    · unfold functionSource
      split
      · exact failsWith_ok _
      · exact failsWith_mapError hw _
    · exact failsWith_error (h _)
  · exact failsWith_error (h _)

end Store

/-! ## Operators -/

namespace Operator

variable (s : Store) {symbol : String} (l r : Value)

theorem failsWith_onNumbers (hn : ∀ fault, P (.numeric fault))
    (ht : ∀ left right, P (.notNumbers symbol left right)) (op : Num → Num → Except Num.Fault Num) :
    FailsWith P (onNumbers s symbol op l r) := by
  unfold onNumbers
  split
  · exact failsWith_map (failsWith_mapError hn _) _
  · exact failsWith_error (ht _ _)

theorem failsWith_plus (hn : ∀ fault, P (.numeric fault))
    (ht : ∀ left right, P (.notNumbers "+" left right)) (he : P .endless) :
    FailsWith P (plus s l r) := by
  have texts : FailsWith P (joinTexts s l r) :=
    failsWith_bind (s.failsWith_display l he hn) fun _ =>
      failsWith_bind (s.failsWith_display r he hn) fun _ => failsWith_ok _
  unfold plus
  split
  · exact texts
  · exact texts
  · exact failsWith_onNumbers s l r hn ht Num.add

theorem failsWith_apply (hn : ∀ fault, P (.numeric fault))
    (ht : ∀ symbol left right, P (.notNumbers symbol left right)) (he : P .endless)
    (hu : P (.unknownOperator symbol)) : FailsWith P (apply s symbol l r) := by
  unfold apply
  split
  · exact failsWith_plus s l r hn (ht "+") he
  · split
    · exact failsWith_onNumbers s l r hn (ht symbol) _
    · split
      · exact failsWith_ok _
      · split
        · exact failsWith_ok _
        · exact failsWith_error hu

end Operator

/-! ## Data -/

namespace Store

section

variable (hn : ∀ fault, P (.numeric fault)) (hc : ∀ type, P (.unconvertible type))
include hn hc

-- the theorems below use the hypotheses through each other, which the linter does not see
set_option linter.unusedSectionVars false

mutual

theorem failsWith_ofDatum : ∀ (s : Store) (d : Datum), FailsWith P (s.ofDatum d)
  | _, .value .. | _, .null | _, .bool _ | _, .num _ | _, .text _ | _, .function .. =>
    failsWith_ok _
  | s, .list items | s, .sequence items => by
    rw [ofDatum]
    exact failsWith_bind (failsWith_ofItems s items) fun _ => failsWith_ok _
  | s, .record entries => by
    rw [ofDatum]
    exact failsWith_bind (failsWith_ofEntries s .empty entries) fun _ => failsWith_ok _
  | _, .unsupported _ => failsWith_error (hc _)

theorem failsWith_ofItems : ∀ (s : Store) (items : List Datum), FailsWith P (s.ofItems items)
  | _, [] => failsWith_ok _
  | s, d :: ds => by
    rw [ofItems]
    exact failsWith_bind (failsWith_ofDatum s d) fun p =>
      failsWith_bind (failsWith_ofItems p.1 ds) fun _ => failsWith_ok _

theorem failsWith_ofEntries : ∀ (s : Store) (made : Table Value) (entries : List (Datum × Datum)),
    FailsWith P (s.ofEntries made entries)
  | _, _, [] => failsWith_ok _
  | s, made, (key, d) :: rest => by
    rw [ofEntries]
    exact failsWith_bind (failsWith_mapError hn _) fun _ =>
      failsWith_bind (failsWith_ofDatum s d) fun p => failsWith_ofEntries p.1 _ rest

end

end

end Store

end Guion
