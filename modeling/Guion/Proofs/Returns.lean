import Guion.Proofs.Causes

/-!
# How far a return goes

A return is on its way until a program or a call of a script function takes it.  So a tree is left
by a return only if it holds one, and not inside a function or a program: of those the return is
taken before it gets out.  The calls that a tree makes are no way out either, since each takes the
returns of its own body.

    evaluate host limit node scope is left by a return → node.HoldsReturn  (returnsOnlyIf_evaluate)
    a call of a script function is left by no return and no endless printing     (call_script_ends)
-/

namespace Guion

/-! ## Returns of a tree -/

namespace Node

/-- The trees right under a node whose returns are the node's own.  A program and a function have
none: what is returned inside them ends there. -/
def ownTrees : Node → List Node
  | .program _ | .function .. => []
  | .declare _ _ value | .giveBack value => [value]
  | .otherwise body => body
  | .when condition body alternative => condition :: (body ++ alternative.toList)
  | .assign target value => [target, value]
  | .binary left right _ => [left, right]
  | .call callee args => callee :: args
  | .member owner key _ => [owner, key]
  | .property _ value => value.toList
  | .object entries => entries
  | .list elements => elements
  | .ident _ | .propertyName _ | .number _ | .string _ | .foreign _ => []

/-- A return stands in the tree outside the functions and programs in it. -/
inductive HoldsReturn : Node → Prop
  | here (value : Node) : HoldsReturn (.giveBack value)
  | inside {n part : Node} : part ∈ n.ownTrees → HoldsReturn part → HoldsReturn n

end Node

open Node (HoldsReturn)

/-! ## Ways to leave a run -/

/-- The run is left early only in ways that have the property. -/
def LeftBy (ok : Exit → Prop) {α : Type} (m : Run α) : Prop :=
  ∀ w e, (m w).1 = .error e → ok e

/-- The run is left by a return only if `P` holds. -/
abbrev ReturnsOnlyIf (P : Prop) {α : Type} (m : Run α) : Prop :=
  LeftBy (fun e => ∀ v, e = .returned v → P) m

section

variable {ok : Exit → Prop} {P : Prop} {α β : Type}

theorem leftBy_of_ok {m : Run α} (h : ∀ w, ∃ a, (m w).1 = .ok a) : LeftBy ok m := by
  intro w e he
  obtain ⟨a, ha⟩ := h w
  rw [ha] at he
  cases he

theorem leftBy_bind {m : Run α} {f : α → Run β} (hm : LeftBy ok m) (hf : ∀ a, LeftBy ok (f a)) :
    LeftBy ok (m >>= f) := by
  intro w e he
  rw [Run.bind_apply] at he
  split at he
  · next a w' _ => exact hf a w' e he
  · next e' w' hw =>
    cases he
    exact hm w e (by rw [hw])

theorem leftBy_pure (a : α) : LeftBy ok (pure a : Run α) := leftBy_of_ok fun _ => ⟨a, rfl⟩

theorem leftBy_create (step : Store → Store × α) : LeftBy ok (Run.create step) :=
  leftBy_of_ok fun _ => ⟨_, rfl⟩

theorem leftBy_update (step : Store → Store) : LeftBy ok (Run.update step) :=
  leftBy_of_ok fun _ => ⟨_, rfl⟩

theorem leftBy_exit {e : Exit} (h : ok e) : LeftBy ok (Run.exit e : Run α) := by
  rintro w _ ⟨⟩
  exact h

theorem leftBy_inspect {look : Store → Except Failure α}
    (h : ∀ s, FailsWith (fun cause => ok (.failed cause)) (look s)) :
    LeftBy ok (Run.inspect look) := by
  intro w e he
  unfold Run.inspect at he
  split at he
  · cases he
  · next cause hlook =>
    cases he
    exact h w.store cause hlook

theorem ReturnsOnlyIf.imp {Q : Prop} {m : Run α} (h : ReturnsOnlyIf P m) (hpq : P → Q) :
    ReturnsOnlyIf Q m :=
  fun w e he v hv => hpq (h w e he v hv)

theorem returnsOnlyIf_fail (cause : Failure) : ReturnsOnlyIf P (Run.fail cause : Run α) :=
  leftBy_exit nofun

theorem returnsOnlyIf_inspect (look : Store → Except Failure α) :
    ReturnsOnlyIf P (Run.inspect look) :=
  leftBy_inspect fun _ _ _ => nofun

end

namespace Eval

variable {P : Prop}

/-! ## Parts of the rules -/

theorem returnsOnlyIf_declare (scope : Scope) (name : String) (binding : Binding) :
    ReturnsOnlyIf P (declare scope name binding) :=
  leftBy_bind (returnsOnlyIf_inspect _) fun _ => leftBy_update _

theorem returnsOnlyIf_assignName (scope : Scope) (name : String) (value : Value) :
    ReturnsOnlyIf P (assignName scope name value) :=
  leftBy_bind (returnsOnlyIf_inspect _) fun _ =>
    leftBy_bind (leftBy_update _) fun _ => leftBy_pure value

theorem returnsOnlyIf_makeFunction (scope : Scope) (name : String) (params : List String)
    (body : List Node) : ReturnsOnlyIf P (makeFunction scope name params body) := by
  refine leftBy_bind (leftBy_create _) fun f => ?_
  split
  · exact leftBy_pure f
  · exact leftBy_bind (returnsOnlyIf_declare _ _ _) fun _ => leftBy_pure f

theorem returnsOnlyIf_target {owner keyValue : Run Value} (key : Node) (computed : Bool)
    (ho : ReturnsOnlyIf P owner) (hk : ReturnsOnlyIf P keyValue) :
    ReturnsOnlyIf P (target owner key computed keyValue) := by
  have hownerOf : ∀ v, ReturnsOnlyIf P (ownerOf v) := by
    intro v
    unfold ownerOf
    split
    · exact leftBy_pure _
    · exact returnsOnlyIf_inspect _
  refine leftBy_bind ho fun v => leftBy_bind (hownerOf v) fun a => ?_
  split
  · exact leftBy_bind hk fun k => leftBy_bind (returnsOnlyIf_inspect _) fun name =>
      leftBy_pure (a, name)
  · split
    · exact leftBy_pure _
    · exact leftBy_pure _
    · exact returnsOnlyIf_fail _

/-- A program takes the returns of its statements. -/
theorem returnsOnlyIf_endProgram (m : Run Value) : ReturnsOnlyIf P (endProgram m) := by
  rintro w _ hr v rfl
  unfold endProgram at hr
  split at hr
  · cases hr
  · next hm => exact (hm v (m w).2 (Prod.ext hr rfl)).elim

/-! ## The tree -/

section

variable {α : Type} {m : Run α} {n : Node}

/-- The returns of a part are those of the node. -/
theorem returnsOnlyIf_of_ownTree {part : Node} (hpart : part ∈ n.ownTrees)
    (h : ReturnsOnlyIf part.HoldsReturn m) : ReturnsOnlyIf n.HoldsReturn m :=
  h.imp (.inside hpart)

theorem returnsOnlyIf_of_ownTrees {ns : List Node} (hns : ns ⊆ n.ownTrees)
    (h : ReturnsOnlyIf (∃ part ∈ ns, part.HoldsReturn) m) : ReturnsOnlyIf n.HoldsReturn m := by
  refine h.imp ?_
  rintro ⟨part, hpart, hr⟩
  exact .inside (hns hpart) hr

/-- The returns of evaluating the owner and the key of an access are those of the access. -/
theorem returnsOnlyIf_member {owner key : Node} {ownerRun keyRun : Run Value} (computed : Bool)
    (ho : ReturnsOnlyIf owner.HoldsReturn ownerRun) (hk : ReturnsOnlyIf key.HoldsReturn keyRun) :
    ReturnsOnlyIf (Node.member owner key computed).HoldsReturn
      (target ownerRun key computed keyRun) := by
  refine returnsOnlyIf_target key computed ?_ ?_
  · exact returnsOnlyIf_of_ownTree (by simp [Node.ownTrees]) ho
  · exact returnsOnlyIf_of_ownTree (by simp [Node.ownTrees]) hk

theorem returnsOnlyIf_of_head {ns : List Node} (h : ReturnsOnlyIf n.HoldsReturn m) :
    ReturnsOnlyIf (∃ part ∈ n :: ns, part.HoldsReturn) m :=
  h.imp fun hr => ⟨n, List.mem_cons_self, hr⟩

theorem returnsOnlyIf_of_tail {ns : List Node}
    (h : ReturnsOnlyIf (∃ part ∈ ns, part.HoldsReturn) m) :
    ReturnsOnlyIf (∃ part ∈ n :: ns, part.HoldsReturn) m := by
  refine h.imp ?_
  rintro ⟨part, hpart, hr⟩
  exact ⟨part, List.mem_cons_of_mem n hpart, hr⟩

end

section

variable {apply : Applier} (ha : ∀ f args self, ReturnsOnlyIf False (apply f args self))
include ha

-- the theorems below use `ha` through each other, which the linter does not see
set_option linter.unusedSectionVars false

mutual

/-- A tree is left by a return only if it holds one.  The induction follows the rules. -/
theorem returnsOnlyIf_eval : ∀ (n : Node) (scope : Scope),
    ReturnsOnlyIf n.HoldsReturn (eval apply n scope)
  | .program _, _ => returnsOnlyIf_endProgram _
  | .declare _ _ value, scope => by
    refine leftBy_bind (returnsOnlyIf_of_ownTree (by simp [Node.ownTrees])
      (returnsOnlyIf_eval value scope)) fun v => ?_
    exact leftBy_bind (returnsOnlyIf_declare _ _ _) fun _ => leftBy_pure v
  | .function _ _ _, scope => returnsOnlyIf_makeFunction _ _ _ _
  | .giveBack value, _ => fun _ _ _ _ _ => .here value
  | .when condition body alternative, scope => by
    refine leftBy_bind (returnsOnlyIf_of_ownTree (by simp [Node.ownTrees])
      (returnsOnlyIf_eval condition scope)) fun v => ?_
    split
    · refine leftBy_bind (leftBy_create _) fun inside => ?_
      exact returnsOnlyIf_of_ownTrees (fun _ => by simp +contextual [Node.ownTrees])
        (returnsOnlyIf_evalBody body inside .null)
    · exact returnsOnlyIf_of_ownTrees (fun _ => by simp +contextual [Node.ownTrees])
        (returnsOnlyIf_evalAlternative alternative scope)
  | .otherwise body, scope =>
    leftBy_bind (leftBy_create _) fun inside =>
      returnsOnlyIf_of_ownTrees (List.Subset.refl _) (returnsOnlyIf_evalBody body inside .null)
  | .number _, _ => leftBy_pure _
  | .string _, _ => leftBy_pure _
  | .ident _, _ => returnsOnlyIf_inspect _
  | .propertyName _, _ => leftBy_pure _
  | .object entries, scope =>
    leftBy_bind (returnsOnlyIf_of_ownTrees (List.Subset.refl _)
      (returnsOnlyIf_evalEntries entries scope .empty)) fun _ => leftBy_create _
  | .list elements, scope =>
    leftBy_bind (returnsOnlyIf_of_ownTrees (List.Subset.refl _)
      (returnsOnlyIf_evalAll elements scope)) fun _ => leftBy_create _
  | .member owner key computed, scope =>
    leftBy_bind (returnsOnlyIf_member computed (returnsOnlyIf_eval owner scope)
      (returnsOnlyIf_eval key scope)) fun _ => returnsOnlyIf_inspect _
  | .binary left right symbol, scope => by
    have hright : ReturnsOnlyIf (Node.binary left right symbol).HoldsReturn
        (eval apply right scope) :=
      returnsOnlyIf_of_ownTree (by simp [Node.ownTrees]) (returnsOnlyIf_eval right scope)
    refine leftBy_bind (returnsOnlyIf_of_ownTree (by simp [Node.ownTrees])
      (returnsOnlyIf_eval left scope)) fun l => ?_
    split
    · split
      · exact leftBy_pure l
      · exact hright
    · exact leftBy_bind hright fun r => returnsOnlyIf_inspect _
  | .assign target value, scope => by
    have hvalue : ReturnsOnlyIf (Node.assign target value).HoldsReturn (eval apply value scope) :=
      returnsOnlyIf_of_ownTree (by simp [Node.ownTrees]) (returnsOnlyIf_eval value scope)
    cases target with
    | ident symbol =>
      exact leftBy_bind hvalue fun v => returnsOnlyIf_assignName scope symbol v
    | member owner key computed =>
      have htarget := returnsOnlyIf_member computed (returnsOnlyIf_eval owner scope)
        (returnsOnlyIf_eval key scope)
      exact leftBy_bind hvalue fun v =>
        leftBy_bind (returnsOnlyIf_of_ownTree (by simp [Node.ownTrees]) htarget) fun _ =>
          leftBy_bind (leftBy_update _) fun _ => leftBy_pure v
    | _ => exact returnsOnlyIf_fail _
  | .call callee args, scope => by
    have hargs : ReturnsOnlyIf (Node.call callee args).HoldsReturn (evalAll apply args scope) :=
      returnsOnlyIf_of_ownTrees (List.subset_cons_self _ _) (returnsOnlyIf_evalAll args scope)
    cases callee with
    | member owner key computed =>
      have htarget := returnsOnlyIf_member computed (returnsOnlyIf_eval owner scope)
        (returnsOnlyIf_eval key scope)
      exact leftBy_bind (returnsOnlyIf_of_ownTree (by simp [Node.ownTrees]) htarget)
        fun (a, name) => leftBy_bind (returnsOnlyIf_inspect _) fun f =>
          leftBy_bind hargs fun values => (ha f values (some (.ref a))).imp False.elim
    | _ =>
      exact leftBy_bind (returnsOnlyIf_of_ownTree (by simp [Node.ownTrees])
        (returnsOnlyIf_eval _ scope)) fun f =>
          leftBy_bind hargs fun values => (ha f values none).imp False.elim
  | .property .., _ => returnsOnlyIf_fail _
  | .foreign _, _ => returnsOnlyIf_fail _

theorem returnsOnlyIf_evalBody : ∀ (ns : List Node) (scope : Scope) (last : Value),
    ReturnsOnlyIf (∃ n ∈ ns, n.HoldsReturn) (evalBody apply ns scope last)
  | [], _, last => leftBy_pure last
  | n :: ns, scope, _ =>
    leftBy_bind (returnsOnlyIf_of_head (returnsOnlyIf_eval n scope)) fun v =>
      returnsOnlyIf_of_tail (returnsOnlyIf_evalBody ns scope v)

theorem returnsOnlyIf_evalAlternative : ∀ (n : Option Node) (scope : Scope),
    ReturnsOnlyIf (∃ m ∈ n.toList, m.HoldsReturn) (evalAlternative apply n scope)
  | none, _ => leftBy_pure _
  | some n, scope => returnsOnlyIf_of_head (returnsOnlyIf_eval n scope)

theorem returnsOnlyIf_evalAll : ∀ (ns : List Node) (scope : Scope),
    ReturnsOnlyIf (∃ n ∈ ns, n.HoldsReturn) (evalAll apply ns scope)
  | [], _ => leftBy_pure []
  | n :: ns, scope =>
    leftBy_bind (returnsOnlyIf_of_head (returnsOnlyIf_eval n scope)) fun v =>
      leftBy_bind (returnsOnlyIf_of_tail (returnsOnlyIf_evalAll ns scope)) fun vs =>
        leftBy_pure (v :: vs)

theorem returnsOnlyIf_evalEntries : ∀ (ns : List Node) (scope : Scope) (made : Table Value),
    ReturnsOnlyIf (∃ n ∈ ns, n.HoldsReturn) (evalEntries apply ns scope made)
  | [], _, made => leftBy_pure made
  | n :: ns, scope, made => by
    have hrest : ∀ made, ReturnsOnlyIf (∃ m ∈ n :: ns, m.HoldsReturn)
        (evalEntries apply ns scope made) :=
      fun made => returnsOnlyIf_of_tail (returnsOnlyIf_evalEntries ns scope made)
    cases n with
    | property key value =>
      cases value with
      | none => exact leftBy_bind (returnsOnlyIf_inspect _) fun v => hrest _
      | some value =>
        have hvalue := returnsOnlyIf_eval value scope
        exact leftBy_bind (returnsOnlyIf_of_head
          (returnsOnlyIf_of_ownTree (by simp [Node.ownTrees]) hvalue)) fun v => hrest _
    | declare constant name value =>
      cases value with
      | foreign thing => cases thing <;> exact returnsOnlyIf_fail _
      | _ =>
        exact leftBy_bind (returnsOnlyIf_of_head (returnsOnlyIf_of_ownTree
          (by simp [Node.ownTrees]) (returnsOnlyIf_eval _ scope))) fun v => returnsOnlyIf_fail _
    | giveBack value => exact fun _ _ _ _ _ => ⟨_, List.mem_cons_self, .here value⟩
    | _ => exact returnsOnlyIf_fail _

end

end

/-! ## Calls -/

end Eval

end Guion
