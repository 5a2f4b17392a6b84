import Guion.Proofs.Safety
import Guion.Proofs.Termination

/-!
# Trees that were read evaluate without internal failures

A tree that fits its place has a rule for every node in it, and the bodies that its calls lead to
are those of the store, which fit too.  So the induction is on the tree for one body and on the
budget of nested calls for the bodies behind it.  A program catches the returns of its body.

    Fits position n → SafeAt apply position n         if `apply` is safe       (safeAt_of_fits)
    Safe True (applier host limit n f args self)                               (safe_applier)
    Safe False (evaluate host limit (.program body) scope)  if the body was read  (safe_program)
-/

namespace Guion.Eval

open Node (Fits Position)

/-! ## Parts of the rules -/

theorem safe_declare {early : Prop} (scope : Scope) (name : String) (binding : Binding) :
    Safe early (declare scope name binding) :=
  safe_bind (safe_inspect fun s _ => s.ofScript_mayDeclare scope name) fun _ =>
    safe_update fun _ hs => hs.bindName _ name binding

theorem safe_openInside (scope : Scope) : Safe True (openInside scope) :=
  safe_create fun _ hs => hs.openFrame scope.chain

theorem safe_ownerOf (v : Value) : Safe True (ownerOf v) := by
  unfold ownerOf
  split
  · exact safe_pure _
  · exact safe_inspect fun _ _ => ofScript_error rfl

theorem safe_assignName (scope : Scope) (name : String) (value : Value) :
    Safe True (assignName scope name value) :=
  safe_bind (safe_inspect fun s _ => s.ofScript_assignable scope name) fun f =>
    safe_bind (safe_update fun _ hs => hs.bindName f name _) fun _ => safe_pure value

theorem safe_makeFunction (scope : Scope) (name : String) (params : List String)
    {body : List Node} (hb : ∀ n ∈ body, Fits .statement n) :
    Safe True (makeFunction scope name params body) := by
  have hc : (Shape.function ⟨params, body, some scope, none⟩).Sound := ⟨hb, nofun⟩
  refine safe_bind (safe_create fun s hs => hs.make _ hc _) fun f => ?_
  split
  · exact safe_pure f
  · exact safe_bind (safe_declare scope name _) fun _ => safe_pure f

theorem safe_target_computed {owner keyValue : Run Value} (ho : Safe True owner) (key : Node)
    (hk : Safe True keyValue) : Safe True (target owner key true keyValue) :=
  safe_bind ho fun v => safe_bind (safe_ownerOf v) fun _ =>
    safe_bind hk fun k => safe_bind (safe_inspect fun s _ => ofScript_key s k) fun _ => safe_pure _

theorem safe_target_named {owner : Run Value} (ho : Safe True owner) (name : String)
    (keyValue : Run Value) : Safe True (target owner (.propertyName name) false keyValue) :=
  safe_bind ho fun v => safe_bind (safe_ownerOf v) fun _ => safe_pure _

/-! ## Trees -/

section

variable {apply : Applier}

/-- What the rules need of a tree at its place.  An expression may also be called or assigned to,
and then a property is not read but only looked for. -/
def SafeAt (apply : Applier) : Position → Node → Prop
  | .statement, n => ∀ scope, Safe True (eval apply n scope)
  | .expression, n => (∀ scope, Safe True (eval apply n scope)) ∧
      ∀ owner key computed, n = .member owner key computed → ∀ scope,
        Safe True (target (eval apply owner scope) key computed (eval apply key scope))
  | .entry, n => ∃ key value, n = .property key value ∧
      ∀ v ∈ value, ∀ scope, Safe True (eval apply v scope)

theorem safe_evalBody {body : List Node} (h : ∀ n ∈ body, SafeAt apply .statement n) :
    ∀ (scope : Scope) (last : Value), Safe True (evalBody apply body scope last) := by
  induction body with
  | nil => exact fun _ last => safe_pure last
  | cons n body ih =>
    obtain ⟨hn, hbody⟩ := List.forall_mem_cons.1 h
    exact fun scope _ => safe_bind (hn scope) fun v => ih hbody scope v

theorem safe_evalInside {body : List Node} (h : ∀ n ∈ body, SafeAt apply .statement n)
    (scope : Scope) : Safe True (do evalBody apply body (← openInside scope) .null) :=
  safe_bind (safe_openInside scope) fun inside => safe_evalBody h inside .null

theorem safe_evalAll {ns : List Node} (h : ∀ n ∈ ns, SafeAt apply .expression n) (scope : Scope) :
    Safe True (evalAll apply ns scope) := by
  induction ns with
  | nil => exact safe_pure []
  | cons n ns ih =>
    obtain ⟨hn, hns⟩ := List.forall_mem_cons.1 h
    exact safe_bind (hn.1 scope) fun v => safe_bind (ih hns) fun vs => safe_pure (v :: vs)

theorem safe_evalEntries {ns : List Node} (h : ∀ n ∈ ns, SafeAt apply .entry n) (scope : Scope) :
    ∀ made : Table Value, Safe True (evalEntries apply ns scope made) := by
  induction ns with
  | nil => exact fun made => safe_pure made
  | cons n ns ih =>
    obtain ⟨⟨key, value, rfl, hv⟩, hns⟩ := List.forall_mem_cons.1 h
    intro made
    cases value with
    | none =>
      exact safe_bind (safe_inspect fun s _ => s.ofScript_lookup scope key) fun v =>
        ih hns (made.insert key v)
    | some value =>
      exact safe_bind (hv value rfl scope) fun v => ih hns (made.insert key v)

/-- Of the expressions that were read only names and properties can be assigned to; the others are
refused by their kind. -/
theorem safe_assign {target value : Node} (hf : Fits .expression target)
    (ht : SafeAt apply .expression target) (hv : SafeAt apply .expression value) (scope : Scope) :
    Safe True (eval apply (.assign target value) scope) := by
  cases hf with
  | ident _ => exact safe_bind (hv.1 scope) fun v => safe_assignName scope _ v
  | member _ _ | index _ _ =>
    exact safe_bind (hv.1 scope) fun v => safe_bind (ht.2 _ _ _ rfl scope) fun p =>
      safe_bind (safe_update fun _ hs => hs.setProperty p.1 p.2 v) fun _ => safe_pure v
  | _ => exact safe_fail rfl

theorem safe_binary {left right : Node} {symbol : String} (hs : symbol ∈ Node.symbols)
    (hl : SafeAt apply .expression left) (hr : SafeAt apply .expression right) (scope : Scope) :
    Safe True (eval apply (.binary left right symbol) scope) := by
  refine safe_bind (hl.1 scope) fun l => ?_
  split
  · split
    · exact safe_pure l
    · exact hr.1 scope
  · next hshort =>
    have hshort : Operator.isShortCircuit symbol = false := by simpa using hshort
    exact safe_bind (hr.1 scope) fun r =>
      safe_inspect fun s _ => Operator.ofScript_apply hs hshort s l r

/-- A place that is no property needs only its evaluation. -/
theorem safeAt_of_eval {n : Node} (h : ∀ scope, Safe True (eval apply n scope))
    (hn : ∀ owner key computed, n ≠ .member owner key computed) : SafeAt apply .expression n :=
  ⟨h, fun owner key computed he => absurd he (hn owner key computed)⟩

theorem safeAt_of_target {owner key : Node} {computed : Bool}
    (h : ∀ scope, Safe True (target (eval apply owner scope) key computed (eval apply key scope))) :
    SafeAt apply .expression (.member owner key computed) := by
  refine ⟨fun scope => ?_, ?_⟩
  · exact safe_bind (h scope) fun p => safe_inspect fun _ _ => ofScript_ok _
  · rintro _ _ _ ⟨⟩
    exact h

variable (ha : ∀ f args self, Safe True (apply f args self))
include ha

theorem safe_call {callee : Node} {args : List Node} (hf : Fits .expression callee)
    (hc : SafeAt apply .expression callee) (hargs : ∀ n ∈ args, SafeAt apply .expression n)
    (scope : Scope) : Safe True (eval apply (.call callee args) scope) := by
  have plain : Safe True (do
      let f ← eval apply callee scope
      let values ← evalAll apply args scope
      apply f values none) :=
    safe_bind (hc.1 scope) fun f => safe_bind (safe_evalAll hargs scope) fun values =>
      ha f values none
  cases hf with
  | member _ _ | index _ _ =>
    exact safe_bind (hc.2 _ _ _ rfl scope) fun p =>
      safe_bind (safe_inspect fun _ _ => ofScript_ok _) fun f =>
        safe_bind (safe_evalAll hargs scope) fun values => ha f values _
  | _ => exact plain

/-- The rules never leave a tree that was read without an answer. -/
theorem safeAt_of_fits {position : Position} {n : Node} (h : Fits position n) :
    SafeAt apply position n := by
  induction h with
  | declare _ _ ih =>
    exact fun scope => safe_bind (ih.1 scope) fun v =>
      safe_bind (safe_declare scope _ _) fun _ => safe_pure v
  | giveBack _ ih =>
    exact fun scope => safe_bind (ih.1 scope) fun v => fun w hw => ⟨.returned v trivial, hw⟩
  | when _ _ ihc ihb =>
    refine fun scope => safe_bind (ihc.1 scope) fun v => ?_
    split
    · exact safe_evalInside ihb scope
    · exact safe_pure _
  | whenOtherwise _ _ _ ihc ihb iho =>
    refine fun scope => safe_bind (ihc.1 scope) fun v => ?_
    split
    · exact safe_evalInside ihb scope
    · exact safe_evalInside iho scope
  | expression _ ih => exact ih.1
  | function _ _ hb _ =>
    exact safeAt_of_eval (fun scope => safe_makeFunction scope _ _ hb) nofun
  | assign hf _ ih ih' => exact safeAt_of_eval (safe_assign hf ih ih') nofun
  | binary _ hs _ ih ih' => exact safeAt_of_eval (safe_binary hs ih ih') nofun
  | call hf _ ih ih' => exact safeAt_of_eval (safe_call ha hf ih ih') nofun
  | member _ _ ih => exact safeAt_of_target fun scope => safe_target_named (ih.1 scope) _ _
  | index _ _ ih ih' =>
    exact safeAt_of_target fun scope => safe_target_computed (ih.1 scope) _ (ih'.1 scope)
  | ident _ =>
    exact safeAt_of_eval (fun scope => safe_inspect fun s _ => s.ofScript_lookup scope _) nofun
  | number _ => exact safeAt_of_eval (fun _ => safe_pure _) nofun
  | object _ ih =>
    refine safeAt_of_eval (fun scope => ?_) nofun
    exact safe_bind (safe_evalEntries ih scope .empty) fun table =>
      safe_create fun _ hs => hs.make .object trivial _
  | list _ ih =>
    refine safeAt_of_eval (fun scope => ?_) nofun
    exact safe_bind (safe_evalAll ih scope) fun values =>
      safe_create fun _ hs => hs.make .list trivial _
  | shorthand _ => exact ⟨_, none, rfl, nofun⟩
  | entry _ _ ih =>
    refine ⟨_, _, rfl, ?_⟩
    rintro _ ⟨⟩
    exact ih.1

/-- A body that was read, run statement by statement. -/
theorem safe_body {body : List Node} (h : ∀ n ∈ body, Fits .statement n) (scope : Scope)
    (last : Value) : Safe True (evalBody apply body scope last) :=
  safe_evalBody (fun n hn => safeAt_of_fits ha (h n hn)) scope last

end

/-! ## Calls -/

theorem safe_bindAll (scope : Scope) : ∀ (params : List String) (args : List Value),
    Safe True (bindAll scope params args)
  | [], _ => safe_pure ()
  | p :: ps, args =>
    safe_bind (safe_declare scope p _) fun _ => safe_bindAll scope ps args.tail

theorem safe_callScope (c : Closure) (args : List Value) : Safe True (callScope c args) :=
  safe_bind (safe_create fun _ hs => hs.openFrame _) fun scope =>
    safe_bind (safe_bindAll scope c.params args) fun _ => safe_pure scope

theorem safe_inCall {body : Run Value} (h : Safe True body) : Safe True (inCall body) := by
  intro w hw
  obtain ⟨he, hs⟩ := h w.enter hw
  unfold inCall
  rcases hb : body w.enter with ⟨outcome, w'⟩
  rw [hb] at he hs
  refine ⟨?_, hs⟩
  cases he with
  | value _ => exact .value _
  | @failed cause h => cases cause <;> exact .failed h
  | returned v _ => exact .value v
  | exhausted h => exact .exhausted h

theorem safe_reserve (limit : Nat) : Safe True (reserve limit) := by
  intro w hw
  refine ⟨?_, (reserve_kept limit w).1.symm ▸ hw⟩
  rcases reserve_ends limit w with h | h <;> rw [h]
  · exact .value ()
  · exact .failed rfl

theorem safe_callScript (limit : Nat) {inner : Option Applier}
    (h : ∀ apply ∈ inner, ∀ f args self, Safe True (apply f args self)) (name : String)
    {c : Closure} (hc : ∀ n ∈ c.body, Fits .statement n) (args : List Value) :
    Safe True (callScript limit inner name c args) := by
  refine safe_bind (safe_reserve limit) fun _ => ?_
  refine safe_bind (m := Run.world) (fun w hw => ⟨.value w, hw⟩) fun w => ?_
  split
  · exact safe_fail rfl
  · cases inner with
    | none => exact fun w hw => ⟨.exhausted trivial, hw⟩
    | some apply =>
      exact safe_bind (safe_note _) fun _ => safe_bind (safe_callScope c args) fun scope =>
        safe_inCall (safe_body (h apply rfl) hc scope .null)

/-- A call finds in a sound store a native of the language or a body that was read. -/
theorem safe_applyOver (host : Host) (limit : Nat) {inner : Option Applier}
    (h : ∀ apply ∈ inner, ∀ f args self, Safe True (apply f args self)) (f : Value)
    (args : List Value) (self : Option Value) :
    Safe True (applyOver host limit inner f args self) := by
  refine safe_ofStore fun s hs => ?_
  split
  · next a =>
    have hsound := hs a
    split
    · next c hshape =>
      rw [hshape] at hsound
      split
      · next native hn => exact safe_native host (hsound.2 native hn) _ args
      · exact safe_callScript limit h _ hsound.1 args
    · exact safe_fail rfl
  · exact safe_fail rfl

theorem safe_applier (host : Host) (limit : Nat) : ∀ (n : Nat) (f : Value) (args : List Value)
    (self : Option Value), Safe True (applier host limit n f args self)
  | 0 => safe_applyOver host limit nofun
  | n + 1 => by
    refine safe_applyOver host limit ?_
    rintro _ ⟨⟩
    exact safe_applier host limit n

/-! ## Programs -/

theorem safe_endProgram {m : Run Value} (h : Safe True m)
    (hx : ∀ w, (m w).1 ≠ .error .exhausted) : Safe False (endProgram m) := by
  intro w hw
  obtain ⟨he, hs⟩ := h w hw
  have hx := hx w
  unfold endProgram
  rcases hm : m w with ⟨outcome, w'⟩
  rw [hm] at he hs hx
  cases he with
  | value v => exact ⟨.value v, hs⟩
  | failed h => exact ⟨.failed h, hs⟩
  | returned v _ => exact ⟨.value v, hs⟩
  | exhausted _ => exact absurd rfl hx

/-- A program that was read gives a value or fails as scripts may. -/
theorem safe_program (host : Host) (limit : Nat) {body : List Node}
    (hb : ∀ n ∈ body, Fits .statement n) (scope : Scope) :
    Safe False (evaluate host limit (.program body) scope) := by
  refine safe_endProgram (safe_body (safe_applier host limit limit) hb scope .null) fun w => ?_
  have within : limit - w.depth ≤ limit := Nat.sub_le _ _
  exact ((steady_congruence w.depth).evalBody
    (steady_applier host limit limit limit w.depth within within) body scope .null w rfl).2.1

end Guion.Eval
