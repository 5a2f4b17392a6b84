import Guion.Proofs.Causes

/-!
# What every step keeps, evaluation keeps

A relation between runs is a congruence if it holds between equal steps and is kept by sequencing.
Evaluations of one tree are then related as soon as the calls they make are, whatever the tree is.
Of the steps by themselves none fails as a refused call does, so the relation need not hold there.

    (∀ f args self, R (apply f args self) (apply' f args self)) →
      R (eval apply node scope) (eval apply' node scope)                 (Congruence.eval)
-/

namespace Guion

/-- The failure of a call that the depth limit refuses. -/
def Failure.isTooDeep : Failure → Bool
  | .tooDeep _ => true
  | _ => false

namespace Eval

/-- A relation between runs that holds between equal steps of the evaluator and that sequencing and
the end of a program keep. -/
structure Congruence (R : ∀ {α : Type}, Run α → Run α → Prop) : Prop where
  pure {α : Type} (a : α) : R (pure a) (pure a)
  bind {α β : Type} {m m' : Run α} {f f' : α → Run β} :
    R m m' → (∀ a, R (f a) (f' a)) → R (m >>= f) (m' >>= f')
  fail {α : Type} {cause : Failure} : cause.isTooDeep = false →
    R (Run.fail cause : Run α) (Run.fail cause)
  giveBack {α : Type} (v : Value) : R (Run.exit (.returned v) : Run α) (Run.exit (.returned v))
  inspect {α : Type} {look : Store → Except Failure α} :
    (∀ s, FailsWith (·.isTooDeep = false) (look s)) → R (Run.inspect look) (Run.inspect look)
  openFrame (chain : List FrameId) :
    R (Run.create fun s => s.openFrame chain) (Run.create fun s => s.openFrame chain)
  bindName (f : FrameId) (name : String) (binding : Binding) :
    R (Run.update fun s => s.bindName f name binding)
      (Run.update fun s => s.bindName f name binding)
  setProperty (a : Address) (name : String) (v : Value) :
    R (Run.update fun s => s.setProperty a name v) (Run.update fun s => s.setProperty a name v)
  make (shape : Shape) (entries : List (String × Value)) :
    R (Run.create fun s => s.make shape entries) (Run.create fun s => s.make shape entries)
  endProgram {m m' : Run Value} : R m m' → R (endProgram m) (endProgram m')

namespace Congruence

variable {R : ∀ {α : Type}, Run α → Run α → Prop} (hR : Congruence R)
include hR

/-! ## Parts of the rules -/

theorem quoting {α : Type} {cause : Node → Failure} {n : Node}
    (h : (cause n).isTooDeep = false) :
    R (Run.fail (.quoting cause n) : Run α) (Run.fail (.quoting cause n)) :=
  hR.fail (Failure.holds_quoting (P := (·.isTooDeep = false)) h rfl)

theorem declare (scope : Scope) (name : String) (binding : Binding) :
    R (declare scope name binding) (declare scope name binding) :=
  hR.bind (hR.inspect fun s => s.failsWith_mayDeclare scope rfl) fun _ => hR.bindName _ _ _

theorem assignName (scope : Scope) (name : String) (value : Value) :
    R (assignName scope name value) (assignName scope name value) :=
  hR.bind (hR.inspect fun s => s.failsWith_assignable scope rfl rfl) fun _ =>
    hR.bind (hR.bindName _ _ _) fun _ => hR.pure _

theorem makeFunction (scope : Scope) (name : String) (params : List String) (body : List Node) :
    R (makeFunction scope name params body) (makeFunction scope name params body) := by
  refine hR.bind (hR.make _ _) fun f => ?_
  split
  · exact hR.pure f
  · exact hR.bind (hR.declare _ _ _) fun _ => hR.pure f

theorem ownerOf (v : Value) : R (ownerOf v) (ownerOf v) := by
  unfold Eval.ownerOf
  split
  · exact hR.pure _
  · exact hR.inspect fun _ => failsWith_error rfl

theorem lookup (scope : Scope) (name : String) :
    R (Run.inspect fun s => s.lookup scope name) (Run.inspect fun s => s.lookup scope name) :=
  hR.inspect fun s => s.failsWith_lookup scope rfl

theorem getProperty (a : Address) (name : String) :
    R (Run.inspect fun s => .ok (s.getProperty a name))
      (Run.inspect fun s => .ok (s.getProperty a name)) :=
  hR.inspect fun _ => failsWith_ok _

theorem operator (symbol : String) (l r : Value) :
    R (Run.inspect fun s => Operator.apply s symbol l r)
      (Run.inspect fun s => Operator.apply s symbol l r) :=
  hR.inspect fun s => Operator.failsWith_apply s l r (fun _ => rfl) (fun _ _ _ => rfl) rfl rfl

theorem target {owner owner' keyValue keyValue' : Run Value} (key : Node) (computed : Bool)
    (ho : R owner owner') (hk : R keyValue keyValue') :
    R (target owner key computed keyValue) (target owner' key computed keyValue') := by
  refine hR.bind ho fun v => hR.bind (hR.ownerOf v) fun a => ?_
  split
  · exact hR.bind hk fun k => hR.bind
      (hR.inspect fun s => s.failsWith_key k (fun _ => rfl) fun _ => rfl) fun name =>
        hR.pure (a, name)
  · split
    · exact hR.pure _
    · exact hR.pure _
    · exact hR.quoting rfl

/-! ## The tree -/

variable {apply apply' : Applier} (ha : ∀ f args self, R (apply f args self) (apply' f args self))
include ha

-- the theorems below use `ha` through each other, which the linter does not see
set_option linter.unusedSectionVars false

mutual

theorem eval : ∀ (n : Node) (scope : Scope), R (Eval.eval apply n scope) (Eval.eval apply' n scope)
  | .program body, scope => hR.endProgram (evalBody body scope .null)
  | .declare _ _ value, scope =>
    hR.bind (eval value scope) fun v => hR.bind (hR.declare _ _ _) fun _ => hR.pure v
  | .function _ _ _, scope => hR.makeFunction _ _ _ _
  | .giveBack value, scope => hR.bind (eval value scope) fun v => hR.giveBack v
  | .when condition body alternative, scope => by
    refine hR.bind (eval condition scope) fun v => ?_
    split
    · exact hR.bind (hR.openFrame _) fun inside => evalBody body inside .null
    · exact evalAlternative alternative scope
  | .otherwise body, scope => hR.bind (hR.openFrame _) fun inside => evalBody body inside .null
  | .number _, _ => hR.pure _
  | .string _, _ => hR.pure _
  | .ident _, scope => hR.lookup scope _
  | .propertyName _, _ => hR.pure _
  | .object entries, scope =>
    hR.bind (evalEntries entries scope .empty) fun table => hR.make _ _
  | .list elements, scope => hR.bind (evalAll elements scope) fun values => hR.make _ _
  | .member owner key computed, scope =>
    hR.bind (hR.target key computed (eval owner scope) (eval key scope)) fun (a, name) =>
      hR.getProperty a name
  | .binary left right symbol, scope => by
    refine hR.bind (eval left scope) fun l => ?_
    split
    · split
      · exact hR.pure l
      · exact eval right scope
    · exact hR.bind (eval right scope) fun r => hR.operator symbol l r
  | .assign target value, scope => by
    cases target with
    | ident symbol => exact hR.bind (eval value scope) fun v => hR.assignName scope symbol v
    | member owner key computed =>
      exact hR.bind (eval value scope) fun v =>
        hR.bind (hR.target key computed (eval owner scope) (eval key scope)) fun (a, name) =>
          hR.bind (hR.setProperty a name v) fun _ => hR.pure v
    | _ => exact hR.fail rfl
  | .call callee args, scope => by
    cases callee with
    | member owner key computed =>
      exact hR.bind (hR.target key computed (eval owner scope) (eval key scope)) fun (a, name) =>
        hR.bind (hR.getProperty a name) fun f =>
          hR.bind (evalAll args scope) fun values => ha f values (some (.ref a))
    | _ =>
      exact hR.bind (eval _ scope) fun f =>
        hR.bind (evalAll args scope) fun values => ha f values none
  | .property .., _ => hR.quoting rfl
  | .foreign _, _ => hR.quoting rfl

theorem evalBody : ∀ (ns : List Node) (scope : Scope) (last : Value),
    R (Eval.evalBody apply ns scope last) (Eval.evalBody apply' ns scope last)
  | [], _, last => hR.pure last
  | n :: ns, scope, _ => hR.bind (eval n scope) fun v => evalBody ns scope v

theorem evalAlternative : ∀ (n : Option Node) (scope : Scope),
    R (Eval.evalAlternative apply n scope) (Eval.evalAlternative apply' n scope)
  | none, _ => hR.pure _
  | some n, scope => eval n scope

theorem evalAll : ∀ (ns : List Node) (scope : Scope),
    R (Eval.evalAll apply ns scope) (Eval.evalAll apply' ns scope)
  | [], _ => hR.pure []
  | n :: ns, scope =>
    hR.bind (eval n scope) fun v => hR.bind (evalAll ns scope) fun vs => hR.pure (v :: vs)

theorem evalEntries : ∀ (ns : List Node) (scope : Scope) (made : Table Value),
    R (Eval.evalEntries apply ns scope made) (Eval.evalEntries apply' ns scope made)
  | [], _, made => hR.pure made
  | n :: ns, scope, made => by
    cases n with
    | property key value =>
      cases value with
      | none =>
        exact hR.bind (hR.lookup scope key) fun v => evalEntries ns scope (made.insert key v)
      | some value =>
        exact hR.bind (eval value scope) fun v => evalEntries ns scope (made.insert key v)
    | declare constant name value =>
      cases value with
      | foreign thing =>
        cases thing with
        | nothing => exact hR.fail rfl
        | _ => exact hR.bind (eval _ scope) fun _ => hR.fail rfl
      | _ => exact hR.bind (eval _ scope) fun _ => hR.fail rfl
    | giveBack value =>
      cases value with
      | foreign thing =>
        cases thing with
        | nothing => exact hR.fail rfl
        | _ => exact hR.bind (eval _ scope) fun _ => hR.fail rfl
      | _ => exact hR.bind (eval _ scope) fun _ => hR.fail rfl
    | number value => exact hR.quoting rfl
    | string value => exact hR.quoting rfl
    | _ => exact hR.fail rfl

end

end Congruence

end Eval

end Guion
