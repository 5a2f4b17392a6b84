import Guion.Native
import Guion.Operator

/-!
# Evaluation

`eval` follows the tree and hands every call to an `Applier`; `applier` closes the circle.  Only a
call of a script function can lead out of the tree at hand, and such a call is refused at the depth
limit, so a budget of as many nested calls as the limit allows is never exhausted: `evaluate` starts
with that budget.

The host's stack is taken to be unbounded.  A deeply nested tree is evaluated to its end here, while
a host that runs out of stack on the way ends the evaluation; only the printing of a value that
contains itself, which no stack is deep enough for, ends so here too.
-/

namespace Guion

/-- Calls a function value on arguments, with the value it was found on if it was a property. -/
abbrev Applier := Value → List Value → Option Value → Run Value

/-! ## Parts of the rules -/

namespace Eval

def declare (scope : Scope) (name : String) (binding : Binding) : Run Unit := do
  Run.inspect fun s => s.mayDeclare scope name
  Run.update fun s => s.bindName scope.frame name binding

def openInside (scope : Scope) : Run Scope := Run.create fun s => s.openFrame scope.chain

/-- The stored value that a property belongs to. -/
def ownerOf (v : Value) : Run Address :=
  match v with
  | .ref a => return a
  | v => Run.inspect fun s => .error (.noProperties (s.typeName v))

/-- The owner and the name of a property; `keyValue` evaluates a computed key. -/
def target (owner : Run Value) (key : Node) (computed : Bool) (keyValue : Run Value) :
    Run (Address × String) := do
  let a ← ownerOf (← owner)
  if computed then
    let v ← keyValue
    let name ← Run.inspect fun s => v.key s
    return (a, name)
  else match key with
    | .propertyName symbol | .ident symbol => return (a, symbol)
    | other => Run.fail (.quoting .badProperty other)

def assignName (scope : Scope) (name : String) (value : Value) : Run Value := do
  let f ← Run.inspect fun s => s.assignable scope name
  Run.update fun s => s.bindName f name ⟨value, false⟩
  return value

def makeFunction (scope : Scope) (name : String) (params : List String) (body : List Node) :
    Run Value := do
  let f ← Run.create fun s =>
    s.makeFunction ⟨params, body, some scope, none⟩ [("name", .str name)] false
  if name.isEmpty then return f
  else
    declare scope name ⟨f, false⟩
    return f

/-- Ends a program: a return gives its value. -/
def endProgram (m : Run Value) : Run Value := fun w =>
  match m w with
  | (.error (.returned v), w') => (.ok v, w')
  | outcome => outcome

/-! ## The tree -/

mutual

def eval (apply : Applier) : Node → Scope → Run Value
  | .program body, scope => endProgram (evalBody apply body scope .null)
  | .declare constant name value, scope => do
    let v ← eval apply value scope
    declare scope name ⟨v, constant⟩
    return v
  | .function name params body, scope => makeFunction scope name params body
  | .giveBack value, scope => do
    let v ← eval apply value scope
    Run.exit (.returned v)
  | .when condition body alternative, scope => do
    if (← eval apply condition scope).isTrue then
      evalBody apply body (← openInside scope) .null
    else evalAlternative apply alternative scope
  | .otherwise body, scope => do evalBody apply body (← openInside scope) .null
  | .number value, _ => return .num (.int value)
  | .string value, _ => return .str value
  | .ident symbol, scope => Run.inspect fun s => s.lookup scope symbol
  | .propertyName symbol, _ => return .str symbol
  | .object entries, scope => do
    let table ← evalEntries apply entries scope .empty
    Run.create fun s => s.make .object table.entries
  | .list elements, scope => do
    let values ← evalAll apply elements scope
    Run.create fun s => s.makeList values
  | .member owner key computed, scope => do
    let (a, name) ← target (eval apply owner scope) key computed (eval apply key scope)
    Run.inspect fun s => .ok (s.getProperty a name)
  | .binary left right symbol, scope => do
    let l ← eval apply left scope
    if Operator.isShortCircuit symbol then
      if Operator.decidedBy symbol l then return l else eval apply right scope
    else
      let r ← eval apply right scope
      Run.inspect fun s => Operator.apply s symbol l r
  | .assign (.ident symbol) value, scope => do
    let v ← eval apply value scope
    assignName scope symbol v
  | .assign (.member owner key computed) value, scope => do
    let v ← eval apply value scope
    let (a, name) ← target (eval apply owner scope) key computed (eval apply key scope)
    Run.update fun s => s.setProperty a name v
    return v
  | .assign other _, _ =>
    match other.kindName? with
    | some kind => Run.fail (.badTarget kind)
    | none => Run.fail .malformed
  | .call (.member owner key computed) args, scope => do
    let (a, name) ← target (eval apply owner scope) key computed (eval apply key scope)
    let f ← Run.inspect fun s => .ok (s.getProperty a name)
    let values ← evalAll apply args scope
    apply f values (some (.ref a))
  | .call callee args, scope => do
    let f ← eval apply callee scope
    let values ← evalAll apply args scope
    apply f values none
  | node@(.property ..), _ | node@(.foreign _), _ => Run.fail (.quoting .unsupported node)

/-- Statements in order; the value of the last one, or `last` if there is none. -/
def evalBody (apply : Applier) : List Node → Scope → Value → Run Value
  | [], _, last => return last
  | node :: rest, scope, _ => do
    let v ← eval apply node scope
    evalBody apply rest scope v

def evalAlternative (apply : Applier) : Option Node → Scope → Run Value
  | none, _ => return .null
  | some node, scope => eval apply node scope

def evalAll (apply : Applier) : List Node → Scope → Run (List Value)
  | [], _ => return []
  | node :: rest, scope => do
    let v ← eval apply node scope
    return v :: (← evalAll apply rest scope)

/-- The entries of an object literal.  Only properties have a key; of the other nodes those that
hold a value have it evaluated before the missing key is noticed. -/
def evalEntries (apply : Applier) : List Node → Scope → Table Value → Run (Table Value)
  | [], _, made => return made
  | .property key none :: rest, scope, made => do
    let v ← Run.inspect fun s => s.lookup scope key
    evalEntries apply rest scope (made.insert key v)
  | .property key (some value) :: rest, scope, made => do
    let v ← eval apply value scope
    evalEntries apply rest scope (made.insert key v)
  | .number value :: _, _, _ => Run.fail (.quoting .unsupported (.foreign (.number value)))
  | .string value :: _, _, _ => Run.fail (.quoting .unsupported (.foreign (.text value)))
  | .declare _ _ (.foreign .nothing) :: _, _, _ => Run.fail .malformed
  | .declare _ _ value :: _, scope, _ => do
    let _ ← eval apply value scope
    Run.fail .malformed
  | .giveBack (.foreign .nothing) :: _, _, _ => Run.fail .malformed
  | .giveBack value :: _, scope, _ => do
    let _ ← eval apply value scope
    Run.fail .malformed
  | _ :: _, _, _ => Run.fail .malformed

end

/-! ## Calls -/

/-- Binds parameters to arguments by position; a missing argument is null. -/
def bindAll (scope : Scope) : List String → List Value → Run Unit
  | [], _ => return ()
  | p :: ps, args => do
    declare scope p ⟨args.headD .null, false⟩
    bindAll scope ps args.tail

/-- The scope of one call of a function. -/
def callScope (c : Closure) (args : List Value) : Run Scope := do
  let scope ← Run.create fun s => s.openFrame ((c.scope.map Scope.chain).getD [])
  bindAll scope c.params args
  return scope

/-- What the end of a body means for its call: a return gives its value and running off the end
gives null; endless printing has exhausted the stack. -/
def outcomeOfBody : Except Exit Value → Except Exit Value
  | .ok _ => .ok .null
  | .error (.returned v) => .ok v
  | .error (.failed .endless) => .error (.failed .stackExhausted)
  | .error e => .error e

/-- Runs the body of a call; the depth comes back however the body ends. -/
def inCall (body : Run Value) : Run Value := fun w =>
  match body w.enter with
  | (outcome, w') => (outcomeOfBody outcome, w'.leave)

/-- A call that no other one is around makes room for all calls that may be nested in it. -/
def reserve (limit : Nat) : Run Unit := do
  if (← Run.world).depth = 0 then Run.makeRoom limit
  else return ()

theorem reserve_apply (limit : Nat) (w : World) :
    reserve limit w = if w.depth = 0 then Run.makeRoom limit w else (.ok (), w) := by
  show (if w.depth = 0 then _ else _ : Run Unit) w = _
  split <;> rfl

/-- What making room for the calls of a limit can do. -/
theorem reserve_cases (limit : Nat) (w : World) :
    ((w.depth = 0 → roomFor limit ≤ w.room) ∧ reserve limit w = (.ok (), w)) ∨
    (w.depth = 0 ∧ w.room < roomFor limit ∧ roomFor limit ≤ mostRoom ∧
      reserve limit w = (.ok (), { w with
        trace := .makingRoom (roomFor limit) :: w.trace, room := roomFor limit })) ∨
    (w.depth = 0 ∧ w.room < roomFor limit ∧ mostRoom < roomFor limit ∧
      reserve limit w = (.error (.failed .noRoom), { w with
        trace := .makingRoom (roomFor limit) :: w.trace })) := by
  rw [reserve_apply]
  by_cases hdepth : w.depth = 0
  · rw [if_pos hdepth]
    rcases Run.makeRoom_cases limit w with ⟨hroom, h⟩ | ⟨hroom, hmost, h⟩ | ⟨hroom, hmost, h⟩
    · exact .inl ⟨fun _ => hroom, h⟩
    · exact .inr (.inl ⟨hdepth, hroom, hmost, h⟩)
    · exact .inr (.inr ⟨hdepth, hroom, hmost, h⟩)
  · rw [if_neg hdepth]
    exact .inl ⟨fun hzero => absurd hzero hdepth, rfl⟩

/-- Making room leaves everything but the notes and the recursion limit as it is. -/
theorem reserve_kept (limit : Nat) (w : World) :
    (reserve limit w).2.store = w.store ∧ (reserve limit w).2.output = w.output ∧
      (reserve limit w).2.depth = w.depth := by
  rcases reserve_cases limit w with ⟨-, h⟩ | ⟨-, -, -, h⟩ | ⟨-, -, -, h⟩ <;>
    exact h.symm ▸ ⟨rfl, rfl, rfl⟩

/-- The store has no part in it. -/
theorem reserve_withStore (limit : Nat) (w : World) (s : Store) :
    reserve limit { w with store := s } =
      ((reserve limit w).1, { (reserve limit w).2 with store := s }) := by
  rw [reserve_apply, reserve_apply]
  split
  · unfold Run.makeRoom
    split
    · rfl
    · dsimp only
      split <;> rfl
  · rfl

theorem reserve_ends (limit : Nat) (w : World) :
    (reserve limit w).1 = .ok () ∨ (reserve limit w).1 = .error (.failed .noRoom) := by
  rcases reserve_cases limit w with ⟨-, h⟩ | ⟨-, -, -, h⟩ | ⟨-, -, -, h⟩
  · exact .inl (congrArg Prod.fst h)
  · exact .inl (congrArg Prod.fst h)
  · exact .inr (congrArg Prod.fst h)

/-- Calls a script function for which there is room; its body may call through `inner`. -/
def callWithin (limit : Nat) (inner : Option Applier) (name : String) (c : Closure)
    (args : List Value) : Run Value := do
  if limit ≤ (← Run.world).depth then Run.fail (.tooDeep name)
  else match inner with
    | none => Run.exit .exhausted
    | some apply =>
      Run.note (.calling name args.length)
      let scope ← callScope c args
      inCall (evalBody apply c.body scope .null)

def callScript (limit : Nat) (inner : Option Applier) (name : String) (c : Closure)
    (args : List Value) : Run Value := do
  reserve limit
  callWithin limit inner name c args

/-- Calls any value; only functions can be called. -/
def applyOver (host : Host) (limit : Nat) (inner : Option Applier) : Applier
  | f, args, self => do
    let s ← Run.store
    match f with
    | .ref a =>
      match (s.object a).shape with
      | .function c =>
        match c.native with
        | some native => native.call host (self.getD f) args
        | none => callScript limit inner (nameOrAnonymous (s.object a).functionName) c args
      | shape => Run.fail (.notCallable shape.typeName)
    | v => Run.fail (.notCallable (s.typeName v))

/-- A script function is called as one. -/
theorem applyOver_script {host : Host} {limit : Nat} {inner : Option Applier} {w : World}
    {a : Address} {c : Closure} (hshape : (w.store.object a).shape = .function c)
    (hnative : c.native = none) (args : List Value) (self : Option Value) :
    applyOver host limit inner (.ref a) args self w =
      callScript limit inner (nameOrAnonymous (w.store.object a).functionName) c args w := by
  rw [applyOver, Run.bind_apply, Run.store]
  simp only [hshape, hnative]

/-- A native function gets the value it was found on, or else itself. -/
theorem applyOver_native {host : Host} {limit : Nat} {inner : Option Applier} {w : World}
    {a : Address} {c : Closure} {native : Native} (hshape : (w.store.object a).shape = .function c)
    (hnative : c.native = some native) (args : List Value) (self : Option Value) :
    applyOver host limit inner (.ref a) args self w =
      native.call host (self.getD (.ref a)) args w := by
  rw [applyOver, Run.bind_apply, Run.store]
  simp only [hshape, hnative]

/-- The applier with a budget of nested calls of script functions. -/
def applier (host : Host) (limit : Nat) : Nat → Applier
  | 0 => applyOver host limit none
  | budget + 1 => applyOver host limit (some (applier host limit budget))

/-- Calls a value under a depth limit. -/
def call (host : Host) (limit : Nat) : Applier := applier host limit limit

theorem call_native {host : Host} {limit : Nat} {w : World} {a : Address} {c : Closure}
    {native : Native} (hshape : (w.store.object a).shape = .function c)
    (hnative : c.native = some native) (args : List Value) (self : Option Value) :
    call host limit (.ref a) args self w = native.call host (self.getD (.ref a)) args w := by
  unfold call
  cases limit <;> exact applyOver_native hshape hnative args self

/-- Evaluates a tree under a depth limit. -/
def evaluate (host : Host) (limit : Nat) (node : Node) (scope : Scope) : Run Value :=
  eval (call host limit) node scope

end Eval

end Guion
