import Guion.Value
import Guion.Failure

/-!
# Scopes

Declarations land in the innermost frame of a scope; look-ups and assignments walk outward to the
nearest frame that binds the name.
-/

namespace Guion.Store

/-! ## Frames -/

def binds (s : Store) (f : FrameId) (name : String) : Bool := (s.frame f).vars.contains name

/-- A new frame inside the given chain. -/
def openFrame (s : Store) (outer : List FrameId) : Store × Scope :=
  let fresh := s.frames.size
  ({ s with frames := s.frames.push ⟨.empty, []⟩ }, ⟨fresh, outer⟩)

/-! ## Names -/

/-- A name can be declared where the innermost frame does not bind it yet. -/
def mayDeclare (s : Store) (scope : Scope) (name : String) : Except Failure Unit :=
  if s.binds scope.frame name then .error (.redeclared name) else .ok ()

/-- Writes a binding into a frame. -/
def bindName (s : Store) (f : FrameId) (name : String) (binding : Binding) : Store :=
  { s with frames := s.frames.modify f fun frame =>
      { frame with vars := frame.vars.insert name binding } }

def declare (s : Store) (scope : Scope) (name : String) (binding : Binding) :
    Except Failure Store := do
  s.mayDeclare scope name
  return s.bindName scope.frame name binding

/-- Adds a name to the list of globals of the innermost frame. -/
def noteGlobal (s : Store) (scope : Scope) (name : String) : Store :=
  { s with frames := s.frames.modify scope.frame fun frame =>
      { frame with globals := frame.globals ++ [name] } }

/-- The nearest frame of a chain that binds the name. -/
def resolve? (s : Store) (name : String) (chain : List FrameId) : Option FrameId :=
  chain.find? fun f => s.binds f name

/-- The binding that a name has in a scope. -/
def binding? (s : Store) (scope : Scope) (name : String) : Option Binding :=
  (s.resolve? name scope.chain).bind fun f => (s.frame f).vars.find? name

def resolve (s : Store) (scope : Scope) (name : String) : Except Failure FrameId :=
  match s.resolve? name scope.chain with
  | some f => .ok f
  | none => .error (.undeclared name)

def binding (s : Store) (scope : Scope) (name : String) : Except Failure Binding :=
  match s.binding? scope name with
  | some b => .ok b
  | none => .error (.undeclared name)

def lookup (s : Store) (scope : Scope) (name : String) : Except Failure Value :=
  (s.binding scope name).map Binding.value

def isConstant (s : Store) (scope : Scope) (name : String) : Except Failure Bool :=
  (s.binding scope name).map Binding.constant

def isDeclared (s : Store) (scope : Scope) (name : String) : Bool :=
  (s.resolve? name scope.chain).isSome

/-- The frame whose binding an assignment replaces. -/
def assignable (s : Store) (scope : Scope) (name : String) : Except Failure FrameId := do
  if ← s.isConstant scope name then throw (.constantAssigned name)
  else s.resolve scope name

def assign (s : Store) (scope : Scope) (name : String) (value : Value) : Except Failure Store := do
  let f ← s.assignable scope name
  return s.bindName f name ⟨value, false⟩

end Guion.Store
