import Guion.Eval

/-!
# Built-in globals

Four functions, which a script may rebind, and three constants.  Both are declared as globals of
the frame in which they are installed.
-/

namespace Guion.Builtin

def functions : List (String × Native) :=
  [("pintar", .printLine), ("tipoDe", .typeName), ("longitud", .length), ("aCadena", .text)]

def constants : List (String × Value) :=
  [("verdadero", .bool true), ("falso", .bool false), ("nulo", .null)]

/-- Declares a name, as a global if so asked. -/
def declareName (scope : Scope) (name : String) (value : Value) (constant isGlobal : Bool) :
    Run Value := do
  Eval.declare scope name ⟨value, constant⟩
  if isGlobal then
    Run.update fun s => s.noteGlobal scope name
    Run.note (.registeredGlobal name constant)
    return value
  else return value

def declareAll (scope : Scope) (constant : Bool) : List (String × Value) → Run Unit
  | [] => return ()
  | (name, value) :: rest => do
    let _ ← declareName scope name value constant true
    declareAll scope constant rest

/-- Declares variables first, then constants. -/
def defineGlobals (scope : Scope) (mutable constant : List (String × Value)) : Run Unit := do
  declareAll scope false mutable
  declareAll scope true constant

def makeFunctions : List (String × Native) → Run (List (String × Value))
  | [] => return []
  | (name, native) :: rest => do
    let f ← Run.create fun s =>
      s.makeFunction (Store.nativeClosure native) [("name", .str name)] false
    return (name, f) :: (← makeFunctions rest)

/-- Installs the built-ins. -/
def register (scope : Scope) : Run Unit := do
  let made ← makeFunctions functions
  defineGlobals scope made constants
  let s ← Run.store
  Run.note (.registeredAll (s.frame scope.frame).globals.length)

end Guion.Builtin
