import Guion.Num
import Guion.Node
import Guion.Table

/-!
# Values and the store

Null, booleans, numbers and strings are values by themselves; objects, lists and functions are
references into the store, which also holds the frames of variables.  A scope is the list of frames
from the innermost outward, so its chain is finite by construction.

Every stored value has one ordered table of properties.  Its first entries are the shared methods,
which live at the three lowest addresses.
-/

namespace Guion

abbrev Address := Nat

abbrev FrameId := Nat

/-- A chain of frames: the innermost one and those around it. -/
structure Scope where
  frame : FrameId
  outer : List FrameId
deriving DecidableEq, Repr, Inhabited

def Scope.chain (s : Scope) : List FrameId := s.frame :: s.outer

inductive Value where
  | null
  | bool (value : Bool)
  | num (value : Num)
  | str (value : String)
  | ref (address : Address)
deriving DecidableEq, Repr, Inhabited

namespace Value

/-- Null, `falso`, zero and the empty string are false; everything else is true. -/
def isTrue : Value → Bool
  | .null => false
  | .bool b => b
  | .num n => !n.isZero
  | .str s => !s.isEmpty
  | .ref _ => true

/-- Equality by value, and of stored values by identity. -/
def equals : Value → Value → Bool
  | .null, .null => true
  | .bool a, .bool b => a == b
  | .num m, .num n => m.equals n
  | .str s, .str t => s == t
  | .ref a, .ref b => a == b
  | _, _ => false

end Value

/-! ## Functions -/

/-- Functions that are not written in the language. -/
inductive Native where
  /-- The method that shows the value it is called on. -/
  | showSelf
  /-- The method that names the type of the value it is called on. -/
  | typeOfSelf
  /-- The method that gives the source of the function it is called on. -/
  | sourceOfSelf
  | printLine
  | typeName
  | length
  | text
  /-- A function of the embedding program that sees runtime values. -/
  | foreign (name : String)
  /-- A function of the embedding program that sees plain data. -/
  | dataFunction (name : String)
deriving DecidableEq, Repr, Inhabited

structure Closure where
  params : List String
  body : List Node
  /-- The scope in which the function was made. -/
  scope : Option Scope
  native : Option Native
deriving DecidableEq, Repr, Inhabited

/-! ## Stored values -/

inductive Shape where
  | object
  | list
  | function (closure : Closure)
  /-- A value of a named type, made as an extension of objects or not. -/
  | tagged (type : String) (extendsObject : Bool)
deriving DecidableEq, Repr, Inhabited

def Shape.typeName : Shape → String
  | .object => "objeto"
  | .list => "lista"
  | .function _ => "funcion"
  | .tagged type _ => type

structure Object where
  shape : Shape
  properties : Table Value
deriving DecidableEq, Repr, Inhabited

structure Binding where
  value : Value
  constant : Bool
deriving DecidableEq, Repr, Inhabited

structure Frame where
  vars : Table Binding
  /-- Names declared as globals, in order of declaration. -/
  globals : List String
deriving DecidableEq, Repr, Inhabited

structure Store where
  frames : Array Frame
  objects : Array Object
deriving DecidableEq, Repr, Inhabited

/-! ## Property names -/

/-- Names such as `__pintar__` are hidden when a value is shown. -/
def isHidden (name : String) : Bool :=
  let cs := name.toList
  4 < cs.length && ['_', '_'].isPrefixOf cs && ['_', '_'].isPrefixOf cs.reverse

namespace Object

/-- The entries that are shown, in order. -/
def shown (o : Object) : List (String × Value) :=
  o.properties.entries.filter fun e => !isHidden e.1

/-- A missing property reads as null. -/
def get (o : Object) (key : String) : Value := (o.properties.find? key).getD .null

def closure? (o : Object) : Option Closure :=
  match o.shape with
  | .function c => some c
  | _ => none

/-- The name of a function; empty unless its property `name` is a string. -/
def functionName (o : Object) : String :=
  match o.properties.find? "name" with
  | some (.str s) => s
  | _ => ""

end Object

/-- The name under which messages mention a function. -/
def nameOrAnonymous (name : String) : String := if name.isEmpty then "<anonima>" else name

/-! ## The store -/

namespace Store

def showAddress : Address := 0

def typeOfAddress : Address := 1

def sourceAddress : Address := 2

/-- The properties with which every stored value starts. -/
def baseProperties : Table Value :=
  ⟨[("__pintar__", .ref showAddress), ("__typeof__", .ref typeOfAddress)]⟩

/-- The further properties with which functions start. -/
def functionProperties : List (String × Value) :=
  [("aCadena", .ref sourceAddress), ("name", .str "")]

def nativeClosure (native : Native) : Closure := ⟨[], [], none, some native⟩

def sharedMethod (native : Native) (name : String) : Object :=
  ⟨.function (nativeClosure native), baseProperties.insert "name" (.str name)⟩

/-- The store with nothing but the shared methods. -/
def initial : Store :=
  ⟨#[], #[sharedMethod .showSelf "__pintar__", sharedMethod .typeOfSelf "__typeof__",
    sharedMethod .sourceOfSelf "aCadena"]⟩

def object (s : Store) (a : Address) : Object := s.objects[a]?.getD default

def frame (s : Store) (f : FrameId) : Frame := s.frames[f]?.getD default

/-! ### New values -/

def alloc (s : Store) (o : Object) : Store × Value :=
  let fresh := s.objects.size
  ({ s with objects := s.objects.push o }, .ref fresh)

/-- A value of the given shape; the entries may override the properties it starts with. -/
def make (s : Store) (shape : Shape) (entries : List (String × Value)) : Store × Value :=
  s.alloc ⟨shape, baseProperties.insertAll entries⟩

/-- Elements under the names `0`, `1`, … -/
def indexed (values : List Value) : List (String × Value) :=
  values.zipIdx.map fun e => (Num.natText e.2, e.1)

def makeList (s : Store) (values : List Value) : Store × Value :=
  s.make .list (indexed values)

/-- A function; `plain` ones start without the properties of functions. -/
def makeFunction (s : Store) (closure : Closure) (entries : List (String × Value)) (plain : Bool) :
    Store × Value :=
  s.make (.function closure) ((if plain then [] else functionProperties) ++ entries)

/-! ### Properties -/

def getProperty (s : Store) (a : Address) (key : String) : Value := (s.object a).get key

def setProperty (s : Store) (a : Address) (key : String) (value : Value) : Store :=
  { s with objects := s.objects.modify a fun o =>
      { o with properties := o.properties.insert key value } }

/-! ### Types -/

def typeName (s : Store) : Value → String
  | .null => "nulo"
  | .bool _ => "booleano"
  | .num _ => "numero"
  | .str _ => "cadena"
  | .ref a => (s.object a).shape.typeName

end Store

end Guion
