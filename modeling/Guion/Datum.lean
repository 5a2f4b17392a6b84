import Guion.Scope

/-!
# Plain data

What the embedding program and a script exchange: trees of nulls, booleans, numbers, texts, lists
and records, without identity.  `Store.show?` reads the data out of a value and has no answer for a
value that contains itself; `Store.ofDatum` makes a value from data; `Datum.text` is the text that
printing and concatenation use.  The host's stack is taken to hold data of any depth, so only a
value that contains itself is without data.
-/

namespace Guion

/-- Things of the embedding program that have no runtime value. -/
inductive Unsupported where
  | set
  | bytes (content : List UInt8)
deriving DecidableEq, Repr

inductive Datum where
  | null
  | bool (value : Bool)
  | num (value : Num)
  | text (value : String)
  | list (items : List Datum)
  /-- A fixed sequence; as a value it is a list. -/
  | sequence (items : List Datum)
  /-- Entries in order.  From a script every key is a text; the embedding program may use any data
  without lists and records as a key. -/
  | record (entries : List (Datum × Datum))
  /-- A function of the embedding program with the name it shows. -/
  | function (id name : String)
  | unsupported (thing : Unsupported)
  /-- A runtime value as it is; `held` is the number of the place where the embedding program holds
  it, if it does. -/
  | value (value : Value) (held : Option Nat)
deriving Repr, Inhabited

/-! ## Keys -/

namespace Datum

/-- The number that a key counts as; booleans are 1 and 0. -/
def number? : Datum → Option Num
  | .bool b => some (.int (if b then 1 else 0))
  | .num n => some n
  | _ => none

mutual

/-- Whether two keys address one entry: numbers by value, with the booleans among them, and a value
that is held is one key even if it is not equal to itself. -/
def sameKey : Datum → Datum → Bool
  | .null, .null => true
  | .text s, .text t => s == t
  | .sequence xs, .sequence ys => sameKeys xs ys
  | .function id _, .function other _ => id == other
  | .unsupported x, .unsupported y => x == y
  | .value v held, .value w other => (held.isSome && held == other) || v.equals w
  | x, y =>
    match x.number?, y.number? with
    | some m, some n => m.equals n
    | _, _ => false

def sameKeys : List Datum → List Datum → Bool
  | [], [] => true
  | x :: xs, y :: ys => sameKey x y && sameKeys xs ys
  | _, _ => false

end

def put (key item : Datum) : List (Datum × Datum) → List (Datum × Datum)
  | [] => [(key, item)]
  | (k, v) :: rest => if k.sameKey key then (k, item) :: rest else (k, v) :: put key item rest

/-- A record; a repeated key keeps its first place and takes its last item. -/
def recordOf (entries : List (Datum × Datum)) : Datum :=
  .record (entries.foldl (fun made e => put e.1 e.2 made) [])

end Datum

/-! ## From a value to data -/

namespace Store

def functionLabel (o : Object) : String := "[Funcion: " ++ nameOrAnonymous o.functionName ++ "]"

/-- The data of a value of at most `depth` nested levels.  Functions are labels and their properties
are not visited. -/
def showWithin (s : Store) : Nat → Value → Option Datum
  | _, .null => some .null
  | _, .bool b => some (.bool b)
  | _, .num n => some (.num n)
  | _, .str t => some (.text t)
  | 0, .ref a =>
    match (s.object a).shape with
    | .function _ => some (.text (functionLabel (s.object a)))
    | _ => none
  | depth + 1, .ref a =>
    match (s.object a).shape with
    | .function _ => some (.text (functionLabel (s.object a)))
    | .list => ((s.object a).shown.mapM fun e => s.showWithin depth e.2).map .list
    | .object | .tagged .. =>
      ((s.object a).shown.mapM fun e =>
        (s.showWithin depth e.2).map fun d => (.text e.1, d)).map .record

/-- The data of a value.  No value that ends nests deeper than there are stored values. -/
def show? (s : Store) (v : Value) : Option Datum := s.showWithin s.objects.size v

end Store

/-! ## Text of values and data -/

namespace Value

/-- A value on one line with its kind, the form that listings of variables use. -/
def debug (s : Store) : Value → Except Num.Fault String
  | .null => .ok "NullVal()"
  | .bool b => .ok ("BooleanVal(" ++ flagText b ++ ")")
  | .num n => n.text.map fun t => "NumberVal(" ++ t ++ ")"
  | .str t => .ok ("StringVal(" ++ Text.escaped t ++ ")")
  | .ref a =>
    let o := s.object a
    let keys := ", ".intercalate (o.shown.map Prod.fst)
    let plain (kind : String) :=
      "<" ++ kind ++ " " ++ o.shape.typeName ++ " \x7b" ++ keys ++ "\x7d>"
    match o.shape with
    | .object => .ok (plain "ObjectVal")
    | .list => .ok (plain "ArrayVal")
    | .tagged .. => .ok (plain "ComplexVal")
    | .function c =>
      .ok ("<FunctionVal " ++ nameOrAnonymous o.functionName ++
        (if c.native.isSome then " native (" else " user (") ++ ", ".intercalate c.params ++ ")>")

end Value

namespace Datum

def unsupportedText : Unsupported → String
  | .set => "set()"
  | .bytes content => Text.escapedBytes content

mutual

/-- Data on one line, the form of a fixed sequence inside a text. -/
def debug (s : Store) : Datum → Except Num.Fault String
  | .null => .ok "None"
  | .bool b => .ok (flagText b)
  | .num n => n.text
  | .text t => .ok (Text.escaped t)
  | .list items => do return "[" ++ ", ".intercalate (← debugList s items) ++ "]"
  | .sequence items => do return tupleText (← debugList s items)
  | .record entries => do return "\x7b" ++ ", ".intercalate (← debugEntries s entries) ++ "\x7d"
  | .function _ name => .ok ("<function " ++ name ++ ">")
  | .unsupported thing => .ok (unsupportedText thing)
  | .value v _ => v.debug s

def debugList (s : Store) : List Datum → Except Num.Fault (List String)
  | [] => .ok []
  | d :: ds => do
    let text ← debug s d
    return text :: (← debugList s ds)

def debugEntries (s : Store) : List (Datum × Datum) → Except Num.Fault (List String)
  | [] => .ok []
  | (key, d) :: rest => do
    let keyText ← debug s key
    let text ← debug s d
    return (keyText ++ ": " ++ text) :: (← debugEntries s rest)

end

/-- The property name that a key stands for: a text stands for itself. -/
def keyText (s : Store) : Datum → Except Num.Fault String
  | .text t => .ok t
  | key => key.debug s

mutual

/-- The text of data inside other data, where strings stand in quotes. -/
def nestedText (s : Store) : Datum → Except Num.Fault String
  | .null => .ok "nulo"
  | .bool b => .ok (if b then "verdadero" else "falso")
  | .text t => .ok (Text.verbatim t)
  | .num n => n.text
  | .list items => do return "[" ++ ", ".intercalate (← listTexts s items) ++ "]"
  | .record entries => do
    let texts ← entryTexts s entries
    return if texts.isEmpty then "\x7b\x7d" else "\x7b " ++ ", ".intercalate texts ++ " \x7d"
  | d => d.debug s

def listTexts (s : Store) : List Datum → Except Num.Fault (List String)
  | [] => .ok []
  | d :: ds => do
    let text ← nestedText s d
    return text :: (← listTexts s ds)

def entryTexts (s : Store) : List (Datum × Datum) → Except Num.Fault (List String)
  | [] => .ok []
  | (key, d) :: rest => do
    let keyText ← key.keyText s
    let text ← nestedText s d
    return (keyText ++ ": " ++ text) :: (← entryTexts s rest)

end

/-- The text of data by itself: a string is its own text. -/
def topText (s : Store) : Datum → Except Num.Fault String
  | .text t => .ok t
  | d => d.nestedText s

end Datum

namespace Store

/-- The text of a value in output and in concatenations. -/
def display (s : Store) (v : Value) : Except Failure String :=
  match s.show? v with
  | none => .error .endless
  | some d => (d.topText s).mapError .numeric

end Store

/-! ## From data to a value -/

namespace Store

def unsupportedType : Unsupported → String
  | .set => "set"
  | .bytes _ => "bytes"

mutual

/-- A value for the data; lists and records become new values. -/
def ofDatum (s : Store) : Datum → Except Failure (Store × Value)
  | .value v _ => .ok (s, v)
  | .null => .ok (s, .null)
  | .bool b => .ok (s, .bool b)
  | .num n => .ok (s, .num n)
  | .text t => .ok (s, .str t)
  | .list items => do
    let (s, values) ← ofItems s items
    return s.makeList values
  | .sequence items => do
    let (s, values) ← ofItems s items
    return s.makeList values
  | .record entries => do
    let (s, table) ← ofEntries s .empty entries
    return s.make .object table.entries
  | .function id name =>
    .ok (s.makeFunction (nativeClosure (.dataFunction id)) [("name", .str name)] false)
  | .unsupported thing => .error (.unconvertible (unsupportedType thing))

def ofItems (s : Store) : List Datum → Except Failure (Store × List Value)
  | [] => .ok (s, [])
  | d :: ds => do
    let (s, v) ← ofDatum s d
    let (s, vs) ← ofItems s ds
    return (s, v :: vs)

def ofEntries (s : Store) (made : Table Value) :
    List (Datum × Datum) → Except Failure (Store × Table Value)
  | [] => .ok (s, made)
  | (key, d) :: rest => do
    let name ← (key.keyText s).mapError .numeric
    let (s, v) ← ofDatum s d
    ofEntries s (made.insert name v) rest

end

end Store

end Guion
