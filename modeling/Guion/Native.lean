import Guion.World

/-!
# Functions that are not written in the language

Natives get the value they are called on and the arguments; their result is plain data, which
becomes a value.  Those of the language only look at the store.  Those of the embedding program are
given by a `Host`: either they get the values themselves, and may change the store, or they get what
the values show, and see no store at all.
-/

namespace Guion

/-- The functions of the embedding program, by name. -/
structure Host where
  native : String → Store → Value → List Value → Store × Datum
  dataFunction : String → List Datum → Datum

namespace Store

/-- The source of a function; a native one without a body has none to show. -/
def functionSource (o : Object) (c : Closure) : Except Failure String :=
  if c.native.isSome && c.body.isEmpty then
    .ok ("funcion " ++ o.functionName ++ "(" ++ ", ".intercalate c.params ++
      ")\x7b[codigo nativo]\x7d")
  else (Node.functionSource o.functionName c.params c.body).mapError .unwritable

def sourceOf (s : Store) (v : Value) : Except Failure String :=
  let refused := Except.error (Failure.noSource (s.typeName v))
  match v with
  | .ref a =>
    match (s.object a).closure? with
    | some c => functionSource (s.object a) c
    | none => refused
  | _ => refused

/-- The number of shown entries of a stored value or of characters of a string. -/
def lengthOf (s : Store) : Value → Except Failure Nat
  | .ref a => .ok (s.object a).shown.length
  | .str t => .ok t.length
  | v => .error (.noLength (s.typeName v))

def showOrFail (s : Store) (v : Value) : Except Failure Datum :=
  match s.show? v with
  | some d => .ok d
  | none => .error .endless

end Store

namespace Native

/-- The texts of the arguments on one line, printed only if all of them have one. -/
def printArguments (args : List Value) : Run Unit := do
  let texts ← Run.inspect fun s => args.mapM s.display
  Run.print (" ".intercalate texts ++ "\n")

/-- What a native gives back. -/
def result (host : Host) (native : Native) (self : Value) (args : List Value) : Run Datum :=
  match native with
  | .showSelf => Run.inspect fun s => s.showOrFail self
  | .typeOfSelf => Run.inspect fun s => .ok (.text (s.typeName self))
  | .sourceOfSelf => Run.inspect fun s => (s.sourceOf self).map .text
  | .printLine => do
    printArguments args
    return .null
  | .typeName => Run.inspect fun s => .ok (.text (s.typeName (args.headD .null)))
  | .length =>
    match args with
    | [] => Run.fail .lengthOfNothing
    | v :: _ => Run.inspect fun s => (s.lengthOf v).map fun n => .num (.int n)
  | .text =>
    match args with
    | [] => return .text ""
    | v :: _ => Run.inspect fun s => (s.display v).map .text
  | .foreign name => Run.create fun s => host.native name s self args
  | .dataFunction name => Run.inspect fun s =>
    (args.mapM s.showOrFail).map (host.dataFunction name)

def call (host : Host) (native : Native) (self : Value) (args : List Value) : Run Value := do
  let data ← result host native self args
  Run.attempt fun s => s.ofDatum data

end Native

end Guion
