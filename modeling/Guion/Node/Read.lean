import Guion.Node
import Guion.Token

/-!
# From tokens to a tree

Recursive descent over the tokens that remain.  Precedence, loosest first:

    assignment       a = b            to the right
    disjunction      a | b, a || b    to the left, as all that follow
    conjunction      a & b, a && b
    equality         a == b, a != b
    sum              a + b, a - b
    product          a * b, a / b, a % b
    operand          -a, a.b, a[b], a(b, c)

Semicolons after statements are optional.  A level of the grammar calls itself through a record
`Inner` of readers for what stands inside it; each such call comes after a token was consumed, so
`inner n` reads whatever `n` tokens can hold.  The end token is never consumed.  The host's stack is
taken to hold any nesting.
-/

namespace Guion.Node

/-! ## Faults -/

/-- What the grammar required at a place. -/
inductive Expected where
  | openBrace | variableName | equalsSign | parenAfterName | parameter | commaInParameters
  | propertyName | closeBracket | commaInArguments | closeParen | commaInProperties
  | commaInElements
deriving DecidableEq, Repr

def Expected.text : Expected → String
  | .openBrace => "'\x7b'"
  | .variableName => "un nombre de variable"
  | .equalsSign => "'=' en la declaracion"
  | .parenAfterName => "'(' tras el nombre de la funcion"
  | .parameter => "un parametro"
  | .commaInParameters => "',' entre parametros"
  | .propertyName => "un nombre de propiedad"
  | .closeBracket => "']'"
  | .commaInArguments => "',' entre argumentos"
  | .closeParen => "')'"
  | .commaInProperties => "',' entre propiedades"
  | .commaInElements => "',' entre elementos"

/-- Why a list of tokens is no program. -/
inductive Fault where
  | expected (what : Expected) (found : Token)
  | unexpected (found : Token)
  | unclosedBlock
  | objectKey (found : Token)
  | missingEnd
  /-- A number token whose text is no integer literal. -/
  | numberText (text : String)
deriving DecidableEq, Repr

/-- The wording of a fault; a number token is refused by the host, in its own words. -/
def Fault.message? : Fault → Option String
  | .expected what found =>
    some ("Se esperaba " ++ what.text ++ ", se encontro " ++ Text.escaped found.text ++
      " (" ++ found.kind.name ++ ")")
  | .unexpected found =>
    some ("Token inesperado " ++ Text.escaped found.text ++ " (" ++ found.kind.name ++ ")")
  | .unclosedBlock => some "Bloque sin cerrar: se esperaba '\x7d'"
  | .objectKey found => some ("Clave de objeto invalida: " ++ Text.escaped found.text)
  | .missingEnd => some "Token stream must end with EOF"
  | .numberText _ => none

/-! ## Token stream -/

/-- A reader takes tokens from the front of those that remain. -/
abbrev Reader (α : Type) := StateT (List Token) (Except Fault) α

namespace Reader

/-- The next token; the end if none remains. -/
def next (ts : List Token) : Token := ts.headD .eof

def peek : Reader Token := fun ts => .ok (next ts, ts)

/-- Consumes a token, unless it is the end. -/
def advance : Reader Token := fun ts =>
  .ok (next ts, if (next ts).kind = .eof then ts else ts.tail)

def expect (kind : Token.Kind) (what : Expected) : Reader String := do
  let t ← advance
  if t.kind = kind then return t.text else throw (.expected what t)

/-- Runs a loop with a bound on its rounds that no loop reaches: each round takes a token. -/
def bounded {α : Type} (loop : Nat → Reader α) : Reader α := fun ts => loop ts.length ts

def skipSemicolons : Reader Unit := fun ts =>
  .ok ((), ts.dropWhile fun t => t.kind == .semicolon)

/-- A comma, unless the closing token follows. -/
def separator (close : Token.Kind) (comma : Expected) : Reader Unit := do
  if (← peek).kind = close then return ()
  else
    let _ ← expect .comma comma
    return ()

/-- Items up to a closing token, which is consumed, with commas between them and optionally after
the last. -/
def items {α : Type} (close : Token.Kind) (comma : Expected) (item : Reader α) :
    Nat → Reader (List α)
  | 0 => throw (.unexpected .eof)
  | n + 1 => do
    if (← peek).kind = close then
      let _ ← advance
      return []
    else
      let x ← item
      separator close comma
      let xs ← items close comma item n
      return x :: xs

end Reader

open Reader

/-- Readers for the constructs that occur inside others. -/
structure Inner where
  expression : Reader Node
  operand : Reader Node
  statement : Reader Node
  conditional : Reader Node

/-! ## Statements -/

/-- Statements up to a token of kind `stop`, which stays. -/
def statements (inner : Inner) (stop : Token.Kind) : Nat → Reader (List Node)
  | 0 => throw (.unexpected .eof)
  | n + 1 => do
    skipSemicolons
    let t ← peek
    if t.kind = stop then return []
    else if t.kind = .eof then throw .unclosedBlock
    else
      let first ← inner.statement
      let rest ← statements inner stop n
      return first :: rest

def block (inner : Inner) : Reader (List Node) := do
  let _ ← expect .openBrace .openBrace
  let body ← bounded (statements inner .closeBrace)
  let _ ← advance
  return body

def readDeclaration (inner : Inner) : Reader Node := do
  let keyword ← advance
  let name ← expect .identifier .variableName
  let _ ← expect .equals .equalsSign
  let value ← inner.expression
  return .declare (keyword.kind == .constant) name value

def optionalName : Reader String := do
  if (← peek).kind = .identifier then return (← advance).text else return ""

def readFunction (inner : Inner) : Reader Node := do
  let _ ← advance
  let name ← optionalName
  let _ ← expect .openParen .parenAfterName
  let params ← bounded (items .closeParen .commaInParameters (expect .identifier .parameter))
  let body ← block inner
  return .function name params body

/-- What follows the body of a conditional: nothing, a block, or another conditional. -/
def readAlternative (inner : Inner) : Reader (Option Node) := do
  if (← peek).kind = .otherwise then
    let _ ← advance
    if (← peek).kind = .when then
      let nested ← inner.conditional
      return some (.otherwise [nested])
    else
      let body ← block inner
      return some (.otherwise body)
  else return none

def readConditional (inner : Inner) : Reader Node := do
  let _ ← advance
  let condition ← inner.expression
  let body ← block inner
  let alternative ← readAlternative inner
  return .when condition body alternative

/-! ## Expressions -/

/-- Recognises an operator at the front of the tokens and gives what follows it. -/
abbrev Connective := List Token → Option (String × List Token)

namespace Connective

/-- One token of a kind, or two of them. -/
def oneOrTwo (kind : Token.Kind) (symbol : String) : Connective
  | [] => none
  | [t] => if t.kind = kind then some (symbol, []) else none
  | t :: u :: rest =>
    if t.kind = kind then some (symbol, if u.kind = kind then rest else u :: rest) else none

def equality : Connective
  | t :: u :: rest =>
    if u.kind = .equals then
      if t.kind = .equals then some ("==", rest)
      else if t.kind = .negate then some ("!=", rest)
      else none
    else none
  | _ => none

/-- An operator token whose text is one of the given ones. -/
def among (symbols : List String) : Connective
  | t :: rest => if t.kind = .operator && symbols.contains t.text then some (t.text, rest) else none
  | [] => none

/-- The pieces of `*/%`. -/
def products : List String := ["*", "/", "%", "*/", "/%", "*/%", ""]

/-- The pieces of `+-`. -/
def sums : List String := ["+", "-", "+-", ""]

end Connective

/-- Further operands of a chain that associates to the left. -/
def chainRest (operator : Connective) (operand : Reader Node) : Nat → Node → Reader Node
  | 0, left => pure left
  | n + 1, left => fun ts =>
    match operator ts with
    | none => .ok (left, ts)
    | some (symbol, rest) => (do
        let right ← operand
        chainRest operator operand n (.binary left right symbol)) rest

def chain (operator : Connective) (operand : Reader Node) : Reader Node := do
  let first ← operand
  bounded fun n => chainRest operator operand n first

/-- The value of an entry after its key, if it has one. -/
def entryValue (inner : Inner) : Reader (Option Node) := do
  if (← peek).kind = .colon then
    let _ ← advance
    let value ← inner.expression
    return some value
  else return none

/-- An entry `key: value` or `key` of an object. -/
def readEntry (inner : Inner) : Reader Node := do
  let key ← advance
  if key.kind = .identifier ∨ key.kind = .number then
    return .property key.text (← entryValue inner)
  else throw (.objectKey key)

def readPrimary (inner : Inner) : Reader Node := do
  let t ← peek
  match t.kind with
  | .number =>
    let _ ← advance
    match Num.readInt? t.text with
    | some value => return .number value
    | none => throw (.numberText t.text)
  | .identifier =>
    let _ ← advance
    return .ident t.text
  | .openParen =>
    let _ ← advance
    let expression ← inner.expression
    let _ ← expect .closeParen .closeParen
    return expression
  | .openBrace =>
    let _ ← advance
    let entries ← bounded (items .closeBrace .commaInProperties (readEntry inner))
    return .object entries
  | .openBracket =>
    let _ ← advance
    let elements ← bounded (items .closeBracket .commaInElements inner.expression)
    return .list elements
  | .function => readFunction inner
  | .operator =>
    if t.text = "-" then
      let _ ← advance
      let negated ← inner.operand
      return .binary (.number 0) negated "-"
    else throw (.unexpected t)
  | _ => throw (.unexpected t)

/-- The accesses and calls that follow an expression. -/
def suffixes (inner : Inner) : Nat → Node → Reader Node
  | 0, expression => pure expression
  | n + 1, expression => do
    match (← peek).kind with
    | .dot =>
      let _ ← advance
      let key ← expect .identifier .propertyName
      suffixes inner n (.member expression (.propertyName key) false)
    | .openBracket =>
      let _ ← advance
      let key ← inner.expression
      let _ ← expect .closeBracket .closeBracket
      suffixes inner n (.member expression key true)
    | .openParen =>
      let _ ← advance
      let args ← bounded (items .closeParen .commaInArguments inner.expression)
      suffixes inner n (.call expression args)
    | _ => return expression

def readOperand (inner : Inner) : Reader Node := do
  let primary ← readPrimary inner
  bounded fun n => suffixes inner n primary

def readProduct (inner : Inner) : Reader Node :=
  chain (Connective.among Connective.products) (readOperand inner)

def readSum (inner : Inner) : Reader Node :=
  chain (Connective.among Connective.sums) (readProduct inner)

def readEquality (inner : Inner) : Reader Node := chain Connective.equality (readSum inner)

def readConjunction (inner : Inner) : Reader Node :=
  chain (Connective.oneOrTwo .and "&") (readEquality inner)

def readDisjunction (inner : Inner) : Reader Node :=
  chain (Connective.oneOrTwo .or "|") (readConjunction inner)

def readExpression (inner : Inner) : Reader Node := do
  let left ← readDisjunction inner
  if (← peek).kind = .equals then
    let _ ← advance
    let right ← inner.expression
    return .assign left right
  else return left

/-- Whether the tokens open the declaration of a named function. -/
def opensNamedFunction : List Token → Bool
  | t :: u :: _ => t.kind == .function && u.kind == .identifier
  | _ => false

def readStatement (inner : Inner) : Reader Node := do
  let ts ← get
  let t := next ts
  if t.kind = .define ∨ t.kind = .constant then readDeclaration inner
  else if opensNamedFunction ts then readFunction inner
  else if t.kind = .when then readConditional inner
  else if t.kind = .identifier ∧ t.text = Token.returnWord then do
    let _ ← advance
    let value ← inner.expression
    return .giveBack value
  else readExpression inner

/-! ## Programs -/

/-- The readers for constructs of at most `n` tokens. -/
def inner : Nat → Inner
  | 0 => ⟨throw (.unexpected .eof), throw (.unexpected .eof), throw (.unexpected .eof),
      throw (.unexpected .eof)⟩
  | n + 1 =>
    { expression := fun ts => readExpression (inner n) ts
      operand := fun ts => readOperand (inner n) ts
      statement := fun ts => readStatement (inner n) ts
      conditional := fun ts => readConditional (inner n) ts }

/-- The statements of a program with the number of tokens before the place where reading stopped. -/
structure Reading where
  body : List Node
  position : Nat

def ofTokens (tokens : List Token) : Except Fault Reading := do
  if tokens.getLast?.map Token.kind = some .eof then
    let (body, rest) ← bounded (statements (inner tokens.length) .eof) tokens
    return ⟨body, tokens.length - rest.length⟩
  else throw .missingEnd

end Guion.Node
