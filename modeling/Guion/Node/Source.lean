import Guion.Node.Debug
import Guion.Text.Lines

/-!
# From a tree to source text

The text keeps the structure, not the layout: parentheses stand only where the grammar needs them,
every statement of a body has a line of its own, and a statement that is an expression ends with a
semicolon so that the next line is not read as its continuation.  The host's stack is taken to hold
trees of any depth.
-/

namespace Guion.Node

/-- Why a tree has no source text. -/
inductive Unwritable where
  | foreign (value : Foreign)
  | unknownOperator (symbol : String)
  | digits
deriving DecidableEq, Repr

/-- A value that is no node is quoted, if it has a text. -/
def Unwritable.ofForeign (value : Foreign) : Unwritable :=
  if value.debug?.isSome then .foreign value else .digits

/-! ## Binding strength -/

/-- Binding strength of an infix operator; assignment binds loosest. -/
def operatorStrength? (symbol : String) : Option Nat :=
  if symbol = "=" then some 1
  else if symbol = "|" then some 2
  else if symbol = "&" then some 3
  else if symbol = "==" ∨ symbol = "!=" then some 4
  else if symbol = "+" ∨ symbol = "-" then some 5
  else if symbol = "*" ∨ symbol = "/" ∨ symbol = "%" then some 6
  else none

def assignStrength : Nat := 1

def suffixStrength : Nat := 7

def strength : Node → Nat
  | .assign .. => assignStrength
  | .binary _ _ symbol => (operatorStrength? symbol).getD 0
  | .function .. => 0
  | _ => suffixStrength + 1

/-- The text of an operand, in parentheses if it binds less than its place requires. -/
def guarded (node : Node) (least : Nat) (text : String) : String :=
  if node.strength < least then "(" ++ text ++ ")" else text

/-! ## Statements and blocks -/

/-- Whether a node ends with a semicolon where it stands as a statement: all expressions do, and so
does an anonymous function. -/
def needsSemicolon : Node → Bool
  | .function name _ _ => name.isEmpty
  | .assign .. | .binary .. | .call .. | .member .. | .ident _ | .propertyName _ | .number _
  | .string _ | .property .. | .object _ | .list _ => true
  | _ => false

def terminated (node : Node) (text : String) : String :=
  if node.needsSemicolon then text ++ ";" else text

def margin : String := "  "

/-- A block with one statement a line. -/
def blockText (statements : List String) : String :=
  if statements.isEmpty then "\x7b\x7d"
  else "\x7b\n" ++ String.join (statements.map (Text.indented margin)) ++ "\x7d"

def functionText (name : String) (params : List String) (body : String) : String :=
  (if name.isEmpty then "funcion (" else "funcion " ++ name ++ "(") ++
    ", ".intercalate params ++ ")" ++ body

/-! ## Source text -/

def numberText (value : Int) : Except Unwritable String :=
  (Num.intText value).mapError fun _ => .digits

mutual

def source : Node → Except Unwritable String
  | .program body => do return "\n".intercalate (← sourceStatements body)
  | .declare constant name value => do
    return (if constant then "const " else "def ") ++ name ++ " = " ++ (← source value) ++ ";"
  | .string value => return Text.verbatim value
  | .number value => numberText value
  | .giveBack value => do return "retorna " ++ (← source value) ++ ";"
  | .ident symbol => return symbol
  | .propertyName symbol => return symbol
  | .property key none => return key
  | .property key (some value) => do return key ++ ": " ++ (← source value)
  | .object entries => do
    let texts ← sourceList entries
    return if texts.isEmpty then "\x7b\x7d" else "\x7b " ++ ", ".intercalate texts ++ " \x7d"
  | .list elements => do return "[" ++ ", ".intercalate (← sourceList elements) ++ "]"
  | .member owner key computed => do
    let ownerText := guarded owner suffixStrength (← source owner)
    let keyText ← source key
    return if computed then ownerText ++ "[" ++ keyText ++ "]" else ownerText ++ "." ++ keyText
  | .call callee args => do
    let texts ← sourceList args
    return guarded callee suffixStrength (← source callee) ++ "(" ++ ", ".intercalate texts ++ ")"
  | .binary left right symbol =>
    match operatorStrength? symbol with
    | none => throw (.unknownOperator symbol)
    | some k => do
      let leftText := guarded left k (← source left)
      let rightText := guarded right (k + 1) (← source right)
      return leftText ++ " " ++ symbol ++ " " ++ rightText
  | .assign target value => do
    let targetText := guarded target (assignStrength + 1) (← source target)
    let valueText := guarded value assignStrength (← source value)
    return targetText ++ " = " ++ valueText
  | .function name params body => do
    return functionText name params (blockText (← sourceStatements body))
  | .when condition body none => do
    let conditionText ← source condition
    return "si (" ++ conditionText ++ ") " ++ blockText (← sourceStatements body)
  | .when condition body (some alternative) => do
    let conditionText ← source condition
    let bodyText := blockText (← sourceStatements body)
    return "si (" ++ conditionText ++ ") " ++ bodyText ++ " " ++ (← source alternative)
  | .otherwise body => do return "entonces " ++ blockText (← sourceStatements body)
  | .foreign value => throw (.ofForeign value)

def sourceList : List Node → Except Unwritable (List String)
  | [] => return []
  | node :: rest => do
    let text ← source node
    return text :: (← sourceList rest)

/-- The texts of statements, each ended as its kind requires. -/
def sourceStatements : List Node → Except Unwritable (List String)
  | [] => return []
  | node :: rest => do
    let text ← source node
    return terminated node text :: (← sourceStatements rest)

end

/-- The source of a function given by its parts. -/
def functionSource (name : String) (params : List String) (body : List Node) :
    Except Unwritable String := do
  return functionText name params (blockText (← sourceStatements body))

end Guion.Node
