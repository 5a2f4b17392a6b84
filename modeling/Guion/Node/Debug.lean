import Guion.Node
import Guion.Text.Quoted

/-!
# Trees in messages

`Node.debug?` writes a tree on one line with the name of each kind and of each field, the form in
which messages show it.  A tree with an integer that has too many digits for a text has none either.
-/

namespace Guion

def flagText (b : Bool) : String := if b then "True" else "False"

/-- Comma-separated parts in round brackets; a single part keeps its comma. -/
def tupleText : List String → String
  | [] => "()"
  | [a] => "(" ++ a ++ ",)"
  | parts => "(" ++ ", ".intercalate parts ++ ")"

def Foreign.debug? : Foreign → Option String
  | .nothing => some "None"
  | .flag b => some (flagText b)
  | .number i => (Num.intText i).toOption
  | .text s => some (Text.escaped s)
  | .emptyList => some "[]"

namespace Node

/-- The name of a node's kind; a foreign value has none. -/
def kindName? : Node → Option String
  | .program _ => some "Program"
  | .declare .. => some "VarDeclaration"
  | .function .. => some "FunctionDeclaration"
  | .giveBack _ => some "ReturnStatement"
  | .otherwise _ => some "ElseStatement"
  | .when .. => some "IfStatement"
  | .assign .. => some "AssignmentExpr"
  | .binary .. => some "BinaryExpr"
  | .call .. => some "CallExpr"
  | .member .. => some "MemberExpr"
  | .ident _ => some "Identifier"
  | .propertyName _ => some "PropertyIdentifier"
  | .number _ => some "NumericLiteral"
  | .string _ => some "StringLiteral"
  | .property .. => some "Property"
  | .object _ => some "ObjectLiteral"
  | .list _ => some "ArrayLiteral"
  | .foreign _ => none

/-- A kind with its fields, `Kind(field=…, field=…)`. -/
def withFields? (kind : String) (fields : List (String × Option String)) : Option String := do
  let texts ← fields.mapM fun f => f.2.map fun text => f.1 ++ "=" ++ text
  return kind ++ "(" ++ ", ".intercalate texts ++ ")"

mutual

def debug? : Node → Option String
  | .program body => withFields? "Program" [("body", (debugList? body).map tupleText)]
  | .declare constant name value =>
    withFields? "VarDeclaration"
      [("constant", some (flagText constant)), ("identifier", some (Text.escaped name)),
       ("value", debug? value)]
  | .function name params body =>
    withFields? "FunctionDeclaration"
      [("identifier", some (Text.escaped name)),
       ("params", some (tupleText (params.map Text.escaped))),
       ("body", (debugList? body).map tupleText)]
  | .giveBack value => withFields? "ReturnStatement" [("value", debug? value)]
  | .otherwise body => withFields? "ElseStatement" [("body", (debugList? body).map tupleText)]
  | .when condition body alternative =>
    withFields? "IfStatement"
      [("condition", debug? condition), ("body", (debugList? body).map tupleText),
       ("else_", debugOption? alternative)]
  | .assign target value =>
    withFields? "AssignmentExpr" [("left", debug? target), ("right", debug? value)]
  | .binary left right operator =>
    withFields? "BinaryExpr"
      [("left", debug? left), ("right", debug? right), ("operator", some (Text.escaped operator))]
  | .call callee args =>
    withFields? "CallExpr" [("callee", debug? callee), ("args", (debugList? args).map tupleText)]
  | .member owner key computed =>
    withFields? "MemberExpr"
      [("object", debug? owner), ("property", debug? key), ("computed", some (flagText computed))]
  | .ident symbol => withFields? "Identifier" [("symbol", some (Text.escaped symbol))]
  | .propertyName symbol =>
    withFields? "PropertyIdentifier" [("symbol", some (Text.escaped symbol))]
  | .number value => withFields? "NumericLiteral" [("value", (Num.intText value).toOption)]
  | .string value => withFields? "StringLiteral" [("value", some (Text.escaped value))]
  | .property key value =>
    withFields? "Property" [("key", some (Text.escaped key)), ("value", debugOption? value)]
  | .object entries =>
    withFields? "ObjectLiteral" [("properties", (debugList? entries).map tupleText)]
  | .list elements =>
    withFields? "ArrayLiteral" [("properties", (debugList? elements).map tupleText)]
  | .foreign value => value.debug?

def debugList? : List Node → Option (List String)
  | [] => return []
  | n :: ns => do
    let text ← debug? n
    return text :: (← debugList? ns)

def debugOption? : Option Node → Option String
  | none => some "None"
  | some n => debug? n

end

end Node

end Guion
