import Guion.Datum

/-!
# Operators

`+` adds numbers and joins texts as soon as one operand is a string; `-`, `*`, `/`, `%` need
numbers; `==` and `!=` compare by value, and stored values by identity.  `&` and `|` are no
operators on values: the evaluator decides by the left operand whether the right one is evaluated
at all.
-/

namespace Guion

namespace Operator

/-- The operators that may leave their right operand unevaluated. -/
def isShortCircuit (symbol : String) : Bool := symbol == "&" || symbol == "|"

/-- The left operand decides: a true one for `|`, a false one for `&`. -/
def decidedBy (symbol : String) (left : Value) : Bool := left.isTrue == (symbol == "|")

/-- The arithmetic of the operators that need numbers. -/
def arithmetic? (symbol : String) : Option (Num → Num → Except Num.Fault Num) :=
  if symbol = "-" then some Num.subtract
  else if symbol = "*" then some Num.multiply
  else if symbol = "/" then some Num.divide
  else if symbol = "%" then some Num.modulo
  else none

def onNumbers (s : Store) (symbol : String) (op : Num → Num → Except Num.Fault Num) :
    Value → Value → Except Failure Value
  | .num m, .num n => ((op m n).mapError .numeric).map .num
  | left, right => .error (.notNumbers symbol (s.typeName left) (s.typeName right))

def joinTexts (s : Store) (left right : Value) : Except Failure Value := do
  let l ← s.display left
  let r ← s.display right
  return .str (l ++ r)

def plus (s : Store) (left right : Value) : Except Failure Value :=
  match left, right with
  | .str _, _ | _, .str _ => joinTexts s left right
  | _, _ => onNumbers s "+" Num.add left right

/-- Applies an operator to two evaluated operands. -/
def apply (s : Store) (symbol : String) (left right : Value) : Except Failure Value :=
  if symbol = "+" then plus s left right
  else match arithmetic? symbol with
    | some op => onNumbers s symbol op left right
    | none =>
      if symbol = "==" then .ok (.bool (left.equals right))
      else if symbol = "!=" then .ok (.bool (!left.equals right))
      else .error (.unknownOperator symbol)

end Operator

/-- The property name that a computed key stands for. -/
def Value.key (s : Store) : Value → Except Failure String
  | .str t => .ok t
  | .num n => n.keyText.mapError .numeric
  | v => .error (.badKey (s.typeName v))

end Guion
