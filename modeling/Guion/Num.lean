import Guion.Binary64.Decimal
import Guion.Text.Class

/-!
# Numbers

A number is an unbounded integer or a binary64 number.  Integers stay exact under `+`, `-`, `*`,
`%` and under a `/` that leaves no remainder; as soon as one operand is a binary64 number the other
is rounded to one, and that fails if it is out of range.

    Num.divide a b   fails iff b is zero or a result or operand is out of range
    Num.modulo a b   has the sign of b
-/

namespace Guion

inductive Num where
  | int (value : Int)
  | float (value : Binary64)
deriving DecidableEq, Repr, Inhabited

namespace Num

/-- Why a numeric operation has no result. -/
inductive Fault where
  | divisionByZero
  | moduloByZero
  /-- An integer or a quotient of integers beyond the binary64 range. -/
  | outOfRange
  /-- An integer text that is malformed or longer than the digit limit, read or written. -/
  | digits
deriving DecidableEq, Repr

/-! ## Comparison -/

def isZero : Num → Bool
  | .int i => i == 0
  | .float x => x.isZero

/-- Exact numeric equality; nan differs from everything. -/
def equals : Num → Num → Bool
  | .int a, .int b => a == b
  | .int a, .float y => y.equalsInt a
  | .float x, .int b => x.equalsInt b
  | .float x, .float y => x.equals y

/-! ## Arithmetic -/

/-- Refuses a result that rounding took out of range. -/
def inRange : Binary64 → Except Fault Binary64
  | .infinite _ => .error .outOfRange
  | x => .ok x

def toBinary64 : Num → Except Fault Binary64
  | .int i => inRange (.ofInt i)
  | .float x => .ok x

/-- An operation on two binary64 numbers, the integer operand being rounded first. -/
def rounded (op : Binary64 → Binary64 → Binary64) (a b : Num) : Except Fault Num := do
  let x ← a.toBinary64
  let y ← b.toBinary64
  return .float (op x y)

def add : Num → Num → Except Fault Num
  | .int a, .int b => .ok (.int (a + b))
  | a, b => rounded .add a b

def subtract : Num → Num → Except Fault Num
  | .int a, .int b => .ok (.int (a - b))
  | a, b => rounded .sub a b

def multiply : Num → Num → Except Fault Num
  | .int a, .int b => .ok (.int (a * b))
  | a, b => rounded .mul a b

/-- A quotient of integers is an integer if it is exact and else the nearest binary64 number. -/
def quotient : Num → Num → Except Fault Num
  | .int a, .int b =>
    if a % b = 0 then .ok (.int (a / b))
    else .float <$> inRange (.ofRatio (decide (a < 0) != decide (b < 0)) a.natAbs b.natAbs)
  | a, b => rounded .div a b

def divide (a b : Num) : Except Fault Num :=
  if b.isZero then .error .divisionByZero else quotient a b

def remainder : Num → Num → Except Fault Num
  | .int a, .int b => .ok (.int (a.fmod b))
  | a, b => rounded .mod a b

def modulo (a b : Num) : Except Fault Num :=
  if b.isZero then .error .moduloByZero else remainder a b

/-! ## Text -/

/-- No integer text has more digits than this, leading zeros counted. -/
def digitLimit : Nat := 4300

def natText (n : Nat) : String := String.ofList (Nat.toDigits 10 n)

/-- All digits of an integer, however many. -/
def intDigits (i : Int) : String :=
  if i < 0 then "-" ++ natText i.natAbs else natText i.natAbs

def intText (i : Int) : Except Fault String :=
  if i.natAbs < Nat.pow 10 digitLimit then .ok (intDigits i) else .error .digits

def text : Num → Except Fault String
  | .int i => intText i
  | .float x => .ok x.text

/-- The text of a number used as a property name: a whole binary64 number is written as an
integer. -/
def keyText : Num → Except Fault String
  | .int i => intText i
  | .float x =>
    match x.toInt? with
    | some i => intText i
    | none => .ok x.text

/-! ## Integer literals -/

/-- Digits, single underscores allowed between two of them: their value and count, starting from
those already read. -/
def literalDigits (value count : Nat) : List Char → Option (Nat × Nat)
  | [] => some (value, count)
  | '_' :: c :: cs =>
    (Text.digitValue? c).bind fun d => literalDigits (10 * value + d) (count + 1) cs
  | c :: cs => (Text.digitValue? c).bind fun d => literalDigits (10 * value + d) (count + 1) cs

/-- An unsigned literal: it starts with a digit and keeps to the digit limit. -/
def unsignedLiteral : List Char → Option Nat
  | [] => none
  | c :: cs =>
    (Text.digitValue? c).bind fun d =>
      (literalDigits d 1 cs).bind fun (value, count) =>
        if count ≤ digitLimit then some value else none

def signedLiteral : List Char → Option Int
  | '-' :: cs => (unsignedLiteral cs).map fun n => -(n : Int)
  | '+' :: cs => (unsignedLiteral cs).map fun n => (n : Int)
  | cs => (unsignedLiteral cs).map fun n => (n : Int)

/-- Reads an integer literal: blanks around it, a sign and the digits of any script. -/
def readInt? (s : String) : Option Int :=
  signedLiteral (Text.trimBy Text.isNumberBlank s.toList)

end Num

end Guion
