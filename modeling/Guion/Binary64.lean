/-!
# Binary64 numbers as exact multiples

Every finite number of the 64-bit binary format is a whole multiple of the least positive one,
`2^-1074`.  A finite number is kept as that multiple with its sign, so sums, products, quotients
and remainders are integer arithmetic followed by one rounding:

    roundUnits num den   the multiple nearest to num / den that 53 bits can hold, ties to even

Beyond the range the result is an infinity.  The two zeros differ only in their sign.
-/

namespace Guion

inductive Binary64 where
  | nan
  | infinite (negative : Bool)
  /-- The number `± units · 2^-1074`. -/
  | finite (negative : Bool) (units : Nat)
deriving DecidableEq, Repr, Inhabited

namespace Binary64

/-! ## Rounding -/

/-- Number of units in one: `2^1074`. -/
def one : Nat := Nat.pow 2 1074

/-- The first multiple out of range: `2^1024` in units. -/
def bound : Nat := Nat.pow 2 2098

/-- The whole number nearest to `num / den`, a half going to the even neighbour. -/
def nearestEven (num den : Nat) : Nat :=
  let q := num / den
  let twice := 2 * (num % den)
  if twice < den then q
  else if den < twice then q + 1
  else if q % 2 = 0 then q else q + 1

/-- `num / den` to the nearest number of at most 53 significant bits. -/
def roundUnits (num den : Nat) : Nat :=
  let drop := (num / den).log2 - 52
  nearestEven num (den <<< drop) <<< drop

def ofUnits (negative : Bool) (units : Nat) : Binary64 :=
  if units < bound then .finite negative units else .infinite negative

/-- The number nearest to `± num / den`. -/
def ofRatio (negative : Bool) (num den : Nat) : Binary64 :=
  ofUnits negative (roundUnits (num * one) den)

def ofInt (i : Int) : Binary64 :=
  ofRatio (decide (i < 0)) i.natAbs 1

/-- The number nearest to `± digits · 10^exponent`. -/
def ofDecimal (negative : Bool) (digits : Nat) (exponent : Int) : Binary64 :=
  match exponent with
  | .ofNat k => ofRatio negative (digits * Nat.pow 10 k) 1
  | .negSucc k => ofRatio negative digits (Nat.pow 10 (k + 1))

/-! ## Observations -/

def isZero : Binary64 → Bool
  | .finite _ units => units == 0
  | _ => false

def isNegative : Binary64 → Bool
  | .nan => false
  | .infinite negative => negative
  | .finite negative _ => negative

/-- The signed multiple of a finite number. -/
def signedUnits (negative : Bool) (units : Nat) : Int :=
  if negative then -(units : Int) else units

/-- Numeric equality: nan equals nothing and the two zeros are equal. -/
def equals : Binary64 → Binary64 → Bool
  | .infinite a, .infinite b => a == b
  | .finite s a, .finite t b => signedUnits s a == signedUnits t b
  | _, _ => false

/-- Equality with a whole number, without rounding it. -/
def equalsInt : Binary64 → Int → Bool
  | .finite s a, i => signedUnits s a == i * one
  | _, _ => false

/-- The whole number that `x` is, if it is one. -/
def toInt? : Binary64 → Option Int
  | .finite s a => if a % one = 0 then some (signedUnits s (a / one)) else none
  | _ => none

/-! ## Arithmetic -/

def neg : Binary64 → Binary64
  | .nan => .nan
  | .infinite s => .infinite (!s)
  | .finite s a => .finite (!s) a

/-- An exact sum of zero is negative only if both terms are. -/
def add : Binary64 → Binary64 → Binary64
  | .nan, _ | _, .nan => .nan
  | .infinite s, .infinite t => if s == t then .infinite s else .nan
  | .infinite s, .finite .. => .infinite s
  | .finite .., .infinite t => .infinite t
  | .finite s a, .finite t b =>
    let sum := signedUnits s a + signedUnits t b
    if sum = 0 then .finite (s && t) 0
    else ofUnits (decide (sum < 0)) (roundUnits sum.natAbs 1)

def sub (x y : Binary64) : Binary64 := add x (neg y)

def mul : Binary64 → Binary64 → Binary64
  | .nan, _ | _, .nan => .nan
  | .infinite s, .infinite t => .infinite (s != t)
  | .infinite s, .finite t b => if b = 0 then .nan else .infinite (s != t)
  | .finite s a, .infinite t => if a = 0 then .nan else .infinite (s != t)
  | .finite s a, .finite t b => ofUnits (s != t) (roundUnits (a * b) one)

/-- Division; a zero divisor gives nan. -/
def div : Binary64 → Binary64 → Binary64
  | .nan, _ | _, .nan => .nan
  | .infinite _, .infinite _ => .nan
  | .infinite s, .finite t _ => .infinite (s != t)
  | .finite s _, .infinite t => .finite (s != t) 0
  | .finite s a, .finite t b => if b = 0 then .nan else ofRatio (s != t) a b

/-- The remainder of division truncated toward zero, with the sign of the dividend. -/
def truncatedMod : Binary64 → Binary64 → Binary64
  | .nan, _ | _, .nan | .infinite _, _ => .nan
  | x, .infinite _ => x
  | .finite s a, .finite _ b => if b = 0 then .nan else .finite s (a % b)

/-- The remainder with the sign of the divisor, also when it is zero. -/
def mod (x y : Binary64) : Binary64 :=
  let r := truncatedMod x y
  if r.isZero then .finite y.isNegative 0
  else if y.isNegative != r.isNegative then add r y
  else r

end Binary64

end Guion
