import Guion.Binary64

/-!
# Shortest decimal text

The decimal of a number has the fewest digits that read back as that number; of two such
decimals with equally many digits the nearer one is taken, and an exact tie goes to the even
digit.  `Layout` says where positional notation ends and how an exponent is written.
-/

namespace Guion.Binary64

/-- The positive decimal `digits · 10^exponent`. -/
structure Decimal where
  digits : Nat
  exponent : Int
deriving DecidableEq, Repr, Inhabited

/-! ## Digits -/

/-- Number of decimal digits; one for zero. -/
def digitCount (n : Nat) : Nat := (Nat.toDigits 10 n).length

/-- The `k` with `10^k ≤ num / den < 10^(k+1)`, for a positive ratio. -/
def decimalExponent (num den : Nat) : Int :=
  if den ≤ num then (digitCount (num / den) : Int) - 1
  else
    let k := digitCount (den / num)
    if den ≤ num * Nat.pow 10 (k - 1) then 1 - (k : Int) else -(k : Int)

/-- `num / den` in units of `10^exponent`, again as a ratio. -/
def inUnitsOf (exponent : Int) (num den : Nat) : Nat × Nat :=
  match exponent with
  | .ofNat k => (num, den * Nat.pow 10 k)
  | .negSucc k => (num * Nat.pow 10 (k + 1), den)

/-- The nearer of the two neighbours of `units` on the grid of `10^exponent` that read back. -/
def onGrid (units : Nat) (exponent : Int) : Option Nat :=
  let (num, den) := inUnitsOf exponent units one
  let low := num / den
  let readsBack (d : Nat) := ofDecimal false d exponent == .finite false units
  let twice := 2 * (num % den)
  let lowFirst := twice < den || (twice == den && low % 2 == 0)
  match readsBack low, readsBack (low + 1) with
  | true, true => some (if lowFirst then low else low + 1)
  | true, false => some low
  | false, true => some (low + 1)
  | false, false => none

/-- The first grid, from coarse to fine, on which a neighbour reads back. -/
def firstGrid (units : Nat) (leading : Int) : List Nat → Decimal
  | [] => ⟨0, 0⟩
  | n :: finer =>
    match onGrid units (leading - n) with
    | some d => ⟨d, leading - n⟩
    | none => firstGrid units leading finer

/-- The shortest decimal of `units · 2^-1074`; seventeen digits always suffice. -/
def shortest (units : Nat) : Decimal :=
  if units = 0 then ⟨0, 0⟩
  else firstGrid units (decimalExponent units one) (List.range 17)

/-! ## Layout -/

structure Layout where
  /-- Least decimal exponent written positionally. -/
  positionalFrom : Int
  /-- Least decimal exponent written with an exponent mark again. -/
  scientificFrom : Int
  exponentWidth : Nat
deriving Repr

/-- Positional from `0.0001` up to `10^16`, always with a point; exponents have a sign and at least
two digits. -/
def layout : Layout := ⟨-4, 16, 2⟩

def dropTrailingZeros (digits : List Char) : List Char :=
  (digits.reverse.dropWhile (· == '0')).reverse

def zeros (n : Nat) : List Char := List.replicate n '0'

/-- Digits with the point after the first `before` of them. -/
def positional (digits : List Char) (before : Int) : List Char :=
  if before ≤ 0 then '0' :: '.' :: zeros before.natAbs ++ digits
  else
    let n := before.toNat
    if digits.length ≤ n then digits ++ zeros (n - digits.length) ++ ['.', '0']
    else digits.take n ++ '.' :: digits.drop n

def exponentText (width : Nat) (e : Int) : List Char :=
  let digits := Nat.toDigits 10 e.natAbs
  (if e < 0 then '-' else '+') :: zeros (width - digits.length) ++ digits

def scientific (width : Nat) (digits : List Char) (e : Int) : List Char :=
  let mantissa := match digits with
    | d :: (r :: rest) => d :: '.' :: r :: rest
    | ds => ds
  mantissa ++ 'e' :: exponentText width e

def Layout.text (l : Layout) (d : Decimal) : List Char :=
  if d.digits = 0 then ['0', '.', '0']
  else
    let all := Nat.toDigits 10 d.digits
    let leading := d.exponent + all.length - 1
    let digits := dropTrailingZeros all
    if l.positionalFrom ≤ leading && leading < l.scientificFrom then positional digits (leading + 1)
    else scientific l.exponentWidth digits leading

def signed (negative : Bool) (text : String) : String :=
  if negative then "-" ++ text else text

def text : Binary64 → String
  | .nan => "nan"
  | .infinite negative => signed negative "inf"
  | .finite negative units => signed negative (String.ofList (layout.text (shortest units)))

/-! ## Reading -/

/-- Digits with at most one point, as a whole number and the count of digits after the point. -/
def readMantissa (cs : List Char) : Option (Nat × Nat) :=
  let whole := cs.takeWhile Char.isDigit
  let value (ds : List Char) := ds.foldl (fun n c => 10 * n + (c.toNat - 48)) 0
  match cs.dropWhile Char.isDigit with
  | [] => if whole.isEmpty then none else some (value whole, 0)
  | '.' :: frac =>
    if frac.all Char.isDigit && !(whole.isEmpty && frac.isEmpty) then
      some (value (whole ++ frac), frac.length)
    else none
  | _ => none

def readExponent : List Char → Option Int
  | '-' :: cs => (readMantissa cs).map fun m => -(m.1 : Int)
  | '+' :: cs => (readMantissa cs).map fun m => (m.1 : Int)
  | cs => (readMantissa cs).map fun m => (m.1 : Int)

/-- Reads an unsigned decimal, with or without an exponent. -/
def readUnsigned (negative : Bool) (cs : List Char) : Option Binary64 :=
  if cs == ['i', 'n', 'f'] then some (.infinite negative)
  else if cs == ['n', 'a', 'n'] then some .nan
  else
    let split := cs.span (· != 'e')
    match readMantissa split.1, split.2 with
    | some (digits, places), [] => some (ofDecimal negative digits (-(places : Int)))
    | some (digits, places), _ :: rest =>
      (readExponent rest).map fun e => ofDecimal negative digits (e - places)
    | none, _ => none

def read? (text : String) : Option Binary64 :=
  match text.toList with
  | '-' :: cs => readUnsigned true cs
  | '+' :: cs => readUnsigned false cs
  | cs => readUnsigned false cs

end Guion.Binary64
