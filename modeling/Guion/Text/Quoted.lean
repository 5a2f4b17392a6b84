import Guion.Text.Printable

/-!
# Quoted text

Two ways to quote.  `escaped` is the form that messages use: it is one line and every unprintable
character is written as an escape.  `verbatim` is the form of the language itself: nothing is
escaped, and the quotes are double unless the text holds a double quote.
-/

namespace Guion.Text

/-! ## Escaped, for messages -/

/-- Lower-case hexadecimal, at least `width` digits. -/
def hex (width n : Nat) : List Char :=
  let digits := Nat.toDigits 16 n
  List.replicate (width - digits.length) '0' ++ digits

def escapeCode (n : Nat) : List Char :=
  if n < 0x100 then '\\' :: 'x' :: hex 2 n
  else if n < 0x10000 then '\\' :: 'u' :: hex 4 n
  else '\\' :: 'U' :: hex 8 n

def escapeChar (delimiter c : Char) : List Char :=
  if c == '\\' || c == delimiter then ['\\', c]
  else if c == '\n' then ['\\', 'n']
  else if c == '\r' then ['\\', 'r']
  else if c == '\t' then ['\\', 't']
  else if isPrintable c then [c]
  else escapeCode c.toNat

/-- Single quotes, or double ones if the text holds a single quote and no double one. -/
def delimiterOf (cs : List Char) : Char :=
  if cs.contains '\'' && !cs.contains '"' then '"' else '\''

def escaped (s : String) : String :=
  let delimiter := delimiterOf s.toList
  String.ofList (delimiter :: s.toList.flatMap (escapeChar delimiter) ++ [delimiter])

/-- The escaped form of a sequence of bytes: those beyond ASCII are escapes too. -/
def escapedBytes (bytes : List UInt8) : String :=
  let delimiter := delimiterOf (bytes.map fun b => Char.ofNat b.toNat)
  let one (b : UInt8) :=
    if b < 0x80 then escapeChar delimiter (Char.ofNat b.toNat) else escapeCode b.toNat
  String.ofList ('b' :: delimiter :: bytes.flatMap one ++ [delimiter])

/-! ## Verbatim, in the language -/

def quotesFor (s : String) : String := if s.toList.contains '"' then "'" else "\""

def verbatim (s : String) : String := quotesFor s ++ s ++ quotesFor s

end Guion.Text
