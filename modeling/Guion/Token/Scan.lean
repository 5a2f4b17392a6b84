import Guion.Token

/-!
# From text to tokens

One pass over the characters with no lookahead.  A run of digits is a number, a run of word
characters that starts with no digit is an identifier or a keyword, blanks separate, and the first
character outside the alphabet is reported with its place.
-/

namespace Guion.Token

/-! ## Places -/

/-- A place in a text, both counts starting from one. -/
structure Place where
  line : Nat
  column : Nat
deriving DecidableEq, Repr

namespace Place

def start : Place := ⟨1, 1⟩

def after (p : Place) (c : Char) : Place :=
  if c = '\n' then ⟨p.line + 1, 1⟩ else ⟨p.line, p.column + 1⟩

end Place

/-- A character outside the alphabet. -/
structure Illegal where
  char : Char
  place : Place
deriving DecidableEq, Repr

/-! ## The alphabet -/

def isWordChar (c : Char) : Bool := c.isAlphanum || c == '_' || c == '$'

def isSpace (c : Char) : Bool := c == ' ' || c == '\n' || c == '\t' || c == '\r'

/-! ## Scanning -/

/-- The run that is being read, its characters in reverse. -/
inductive Pending where
  | none
  | number (reversed : List Char)
  | word (reversed : List Char)
deriving DecidableEq, Repr

namespace Pending

/-- The run with one more character, if the character belongs to it. -/
def extend? : Pending → Char → Option Pending
  | .number cs, c => if c.isDigit then some (.number (c :: cs)) else Option.none
  | .word cs, c => if isWordChar c then some (.word (c :: cs)) else Option.none
  | .none, _ => Option.none

/-- The run that a character opens. -/
def opened? (c : Char) : Option Pending :=
  if c.isDigit then some (.number [c])
  else if isWordChar c then some (.word [c])
  else Option.none

/-- The tokens of a finished run, in front of those that follow. -/
def close : Pending → List Token → List Token
  | .none, ts => ts
  | .number cs, ts => ⟨.number, String.ofList cs.reverse⟩ :: ts
  | .word cs, ts => ofWord (String.ofList cs.reverse) :: ts

end Pending

def scanFrom (pending : Pending) (place : Place) : List Char → Except Illegal (List Token)
  | [] => .ok (pending.close [eof])
  | c :: cs =>
    match pending.extend? c with
    | some longer => scanFrom longer (place.after c) cs
    | none =>
      match single? c, Pending.opened? c with
      | some kind, _ =>
        (scanFrom .none (place.after c) cs).map fun ts => pending.close (⟨kind, c.toString⟩ :: ts)
      | none, some fresh => (scanFrom fresh (place.after c) cs).map pending.close
      | none, none =>
        if isSpace c then (scanFrom .none (place.after c) cs).map pending.close
        else .error ⟨c, place⟩

/-- The tokens of a text, ended by `eof`. -/
def scan (source : String) : Except Illegal (List Token) :=
  scanFrom .none .start source.toList

end Guion.Token
