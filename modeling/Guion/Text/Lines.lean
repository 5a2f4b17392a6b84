/-!
# Lines of a text

A line ends at any of ten boundaries, of which a carriage return with its line feed counts once.
The boundary is no part of the line, and a boundary at the very end opens no further line.
-/

namespace Guion.Text

def lineBoundaries : List Char :=
  ['\n', '\r', '\x0b', '\x0c', '\x1c', '\x1d', '\x1e', '\x85', '\u2028', '\u2029']

def isLineBoundary (c : Char) : Bool := lineBoundaries.contains c

/-- Puts a character in front of the first line. -/
def extendFirst (c : Char) : List (List Char) → List (List Char)
  | [] => [[c]]
  | line :: rest => (c :: line) :: rest

def splitLines : List Char → List (List Char)
  | [] => []
  | '\r' :: '\n' :: cs => [] :: splitLines cs
  | c :: cs => if isLineBoundary c then [] :: splitLines cs else extendFirst c (splitLines cs)

/-- Every line of the text behind a margin and with a line feed. -/
def indented (margin s : String) : String :=
  (splitLines s.toList).foldl (fun text line => text ++ margin ++ String.ofList line ++ "\n") ""

end Guion.Text
