import Guion.Text.Quoted

/-!
# Tokens

The words of the language.  Every operator is a single character; `==`, `!=`, `||` and `&&` are
pairs of tokens that the grammar joins.  A list of tokens ends with the token `Token.eof`.
-/

namespace Guion

namespace Token

inductive Kind where
  | number | identifier
  | equals | negate | and | or
  | openParen | closeParen | operator | semicolon | comma | dot | colon
  | openBrace | closeBrace | openBracket | closeBracket
  | eof
  | define | constant | function | when | otherwise
deriving DecidableEq, Repr, Inhabited

/-- The name of a kind in messages. -/
def Kind.name : Kind → String
  | .number => "Number"
  | .identifier => "Identifier"
  | .equals => "Equals"
  | .negate => "Negate"
  | .and => "And"
  | .or => "Or"
  | .openParen => "OpenParen"
  | .closeParen => "CloseParen"
  | .operator => "BinaryOperator"
  | .semicolon => "Semicolon"
  | .comma => "Comma"
  | .dot => "Dot"
  | .colon => "Colon"
  | .openBrace => "OpenBrace"
  | .closeBrace => "CloseBrace"
  | .openBracket => "OpenBracket"
  | .closeBracket => "CloseBracket"
  | .eof => "EOF"
  | .define => "Def"
  | .constant => "Const"
  | .function => "Funcion"
  | .when => "Si"
  | .otherwise => "Entonces"

def Kind.all : List Kind :=
  [.number, .identifier, .equals, .negate, .and, .or, .openParen, .closeParen, .operator,
   .semicolon, .comma, .dot, .colon, .openBrace, .closeBrace, .openBracket, .closeBracket, .eof,
   .define, .constant, .function, .when, .otherwise]

def Kind.ofName? (name : String) : Option Kind := Kind.all.find? fun k => k.name == name

end Token

structure Token where
  kind : Token.Kind
  text : String
deriving DecidableEq, Repr, Inhabited

namespace Token

/-- Ends every list of tokens. -/
def eof : Token := ⟨.eof, "EndOfFile"⟩

/-- The word that opens a return statement; elsewhere it is a plain identifier. -/
def returnWord : String := "retorna"

/-- Words that are no identifiers. -/
def keyword? (word : String) : Option Kind :=
  if word = "def" then some .define
  else if word = "const" then some .constant
  else if word = "funcion" then some .function
  else if word = "si" then some .when
  else if word = "entonces" then some .otherwise
  else none

/-- The token of a whole word. -/
def ofWord (word : String) : Token := ⟨(keyword? word).getD .identifier, word⟩

/-- Characters that are tokens by themselves. -/
def single? : Char → Option Kind
  | '(' => some .openParen
  | ')' => some .closeParen
  | '{' => some .openBrace
  | '}' => some .closeBrace
  | '[' => some .openBracket
  | ']' => some .closeBracket
  | '+' | '-' | '*' | '/' | '%' => some .operator
  | '=' => some .equals
  | '!' => some .negate
  | '&' => some .and
  | '|' => some .or
  | ';' => some .semicolon
  | ':' => some .colon
  | ',' => some .comma
  | '.' => some .dot
  | _ => none

def debug (t : Token) : String := "Token(" ++ t.kind.name ++ ", " ++ Text.escaped t.text ++ ")"

def debugList (ts : List Token) : String := "[" ++ ", ".intercalate (ts.map debug) ++ "]"

end Token

end Guion
