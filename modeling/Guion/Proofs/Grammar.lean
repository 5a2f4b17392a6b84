import Guion.Node.Read
import Guion.Proofs.Literal

/-!
# The grammar

`Derives p w` says that the tokens `w` are a phrase `p` of the language, the tree of the phrase
being part of `p`.  The rules are stratified: five levels of infix operators, all of them to the
left, between assignment, which goes to the right, and operands.  Nothing here looks ahead.  The one
place where two phrases stand side by side without a token of their own between them is a statement
after a statement: one that ends in an expression must not be followed by a token that could go on
with it.
-/

namespace Guion.Node

open Token (Kind)

/-! ## Levels of operators -/

/-- The levels of infix operators, loosest first. -/
inductive Level where
  | disjunction | conjunction | equality | sum | product
deriving DecidableEq, Repr

/-- The ways to write an operator of a level, with the symbol it has in the tree. -/
inductive Level.Operator : Level → List Token → String → Prop
  | or {t : Token} : t.kind = .or → Operator .disjunction [t] "|"
  | orOr {t u : Token} : t.kind = .or → u.kind = .or → Operator .disjunction [t, u] "|"
  | and {t : Token} : t.kind = .and → Operator .conjunction [t] "&"
  | andAnd {t u : Token} : t.kind = .and → u.kind = .and → Operator .conjunction [t, u] "&"
  | equal {t u : Token} : t.kind = .equals → u.kind = .equals → Operator .equality [t, u] "=="
  | differ {t u : Token} : t.kind = .negate → u.kind = .equals → Operator .equality [t, u] "!="
  | sum {t : Token} : t.kind = .operator → t.text = "+" ∨ t.text = "-" → Operator .sum [t] t.text
  | product {t : Token} : t.kind = .operator → t.text = "*" ∨ t.text = "/" ∨ t.text = "%" →
      Operator .product [t] t.text

/-! ## Phrases -/

/-- How a statement ends: with the brace of a block or with an expression. -/
inductive Ending where
  | brace | expression
deriving DecidableEq, Repr

inductive Phrase where
  | statements (body : List Node)
  | statement (ending : Ending) (tree : Node)
  | block (body : List Node)
  | conditional (tree : Node)
  | alternative (tree : Option Node)
  | function (tree : Node)
  | expression (tree : Node)
  | chain (level : Level) (tree : Node)
  /-- An expression that no infix operator outside of brackets is part of, or a negation. -/
  | operand (tree : Node)
  /-- An atom with the accesses and calls that follow it. -/
  | suffixed (tree : Node)
  | atom (tree : Node)
  /-- An entry of an object. -/
  | entry (tree : Node)
  | elements (trees : List Node)
  | entries (trees : List Node)

/-- What the operators of a level join. -/
def Level.operand : Level → Node → Phrase
  | .disjunction => .chain .conjunction
  | .conjunction => .chain .equality
  | .equality => .chain .sum
  | .sum => .chain .product
  | .product => .operand

/-! ## Parts without a tree of their own -/

def Semicolons (w : List Token) : Prop := ∀ t ∈ w, t.kind = .semicolon

/-- The name of a function, which may be missing. -/
inductive Named : String → List Token → Prop
  | anonymous : Named "" []
  | name {t : Token} : t.kind = .identifier → Named t.text [t]

/-- Parameters with commas between them and perhaps after the last. -/
inductive Params : List String → List Token → Prop
  | nil : Params [] []
  | last {t : Token} : t.kind = .identifier → Params [t.text] [t]
  | cons {t c : Token} {ps : List String} {w : List Token} : t.kind = .identifier →
      c.kind = .comma → Params ps w → Params (t.text :: ps) (t :: c :: w)

/-- The tokens open the declaration of a named function. -/
def OpensNamed (w : List Token) : Prop :=
  ∃ f i v, w = f :: i :: v ∧ f.kind = .function ∧ i.kind = .identifier

/-- The tokens open a return statement. -/
def OpensReturn (w : List Token) : Prop :=
  ∃ r v, w = r :: v ∧ r.kind = .identifier ∧ r.text = Token.returnWord

/-- A token that goes on with the expression in front of it, although it could open a statement. -/
def Joins (t : Token) : Prop :=
  t.kind = .openParen ∨ t.kind = .openBracket ∨ (t.kind = .operator ∧ t.text = "-")

/-! ## Derivations -/

inductive Derives : Phrase → List Token → Prop
  | noStatement {gap : List Token} : Semicolons gap → Derives (.statements []) gap
  | moreStatements {gap w v : List Token} {ending : Ending} {first : Node} {rest : List Node} :
      Semicolons gap → Derives (.statement ending first) w → Derives (.statements rest) v →
      (ending = .expression → ∀ t ∈ v.head?, ¬ Joins t) →
      Derives (.statements (first :: rest)) (gap ++ (w ++ v))
  | block {o c : Token} {w : List Token} {body : List Node} :
      o.kind = .openBrace → Derives (.statements body) w → c.kind = .closeBrace →
      Derives (.block body) (o :: (w ++ [c]))
  | declaration {k i e : Token} {w : List Token} {value : Node} :
      k.kind = .define ∨ k.kind = .constant → i.kind = .identifier → e.kind = .equals →
      Derives (.expression value) w →
      Derives (.statement .expression (.declare (k.kind == .constant) i.text value))
        (k :: i :: e :: w)
  | namedFunction {w : List Token} {n : Node} :
      OpensNamed w → Derives (.function n) w → Derives (.statement .brace n) w
  | conditionalStatement {w : List Token} {n : Node} :
      Derives (.conditional n) w → Derives (.statement .brace n) w
  | giveBack {r : Token} {w : List Token} {value : Node} :
      r.kind = .identifier → r.text = Token.returnWord → Derives (.expression value) w →
      Derives (.statement .expression (.giveBack value)) (r :: w)
  | expressionStatement {w : List Token} {n : Node} :
      Derives (.expression n) w → ¬ OpensNamed w → ¬ OpensReturn w →
      Derives (.statement .expression n) w
  | conditional {s : Token} {w v u : List Token} {condition : Node} {body : List Node}
      {alternative : Option Node} :
      s.kind = .when → Derives (.expression condition) w → Derives (.block body) v →
      Derives (.alternative alternative) u →
      Derives (.conditional (.when condition body alternative)) (s :: (w ++ (v ++ u)))
  | noAlternative : Derives (.alternative none) []
  | otherwise {e : Token} {w : List Token} {body : List Node} :
      e.kind = .otherwise → Derives (.block body) w →
      Derives (.alternative (some (.otherwise body))) (e :: w)
  | otherwiseWhen {e : Token} {w : List Token} {n : Node} :
      e.kind = .otherwise → Derives (.conditional n) w →
      Derives (.alternative (some (.otherwise [n]))) (e :: w)
  | function {f o c : Token} {i w v : List Token} {name : String} {params : List String}
      {body : List Node} :
      f.kind = .function → Named name i → o.kind = .openParen → Params params w →
      c.kind = .closeParen → Derives (.block body) v →
      Derives (.function (.function name params body)) (f :: (i ++ o :: (w ++ c :: v)))
  | disjunction {w : List Token} {n : Node} :
      Derives (.chain .disjunction n) w → Derives (.expression n) w
  | assign {e : Token} {w v : List Token} {target value : Node} :
      Derives (.chain .disjunction target) w → e.kind = .equals → Derives (.expression value) v →
      Derives (.expression (.assign target value)) (w ++ e :: v)
  | single {level : Level} {w : List Token} {n : Node} :
      Derives (level.operand n) w → Derives (.chain level n) w
  | binary {level : Level} {w op v : List Token} {left right : Node} {symbol : String} :
      Derives (.chain level left) w → level.Operator op symbol → Derives (level.operand right) v →
      Derives (.chain level (.binary left right symbol)) (w ++ (op ++ v))
  | negation {t : Token} {w : List Token} {n : Node} :
      t.kind = .operator → t.text = "-" → Derives (.operand n) w →
      Derives (.operand (.binary (.number 0) n "-")) (t :: w)
  | operand {w : List Token} {n : Node} : Derives (.suffixed n) w → Derives (.operand n) w
  | suffixed {w : List Token} {n : Node} : Derives (.atom n) w → Derives (.suffixed n) w
  | member {d i : Token} {w : List Token} {n : Node} :
      Derives (.suffixed n) w → d.kind = .dot → i.kind = .identifier →
      Derives (.suffixed (.member n (.propertyName i.text) false)) (w ++ [d, i])
  | index {o c : Token} {w v : List Token} {n key : Node} :
      Derives (.suffixed n) w → o.kind = .openBracket → Derives (.expression key) v →
      c.kind = .closeBracket → Derives (.suffixed (.member n key true)) (w ++ o :: (v ++ [c]))
  | call {o c : Token} {w v : List Token} {n : Node} {args : List Node} :
      Derives (.suffixed n) w → o.kind = .openParen → Derives (.elements args) v →
      c.kind = .closeParen → Derives (.suffixed (.call n args)) (w ++ o :: (v ++ [c]))
  | number {t : Token} : t.kind = .number → Token.IsDigits t.text.toList →
      t.text.toList.length ≤ Num.digitLimit →
      Derives (.atom (.number (Nat.ofDigitChars 10 t.text.toList 0))) [t]
  | ident {t : Token} : t.kind = .identifier → Derives (.atom (.ident t.text)) [t]
  | parens {o c : Token} {w : List Token} {n : Node} :
      o.kind = .openParen → Derives (.expression n) w → c.kind = .closeParen →
      Derives (.atom n) (o :: (w ++ [c]))
  | object {o c : Token} {w : List Token} {entries : List Node} :
      o.kind = .openBrace → Derives (.entries entries) w → c.kind = .closeBrace →
      Derives (.atom (.object entries)) (o :: (w ++ [c]))
  | list {o c : Token} {w : List Token} {elements : List Node} :
      o.kind = .openBracket → Derives (.elements elements) w → c.kind = .closeBracket →
      Derives (.atom (.list elements)) (o :: (w ++ [c]))
  | functionAtom {w : List Token} {n : Node} : Derives (.function n) w → Derives (.atom n) w
  | shorthand {k : Token} : k.kind = .identifier ∨ k.kind = .number →
      Derives (.entry (.property k.text none)) [k]
  | entry {k c : Token} {w : List Token} {value : Node} :
      k.kind = .identifier ∨ k.kind = .number → c.kind = .colon → Derives (.expression value) w →
      Derives (.entry (.property k.text (some value))) (k :: c :: w)
  | noElement : Derives (.elements []) []
  | lastElement {w : List Token} {n : Node} :
      Derives (.expression n) w → Derives (.elements [n]) w
  | moreElements {c : Token} {w v : List Token} {first : Node} {rest : List Node} :
      Derives (.expression first) w → c.kind = .comma → Derives (.elements rest) v →
      Derives (.elements (first :: rest)) (w ++ c :: v)
  | noEntry : Derives (.entries []) []
  | lastEntry {w : List Token} {n : Node} : Derives (.entry n) w → Derives (.entries [n]) w
  | moreEntries {c : Token} {w v : List Token} {first : Node} {rest : List Node} :
      Derives (.entry first) w → c.kind = .comma → Derives (.entries rest) v →
      Derives (.entries (first :: rest)) (w ++ c :: v)

/-- An operand is a chain of one at every level. -/
theorem Derives.chain_of_operand {n : Node} {w : List Token} (h : Derives (.operand n) w)
    (level : Level) : Derives (.chain level n) w := by
  have product : Derives (.chain .product n) w := .single h
  have equality : Derives (.chain .equality n) w := .single (.single product)
  cases level with
  | product => exact product
  | sum => exact .single product
  | equality => exact equality
  | conjunction => exact .single equality
  | disjunction => exact .single (.single equality)

/-- The tokens are a program, which is its statements. -/
def DerivesProgram (w : List Token) (tree : Node) : Prop :=
  ∃ body, tree = .program body ∧ Derives (.statements body) w

end Guion.Node
