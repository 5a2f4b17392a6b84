import Guion.Num

/-!
# Syntax trees

One type of node for statements, expressions and the parts of literals, because a tree built by
hand may put any of them anywhere; the rules that use a tree say which places they accept.
`foreign` stands for a value of the embedding program where a node was expected.
-/

namespace Guion

/-- A value that is no node. -/
inductive Foreign where
  | nothing
  | flag (value : Bool)
  | number (value : Int)
  | text (value : String)
  | emptyList
deriving DecidableEq, Repr, Inhabited

inductive Node where
  | program (body : List Node)
  | declare (constant : Bool) (name : String) (value : Node)
  /-- A function; the empty name makes it anonymous. -/
  | function (name : String) (params : List String) (body : List Node)
  | giveBack (value : Node)
  | otherwise (body : List Node)
  | when (condition : Node) (body : List Node) (alternative : Option Node)
  | assign (target value : Node)
  | binary (left right : Node) (operator : String)
  | call (callee : Node) (args : List Node)
  | member (object property : Node) (computed : Bool)
  | ident (symbol : String)
  /-- A property name, which is not looked up as a variable. -/
  | propertyName (symbol : String)
  | number (value : Int)
  | string (value : String)
  /-- An entry of an object literal; without a value it is short for `key: key`. -/
  | property (key : String) (value : Option Node)
  | object (entries : List Node)
  | list (elements : List Node)
  | foreign (value : Foreign)
deriving Repr, Inhabited

namespace Node

/-! ## Equality -/

mutual

def same : Node → Node → Bool
  | .program a, .program b => sameList a b
  | .declare c n v, .declare c' n' v' => c == c' && n == n' && same v v'
  | .function n ps b, .function n' ps' b' => n == n' && ps == ps' && sameList b b'
  | .giveBack a, .giveBack b => same a b
  | .otherwise a, .otherwise b => sameList a b
  | .when c b e, .when c' b' e' => same c c' && sameList b b' && sameOption e e'
  | .assign a b, .assign a' b' => same a a' && same b b'
  | .binary a b o, .binary a' b' o' => same a a' && same b b' && o == o'
  | .call f xs, .call f' xs' => same f f' && sameList xs xs'
  | .member a b c, .member a' b' c' => same a a' && same b b' && c == c'
  | .ident a, .ident b => a == b
  | .propertyName a, .propertyName b => a == b
  | .number a, .number b => a == b
  | .string a, .string b => a == b
  | .property k v, .property k' v' => k == k' && sameOption v v'
  | .object a, .object b => sameList a b
  | .list a, .list b => sameList a b
  | .foreign a, .foreign b => a == b
  | _, _ => false

def sameList : List Node → List Node → Bool
  | [], [] => true
  | a :: as, b :: bs => same a b && sameList as bs
  | _, _ => false

def sameOption : Option Node → Option Node → Bool
  | none, none => true
  | some a, some b => same a b
  | _, _ => false

end

mutual

theorem same_iff : ∀ a b : Node, same a b = true ↔ a = b
  | .program _, b => by cases b <;> simp [same, sameList_iff]
  | .declare .., b => by cases b <;> simp [same, same_iff, and_assoc]
  | .function .., b => by cases b <;> simp [same, sameList_iff, and_assoc]
  | .giveBack _, b => by cases b <;> simp [same, same_iff]
  | .otherwise _, b => by cases b <;> simp [same, sameList_iff]
  | .when .., b => by cases b <;> simp [same, same_iff, sameList_iff, sameOption_iff, and_assoc]
  | .assign .., b => by cases b <;> simp [same, same_iff]
  | .binary .., b => by cases b <;> simp [same, same_iff, and_assoc]
  | .call .., b => by cases b <;> simp [same, same_iff, sameList_iff]
  | .member .., b => by cases b <;> simp [same, same_iff, and_assoc]
  | .ident _, b => by cases b <;> simp [same]
  | .propertyName _, b => by cases b <;> simp [same]
  | .number _, b => by cases b <;> simp [same]
  | .string _, b => by cases b <;> simp [same]
  | .property .., b => by cases b <;> simp [same, sameOption_iff]
  | .object _, b => by cases b <;> simp [same, sameList_iff]
  | .list _, b => by cases b <;> simp [same, sameList_iff]
  | .foreign _, b => by cases b <;> simp [same]

theorem sameList_iff : ∀ as bs : List Node, sameList as bs = true ↔ as = bs
  | [], bs => by cases bs <;> simp [sameList]
  | _ :: _, bs => by cases bs <;> simp [sameList, same_iff, sameList_iff]

theorem sameOption_iff : ∀ a b : Option Node, sameOption a b = true ↔ a = b
  | none, b => by cases b <;> simp [sameOption]
  | some _, b => by cases b <;> simp [sameOption, same_iff]

end

instance : DecidableEq Node := fun a b => decidable_of_iff _ (same_iff a b)

end Node

end Guion
