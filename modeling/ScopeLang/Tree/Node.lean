import ScopeLang.Tree.Operator

/-!
# Program trees
-/

namespace ScopeLang

/-- An expression. A whole program is a sequence of its expressions, also when there is only one or
none. -/
inductive Node where
  | number (value : Float)
  | text (content : String)
  | bool (value : Bool)
  | var (name : String)
  | assign (target value : Node)
  | binary (op : BinaryOp) (left right : Node)
  | ifThen (test yes : Node)
  | ifElse (test yes no : Node)
  | lambda (params : List String) (body : Node)
  | call (callee : Node) (args : List Node)
  | seq (items : List Node)
deriving Inhabited

namespace Node

/-- The tree of two operands around a connective. -/
def join : Connective → Node → Node → Node
  | .assign, target, value => .assign target value
  | .binary op, left, right => .binary op left right

/-- The tree of a braced block: nothing stands for false, and a single item for itself. -/
def block : List Node → Node
  | [] => .bool false
  | [item] => item
  | items => .seq items

mutual

/-- Equality of trees, where numbers are compared as numbers. -/
def same : Node → Node → Bool
  | .number a, .number b => a == b
  | .text a, .text b => a == b
  | .bool a, .bool b => a == b
  | .var a, .var b => a == b
  | .assign t v, .assign t' v' => same t t' && same v v'
  | .binary op l r, .binary op' l' r' => op == op' && same l l' && same r r'
  | .ifThen c y, .ifThen c' y' => same c c' && same y y'
  | .ifElse c y n, .ifElse c' y' n' => same c c' && same y y' && same n n'
  | .lambda ps b, .lambda ps' b' => ps == ps' && same b b'
  | .call f as, .call f' as' => same f f' && sameAll as as'
  | .seq xs, .seq ys => sameAll xs ys
  | _, _ => false

def sameAll : List Node → List Node → Bool
  | [], [] => true
  | a :: as, b :: bs => same a b && sameAll as bs
  | _, _ => false

end

end Node

end ScopeLang
