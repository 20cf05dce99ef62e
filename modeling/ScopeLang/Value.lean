import ScopeLang.Scope.Arena
import ScopeLang.Tree.Node

/-!
# Values

Numbers, texts, truth values and functions. A function is either a closure, a lambda with the scope
it was created in, or a host function, which is known by a key that the host understands. Every
function has an identity of its own, by which alone functions are compared.
-/

namespace ScopeLang

/-- A lambda together with the scope it was created in. -/
structure Closure where
  identity : Nat
  params : List String
  body : Node
  scope : ScopeId

/-- A function of the host, known there by its key. -/
structure HostFunction (κ : Type) where
  identity : Nat
  name : String
  key : κ

/-- What programs compute. -/
inductive Value (κ : Type) where
  | number (value : Float)
  | text (content : String)
  | bool (value : Bool)
  | closure (f : Closure)
  | builtin (f : HostFunction κ)

namespace Value

variable {κ : Type}

/-- Everything but `false` counts as true. -/
def countsAsTrue : Value κ → Bool
  | .bool false => false
  | _ => true

def typeName : Value κ → String
  | .number _ => "number"
  | .text _ => "string"
  | .bool _ => "boolean"
  | .closure _ | .builtin _ => "function"

/-- A value as it is printed. -/
def display : Value κ → String
  | .number x => Decimal.plain x
  | .text s => s
  | .bool b => if b then "true" else "false"
  | .closure f => "lambda(" ++ String.intercalate ", " f.params ++ ")"
  | .builtin f => "builtin(" ++ f.name ++ ")"

/-- A value as it is shown to a reader of results and messages: as printed, but with texts in
quotes. -/
def quoted : Value κ → String
  | .text s => Text.quote s
  | v => v.display

/-- A value in messages, behind the name of its type. -/
def describe (v : Value κ) : String := v.typeName ++ " " ++ v.quoted

/-- Equality of values: never between values of different types, and between functions only of one
identity. -/
def same : Value κ → Value κ → Bool
  | .number a, .number b => a == b
  | .text a, .text b => a == b
  | .bool a, .bool b => a == b
  | .closure f, .closure g => f.identity == g.identity
  | .builtin f, .builtin g => f.identity == g.identity
  | _, _ => false

/-- The scope that a value holds on to. -/
def scope? : Value κ → Option ScopeId
  | .closure f => some f.scope
  | _ => none

/-- The number that a value is. -/
def asNumber : Value κ → Except Error Float
  | .number x => .ok x
  | v => .error (.typeMismatch v.describe)

/-- The number that a value is, where it must not be zero. -/
def asDivisor (v : Value κ) : Except Error Float :=
  match v.asNumber with
  | .ok x => if x == 0.0 then .error .divideByZero else .ok x
  | .error e => .error e

end Value

namespace BinaryOp

variable {κ : Type}

/-- A computation on two numbers, where the left operand is looked at first. -/
def onNumbers (f : Float → Float → Value κ) (left right : Value κ) : Except Error (Value κ) := do
  let x ← left.asNumber
  let y ← right.asNumber
  return f x y

/-- A division of two numbers. -/
def onDivision (f : Float → Float → Float) (left right : Value κ) : Except Error (Value κ) := do
  let x ← left.asNumber
  let y ← right.asDivisor
  return .number (f x y)

/-- The value of an operator on two values. The logical operators give back one of their operands.
-/
def apply (op : BinaryOp) (left right : Value κ) : Except Error (Value κ) :=
  match op with
  | .or => .ok (if left.countsAsTrue then left else right)
  | .and => .ok (if left.countsAsTrue then right else left)
  | .less => onNumbers (fun x y => .bool (x < y)) left right
  | .greater => onNumbers (fun x y => .bool (y < x)) left right
  | .lessEqual => onNumbers (fun x y => .bool (x ≤ y)) left right
  | .greaterEqual => onNumbers (fun x y => .bool (y ≤ x)) left right
  | .equal => .ok (.bool (left.same right))
  | .notEqual => .ok (.bool (!left.same right))
  | .add => onNumbers (fun x y => .number (x + y)) left right
  | .subtract => onNumbers (fun x y => .number (x - y)) left right
  | .multiply => onNumbers (fun x y => .number (x * y)) left right
  | .divide => onDivision (· / ·) left right
  | .modulo => onDivision Decimal.remainder left right

end BinaryOp

end ScopeLang
