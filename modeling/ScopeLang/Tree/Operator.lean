/-!
# Operators

The thirteen binary operators with their symbols, and the connectives that may stand between two
operands: those operators and assignment. A connective of higher precedence binds tighter.
-/

namespace ScopeLang

/-- The operators that compute a value from two values. -/
inductive BinaryOp where
  | or | and
  | less | greater | lessEqual | greaterEqual | equal | notEqual
  | add | subtract
  | multiply | divide | modulo
deriving DecidableEq

namespace BinaryOp

def all : List BinaryOp :=
  [or, and, less, greater, lessEqual, greaterEqual, equal, notEqual, add, subtract, multiply,
    divide, modulo]

def symbol : BinaryOp → String
  | or => "||"
  | and => "&&"
  | less => "<"
  | greater => ">"
  | lessEqual => "<="
  | greaterEqual => ">="
  | equal => "=="
  | notEqual => "!="
  | add => "+"
  | subtract => "-"
  | multiply => "*"
  | divide => "/"
  | modulo => "%"

/-- The operator with this symbol. -/
def ofSymbol? (symbol : String) : Option BinaryOp := all.find? fun op => op.symbol == symbol

/-- The operator's name in tree listings. -/
def name : BinaryOp → String
  | or => "Or"
  | and => "And"
  | less => "Less"
  | greater => "Greater"
  | lessEqual => "LessEqual"
  | greaterEqual => "GreaterEqual"
  | equal => "Equal"
  | notEqual => "NotEqual"
  | add => "Add"
  | subtract => "Subtract"
  | multiply => "Multiply"
  | divide => "Divide"
  | modulo => "Modulo"

def precedence : BinaryOp → Nat
  | or => 2
  | and => 3
  | less | greater | lessEqual | greaterEqual | equal | notEqual => 7
  | add | subtract => 10
  | multiply | divide | modulo => 20

theorem ofSymbol?_symbol (op : BinaryOp) : ofSymbol? op.symbol = some op := by cases op <;> decide

end BinaryOp

/-- What may stand between two operands. -/
inductive Connective where
  | assign
  | binary (op : BinaryOp)
deriving DecidableEq

namespace Connective

def symbol : Connective → String
  | assign => "="
  | binary op => op.symbol

def ofSymbol? (symbol : String) : Option Connective :=
  if symbol = "=" then some assign else (BinaryOp.ofSymbol? symbol).map binary

/-- Assignment binds loosest of all. -/
def precedence : Connective → Nat
  | assign => 1
  | binary op => op.precedence

theorem ofSymbol?_symbol (c : Connective) : ofSymbol? c.symbol = some c := by
  cases c with
  | assign => rfl
  | binary op => cases op <;> decide

end Connective

end ScopeLang
