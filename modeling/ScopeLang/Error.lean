import ScopeLang.Token.Basic

/-!
# What can go wrong

Reading and running a program fail for one of nine kinds of reasons. The wording of every message is
fixed in `Error.message`; the kinds also have names under which they can be looked up.
-/

namespace ScopeLang

/-- What a reader was waiting for. -/
inductive Expectation where
  | mark (m : Mark)
  | keyword (k : Keyword)
  | variableName
deriving DecidableEq

def Expectation.describe : Expectation → String
  | mark m => "punctuation " ++ m.text
  | keyword k => "keyword " ++ k.spelling
  | variableName => "variable name"

/-- Why a text is not a program. -/
inductive Complaint where
  | unknownCharacter (c : Char)
  | unclosedText
  | unexpected (kind : TokenKind)
  | unexpectedEnd
  | expected (what : Expectation) (found : Option TokenKind)
  | remark (text : String)

def Complaint.message : Complaint → String
  | unknownCharacter c => "Can't handle character: " ++ c.toString
  | unclosedText => "Unterminated string literal"
  | unexpected kind => "Unexpected token: " ++ kind.describe
  | unexpectedEnd => "Unexpected end of input"
  | expected what found =>
    "Expecting " ++ what.describe ++ " but found " ++ (found.elim "end of input" TokenKind.describe)
  | remark text => text

/-- A failure of reading or running a program. Only failures of reading have a position. -/
inductive Error where
  | malformed (complaint : Complaint) (pos : Pos)
  | unknownOperator (symbol : String) (pos : Pos)
  | undefinedVariable (name : String)
  | typeMismatch (found : String)
  | divideByZero
  | invalidTarget (target : String)
  | notCallable (found : String)
  | depthExceeded (limit : Nat)
  | outputFailed (reason : String)

/-- The classes of failures. -/
inductive Error.Kind where
  | malformed | unknownOperator | undefinedVariable | typeMismatch | divideByZero
  | invalidTarget | notCallable | depthExceeded | outputFailed
deriving DecidableEq

namespace Error

namespace Kind

def all : List Kind :=
  [malformed, unknownOperator, undefinedVariable, typeMismatch, divideByZero, invalidTarget,
    notCallable, depthExceeded, outputFailed]

/-- The public name of a class of failures. -/
def name : Kind → String
  | malformed => "SyntaxError"
  | unknownOperator => "UnknownOperator"
  | undefinedVariable => "UndefinedVariable"
  | typeMismatch => "TypeError"
  | divideByZero => "DivideByZero"
  | invalidTarget => "InvalidAssignTarget"
  | notCallable => "NotCallable"
  | depthExceeded => "StackOverflow"
  | outputFailed => "Output"

/-- The class with this public name. -/
def ofName? (text : String) : Option Kind := all.find? fun k => k.name == text

/-- What is said about a name that no class has. -/
def unknownName (text : String) : String := "Unrecognized error kind: " ++ text

theorem ofName?_name (k : Kind) : ofName? k.name = some k := by cases k <;> decide

end Kind

def kind : Error → Kind
  | malformed .. => .malformed
  | unknownOperator .. => .unknownOperator
  | undefinedVariable _ => .undefinedVariable
  | typeMismatch _ => .typeMismatch
  | divideByZero => .divideByZero
  | invalidTarget _ => .invalidTarget
  | notCallable _ => .notCallable
  | depthExceeded _ => .depthExceeded
  | outputFailed _ => .outputFailed

/-- Where reading failed. -/
def pos? : Error → Option Pos
  | malformed _ pos | unknownOperator _ pos => some pos
  | _ => none

def message : Error → String
  | malformed complaint pos => complaint.message ++ " (" ++ pos.text ++ ")"
  | unknownOperator symbol pos => "Unknown operator: " ++ symbol ++ " (" ++ pos.text ++ ")"
  | undefinedVariable name => "Undefined variable " ++ name
  | typeMismatch found => "Expected number but got " ++ found
  | divideByZero => "Divide by zero"
  | invalidTarget target => "Cannot assign to " ++ target
  | notCallable found => found ++ " is not callable"
  | depthExceeded limit => "Maximum call depth of " ++ toString limit ++ " exceeded"
  | outputFailed reason => "Failed to write output: " ++ reason

/-- Two failures are the same when nobody can tell them apart: class, position and wording agree. -/
def same (a b : Error) : Bool := a.kind = b.kind && a.pos? = b.pos? && a.message == b.message

end Error

end ScopeLang
