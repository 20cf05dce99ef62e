import ScopeLang.Host.Builtin

/-!
# A small toolkit of host functions

Functions for looking at values and for keeping one in a cell outside all scopes. What the cell
holds does not keep scopes alive.
-/

namespace ScopeLang

/-- The functions of the toolkit. -/
inductive Tool where
  /-- Twice a number. -/
  | twice
  /-- The number of arguments. -/
  | count
  /-- All arguments, quoted. -/
  | quoteAll
  /-- The first argument as printed. -/
  | printed
  /-- The type of the first argument. -/
  | typeOf
  /-- A failure of output. -/
  | failWith
  /-- Puts the first argument into the cell. -/
  | stash
  /-- What is in the cell. -/
  | fetch
deriving DecidableEq

namespace Tool

def all : List Tool := [twice, count, quoteAll, printed, typeOf, failWith, stash, fetch]

/-- The name under which a function is asked for. -/
def name : Tool → String
  | twice => "twice"
  | count => "count"
  | quoteAll => "show"
  | printed => "str"
  | typeOf => "type"
  | failWith => "fail"
  | stash => "stash"
  | fetch => "recall"

def ofName? (text : String) : Option Tool := all.find? fun t => t.name == text

/-- The values of programs whose host has the toolkit. -/
abbrev ToolValue := Value (Builtin Tool)

/-- What the functions of the toolkit do. -/
def run : Extension Tool ToolValue
  | .twice, args, cell =>
    match args with
    | [] => (.ok (.bool false), cell)
    | .number x :: _ => (.ok (.number (x * 2.0)), cell)
    | v :: _ => (.error (.typeMismatch v.quoted), cell)
  | .count, args, cell => (.ok (.number (Float.ofNat args.length)), cell)
  | .quoteAll, args, cell => (.ok (.text (String.intercalate ", " (args.map Value.quoted))), cell)
  | .printed, args, cell => (.ok (.text (Builtin.firstArg args).display), cell)
  | .typeOf, args, cell => (.ok (.text (Builtin.firstArg args).typeName), cell)
  | .failWith, args, cell => (.error (.outputFailed (Builtin.firstArg args).display), cell)
  | .stash, args, _ => (.ok (Builtin.firstArg args), Builtin.firstArg args)
  | .fetch, _, cell => (.ok cell, cell)

end Tool

end ScopeLang
