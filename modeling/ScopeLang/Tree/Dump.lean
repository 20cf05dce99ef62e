import ScopeLang.Decimal.Style
import ScopeLang.Text.Quoted
import ScopeLang.Tree.Node

/-!
# Listing trees

A listing shows every constructor of a tree by name. It is built as a `Dump`, a nest of named
records, tuples and lists, which is then laid out on one line or indented over many.
-/

namespace ScopeLang

/-- Labelled, nested data. -/
inductive Dump where
  | leaf (text : String)
  | tuple (name : String) (item : Dump)
  | record (name : String) (fields : List (String × Dump))
  | list (items : List Dump)
deriving Inhabited

namespace Dump

/-! ### One line -/

mutual

/-- The listing on one line, behind the text `out`. -/
def flat : Dump → String → String
  | .leaf text, out => out ++ text
  | .tuple name item, out => flat item (out ++ name ++ "(") ++ ")"
  | .record name fields, out => flatFields fields (out ++ name ++ " \x7b ") ++ " \x7d"
  | .list items, out => flatItems items (out ++ "[") ++ "]"

def flatFields : List (String × Dump) → String → String
  | [], out => out
  | [(label, d)], out => flat d (out ++ label ++ ": ")
  | (label, d) :: fields, out => flatFields fields (flat d (out ++ label ++ ": ") ++ ", ")

def flatItems : List Dump → String → String
  | [], out => out
  | [d], out => flat d out
  | d :: items, out => flatItems items (flat d out ++ ", ")

end

/-! ### Many lines -/

/-- A new line, indented by `depth` levels of four blanks. -/
def newline (depth : Nat) (out : String) : String :=
  (4 * depth).repeat (fun out => out.push ' ') (out.push '\n')

mutual

/-- The listing over many lines, the first of which continues `out`. -/
def indented (depth : Nat) : Dump → String → String
  | .leaf text, out => out ++ text
  | .tuple name item, out =>
    let inner := indented (depth + 1) item (newline (depth + 1) (out ++ name ++ "("))
    newline depth (inner ++ ",") ++ ")"
  | .record name fields, out =>
    newline depth (indentedFields (depth + 1) fields (out ++ name ++ " \x7b")) ++ "\x7d"
  | .list [], out => out ++ "[]"
  | .list (d :: items), out =>
    newline depth (indentedItems (depth + 1) (d :: items) (out ++ "[")) ++ "]"

def indentedFields (depth : Nat) : List (String × Dump) → String → String
  | [], out => out
  | (label, d) :: fields, out =>
    indentedFields depth fields (indented depth d (newline depth out ++ label ++ ": ") ++ ",")

def indentedItems (depth : Nat) : List Dump → String → String
  | [], out => out
  | d :: items, out => indentedItems depth items (indented depth d (newline depth out) ++ ",")

end

end Dump

namespace Node

/-- The alternative of a conditional, which may be missing. -/
def dumpNo : Option Dump → Dump
  | none => .leaf "None"
  | some d => .tuple "Some" d

def dumpIf (test yes : Dump) (no : Option Dump) : Dump :=
  .record "If" [("condition", test), ("then_branch", yes), ("else_branch", dumpNo no)]

mutual

/-- The listing of a tree. -/
def dump : Node → Dump
  | .number x => .tuple "Number" (.leaf (Decimal.dumped x))
  | .text s => .tuple "String" (.leaf (Text.quote s))
  | .bool b => .tuple "Boolean" (.leaf (if b then "true" else "false"))
  | .var x => .tuple "Variable" (.leaf (Text.quote x))
  | .assign t v => .record "Assign" [("target", dump t), ("value", dump v)]
  | .binary op l r =>
    .record "Binary" [("operator", .leaf op.name), ("left", dump l), ("right", dump r)]
  | .ifThen c y => dumpIf (dump c) (dump y) none
  | .ifElse c y n => dumpIf (dump c) (dump y) (some (dump n))
  | .lambda ps b =>
    .tuple "Lambda" (.record "LambdaNode"
      [("parameters", .list (ps.map fun p => .leaf (Text.quote p))), ("body", dump b)])
  | .call f as => .record "Call" [("callee", dump f), ("arguments", .list (dumpAll as))]
  | .seq xs => .tuple "Sequence" (.list (dumpAll xs))

def dumpAll : List Node → List Dump
  | [] => []
  | n :: ns => dump n :: dumpAll ns

end

/-- The listing on one line. -/
def listing (n : Node) : String := n.dump.flat ""

/-- The listing over many lines. -/
def indentedListing (n : Node) : String := n.dump.indented 0 ""

end Node

end ScopeLang
