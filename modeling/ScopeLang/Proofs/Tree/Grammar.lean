import ScopeLang.Token.Basic
import ScopeLang.Tree.Operator

/-!
# The grammar

Which sequences of tokens form a program, without regard to how they are read. The grammar is
ambiguous: an `else` may belong to one of several conditionals, and what follows the body of a
lambda or the last branch of a conditional may continue it or the whole.

    program    = list of expressions separated by ";"
    expression = atom { connective atom }
    atom       = primary { "(" list of expressions separated by "," ")" }
    primary    = number | text | name | "true" | "false" | "(" expression ")"
               | "{" list of expressions separated by ";" "}"
               | "if" expression branch [ "else" expression ]
               | "lambda" "(" list of names separated by "," ")" expression
    branch     = "then" expression | expression that begins with "{"

A list is empty or has items with a separator between them and possibly one behind the last.

## Main definitions

* `Phrase`, `Derives` — the phrases and their sequences of tokens.
-/

namespace ScopeLang

/-- The phrases of the language. -/
inductive Phrase where
  | expression
  | atom
  | primary
  | branch
  | name
  /-- One or more items with separators between them. -/
  | items (item : Phrase) (separator : Mark)
  /-- Possibly no items, or items with a separator behind the last. -/
  | list (item : Phrase) (separator : Mark)

namespace Phrase

abbrev program : Phrase := .list .expression .semicolon

abbrev arguments : Phrase := .list .expression .comma

abbrev params : Phrase := .list .name .comma

end Phrase

/-- The sequence of tokens forms the phrase. -/
inductive Derives : Phrase → List TokenKind → Prop where
  | atom {w : List TokenKind} : Derives .atom w → Derives .expression w
  | operator {v w : List TokenKind} (c : Connective) : Derives .expression v → Derives .atom w →
    Derives .expression (v ++ .operator c.symbol :: w)
  | primary {w : List TokenKind} : Derives .primary w → Derives .atom w
  | call {v w : List TokenKind} : Derives .atom v → Derives .arguments w →
    Derives .atom (v ++ .mark .openParen :: (w ++ [.mark .closeParen]))
  | number (x : Float) : Derives .primary [.number x]
  | text (s : String) : Derives .primary [.text s]
  | var (x : String) : Derives .primary [.name x]
  | trueWord : Derives .primary [.keyword .trueWord]
  | falseWord : Derives .primary [.keyword .falseWord]
  | group {w : List TokenKind} : Derives .expression w →
    Derives .primary (.mark .openParen :: (w ++ [.mark .closeParen]))
  | block {w : List TokenKind} : Derives .program w →
    Derives .primary (.mark .openBrace :: (w ++ [.mark .closeBrace]))
  | ifThen {test yes : List TokenKind} : Derives .expression test → Derives .branch yes →
    Derives .primary (.keyword .ifWord :: (test ++ yes))
  | ifElse {test yes no : List TokenKind} : Derives .expression test → Derives .branch yes →
    Derives .expression no →
      Derives .primary (.keyword .ifWord :: (test ++ (yes ++ .keyword .elseWord :: no)))
  | lambda {ps body : List TokenKind} : Derives .params ps → Derives .expression body →
    Derives .primary
      (.keyword .lambdaWord :: .mark .openParen :: (ps ++ .mark .closeParen :: body))
  | thenBranch {w : List TokenKind} : Derives .expression w →
    Derives .branch (.keyword .thenWord :: w)
  | blockBranch {w : List TokenKind} : Derives .expression (.mark .openBrace :: w) →
    Derives .branch (.mark .openBrace :: w)
  | name (x : String) : Derives .name [.name x]
  | one {item : Phrase} {m : Mark} {w : List TokenKind} : Derives item w →
    Derives (.items item m) w
  | more {item : Phrase} {m : Mark} {v w : List TokenKind} : Derives (.items item m) v →
    Derives item w → Derives (.items item m) (v ++ .mark m :: w)
  | empty {item : Phrase} {m : Mark} : Derives (.list item m) []
  | items {item : Phrase} {m : Mark} {w : List TokenKind} : Derives (.items item m) w →
    Derives (.list item m) w
  | trailing {item : Phrase} {m : Mark} {w : List TokenKind} : Derives (.items item m) w →
    Derives (.list item m) (w ++ [.mark m])

namespace Derives

variable {v w : List TokenKind}

/-- Expressions around a connective form an expression: the operands of the second one join those of
the first one. -/
theorem join (hv : Derives .expression v) (c : Connective) (hw : Derives .expression w) :
    Derives .expression (v ++ .operator c.symbol :: w) := by
  generalize hp : Phrase.expression = p at hw
  induction hw with
  | atom hw => exact hv.operator c hw
  | operator d hw hw' ih =>
    have := (ih hp).operator d hw'
    simpa using this
  | _ => cases hp

end Derives

end ScopeLang
