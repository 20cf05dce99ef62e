import ScopeLang.Decimal.Style
import ScopeLang.Text.Quoted
import ScopeLang.Tree.Node

/-!
# Writing trees in the language itself

Operators are always parenthesised; assignments, conditionals and lambdas are not. Each tree puts
its text in front of the text that follows it.
-/

namespace ScopeLang.Node

/-- A text in front of another one. -/
def spellText (text : String) (rest : List Char) : List Char := text.toList ++ rest

/-- Names with a comma and a blank between them. -/
def spellNames : List String → List Char → List Char
  | [], rest => rest
  | [name], rest => spellText name rest
  | name :: names, rest => spellText name (',' :: ' ' :: spellNames names rest)

mutual

/-- The text of a tree in front of `rest`. -/
def spell : Node → List Char → List Char
  | .number x, rest => spellText (Decimal.plain x) rest
  | .text s, rest => spellText (Text.quote s) rest
  | .bool b, rest => spellText (if b then "true" else "false") rest
  | .var x, rest => spellText x rest
  | .assign t v, rest => spell t (spellText " = " (spell v rest))
  | .binary op l r, rest =>
    '(' :: spell l (' ' :: spellText op.symbol (' ' :: spell r (')' :: rest)))
  | .ifThen c y, rest => spellText "if " (spell c (spellText " then " (spell y rest)))
  | .ifElse c y n, rest =>
    spellText "if " (spell c (spellText " then " (spell y (spellText " else " (spell n rest)))))
  | .lambda ps b, rest => spellText "lambda(" (spellNames ps (')' :: ' ' :: spell b rest))
  | .call f as, rest => spell f ('(' :: spellList ',' as (')' :: rest))
  | .seq xs, rest => '\x7b' :: spellList ';' xs ('\x7d' :: rest)

/-- Trees with a separator and a blank between them. -/
def spellList (separator : Char) : List Node → List Char → List Char
  | [], rest => rest
  | n :: ns, rest => spell n (spellTail separator ns rest)

/-- Trees with a separator and a blank before each of them. -/
def spellTail (separator : Char) : List Node → List Char → List Char
  | [], rest => rest
  | n :: ns, rest => separator :: ' ' :: spell n (spellTail separator ns rest)

end

/-- A tree as source text. -/
def print (n : Node) : String := String.ofList (n.spell [])

end ScopeLang.Node
