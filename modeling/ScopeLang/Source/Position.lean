/-!
# Positions in a source text

A position counts the line breaks before it and the characters since the last of them, so that the
position after a text depends on that text alone.
-/

namespace ScopeLang

/-- A place in a source text: the line, counted from 1, and the number of characters that stand
before it there. -/
structure Pos where
  line : Nat
  column : Nat
deriving DecidableEq, Inhabited

namespace Pos

/-- Where every text begins. -/
def start : Pos := ⟨1, 0⟩

/-- The position behind one more character. -/
def next (p : Pos) (c : Char) : Pos :=
  if c = '\n' then ⟨p.line + 1, 0⟩ else ⟨p.line, p.column + 1⟩

/-- The position behind a stretch of text. -/
def advance (p : Pos) (text : List Char) : Pos := text.foldl next p

/-- A position as it stands in messages and listings, `line:column`. -/
def text (p : Pos) : String := toString p.line ++ ":" ++ toString p.column

@[simp] theorem advance_nil (p : Pos) : p.advance [] = p := rfl

@[simp] theorem advance_cons (p : Pos) (c : Char) (cs : List Char) :
    p.advance (c :: cs) = (p.next c).advance cs := rfl

theorem advance_append (p : Pos) (xs ys : List Char) :
    p.advance (xs ++ ys) = (p.advance xs).advance ys := List.foldl_append

end Pos

end ScopeLang
