import ScopeLang.Source.Position

/-!
# Reading a source text character by character

A cursor is the part of a text not read yet together with the position of its first character.
-/

namespace ScopeLang

/-- The unread part of a source text and where it begins. -/
structure Cursor where
  rest : List Char
  pos : Pos
deriving DecidableEq

namespace Cursor

def ofString (source : String) : Cursor := ⟨source.toList, .start⟩

def atEnd (c : Cursor) : Bool := c.rest.isEmpty

/-- The character that would be read next. -/
def peek? (c : Cursor) : Option Char := c.rest.head?

/-- Reads one character; at the end of the text nothing changes. -/
def next (c : Cursor) : Option Char × Cursor :=
  match c.rest with
  | [] => (none, c)
  | ch :: rest => (some ch, ⟨rest, c.pos.next ch⟩)

/-- Reads characters for as long as `p` holds of them. -/
def readWhile (p : Char → Bool) (c : Cursor) : List Char × Cursor :=
  (c.rest.takeWhile p, ⟨c.rest.dropWhile p, c.pos.advance (c.rest.takeWhile p)⟩)

/-- Reading loses no character. -/
theorem readWhile_append_rest (p : Char → Bool) (c : Cursor) :
    (c.readWhile p).1 ++ (c.readWhile p).2.rest = c.rest := List.takeWhile_append_dropWhile

end Cursor

end ScopeLang
