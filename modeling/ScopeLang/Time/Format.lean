/-!
# Time formats

A time format is a text in which a percent sign begins a directive. Most directives stand for a
field of the clock; three stand for fixed text; one can only be used for reading times and not for
writing them.

## Main definitions

* `TimeFormat.pieces?` — a format taken apart, unless a percent sign begins no directive.
* `TimeFormat.render` — the format filled in.
-/

namespace ScopeLang.TimeFormat

/-- Directives of one character. -/
def simpleDirectives : List String :=
  "ABCDFGHIMPRSTUVWXYZabcdefghjklmnpqrstuvwxyz+%".toList.map Char.toString

/-- The numeric fields, which may be padded in three ways. -/
def numericDirectives : List String := "CGHIMSUVWYdefgjklmqsuwy".toList.map Char.toString

def paddedDirectives : List String :=
  ["-", "_", "0"].flatMap fun padding => numericDirectives.map (padding ++ ·)

/-- Directives for offsets from universal time and for fractions of a second. -/
def longDirectives : List String :=
  [":z", "::z", ":::z", "#z", ".f", ".3f", ".6f", ".9f", "3f", "6f", "9f"]

/-- Everything that may follow a percent sign. No directive begins another one. -/
def directives : List String := simpleDirectives ++ longDirectives ++ paddedDirectives

/-- The directive that a text begins with. -/
def directive? (text : List Char) : Option String :=
  directives.find? fun d => d.toList.isPrefixOf text

/-- A part of a format. -/
inductive Piece where
  | text (c : Char)
  | directive (d : String)
deriving DecidableEq

/-- Takes a format apart. -/
def piecesOf? : List Char → Option (List Piece)
  | [] => some []
  | c :: rest =>
    if c = '%' then
      match directive? rest with
      | some d => (piecesOf? (rest.drop d.length)).map (.directive d :: ·)
      | none => none
    else (piecesOf? rest).map (.text c :: ·)
termination_by format => format.length
decreasing_by
  · simp only [List.length_drop, List.length_cons]; omega
  · simp

/-- The parts of a format, unless it is malformed. -/
def pieces? (format : String) : Option (List Piece) := piecesOf? format.toList

/-- Is every percent sign the beginning of a directive? -/
def isValid (format : String) : Bool := (pieces? format).isSome

/-- What the clock says about a field, which is known by its directive. -/
abbrev Clock := String → String

/-- The text of a part. The offset for reading has none. -/
def Piece.render (clock : Clock) : Piece → Option String
  | text c => some c.toString
  | directive d =>
    if d = "%" then some "%"
    else if d = "n" then some "\n"
    else if d = "t" then some "\t"
    else if d = "#z" then none
    else some (clock d)

/-- The format filled in, unless it is malformed or not for writing. -/
def render (clock : Clock) (format : String) : Option String := do
  let pieces ← pieces? format
  let texts ← pieces.mapM (Piece.render clock)
  return String.join texts

end ScopeLang.TimeFormat
