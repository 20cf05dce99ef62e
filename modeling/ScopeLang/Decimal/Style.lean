import ScopeLang.Decimal.Shortest

/-!
# Writing numbers

The digits of a number are its shortest decimal; a style decides which numbers are written with an
exponent and how whole numbers look. Programs and messages use `plain`, tree listings use `dumped`.
-/

namespace ScopeLang.Decimal

/-- The decisions of a way to write numbers. -/
structure Style where
  /-- Is a number written without an exponent, given the exponent of its leading digit? -/
  positional : Int → Bool
  /-- What follows a whole number. -/
  wholeMark : String

/-- Every number positionally, whole numbers bare. -/
def plainStyle : Style := ⟨fun _ => true, ""⟩

/-- Exponents below `1e-4` and from `1e16` on, whole numbers marked. -/
def dumpStyle : Style := ⟨fun e => -4 ≤ e && e < 16, ".0"⟩

def zeros (n : Nat) : String := String.ofList (List.replicate n '0')

/-- A decimal without an exponent. -/
def Scientific.positionalText (style : Style) (d : Scientific) : String :=
  let digits := d.digitText
  let places := (-d.exponent).toNat
  if places = 0 then digits ++ zeros d.exponent.toNat ++ style.wholeMark
  else if places < digits.length then
    let whole := digits.length - places
    (digits.take whole).toString ++ "." ++ (digits.drop whole).toString
  else "0." ++ zeros (places - digits.length) ++ digits

/-- A decimal with one digit before the point and an exponent. -/
def Scientific.exponentText (d : Scientific) : String :=
  let digits := d.digitText
  let tail := (digits.drop 1).toString
  let fraction := if tail.isEmpty then "" else "." ++ tail
  (digits.take 1).toString ++ fraction ++ "e" ++ toString d.leadingExponent

/-- A double as text. -/
def render (style : Style) (x : Float) : String :=
  let sign := if isNegative x then "-" else ""
  match magnitude x with
  | .undefined => "NaN"
  | .infinite => sign ++ "inf"
  | .finite m e =>
    let d := shortest m e
    if m = 0 || style.positional d.leadingExponent then sign ++ d.positionalText style
    else sign ++ d.exponentText

/-- A number as programs print it and messages quote it. -/
def plain : Float → String := render plainStyle

/-- A number as tree listings show it. -/
def dumped : Float → String := render dumpStyle

end ScopeLang.Decimal
