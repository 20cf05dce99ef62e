/-!
# Reading numbers

A decimal is read as the double nearest to it, whatever its length; a decimal beyond all doubles is
read as infinity.
-/

namespace ScopeLang.Decimal

/-- The number that a run of decimal digits writes. -/
def digitsValue (digits : List Char) : Nat :=
  digits.foldl (fun n c => 10 * n + (c.toNat - '0'.toNat)) 0

/-- The double nearest to the decimal with these digits before and behind the point. -/
def ofDigits (whole fraction : List Char) : Float :=
  .ofScientific (digitsValue (whole ++ fraction)) true fraction.length

/-- Splits a run of digits off a text. -/
def spanDigits (text : List Char) : List Char × List Char :=
  (text.takeWhile Char.isDigit, text.dropWhile Char.isDigit)

/-- Digits only, and at least one. -/
def isDigits (text : List Char) : Bool := text.all Char.isDigit && !text.isEmpty

/-- A run of digits behind an optional sign, as a whole number. -/
def readSigned? : List Char → Option Int
  | '-' :: digits => if isDigits digits then some (-digitsValue digits) else none
  | '+' :: digits => if isDigits digits then some (digitsValue digits) else none
  | digits => if isDigits digits then some (digitsValue digits) else none

/-- The exponent of a number, which ends the text; zero if there is none. -/
def readExponent? : List Char → Option Int
  | [] => some 0
  | 'e' :: rest => readSigned? rest
  | _ => none

/-- A number without a sign in small letters: digits with an optional point and an optional
exponent, or a word for infinity or for no number. -/
def readUnsigned? (text : List Char) : Option Float :=
  if text = "inf".toList || text = "infinity".toList then some (1.0 / 0.0)
  else if text = "nan".toList then some (0.0 / 0.0)
  else
    let (whole, rest) := spanDigits text
    let (fraction, rest) := match rest with
      | '.' :: rest => spanDigits rest
      | rest => ([], rest)
    if whole.isEmpty && fraction.isEmpty then none
    else
      (readExponent? rest).map fun (exponent : Int) =>
        let shift : Int := exponent - fraction.length
        .ofScientific (digitsValue (whole ++ fraction)) (shift < 0) shift.natAbs

/-- The number that a text writes. Letters may be small or capital. -/
def ofString? (text : String) : Option Float :=
  match text.toList.map Char.toLower with
  | '-' :: rest => (readUnsigned? rest).map Float.neg
  | '+' :: rest => readUnsigned? rest
  | rest => readUnsigned? rest

end ScopeLang.Decimal
