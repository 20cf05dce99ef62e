import ScopeLang.Decimal.Binary64
import ScopeLang.Decimal.Reader
import ScopeLang.Settings.Basic

/-!
# Words of settings documents

Settings documents are JSON texts. This module reads the words in them: blanks, quoted texts,
numbers, and words that stand where they do not belong. A fault is reported where a reader from left
to right meets it first.

## Main definitions

* `readQuoted` — a text in quotes, from behind the opening quote.
* `readNumber` — a number in decimal notation.
* `misfit` — the fault in a document that has another value than the expected one.
-/

namespace ScopeLang.Settings

/-- What a reader finds, and the text behind it. -/
abbrev Found (α : Type) := Except Misread (α × List Char)

def isJsonBlank (c : Char) : Bool := c == ' ' || c == '\n' || c == '\t' || c == '\r'

def skipBlank (text : List Char) : List Char := text.dropWhile isJsonBlank

/-! ### Quoted texts -/

def hexValue? (c : Char) : Option Nat :=
  if '0' ≤ c && c ≤ '9' then some (c.toNat - '0'.toNat)
  else if 'a' ≤ c && c ≤ 'f' then some (c.toNat - 'a'.toNat + 10)
  else if 'A' ≤ c && c ≤ 'F' then some (c.toNat - 'A'.toNat + 10)
  else none

/-- The number of bytes that a text takes. -/
def byteLength (text : List Char) : Nat := (text.map Char.utf8Size).foldl (· + ·) 0

/-- Four hexadecimal digits. They are taken as four bytes: where fewer are left, the document ends
too early. -/
def readUnit (text : List Char) : Except Misread Nat :=
  match (text.take 4).mapM hexValue? with
  | some [a, b, c, d] => .ok (((a * 16 + b) * 16 + c) * 16 + d)
  | _ => .error (if byteLength text < 4 then .early else .malformed)

def isLeading (unit : Nat) : Bool := 0xD800 ≤ unit && unit ≤ 0xDBFF

def isTrailing (unit : Nat) : Bool := 0xDC00 ≤ unit && unit ≤ 0xDFFF

/-- The second half of a character that is written as two units: the unit, from behind the first. -/
def readTrailing (text : List Char) : Except Misread Nat :=
  match text with
  | [] => .error .early
  | '\\' :: [] => .error .early
  | '\\' :: 'u' :: rest =>
    match readUnit rest with
    | .ok unit => if isTrailing unit then .ok unit else .error .malformed
    | .error e => .error e
  | _ => .error .malformed

/-- The character that an escape stands for, from behind the backslash, and the length of the
escape. -/
def readEscape (text : List Char) : Except Misread (Char × Nat) :=
  match text with
  | [] => .error .early
  | '"' :: _ => .ok ('"', 1)
  | '\\' :: _ => .ok ('\\', 1)
  | '/' :: _ => .ok ('/', 1)
  | 'b' :: _ => .ok ('\x08', 1)
  | 'f' :: _ => .ok ('\x0c', 1)
  | 'n' :: _ => .ok ('\n', 1)
  | 'r' :: _ => .ok ('\r', 1)
  | 't' :: _ => .ok ('\t', 1)
  | 'u' :: rest =>
    match readUnit rest with
    | .error e => .error e
    | .ok unit =>
      if isTrailing unit then .error .malformed
      else if isLeading unit then
        match readTrailing (rest.drop 4) with
        | .ok low => .ok (Char.ofNat (0x10000 + (unit - 0xD800) * 0x400 + (low - 0xDC00)), 11)
        | .error e => .error e
      else .ok (Char.ofNat unit, 5)
  | _ => .error .malformed

/-- A text in quotes from behind its opening quote; the characters found so far come last first. -/
def readQuotedFrom (found : List Char) : List Char → Found String
  | [] => .error .early
  | c :: rest =>
    if c = '"' then .ok (String.ofList found.reverse, rest)
    else if c = '\\' then
      match readEscape rest with
      | .ok (c, n) => readQuotedFrom (c :: found) (rest.drop n)
      | .error e => .error e
    else if c.toNat < 0x20 then .error .malformed
    else readQuotedFrom (c :: found) rest
termination_by text => text.length
decreasing_by
  · simp only [List.length_drop, List.length_cons]; omega
  · simp

def readQuoted (text : List Char) : Found String := readQuotedFrom [] text

/-! ### Numbers -/

/-- A number as it is written. -/
structure Numeral where
  negative : Bool
  whole : List Char
  fraction : Option (List Char)
  exponent : Option Int

/-- One digit at least; what else stands there is a fault. -/
def readDigits (text : List Char) : Found (List Char) :=
  match text with
  | [] => .error .early
  | c :: _ => if c.isDigit then .ok (Decimal.spanDigits text) else .error .malformed

/-- The digits before the point. A zero stands alone. -/
def readWhole (text : List Char) : Found (List Char) :=
  match readDigits text with
  | .ok (digits, rest) =>
    if digits.head? = some '0' && digits.length != 1 then .error .malformed
    else .ok (digits, rest)
  | .error e => .error e

/-- The digits behind a point, if there is a point. -/
def readFraction (text : List Char) : Found (Option (List Char)) :=
  match text with
  | '.' :: rest => (readDigits rest).map fun (digits, rest) => (some digits, rest)
  | _ => .ok (none, text)

/-- The exponent, if there is one. -/
def readExponent (text : List Char) : Found (Option Int) :=
  let unsigned (sign : Int) (text : List Char) : Found (Option Int) :=
    (readDigits text).map fun (digits, rest) => (some (sign * Decimal.digitsValue digits), rest)
  match text with
  | c :: rest =>
    if c = 'e' || c = 'E' then
      match rest with
      | '+' :: rest => unsigned 1 rest
      | '-' :: rest => unsigned (-1) rest
      | _ => unsigned 1 rest
    else .ok (none, text)
  | [] => .ok (none, text)

namespace Numeral

/-- Appends digits to a number for as long as it fits 64 bits, and counts them. -/
def appendFitting (n : Nat) : List Char → Nat × Nat
  | [] => (n, 0)
  | d :: digits =>
    let longer := 10 * n + (d.toNat - '0'.toNat)
    if longer < Nat.pow 2 64 then
      let (value, count) := appendFitting longer digits
      (value, count + 1)
    else (n, 0)

/-- The leading digits of the number that fit 64 bits, as a whole number, and the power of ten that
they are multiplied by. The other digits count for nothing but their places. -/
def leading (n : Numeral) : Nat × Int :=
  let (whole, count) := appendFitting 0 n.whole
  let (value, places) := appendFitting whole (n.fraction.getD [])
  (value, (n.whole.length - count : Nat) - (places : Int) + n.exponent.getD 0)

/-- Is the number too large for a double? Its leading digits, the power of ten and their product are
each rounded to a double. -/
def overflows (n : Numeral) : Bool :=
  let (digits, scale) := n.leading
  digits ≠ 0 && (308 < scale || (0 ≤ scale &&
    Decimal.infinityBound ≤
      Decimal.roundWhole digits * Decimal.roundWhole (Nat.pow 10 scale.toNat)))

/-- The whole number that is written without a sign, a point or an exponent. -/
def natural? (n : Numeral) : Option Nat :=
  if n.negative || n.fraction.isSome || n.exponent.isSome then none
  else some (Decimal.digitsValue n.whole)

end Numeral

/-- A number. One that no double can hold is malformed. -/
def readNumber (text : List Char) : Except Misread (Numeral × List Char) := do
  let (negative, text) := match text with
    | '-' :: rest => (true, rest)
    | _ => (false, text)
  let (whole, text) ← readWhole text
  let (fraction, text) ← readFraction text
  let (exponent, text) ← readExponent text
  let numeral : Numeral := ⟨negative, whole, fraction, exponent⟩
  if numeral.overflows then .error .malformed else .ok (numeral, text)

/-! ### Values out of place -/

/-- The fault in a text that should go on with `word`. -/
def misfitWord (word : List Char) (text : List Char) : Misread :=
  match word, text with
  | [], _ => .unfit
  | _ :: _, [] => .early
  | w :: word, c :: text => if w = c then misfitWord word text else .malformed

/-- The fault of a document in which a value of another kind stands at the beginning of `text`: it
is unfit, but only if the value itself can be read so far. -/
def misfit (text : List Char) : Misread :=
  match text with
  | [] => .early
  | 'n' :: rest => misfitWord "ull".toList rest
  | 't' :: rest => misfitWord "rue".toList rest
  | 'f' :: rest => misfitWord "alse".toList rest
  | '"' :: rest =>
    match readQuoted rest with
    | .ok _ => .unfit
    | .error e => e
  | c :: _ =>
    if c = '[' || c = '\x7b' then .unfit
    else if c = '-' || c.isDigit then
      match readNumber text with
      | .ok _ => .unfit
      | .error e => e
    else .malformed

end ScopeLang.Settings
