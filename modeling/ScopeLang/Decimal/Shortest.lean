import ScopeLang.Decimal.Binary64

/-!
# The shortest decimal of a double

Of all decimals that round to a given double, one with the fewest digits is chosen, and of those the
nearest to the double. The search is exact: the double and the two ends of its rounding interval are
integers over one denominator, and on each decimal grid only the two neighbours of the double have
to be tried.
-/

namespace ScopeLang.Decimal

/-- The decimal `digits * 10 ^ exponent`. -/
structure Scientific where
  digits : Nat
  exponent : Int
deriving DecidableEq

namespace Scientific

/-- Drops trailing zeros of the digits, at most `fuel` of them. -/
def trim : (fuel : Nat) → Scientific → Scientific
  | 0, d => d
  | fuel + 1, d =>
    if d.digits % 10 = 0 ∧ d.digits ≠ 0 then trim fuel ⟨d.digits / 10, d.exponent + 1⟩ else d

def digitText (d : Scientific) : String := Nat.repr d.digits

/-- The exponent of the leading digit. -/
def leadingExponent (d : Scientific) : Int := d.exponent + (d.digitText.length - 1 : Nat)

end Scientific

/-- A value and the ends of the interval of reals that round to it, over a common denominator. -/
structure Interval where
  value : Nat
  low : Nat
  high : Nat
  denominator : Nat
  /-- The ends themselves round to the value. -/
  closed : Bool

namespace Interval

/-- The rounding interval of `mantissa * 2 ^ exponent`. It reaches half way to the next double on
each side; below a power of two the doubles lie twice as dense. Ties round to an even mantissa. -/
def ofMagnitude (mantissa : Nat) (exponent : Int) : Interval :=
  let below := if mantissa = Nat.pow 2 52 ∧ exponent ≠ minExponent then 1 else 2
  let scale := Nat.pow 2 (exponent - 2).toNat
  { value := 4 * mantissa * scale
    low := (4 * mantissa - below) * scale
    high := (4 * mantissa + 2) * scale
    denominator := Nat.pow 2 (2 - exponent).toNat
    closed := mantissa % 2 = 0 }

/-- Does the fraction `n / d` lie in the interval? -/
def contains (i : Interval) (n d : Nat) : Bool :=
  if i.closed then i.low * d ≤ n * i.denominator && n * i.denominator ≤ i.high * d
  else i.low * d < n * i.denominator && n * i.denominator < i.high * d

/-- The power of ten above the value, up to one too many when the value is itself a power of ten. -/
def tenAbove (i : Interval) : Int :=
  if i.denominator ≤ i.value then ((Nat.repr (i.value / i.denominator)).length : Int)
  else 1 - ((Nat.repr (i.denominator / i.value)).length : Int)

/-- The point of the grid of step `10 ^ exponent` that lies in the interval and is nearest to the
value; of two equally near ones the greater. -/
def nearest? (i : Interval) (exponent : Int) : Option Scientific :=
  let up := Nat.pow 10 exponent.toNat
  let down := Nat.pow 10 (-exponent).toNat
  let scaled := i.value * down
  let step := i.denominator * up
  let floor := scaled / step
  let gap := scaled % step
  let below := i.contains (floor * up) down
  let above := i.contains ((floor + 1) * up) down
  if above && (!below || step ≤ 2 * gap) then some ⟨floor + 1, exponent⟩
  else if below then some ⟨floor, exponent⟩
  else none

/-- Tries finer and finer grids, from `tries` ones. -/
def search (i : Interval) : (tries : Nat) → (exponent : Int) → Scientific
  | 0, exponent => ⟨0, exponent⟩
  | tries + 1, exponent =>
    match i.nearest? exponent with
    | some d => d
    | none => i.search tries (exponent - 1)

end Interval

/-- The shortest decimal that rounds to `mantissa * 2 ^ exponent`. Seventeen digits always suffice.
-/
def shortest (mantissa : Nat) (exponent : Int) : Scientific :=
  if mantissa = 0 then ⟨0, 0⟩
  else
    let i := Interval.ofMagnitude mantissa exponent
    (i.search 18 (i.tenAbove - 1)).trim 20

end ScopeLang.Decimal
