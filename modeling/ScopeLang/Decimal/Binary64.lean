/-!
# The parts of a double

A double is a sign and either a magnitude `mantissa * 2 ^ exponent`, an infinity, or no number at
all. Exact arithmetic on doubles is integer arithmetic on these parts.
-/

namespace ScopeLang.Decimal

/-- What a double stands for, its sign apart. -/
inductive Magnitude where
  | finite (mantissa : Nat) (exponent : Int)
  | infinite
  | undefined
deriving DecidableEq

/-- The least exponent a double can have. -/
def minExponent : Int := -1074

def isNegative (x : Float) : Bool := x.toBits >>> 63 == 1

/-- The magnitude of a double: the stored fraction, with the hidden bit where the exponent is not
the least. -/
def magnitude (x : Float) : Magnitude :=
  let fraction := (x.toBits &&& 0xFFFFFFFFFFFFF).toNat
  let scale := ((x.toBits >>> 52) &&& 0x7FF).toNat
  if scale = 0x7FF then
    if fraction = 0 then .infinite else .undefined
  else if scale = 0 then .finite fraction minExponent
  else .finite (Nat.pow 2 52 + fraction) (scale - 1 + minExponent)

/-- The double with this sign and the magnitude `mantissa * 2 ^ exponent`, for magnitudes that a
double can hold: the mantissa is moved up until its hidden bit is set or the exponent is the least
one. -/
def assemble (negative : Bool) (mantissa : Nat) (exponent : Int) : Float :=
  let room := (exponent - minExponent).toNat
  let shift := min room (52 - mantissa.log2)
  let whole := mantissa <<< shift
  let magnitudeBits :=
    if whole < Nat.pow 2 52 then whole else (room - shift) * Nat.pow 2 52 + whole
  .ofBits (UInt64.ofNat ((if negative then Nat.pow 2 63 else 0) + magnitudeBits))

/-- The exact remainder of a division truncated towards zero, for a divisor other than zero. It has
the sign of the dividend. -/
def remainder (x y : Float) : Float :=
  match magnitude x, magnitude y with
  | .finite mx ex, .finite my ey =>
    let e := min ex ey
    assemble (isNegative x) ((mx <<< (ex - e).toNat) % (my <<< (ey - e).toNat)) e
  | .finite _ _, .infinite => x
  | _, _ => 0.0 / 0.0

/-- The double next to a whole number, a tie going to the even mantissa, as if exponents had no
upper bound. -/
def roundWhole (n : Nat) : Nat :=
  let unit := Nat.pow 2 (n.log2 - 52)
  let mantissa := n / unit
  let rest := n % unit
  let up := unit < 2 * rest || (2 * rest = unit && mantissa % 2 = 1)
  (if up then mantissa + 1 else mantissa) * unit

/-- From this number on doubles are infinite: it lies half a unit above the largest finite one. -/
def infinityBound : Nat := Nat.pow 2 1024 - Nat.pow 2 970

end ScopeLang.Decimal
