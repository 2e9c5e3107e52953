import LayerAnimation.Decimal.Numeral

/-!
# The nearest double

Doubles of one sign are ordered like the whole numbers that their bits write, and consecutive bits
belong to neighbouring doubles.  `nearestBits` finds the bits of the double nearest to a fraction by
exact arithmetic: it chooses the power of two at which the fraction has 53 binary digits, or the
lowest power there is, and rounds the quotient there to a whole number, ties to even.  A quotient
that rounds up to the next power of two needs no care, because its bits are those of that double.
-/

namespace LayerAnimation.Decimal

/-! ## §1 Rounding quotients -/

/-- The whole number nearest to a fraction; the middle goes to the even neighbour. -/
def roundDiv (num den : Nat) : Nat :=
  let q := num / den
  match compare (2 * (num % den)) den with
  | .lt => q
  | .gt => q + 1
  | .eq => if q % 2 = 0 then q else q + 1

/-! ## §2 Doubles as bits -/

/-- Two to the power 52: the count of doubles between two powers of two. -/
def binadeSize : Nat := 0x10000000000000

/-- The bits of infinity. -/
def infinityBits : Nat := 0x7FF0000000000000

/-- The power of two of the smallest positive double. -/
def lowestExponent : Int := -1074

/-- The number `mantissa` times two to the power `exponent`. -/
structure Binary where
  mantissa : Nat
  exponent : Int
  deriving DecidableEq, Repr

/-- The finite double with the given bits and without sign, as a whole number times a power of
two. -/
def Binary.ofBits (bits : Nat) : Binary :=
  if bits < binadeSize then ⟨bits, lowestExponent⟩
  else ⟨bits % binadeSize + binadeSize, lowestExponent + (bits / binadeSize : Nat) - 1⟩

namespace Binary

/-- The numerator of the number as a fraction. -/
def numerator (b : Binary) : Nat :=
  b.mantissa * Nat.pow 2 b.exponent.toNat

/-- The denominator of the number as a fraction. -/
def denominator (b : Binary) : Nat :=
  Nat.pow 2 (-b.exponent).toNat

end Binary

/-! ## §3 The nearest double to a fraction -/

/-- The power of two at which a positive fraction has 53 binary digits before its point. -/
def fullExponent (num den : Nat) : Int :=
  -- The fraction lies between two to the power `e - 1` and two to the power `e + 1`.
  let e : Int := (num.log2 : Int) - den.log2
  if num * Nat.pow 2 (-e).toNat < den * Nat.pow 2 e.toNat then e - 53 else e - 52

/-- The bits of the double nearest to a fraction; one too large for a double has those of
infinity. -/
def nearestBits (num den : Nat) : Nat :=
  if num = 0 then 0
  else
    -- Below the lowest exponent there are fewer than 53 digits to keep.
    let e := max lowestExponent (fullExponent num den)
    let quotient := roundDiv (num * Nat.pow 2 (-e).toNat) (den * Nat.pow 2 e.toNat)
    -- The leading digit of a full quotient counts for one step of the exponent.
    min infinityBits ((e - lowestExponent).toNat * binadeSize + quotient)

namespace Numeral

/-- A positive numeral with a power of ten above this exceeds every double. -/
def highestPower : Int := 400

/-- A numeral below this power of ten is nearest to zero. -/
def lowestPower : Int := -400

/-- The bits of the double nearest to the magnitude of a numeral.  A mantissa with `n` binary digits
is below the power `n` of ten, so numerals out of reach are found without writing them out. -/
def bits (n : Numeral) : Nat :=
  if n.mantissa = 0 ∨ n.exponent + (n.mantissa.log2 + 1 : Nat) < lowestPower then 0
  else if highestPower < n.exponent then infinityBits
  else
    nearestBits (n.mantissa * Nat.pow 10 n.exponent.toNat) (Nat.pow 10 (-n.exponent).toNat)

/-- The nearest double to a numeral. -/
def toFloat (n : Numeral) : Float :=
  let magnitude := Float.ofBits (UInt64.ofNat n.bits)
  if n.negative then -magnitude else magnitude

/-- The nearest double to a numeral, unless that is infinite. -/
def toFloat? (n : Numeral) : Option Float :=
  if n.bits < infinityBits then some n.toFloat else none

end Numeral

/-! ## §4 Signs and magnitudes -/

/-- Two to the power 63: the value of the sign bit. -/
def signValue : Nat := 0x8000000000000000

/-- Whether the sign bit of a double is set. -/
def signBit (x : Float) : Bool :=
  decide (signValue ≤ x.toBits.toNat)

/-- The bits of a double without its sign. -/
def magnitudeBits (x : Float) : Nat :=
  x.toBits.toNat % signValue

/-- The magnitude of a finite double as a whole number times a power of two. -/
def binaryOf (x : Float) : Binary :=
  .ofBits (magnitudeBits x)

end LayerAnimation.Decimal
