/-!
# Decimal numerals

A numeral is a sign, a whole number and a power of ten.  Numerals with the same value have the same
normal form, in which the whole number has no factor ten.

Digits are lists of characters, most significant first: `digitChars` writes a whole number and
`digitsValue` reads one.
-/

namespace LayerAnimation.Decimal

/-! ## §1 Digits -/

/-- The value of a decimal digit. -/
def digitValue (c : Char) : Nat :=
  c.toNat - '0'.toNat

/-- The whole number that a list of digits writes. -/
def digitsValue (cs : List Char) : Nat :=
  cs.foldl (fun n c => 10 * n + digitValue c) 0

/-- The digits of a whole number. -/
def digitChars (n : Nat) : List Char :=
  Nat.toDigits 10 n

/-- Take the powers of ten out of a whole number, at most `fuel` of them, and count them. -/
def dropZeros : Nat → Nat → Nat × Nat
  | 0, n => (n, 0)
  | fuel + 1, n =>
      if n % 10 = 0 then
        let rest := dropZeros fuel (n / 10)
        (rest.1, rest.2 + 1)
      else (n, 0)

/-! ## §2 Numerals -/

/-- The number `mantissa` times ten to the power `exponent`, negated if `negative`. -/
structure Numeral where
  negative : Bool
  mantissa : Nat
  exponent : Int
  deriving DecidableEq, Repr

namespace Numeral

/-- The numeral of the same value whose mantissa has no factor ten; zero has exponent zero. -/
def normal (n : Numeral) : Numeral :=
  if n.mantissa = 0 then
    { n with exponent := 0 }
  else
    let rest := dropZeros (digitChars n.mantissa).length n.mantissa
    { n with mantissa := rest.1, exponent := n.exponent + rest.2 }

end Numeral

end LayerAnimation.Decimal
