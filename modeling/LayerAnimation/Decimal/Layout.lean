import LayerAnimation.Decimal.Shortest

/-!
# Layouts of numbers

How a double is written: which powers of ten are written positionally, whether a whole number
carries a fraction, how the exponent looks, and what stands for the values that have no digits.
The digits themselves are those of the shortest decimal.

`Layout.json`, `Layout.plain` and `Layout.debug` are the three layouts of the library; `fixed`
writes a number to a fixed count of places instead.
-/

namespace LayerAnimation.Decimal

/-! ## §1 Layouts -/

/-- The decisions of a number format. -/
structure Layout where
  /-- The lowest power of ten of a first digit that is written positionally, if there is a bound. -/
  lowest : Option Int
  /-- The highest power of ten of a first digit that is written positionally, if there is a bound. -/
  highest : Option Int
  /-- A whole number written positionally ends in a point and a zero. -/
  wholePoint : Bool
  /-- A positive exponent carries its sign. -/
  exponentPlus : Bool
  /-- Which of two equally near shortest decimals is written. -/
  tie : Tie
  /-- What stands for a not-a-number. -/
  notANumber : String
  /-- What stands for the two infinities. -/
  infinity : String
  negativeInfinity : String

namespace Layout

/-- Numbers in documents: positional from 10⁻⁵ to below 10¹⁶ and never without a fraction; values
without digits are null. -/
def json : Layout where
  lowest := some (-5)
  highest := some 15
  wholePoint := true
  exponentPlus := true
  tie := .even
  notANumber := "null"
  infinity := "null"
  negativeInfinity := "null"

/-- Numbers in messages: always positional, with a fraction only where there is one. -/
def plain : Layout where
  lowest := none
  highest := none
  wholePoint := false
  exponentPlus := false
  tie := .up
  notANumber := "NaN"
  infinity := "inf"
  negativeInfinity := "-inf"

/-- Numbers in descriptions of states: positional from 10⁻⁴ to below 10¹⁶ and never without a
fraction. -/
def debug : Layout where
  lowest := some (-4)
  highest := some 15
  wholePoint := true
  exponentPlus := false
  tie := .up
  notANumber := "NaN"
  infinity := "inf"
  negativeInfinity := "-inf"

/-! ## §2 Writing -/

/-- Whether a number whose first digit stands at the given power of ten is written positionally. -/
def isPositional (l : Layout) (power : Int) : Bool :=
  l.lowest.all (· ≤ power) && l.highest.all (power ≤ ·)

/-- Digits with a point after the first `whole` of them; zeros fill up on either side. -/
def positional (l : Layout) (digits : List Char) (whole : Int) : List Char :=
  if whole ≤ 0 then
    '0' :: '.' :: (List.replicate (-whole).toNat '0' ++ digits)
  else if digits.length ≤ whole.toNat then
    digits ++ List.replicate (whole.toNat - digits.length) '0'
      ++ (if l.wholePoint then ['.', '0'] else [])
  else
    digits.take whole.toNat ++ '.' :: digits.drop whole.toNat

/-- One digit before the point and the power of ten after it. -/
def scientific (l : Layout) (digits : List Char) (power : Int) : List Char :=
  let sign := if power < 0 then ['-'] else if l.exponentPlus then ['+'] else []
  let fraction := if digits.length ≤ 1 then [] else '.' :: digits.drop 1
  digits.take 1 ++ fraction ++ 'e' :: (sign ++ digitChars power.natAbs)

/-- A numeral without a factor ten, in a layout. -/
def numeral (l : Layout) (n : Numeral) : List Char :=
  let digits := digitChars n.mantissa
  -- How many digits stand before the point, counted below one as well.
  let whole : Int := digits.length + n.exponent
  let body :=
    if n.mantissa = 0 then l.positional digits 1
    else if l.isPositional (whole - 1) then l.positional digits whole
    else l.scientific digits (whole - 1)
  if n.negative then '-' :: body else body

/-- The characters of a double in a layout. -/
def chars (l : Layout) (x : Float) : List Char :=
  if x.isNaN then l.notANumber.toList
  else if x.isFinite then l.numeral (shortest l.tie x)
  else if signBit x then l.negativeInfinity.toList
  else l.infinity.toList

/-- The text of a double in a layout. -/
def text (l : Layout) (x : Float) : String :=
  String.ofList (l.chars x)

end Layout

/-! ## §3 Fixed places -/

/-- The text of a finite double with the given count of places after the point. -/
def fixed (places : Nat) (x : Float) : String :=
  let b := binaryOf x
  let units := roundDiv (b.numerator * Nat.pow 10 places) b.denominator
  let digits := digitChars units
  let padded := List.replicate (places + 1 - digits.length) '0' ++ digits
  let whole := padded.take (padded.length - places)
  let fraction := padded.drop (padded.length - places)
  let sign := if signBit x then ['-'] else []
  String.ofList (sign ++ whole ++ (if places = 0 then [] else '.' :: fraction))

end LayerAnimation.Decimal
