import LayerAnimation.Decimal.Nearest

/-!
# Shortest decimals

The decimal with the fewest digits that reads back as a given double.

A positive double is a whole number times a power of two, so its decimal expansion can be cut off
after any number of digits exactly.  For one digit, two digits and so on up to seventeen, the two
decimals of that many digits on either side of the double are read back; the first count at which
one of them gives the double again wins, and of two the nearer.
-/

namespace LayerAnimation.Decimal

/-! ## §1 Cut-off expansions -/

/-- The decimal expansion of a positive number, cut off: `digits` units of ten to the power
`-places`, and whether something was cut off below.  Whatever rounds to the same double is at most
`reach` units away. -/
structure Expansion where
  digits : Nat
  places : Nat
  cut : Bool
  reach : Nat
  deriving Repr

/-- Enough decimal places to show at least eighteen digits of a positive number. -/
def placesFor (b : Binary) : Nat :=
  let small := (-b.exponent - b.mantissa.log2).toNat
  18 + (small * 30103 / 100000 + 1)

/-- The expansion of a positive number to at least eighteen digits. -/
def expand (b : Binary) : Expansion :=
  let places := placesFor b
  let scaled := b.numerator * Nat.pow 10 places
  let digits := scaled / b.denominator
  ⟨digits, places, scaled % b.denominator != 0, digits / b.mantissa + 2⟩

/-- How a number compares with the middle between its two neighbours on a grid. -/
def compareToMiddle (rest unit : Nat) (cut : Bool) : Ordering :=
  match compare (2 * rest) unit with
  | .lt => .lt
  | .gt => .gt
  | .eq => if cut then .gt else .eq

/-! ## §2 The search -/

/-- Where the middle between two decimals goes. -/
inductive Tie where
  | even
  | up
  deriving DecidableEq, Repr

/-- Whether a decimal reads back as the double with the given bits. -/
def readsBack (bits : Nat) (digits : Nat) (exponent : Int) : Bool :=
  Numeral.bits ⟨false, digits, exponent⟩ == bits

/-- The decimal with `count` digits that reads back as the double with the given bits, if there is
one; `e` is the expansion of the double and `length` the count of its digits.  Decimals out of reach
are not read back. -/
def withDigits (tie : Tie) (bits : Nat) (e : Expansion) (length count : Nat) :
    Option (Nat × Int) :=
  let unit := Nat.pow 10 (length - count)
  let low := e.digits / unit
  let rest := e.digits % unit
  let exponent : Int := (length - count : Nat) - (e.places : Int)
  -- Most grids are too coarse, which is seen without reading anything back.
  if e.reach < rest ∧ e.reach < unit - rest then none else
  match readsBack bits low exponent, readsBack bits (low + 1) exponent with
  -- Both neighbours on the grid read back: the nearer one is written.
  | true, true =>
      let up : Bool :=
        match compareToMiddle rest unit e.cut with
        | .lt => false
        | .gt => true
        | .eq => tie == .up || low % 2 == 1
      some (if up then low + 1 else low, exponent)
  | true, false => some (low, exponent)
  | false, true => some (low + 1, exponent)
  | false, false => none

/-- The decimal with the fewest digits, at least `count` and fewer than `count + more`, that reads
back as the double with the given bits. -/
def searchFrom (tie : Tie) (bits : Nat) (e : Expansion) (length : Nat) :
    Nat → Nat → Option (Nat × Int)
  | 0, _ => none
  | more + 1, count =>
      match withDigits tie bits e length count with
      | some found => some found
      | none => searchFrom tie bits e length more (count + 1)

/-- Every digit of a number. -/
def exactDigits (b : Binary) : Nat × Int :=
  (b.numerator * Nat.pow 5 (-b.exponent).toNat, min b.exponent 0)

/-- The digits and the power of ten of the shortest decimal for a positive double with the given
bits. -/
def shortestDigits (tie : Tie) (bits : Nat) : Nat × Int :=
  let b := Binary.ofBits bits
  let e := expand b
  (searchFrom tie bits e (digitChars e.digits).length 17 1).getD (exactDigits b)

/-- The shortest decimal of a finite double, in normal form. -/
def shortest (tie : Tie) (x : Float) : Numeral :=
  if magnitudeBits x = 0 then ⟨signBit x, 0, 0⟩
  else
    let found := shortestDigits tie (magnitudeBits x)
    Numeral.normal ⟨signBit x, found.1, found.2⟩

end LayerAnimation.Decimal
