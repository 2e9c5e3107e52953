import LayerAnimation.Decimal.Nearest

/-!
# Number literals

Numbers as people type them: an optional sign, then digits with a point before, between or behind
them and an optional exponent, or one of the words for infinity and not-a-number in letters of
either case.  `literal?` rounds such a literal to the nearest double.
-/

namespace LayerAnimation.Decimal

/-- The leading decimal digits of a text and the rest. -/
def spanDigits (cs : List Char) : List Char × List Char :=
  (cs.takeWhile Char.isDigit, cs.dropWhile Char.isDigit)

/-- An optional sign: whether it is a minus, and the rest. -/
def spanSign (cs : List Char) : Bool × List Char :=
  match cs with
  | '-' :: rest => (true, rest)
  | '+' :: rest => (false, rest)
  | cs => (false, cs)

/-- An exponent that ends the text; an empty text is the exponent zero. -/
def exponent? (cs : List Char) : Option Int :=
  match cs with
  | [] => some 0
  | c :: rest =>
      if c = 'e' ∨ c = 'E' then
        let (negative, rest) := spanSign rest
        let (digits, rest) := spanDigits rest
        if digits.isEmpty || !rest.isEmpty then none
        else
          let n : Int := digitsValue digits
          some (if negative then -n else n)
      else none

/-- The digits behind a point, if there is one, and the rest. -/
def spanFraction (cs : List Char) : List Char × List Char :=
  match cs with
  | '.' :: rest => spanDigits rest
  | cs => ([], cs)

/-- A literal of digits without its sign. -/
def magnitude? (negative : Bool) (cs : List Char) : Option Numeral := do
  let (whole, cs) := spanDigits cs
  let (fraction, cs) := spanFraction cs
  if whole.isEmpty && fraction.isEmpty then none
  let exponent ← exponent? cs
  return ⟨negative, digitsValue (whole ++ fraction), exponent - fraction.length⟩

/-- The double for a literal. -/
def literal? (s : String) : Option Float :=
  let (negative, cs) := spanSign s.toList
  -- The words are tried first: none of them starts like a literal of digits.
  let word := String.ofList (cs.map Char.toLower)
  if word = "inf" ∨ word = "infinity" then
    some (if negative then -1.0 / 0.0 else 1.0 / 0.0)
  else if word = "nan" then some (0.0 / 0.0)
  else (magnitude? negative cs).map Numeral.toFloat

end LayerAnimation.Decimal
