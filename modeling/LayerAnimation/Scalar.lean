/-!
# Scalars

The numbers of an animation: times, coordinates, colour components.  Everything that computes with
them is written against the class `Scalar`, which holds the operations and no laws, so that one
definition serves two instances:

- `Float`, with which programs run;
- exact ordered fields, over which statements about curves and transforms hold without rounding.

The order of a scalar need not be total: a comparison with a not-a-number is false, and the
selections below (`larger`, `smaller`, `clamp`) say which argument wins in that case.
-/

namespace LayerAnimation

/-- Numbers that animations compute with. -/
class Scalar (α : Type) extends
    Add α, Sub α, Mul α, Div α, Neg α, NatCast α, OfScientific α, LT α, LE α, BEq α where
  /-- The strict order can be tested. -/
  decideLT : DecidableLT α
  /-- The order can be tested. -/
  decideLE : DecidableLE α
  /-- Neither infinite nor a not-a-number. -/
  isFinite : α → Bool
  /-- Half the length of the unit circle. -/
  pi : α

namespace Scalar

variable {α : Type} [Scalar α]

instance : DecidableLT α := decideLT

instance : DecidableLE α := decideLE

/-- The larger of two numbers.  Equal ones give the second, so that of two zeros its sign counts,
and a not-a-number gives way to the other one. -/
def larger (a b : α) : α :=
  -- Only a not-a-number differs from itself.
  if b < a then a else if b == b then b else a

/-- The smaller of two numbers.  Equal ones give the second, so that of two zeros its sign counts,
and a not-a-number gives way to the other one. -/
def smaller (a b : α) : α :=
  if a < b then a else if b == b then b else a

/-- Move a number into the interval from `lo` to `hi`; a not-a-number stays. -/
def clamp (lo hi x : α) : α :=
  if x < lo then lo else if hi < x then hi else x

/-- The distance of a number from zero. -/
def abs (x : α) : α :=
  if x < 0.0 then -x else x

end Scalar

/-- Double-precision numbers. -/
instance : Scalar Float where
  natCast := Float.ofNat
  decideLT := inferInstance
  decideLE := inferInstance
  isFinite := Float.isFinite
  pi := 3.141592653589793

end LayerAnimation
