import LayerAnimation.Proofs.Punctuality

/-!
# Exact numbers

Statements about what animations show are clearest without rounding.  Callers may still ask for
durations and delays that are no numbers at all, so the numbers of an ordered field are taken
together with two infinities and a not-a-number.

- `Exact K` are these numbers.  Their operations are those of doubles without rounding; zero has no
  sign.
- `Exact.place?` is the place of what is not a not-a-number, and `Exact.le_iff` says that comparing
  is comparing places.
- Exact numbers obey the laws of time, and longer waits lead no less far.
-/

namespace LayerAnimation

/-- The numbers of a field with two infinities and a not-a-number. -/
inductive Exact (K : Type) where
  | number (x : K)
  | infinity
  | negativeInfinity
  | notANumber
  deriving DecidableEq

namespace Exact

variable {K : Type} [Field K] [LinearOrder K]

/-! ## §1 Operations -/

/-- The sign of a number; a not-a-number has none. -/
def sign : Exact K → SignType
  | number x => SignType.sign x
  | infinity => 1
  | negativeInfinity => -1
  | notANumber => 0

/-- What lies beyond all numbers in a direction. -/
def beyond : SignType → Exact K
  | .pos => infinity
  | .neg => negativeInfinity
  | .zero => notANumber

/-- The sum of opposite infinities is a not-a-number. -/
def add : Exact K → Exact K → Exact K
  | number x, number y => number (x + y)
  | number _, y => y
  | x, number _ => x
  | infinity, infinity => infinity
  | negativeInfinity, negativeInfinity => negativeInfinity
  | _, _ => notANumber

def neg : Exact K → Exact K
  | number x => number (-x)
  | infinity => negativeInfinity
  | negativeInfinity => infinity
  | notANumber => notANumber

/-- An infinity keeps the sign of the product, if it has one. -/
def mul : Exact K → Exact K → Exact K
  | number x, number y => number (x * y)
  -- An infinity times zero has no sign.
  | x, y => beyond (x.sign * y.sign)

/-- Dividing by zero leads to infinity, and dividing by infinity to zero. -/
def div : Exact K → Exact K → Exact K
  | number x, number y => if y = 0 then beyond (SignType.sign x) else number (x / y)
  | number _, infinity | number _, negativeInfinity => number 0
  | x, number y => beyond (x.sign * if 0 ≤ y then 1 else -1)
  | _, _ => notANumber

/-- The numbers with a least and a greatest place. -/
abbrev Line (K : Type) : Type :=
  WithBot (WithTop K)

/-- The place of what is not a not-a-number. -/
def place? : Exact K → Option (Line K)
  | number x => some ((x : WithTop K) : WithBot (WithTop K))
  | infinity => some ⊤
  | negativeInfinity => some ⊥
  | notANumber => none

/-- Whether two numbers have places that are related. -/
def compares (relation : Line K → Line K → Bool) (x y : Exact K) : Bool :=
  match x.place?, y.place? with
  | some a, some b => relation a b
  | _, _ => false

instance : Scalar (Exact K) where
  add := add
  sub x y := add x (neg y)
  mul := mul
  div := div
  neg := neg
  natCast n := number n
  ofScientific m negative e := number (OfScientific.ofScientific m negative e)
  le x y := compares (fun a b => decide (a ≤ b)) x y = true
  lt x y := compares (fun a b => decide (a < b)) x y = true
  beq := compares fun a b => decide (a = b)
  decideLT _ _ := inferInstanceAs (Decidable (_ = true))
  decideLE _ _ := inferInstanceAs (Decidable (_ = true))
  isFinite
    | number _ => true
    | _ => false
  pi := number 3.141592653589793

/-! ## §2 Comparisons -/

variable {x y : Exact K}

omit [Field K] [LinearOrder K] in
/-- Numbers are compared by their places; a not-a-number has none. -/
theorem compares_eq_true_iff {relation : Line K → Line K → Bool} :
    compares relation x y = true ↔
      ∃ a b, x.place? = some a ∧ y.place? = some b ∧ relation a b = true := by
  unfold compares
  cases x.place? <;> cases y.place? <;> simp

/-- One number is at most another if its place is. -/
theorem le_iff : x ≤ y ↔ ∃ a b, x.place? = some a ∧ y.place? = some b ∧ a ≤ b := by
  have hle : x ≤ y ↔ compares (fun a b => decide (a ≤ b)) x y = true := Iff.rfl
  simp [hle, compares_eq_true_iff]

theorem lt_iff : x < y ↔ ∃ a b, x.place? = some a ∧ y.place? = some b ∧ a < b := by
  have hlt : x < y ↔ compares (fun a b => decide (a < b)) x y = true := Iff.rfl
  simp [hlt, compares_eq_true_iff]

theorem beq_iff : (x == y) = true ↔ ∃ a b, x.place? = some a ∧ y.place? = some b ∧ a = b := by
  have hbeq : (x == y) = true ↔ compares (fun a b => decide (a = b)) x y = true := Iff.rfl
  simp [hbeq, compares_eq_true_iff]

/-- Among numbers the order is that of the field. -/
@[simp] theorem number_le_number {a b : K} : number a ≤ number b ↔ a ≤ b := by
  simp [le_iff, place?]

@[simp] theorem number_lt_number {a b : K} : number a < number b ↔ a < b := by
  simp [lt_iff, place?]

@[simp] theorem number_beq_number {a b : K} : (number a == number b) = true ↔ a = b := by
  rw [beq_iff]
  simp only [place?, Option.some.injEq, exists_and_left, exists_eq_left', WithBot.coe_inj,
    WithTop.coe_inj]

/-- Only a number equals a number. -/
theorem eq_number_of_beq {a : K} (h : (number a == y) = true) : y = number a := by
  cases y with
  | number b => exact congrArg number (number_beq_number.mp h).symm
  | _ => simp [beq_iff, place?] at h

theorem number_le_infinity (a : K) : number a ≤ infinity := by
  simp [le_iff, place?]

/-- Infinity lies behind all numbers. -/
theorem number_lt_infinity (a : K) : number a < infinity :=
  lt_iff.mpr ⟨_, _, rfl, rfl, WithBot.coe_lt_coe.mpr (WithTop.coe_lt_top a)⟩

theorem infinity_le_infinity : (infinity : Exact K) ≤ infinity := by
  simp [le_iff, place?]

theorem not_infinity_le_number (a : K) : ¬ infinity ≤ number a := by
  simp [le_iff, place?]

@[simp] theorem number_add_number (a b : K) : number a + number b = number (a + b) := rfl

@[simp] theorem number_sub_number (a b : K) : number a - number b = number (a - b) := by
  rw [sub_eq_add_neg]
  rfl

@[simp] theorem number_mul_number (a b : K) : number a * number b = number (a * b) := rfl

/-- Where the divisor is not zero, division is that of the field. -/
theorem number_div_number (a : K) {b : K} (h : b ≠ 0) : number a / number b = number (a / b) :=
  if_neg h

/-- The finite ones are the numbers. -/
theorem isFinite_iff : Scalar.isFinite x = true ↔ ∃ a, x = number a := by
  cases x <;> simp [Scalar.isFinite]

variable [IsStrictOrderedRing K]

/-- A literal is a number of the field. -/
@[simp] theorem zero_eq : (0.0 : Exact K) = number 0 := by
  show number (OfScientific.ofScientific 0 true 1 : K) = number 0
  norm_num

@[simp] theorem one_eq : (1.0 : Exact K) = number 1 := by
  show number (OfScientific.ofScientific 10 true 1 : K) = number 1
  norm_num

/-- The numbers from zero on, and infinity. -/
theorem nonneg_cases (h : 0.0 ≤ x) : (∃ a, 0 ≤ a ∧ x = number a) ∨ x = infinity := by
  rw [zero_eq, le_iff] at h
  cases x <;> simp [place?] at h ⊢
  exact h

/-- The numbers between zero and one. -/
theorem exists_number_of_unit (h0 : 0.0 ≤ x) (h1 : x ≤ 1.0) :
    ∃ a, x = number a ∧ 0 ≤ a ∧ a ≤ 1 := by
  obtain ⟨a, ha, rfl⟩ | rfl := nonneg_cases h0
  · exact ⟨a, rfl, ha, by simpa using h1⟩
  · rw [one_eq] at h1
    exact absurd h1 (not_infinity_le_number 1)

/-- The numbers strictly between zero and one. -/
theorem exists_number_of_interior (hx : 0.0 < x ∧ x < 1.0) :
    ∃ a, x = number a ∧ 0 < a ∧ a < 1 := by
  obtain ⟨h0, h1⟩ := hx
  rw [zero_eq, lt_iff] at h0
  rw [one_eq, lt_iff] at h1
  cases x <;> simp [place?] at h0 h1 ⊢
  exact ⟨h0, h1⟩

@[simp] theorem abs_number (a : K) : Scalar.abs (number a) = number |a| := by
  unfold Scalar.abs
  simp only [zero_eq, number_lt_number]
  split
  · rename_i h
    rw [abs_of_neg h]
    rfl
  · rename_i h
    rw [abs_of_nonneg (not_lt.mp h)]

/-- A moment and a wait that does not go back come to a number only if both are numbers. -/
theorem exists_number_of_add_le {n : K} (hx : 0.0 ≤ x) (hy : ¬ y ≤ 0.0)
    (h : x + y ≤ number n) : ∃ a b, x = number a ∧ y = number b := by
  have hsum : x + y = add x y := rfl
  rw [hsum] at h
  rw [zero_eq] at hy
  -- An infinite part makes the sum infinite, or no number at all.
  obtain ⟨a, -, rfl⟩ | rfl := nonneg_cases hx <;> cases y <;>
    simp [add, le_iff, place?] at h hy ⊢

/-! ## §3 The laws of time -/

/-- Exact numbers obey the laws of time. -/
instance : SteadyTime (Exact K) where
  le_left h := by
    obtain ⟨a, b, ha, -, -⟩ := le_iff.mp h
    exact le_iff.mpr ⟨a, a, ha, ha, le_refl a⟩
  le_right h := by
    obtain ⟨a, b, -, hb, -⟩ := le_iff.mp h
    exact le_iff.mpr ⟨b, b, hb, hb, le_refl b⟩
  le_trans h h' := by
    obtain ⟨a, b, ha, hb, hab⟩ := le_iff.mp h
    obtain ⟨b', c, hb', hc, hbc⟩ := le_iff.mp h'
    -- There is one place only in the middle.
    obtain rfl : b = b' := Option.some.inj (hb.symm.trans hb')
    exact le_iff.mpr ⟨a, c, ha, hc, hab.trans hbc⟩
  le_total h h' := by
    obtain ⟨a, -, ha, -, -⟩ := le_iff.mp h
    obtain ⟨b, -, hb, -, -⟩ := le_iff.mp h'
    exact (le_total a b).imp (fun hab => le_iff.mpr ⟨a, b, ha, hb, hab⟩)
      fun hba => le_iff.mpr ⟨b, a, hb, ha, hba⟩
  lt_iff {x y} := by
    rw [lt_iff, le_iff, le_iff]
    cases x.place? with
    | none => simp
    -- Both have a place, and there the order is total.
    | some a =>
      cases y.place? with
      | none => simp
      | some b =>
        simp only [Option.some.injEq, exists_and_left, exists_eq_left']
        exact lt_iff_le_not_ge
  beq_self_iff {x} := by
    rw [le_iff, beq_iff]
    cases x.place? <;> simp
  zero_le_zero := by simp
  isFinite_zero := by simp [isFinite_iff]
  le_self_of_isFinite h := by
    obtain ⟨a, rfl⟩ := isFinite_iff.mp h
    exact number_le_number.mpr (le_refl a)
  le_add {a d} ha hfinite hd := by
    obtain ⟨d, rfl⟩ := isFinite_iff.mp hfinite
    rw [zero_eq, number_le_number] at hd
    obtain ⟨a, -, rfl⟩ | rfl := nonneg_cases ha
    · simpa using hd
    · exact infinity_le_infinity
  add_zero_le {a} ha := by
    obtain ⟨a, -, rfl⟩ | rfl := nonneg_cases ha
    · simp
    · rw [zero_eq]
      exact infinity_le_infinity
  add_le_add {a b c} ha hb hbc := by
    -- What lies behind a moment from zero on lies behind zero too.
    have hc := nonneg_cases (x := c) (by
      obtain ⟨p, q, hp, hq, hpq⟩ := le_iff.mp hb
      obtain ⟨q', r, hq', hr, hqr⟩ := le_iff.mp hbc
      obtain rfl : q = q' := Option.some.inj (hq.symm.trans hq')
      exact le_iff.mpr ⟨p, r, hp, hr, hpq.trans hqr⟩)
    obtain ⟨a, -, rfl⟩ | rfl := nonneg_cases ha <;>
      obtain ⟨b, -, rfl⟩ | rfl := nonneg_cases hb <;>
      obtain ⟨c, -, rfl⟩ | rfl := hc
    -- An infinite part makes a sum infinite.
    · simpa using hbc
    · exact number_le_infinity _
    · exact absurd hbc (not_infinity_le_number c)
    · exact infinity_le_infinity
    · exact infinity_le_infinity
    · exact infinity_le_infinity
    · exact absurd hbc (not_infinity_le_number c)
    · exact infinity_le_infinity
  add_le {a d} ha hfinite hd := by
    obtain ⟨d, rfl⟩ := isFinite_iff.mp hfinite
    rw [zero_eq, number_le_number] at hd
    obtain ⟨a, -, rfl⟩ | rfl := nonneg_cases ha
    · simpa using hd
    · exact infinity_le_infinity

end Exact

end LayerAnimation
