import LayerAnimation.Decimal.Shortest
import LayerAnimation.Proofs.Decimal.Digits
import LayerAnimation.Proofs.Decimal.Nearest

/-!
# Shortest decimals read back

The shortest decimal of a double is a numeral of which that double is the nearest one.

- `bits_shortest` says so for the bits: the search returns nothing that was not read back, and where
  it finds nothing all the digits are written.
- `isFinite_iff` tells the finite doubles by their bits, and `toFloat_eq` finds a double again from
  its sign and the bits of its magnitude.
- `toFloat?_shortest` puts both together.
-/

namespace LayerAnimation.Decimal

open Double

/-! ## §1 The search -/

section Search

variable {tie : Tie} {bits length : ℕ} {e : Expansion}

/-- A candidate is returned only if it is read back. -/
theorem bits_of_withDigits {count : ℕ} {found : ℕ × ℤ}
    (h : withDigits tie bits e length count = some found) (s : Bool) :
    Numeral.bits ⟨s, found.1, found.2⟩ = bits := by
  show Numeral.bits ⟨false, found.1, found.2⟩ = bits
  apply eq_of_beq
  show readsBack bits found.1 found.2 = true
  unfold withDigits at h
  dsimp only at h
  generalize he : ((length - count : ℕ) : ℤ) - (e.places : ℤ) = exponent at h
  generalize e.digits / Nat.pow 10 (length - count) = low at h
  split at h
  · contradiction
  · split at h
    · next hlow hhigh =>
      -- Both neighbours are read back, and the tie is broken in favour of one.
      obtain rfl := Option.some_inj.mp h
      dsimp only
      split_ifs
      · exact hhigh
      · exact hlow
    · next hlow _ =>
      obtain rfl := Option.some_inj.mp h
      exact hlow
    · next _ hhigh =>
      obtain rfl := Option.some_inj.mp h
      exact hhigh
    · contradiction

/-- So is what is found with the first number of digits that suffices. -/
theorem bits_of_searchFrom {more count : ℕ} {found : ℕ × ℤ}
    (h : searchFrom tie bits e length more count = some found) (s : Bool) :
    Numeral.bits ⟨s, found.1, found.2⟩ = bits := by
  induction more generalizing count with
  | zero => contradiction
  | succ more ih =>
    rw [searchFrom] at h
    split at h
    · next hfound =>
      rw [h] at hfound
      exact bits_of_withDigits hfound s
    · exact ih h

end Search

/-- Every digit of a number gives its value. -/
theorem magnitude_exactDigits (b : Binary) (s : Bool) :
    Numeral.magnitude ⟨s, (exactDigits b).1, (exactDigits b).2⟩ = b.mantissa * 2 ^ b.exponent := by
  simp only [Numeral.magnitude, exactDigits, Binary.numerator, Nat.pow_eq, Nat.cast_mul,
    Nat.cast_pow, Nat.cast_ofNat]
  rcases Int.le_total 0 b.exponent with h | h
  · obtain ⟨k, hk⟩ := Int.eq_ofNat_of_zero_le h
    simp [hk]
  · obtain ⟨k, hk⟩ := Int.eq_ofNat_of_zero_le (neg_nonneg.mpr h)
    obtain hk' : b.exponent = -k := by omega
    have hmin : min (-(k : ℤ)) 0 = -k := by omega
    -- A negative power of two is a decimal fraction, with a power of five on top.
    have hten : (10 : ℚ) ^ k = 2 ^ k * 5 ^ k := by
      rw [← mul_pow]
      norm_num
    rw [hk', hmin, neg_neg, Int.toNat_natCast, Int.toNat_neg_natCast, zpow_neg, zpow_neg,
      zpow_natCast, zpow_natCast, hten, mul_inv]
    field_simp

/-- The digits that are chosen are read back, since all digits are if no fewer are. -/
theorem bits_shortestDigits (tie : Tie) {bits : ℕ} (hpos : 0 < bits) (hlt : bits < infinityBits)
    (s : Bool) :
    Numeral.bits ⟨s, (shortestDigits tie bits).1, (shortestDigits tie bits).2⟩ = bits := by
  unfold shortestDigits
  dsimp only
  cases hfound : searchFrom tie bits (expand (Binary.ofBits bits))
      (digitChars (expand (Binary.ofBits bits)).digits).length 17 1 with
  | some found => exact bits_of_searchFrom hfound s
  | none =>
    -- All digits together are the number itself, and its double is rounded to itself.
    obtain ⟨hcanonical, hmax, hbits⟩ := canonical_ofBits hpos hlt
    rw [Option.getD_none, Numeral.bits_eq, magnitude_exactDigits, roundedBits_value hcanonical hmax,
      hbits]

/-- The normal form of a numeral is read as the numeral is. -/
theorem Numeral.bits_normal (n : Numeral) : n.normal.bits = n.bits := by
  rw [bits_eq, bits_eq]
  congr 1
  unfold magnitude normal
  split
  · next h => simp [h]
  · have hmul : ((dropZeros (digitChars n.mantissa).length n.mantissa).1 : ℚ)
        * 10 ^ (dropZeros (digitChars n.mantissa).length n.mantissa).2 = n.mantissa := by
      exact_mod_cast dropZeros_mul_pow (digitChars n.mantissa).length n.mantissa
    dsimp only
    conv_rhs => rw [← hmul]
    rw [zpow_add₀ (by norm_num), zpow_natCast]
    ring

theorem bits_shortest (tie : Tie) {x : Float} (h : magnitudeBits x < infinityBits) :
    (shortest tie x).bits = magnitudeBits x := by
  unfold shortest
  split
  · next hzero => rw [hzero, Numeral.bits, if_pos (.inl rfl)]
  · next hpos =>
    rw [Numeral.bits_normal]
    exact bits_shortestDigits tie (Nat.pos_of_ne_zero hpos) h _

theorem negative_shortest (tie : Tie) (x : Float) : (shortest tie x).negative = signBit x := by
  unfold shortest Numeral.normal
  split
  · rfl
  · dsimp only
    split <;> rfl

theorem isNormal_shortest (tie : Tie) (x : Float) : (shortest tie x).IsNormal := by
  unfold shortest
  split
  · exact .inl ⟨rfl, rfl⟩
  · exact Numeral.isNormal_normal _

/-! ## §2 The bits of doubles -/

open Float.Model Float.Model.UnpackedFloat

/-- The bits of a double are its sign, its exponent and its mantissa side by side. -/
theorem toNat_packComponents (s : Sign) (x : BitVec 11) (m : BitVec 52) :
    (packComponents .binary64 s x m).toNat
      = s.toBitVec.toNat * signValue + (x.toNat * binadeSize + m.toNat) := by
  show (s.toBitVec ++ x ++ m).toNat = _
  rw [BitVec.toNat_append, BitVec.toNat_append, ← Nat.shiftLeft_add_eq_or_of_lt m.isLt,
    ← Nat.shiftLeft_add_eq_or_of_lt x.isLt, Nat.shiftLeft_eq, Nat.shiftLeft_eq]
  unfold signValue binadeSize
  omega

/-- A number is finite unless all bits of its exponent are set. -/
theorem isFinite_unpack (b : BitVec 64) :
    (UnpackedFloat.unpack .binary64 b).isFinite = decide (b.toNat % signValue < infinityBits) := by
  have hexponent : (@unpackExponent .binary64 b).toNat = b.toNat / 2 ^ 52 % 2 ^ 11 := by
    rw [unpackExponent_def, BitVec.extractLsb'_toNat, Nat.shiftRight_eq_div_pow]
  have hmax : @unpackExponent .binary64 b = -1#_ ↔ ¬ b.toNat % signValue < infinityBits := by
    rw [← BitVec.toNat_inj, hexponent]
    show _ = 2047 ↔ _
    unfold signValue infinityBits
    omega
  unfold UnpackedFloat.unpack
  dsimp only
  split
  · next h =>
    rw [decide_eq_false (hmax.mp h)]
    split <;> rfl
  · next h =>
    rw [decide_eq_true (not_not.mp (mt hmax.mpr h))]
    split
    · split <;> rfl
    · rfl

theorem isFinite_iff {x : Float} : x.isFinite = true ↔ magnitudeBits x < infinityBits := by
  show (UnpackedFloat.unpack .binary64 x.toBits.toBitVec).isFinite = true ↔ _
  rw [isFinite_unpack, decide_eq_true_iff]
  rfl

/-- Packing a finite number with the other sign changes the sign bit only. -/
theorem toNat_pack_neg {f : UnpackedFloat} (hfinite : f.isFinite = true)
    (hpositive : (UnpackedFloat.pack .binary64 f).toNat < signValue) :
    (UnpackedFloat.pack .binary64 f.neg).toNat
      = signValue + (UnpackedFloat.pack .binary64 f).toNat := by
  -- Both packings have the same exponent and mantissa, so only the sign bits are left to compare.
  have hcomponents : ∃ x m s, UnpackedFloat.pack .binary64 f = packComponents .binary64 s x m ∧
      UnpackedFloat.pack .binary64 f.neg = packComponents .binary64 (-s) x m := by
    cases f with
    | notANumber => contradiction
    | infinity s => contradiction
    | zero s => exact ⟨_, _, s, rfl, rfl⟩
    | finite s m e h =>
      simp only [UnpackedFloat.neg, UnpackedFloat.pack]
      split
      · exact ⟨_, _, s, rfl, rfl⟩
      · split <;> exact ⟨_, _, s, rfl, rfl⟩
  obtain ⟨x, m, s, hf, hneg⟩ := hcomponents
  rw [hf, toNat_packComponents] at hpositive
  rw [hf, hneg, toNat_packComponents, toNat_packComponents]
  cases s with
  | negative =>
    have hone : Sign.negative.toBitVec.toNat = 1 := rfl
    rw [hone] at hpositive
    omega
  | positive =>
    have hzero : Sign.positive.toBitVec.toNat = 0 := rfl
    have hone : (-Sign.positive).toBitVec.toNat = 1 := rfl
    rw [hzero, hone, Nat.one_mul, Nat.zero_mul, Nat.zero_add]

/-- The bits of a double that is made from those of a finite one. -/
theorem toNat_toBits_ofBits {b : ℕ} (h : b < infinityBits) :
    (Float.ofBits (UInt64.ofNat b)).toBits.toNat = b := by
  have hb : (UInt64.ofNat b).toNat = b := by
    rw [UInt64.toNat_ofNat']
    unfold infinityBits at h
    omega
  have hmod : (UInt64.ofNat b).toBitVec.toNat % signValue < infinityBits := by
    rw [UInt64.toNat_toBitVec, hb]
    exact lt_of_le_of_lt (Nat.mod_le _ _) h
  have hnumber : UnpackedFloat.unpack .binary64 (UInt64.ofNat b).toBitVec ≠ .notANumber := by
    intro hnan
    have hfinite := isFinite_unpack (UInt64.ofNat b).toBitVec
    rw [hnan, decide_eq_true hmod] at hfinite
    contradiction
  -- Bits are kept as they are unless they are those of one of the many not-a-numbers.
  have hvalid : Format.binary64.Valid (UInt64.ofNat b).toBitVec := by
    refine ⟨fun hexponent hmantissa => absurd ?_ hnumber⟩
    unfold UnpackedFloat.unpack
    dsimp only
    rw [if_pos hexponent, if_neg hmantissa]
  show (UnpackedFloat.pack .binary64 (UnpackedFloat.unpack .binary64
    (UInt64.ofNat b).toBitVec)).toNat = b
  rw [pack_unpack_of_valid hvalid, UInt64.toNat_toBitVec, hb]

/-- The bits of the double nearest to a numeral. -/
theorem toNat_toBits_toFloat {n : Numeral} (h : n.bits < infinityBits) :
    n.toFloat.toBits.toNat = (if n.negative then signValue else 0) + n.bits := by
  have hbits := toNat_toBits_ofBits h
  unfold Numeral.toFloat
  dsimp only
  split
  · have hpack : (UnpackedFloat.pack .binary64 (UnpackedFloat.unpack .binary64
        (Float.ofBits (UInt64.ofNat n.bits)).toBits.toBitVec)).toNat = n.bits :=
      (congrArg BitVec.toNat (pack_unpack_of_valid
        (Float.ofBits (UInt64.ofNat n.bits)).toModel.valid)).trans hbits
    have hfinite : (UnpackedFloat.unpack .binary64
        (Float.ofBits (UInt64.ofNat n.bits)).toBits.toBitVec).isFinite = true := by
      rw [isFinite_unpack, UInt64.toNat_toBitVec, hbits, decide_eq_true_iff]
      exact lt_of_le_of_lt (Nat.mod_le _ _) h
    have hneg := toNat_pack_neg hfinite (by
      rw [hpack]
      unfold infinityBits at h
      unfold signValue
      omega)
    rw [hpack] at hneg
    exact hneg
  · rw [Nat.zero_add]
    exact hbits

/-! ## §3 Reading back -/

/-- A double is found again from its sign and the bits of its magnitude. -/
theorem toFloat_eq {x : Float} {n : Numeral} (hfinite : x.isFinite = true)
    (hsign : n.negative = signBit x) (hbits : n.bits = magnitudeBits x) : n.toFloat = x := by
  have hlt := isFinite_iff.mp hfinite
  apply Float.toBits_inj.mp
  apply UInt64.toNat_inj.mp
  have hmax : x.toBits.toNat < 2 ^ 64 := x.toBits.toNat_lt
  rw [toNat_toBits_toFloat (hbits ▸ hlt), hbits, hsign]
  unfold magnitudeBits signBit signValue
  split <;> simp only [decide_eq_true_eq] at * <;> omega

/-- The nearest double to the shortest decimal of a finite double is that double. -/
theorem toFloat?_shortest (tie : Tie) {x : Float} (h : x.isFinite = true) :
    (shortest tie x).toFloat? = some x := by
  have hbits := bits_shortest tie (isFinite_iff.mp h)
  rw [Numeral.toFloat?, if_pos (hbits ▸ isFinite_iff.mp h),
    toFloat_eq h (negative_shortest tie x) hbits]

/-- Only finite doubles are read. -/
theorem isFinite_of_toFloat? {n : Numeral} {x : Float} (h : n.toFloat? = some x) :
    x.isFinite = true := by
  unfold Numeral.toFloat? at h
  split at h
  · next hlt =>
    obtain rfl := Option.some_inj.mp h
    rw [isFinite_iff, magnitudeBits, toNat_toBits_toFloat hlt]
    unfold infinityBits at hlt ⊢
    unfold signValue
    split <;> omega
  · contradiction

end LayerAnimation.Decimal
