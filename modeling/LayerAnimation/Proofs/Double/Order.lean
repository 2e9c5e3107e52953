import LayerAnimation.Proofs.Double.Rounding

/-!
# Doubles and their order

A double that is not a not-a-number has a place on the line of the rational numbers with two ends.

- `Double.Fits` says which unpacked numbers a double can hold; packing and unpacking brings back
  exactly those (`Double.unpack_pack`), and infinity in place of what is too large.
- `Double.place?` is the place of an unpacked number; comparing is comparing places
  (`Double.compare_eq`).
- `Double.le_iff`, `Double.lt_iff` and `Double.beq_iff` say so for `Float`.
-/

open Float.Model Float.Model.UnpackedFloat

namespace LayerAnimation

namespace Double

/-! ## §1 Packing and unpacking -/

/-- The unpacked numbers that a double can hold. -/
def Fits : UnpackedFloat → Prop
  | .finite _ m e _ => Canonical m e ∧ e ≤ 971
  | _ => True

/-- The hidden bit stands in front of the mantissa. -/
theorem toNat_one_append (m : BitVec 52) : (1#1 ++ m).toNat = 2 ^ 52 + m.toNat := by
  rw [BitVec.toNat_append, ← Nat.shiftLeft_add_eq_or_of_lt m.isLt]
  rfl

/-- What is unpacked from 64 bits is a number that a double can hold. -/
theorem fits_unpack (b : BitVec 64) : Fits (UnpackedFloat.unpack .binary64 b) := by
  have hmantissa : (@unpackMantissa .binary64 b).toNat < 2 ^ 52 :=
    (@unpackMantissa .binary64 b).isLt
  have hexponent : (@unpackExponent .binary64 b).toNat < 2 ^ 11 :=
    (@unpackExponent .binary64 b).isLt
  unfold UnpackedFloat.unpack
  dsimp only
  split
  -- The highest exponent stands for the infinities and for what is no number.
  · split <;> trivial
  · next hmax =>
    have hne : (@unpackExponent .binary64 b).toNat ≠ 2047 :=
      fun h => hmax (BitVec.eq_of_toNat_eq h)
    -- With the lowest exponent there is no hidden bit, with all others there is one.
    split
    · next hzero =>
      split
      · trivial
      · next hnz =>
        have hpos : 0 < (@unpackMantissa .binary64 b).toNat :=
          Nat.pos_of_ne_zero fun h => hnz (BitVec.eq_of_toNat_eq h)
        have he : ((@unpackExponent .binary64 b).toNat : ℤ) - (1023 + 52) + 1 = -1074 := by
          rw [hzero]
          rfl
        show Canonical (@unpackMantissa .binary64 b).toNat
            (((@unpackExponent .binary64 b).toNat : ℤ) - (1023 + 52) + 1) ∧
          ((@unpackExponent .binary64 b).toNat : ℤ) - (1023 + 52) + 1 ≤ 971
        rw [he]
        exact ⟨⟨hpos, by omega, le_refl _, .inr rfl⟩, by omega⟩
    · next hnz =>
      have hpos : 0 < (@unpackExponent .binary64 b).toNat :=
        Nat.pos_of_ne_zero fun h => hnz (BitVec.eq_of_toNat_eq h)
      have hone := toNat_one_append (@unpackMantissa .binary64 b)
      show Canonical (1#1 ++ @unpackMantissa .binary64 b).toNat
          (((@unpackExponent .binary64 b).toNat : ℤ) - (1023 + 52)) ∧
        ((@unpackExponent .binary64 b).toNat : ℤ) - (1023 + 52) ≤ 971
      rw [hone]
      exact ⟨⟨by omega, by omega, by omega, .inl (by omega)⟩, by omega⟩

/-- What is unpacked again from the parts of which a double is made. -/
theorem unpack_packComponents (s : Sign) (x : BitVec 11) (m : BitVec 52) :
    UnpackedFloat.unpack .binary64 (packComponents .binary64 s x m) =
      if x = -1#_ then if m = 0#_ then .infinity s else .notANumber
      else if x = 0#_ then
        if h : m = 0#_ then .zero s
        else .finite s m.toNat ((x.toNat : ℤ) - (1023 + 52) + 1)
          (by simpa [BitVec.toNat_pos, BitVec.pos_iff_ne_zero] using h)
      else .finite s (1#1 ++ m).toNat ((x.toNat : ℤ) - (1023 + 52))
        (by rw [toNat_one_append]; omega) := by
  unfold UnpackedFloat.unpack
  simp only [unpackMantissa_packComponents, unpackExponent_packComponents,
    unpackSign_packComponents, Sign.ofBitVec_toBitVec]
  rfl

/-- Packing and unpacking brings back what fits a double. -/
theorem unpack_pack {f : UnpackedFloat} (h : Fits f) :
    UnpackedFloat.unpack .binary64 (UnpackedFloat.pack .binary64 f) = f := by
  cases f with
  | notANumber => rfl
  | infinity s => cases s <;> rfl
  | zero s => cases s <;> rfl
  | finite s m e hm =>
    obtain ⟨⟨hpos, hlt, hle, hfull⟩, hmax⟩ := h
    have hbiased : ¬ 2 ^ 11 ≤ (e + 1023 + 52).toNat + 1 := by omega
    show UnpackedFloat.unpack .binary64 (if 2 ^ 11 ≤ (e + 1023 + 52).toNat + 1 then _ else
      if m.log2 + 1 = 53 then packComponents .binary64 s (BitVec.ofNat 11 (e + 1023 + 52).toNat)
        (BitVec.ofNat 52 m) else packComponents .binary64 s 0#11 (BitVec.ofNat 52 m)) = _
    rw [if_neg hbiased]
    -- A mantissa with a hidden bit loses it when it is packed, and gets it back from the exponent.
    -- Without one the exponent is the lowest.
    by_cases hnormal : 2 ^ 52 ≤ m
    · have hlog : m.log2 = 52 := (Nat.log2_eq_iff hpos.ne').mpr ⟨hnormal, hlt⟩
      have hx : (BitVec.ofNat 11 (e + 1023 + 52).toNat).toNat = (e + 1023 + 52).toNat := by
        rw [BitVec.toNat_ofNat]
        omega
      have hmax : BitVec.ofNat 11 (e + 1023 + 52).toNat ≠ -1#_ := by
        intro h
        have hval : (BitVec.ofNat 11 (e + 1023 + 52).toNat).toNat = 2047 := congrArg BitVec.toNat h
        omega
      have hmin : BitVec.ofNat 11 (e + 1023 + 52).toNat ≠ 0#_ := by
        intro h
        have hval : (BitVec.ofNat 11 (e + 1023 + 52).toNat).toNat = 0 := congrArg BitVec.toNat h
        omega
      have hm' : 2 ^ 52 + (BitVec.ofNat 52 m).toNat = m := by
        rw [BitVec.toNat_ofNat]
        omega
      have he' : (((e + 1023 + 52).toNat : ℤ) - (1023 + 52)) = e := by omega
      rw [if_pos (by omega), unpack_packComponents, if_neg hmax, if_neg hmin]
      simp only [toNat_one_append, hm', hx, he']
    · have hlog : m.log2 < 52 := (Nat.log2_lt hpos.ne').mpr (by omega)
      have hm' : (BitVec.ofNat 52 m).toNat = m := by
        rw [BitVec.toNat_ofNat]
        omega
      have hnz : BitVec.ofNat 52 m ≠ 0#_ := by
        intro h
        have hval : (BitVec.ofNat 52 m).toNat = 0 := congrArg BitVec.toNat h
        omega
      have he' : e = -1074 := hfull.resolve_left hnormal
      rw [if_neg (by omega), unpack_packComponents, if_neg (by decide), if_pos rfl, dif_neg hnz]
      simp only [hm', he']
      rfl

/-- What is too large comes back as infinity. -/
theorem unpack_pack_of_overflow {s : Sign} {m : ℕ} {e : ℤ} {hm : 0 < m} (h : 971 < e) :
    UnpackedFloat.unpack .binary64 (UnpackedFloat.pack .binary64 (.finite s m e hm))
      = .infinity s := by
  have hbiased : 2 ^ 11 ≤ (e + 1023 + 52).toNat + 1 := by omega
  have hpack : UnpackedFloat.pack .binary64 (.finite s m e hm)
      = UnpackedFloat.pack .binary64 (.infinity s) := if_pos hbiased
  rw [hpack, unpack_pack (f := .infinity s) trivial]

/-! ## §2 Places -/

/-- The rational numbers with a least and a greatest place. -/
abbrev Line : Type :=
  WithBot (WithTop ℚ)

/-- The place of a rational number. -/
def point (q : ℚ) : Line :=
  ((q : WithTop ℚ) : WithBot (WithTop ℚ))

/-- The place of what is not a not-a-number. -/
def place? : UnpackedFloat → Option Line
  | .notANumber => none
  | .infinity .negative => some ⊥
  | .infinity .positive => some ⊤
  | .zero _ => some (point 0)
  | .finite .negative m e _ => some (point (-(m * 2 ^ e)))
  | .finite .positive m e _ => some (point (m * 2 ^ e))

/-- Points are ordered like their numbers. -/
theorem point_le_point {q r : ℚ} : point q ≤ point r ↔ q ≤ r := by
  simp [point]

theorem point_lt_point {q r : ℚ} : point q < point r ↔ q < r := by
  simp [point]

theorem bot_lt_point (q : ℚ) : ⊥ < point q :=
  WithBot.bot_lt_coe _

theorem point_lt_top (q : ℚ) : point q < ⊤ := by
  rw [← WithBot.coe_top, point, WithBot.coe_lt_coe]
  exact WithTop.coe_lt_top q

theorem cmp_point (q r : ℚ) : cmp (point q) (point r) = cmp q r := by
  have hmono : StrictMono point := fun _ _ h => point_lt_point.mpr h
  exact hmono.cmp_map_eq q r

/-- Doubles compare by their exponents, and by their mantissas where the exponents are the same. -/
theorem Canonical.cmp_value {m n : ℕ} {e f : ℤ} (h : Canonical m e) (h' : Canonical n f) :
    cmp ((m : ℚ) * 2 ^ e) (n * 2 ^ f) = (compare e f).then (compare m n) := by
  rcases lt_trichotomy e f with hef | rfl | hef
  · rw [(h.value_lt_of_exponent_lt h' hef).cmp_eq_lt, compare_lt_iff_lt.mpr hef]
    rfl
  · have hmul : cmp ((m : ℚ) * 2 ^ e) (n * 2 ^ e) = compare m n := by
      rw [cmp_mul_pos_right (by positivity), Nat.strictMono_cast.cmp_map_eq, cmp_eq_compare]
    rw [hmul, compare_eq_iff_eq.mpr rfl]
    rfl
  · rw [(h'.value_lt_of_exponent_lt h hef).cmp_eq_gt, compare_gt_iff_gt.mpr hef]
    rfl

/-- Turning the line round turns comparisons round. -/
theorem cmp_neg (q r : ℚ) : cmp (-q) (-r) = (cmp q r).swap := by
  have hanti : StrictAnti (fun q : ℚ => -q) := fun _ _ h => neg_lt_neg h
  rw [cmp_swap]
  exact hanti.cmp_map_eq q r

/-- Comparing doubles is comparing their places. -/
theorem compare_eq {f g : UnpackedFloat} (hf : Fits f) (hg : Fits g) :
    f.compare g = (place? f).bind fun a => (place? g).map fun b => cmp a b := by
  have hpositive : ∀ {m : ℕ} {e : ℤ}, 0 < m → (0 : ℚ) < m * 2 ^ e := by
    intro m e hm
    have hcast : (0 : ℚ) < m := by exact_mod_cast hm
    positivity
  have hends : (⊥ : Line) < ⊤ := bot_lt_top
  rcases f with ⟨_ | _⟩ | _ | ⟨s⟩ | ⟨_ | _, m, e, hm⟩ <;>
    rcases g with ⟨_ | _⟩ | _ | ⟨s'⟩ | ⟨_ | _, n, k, hn⟩ <;>
    simp only [UnpackedFloat.compare, place?, Option.bind_some, Option.bind_none, Option.map_some,
      Option.map_none, cmp_self_eq_eq, cmp_point, Option.some.injEq,
      (bot_lt_point _).cmp_eq_lt, (bot_lt_point _).cmp_eq_gt, (point_lt_top _).cmp_eq_lt,
      (point_lt_top _).cmp_eq_gt, hends.cmp_eq_lt, hends.cmp_eq_gt]
  -- What is left are infinities of either sign, and numbers other than zero on one side at least.
  · rfl
  · rfl
  · rfl
  · rfl
  · exact (neg_neg_of_pos (hpositive hn)).cmp_eq_gt.symm
  · exact (hpositive hn).cmp_eq_lt.symm
  · exact (neg_neg_of_pos (hpositive hm)).cmp_eq_lt.symm
  · rw [cmp_neg, hf.1.cmp_value hg.1]
  · exact ((neg_neg_of_pos (hpositive hm)).trans (hpositive hn)).cmp_eq_lt.symm
  · exact (hpositive hm).cmp_eq_gt.symm
  · exact ((neg_neg_of_pos (hpositive hn)).trans (hpositive hm)).cmp_eq_gt.symm
  · exact (hf.1.cmp_value hg.1).symm

/-! ## §3 The order of `Float` -/

/-- The place of a double that is not a not-a-number. -/
def placeOf? (x : Float) : Option Line :=
  place? x.toModel.unpack

theorem fits_toModel (x : Float) : Fits x.toModel.unpack :=
  fits_unpack _

theorem compare_toModel (x y : Float) : x.toModel.unpack.compare y.toModel.unpack
    = (placeOf? x).bind fun a => (placeOf? y).map fun b => cmp a b :=
  compare_eq (fits_toModel x) (fits_toModel y)

/-- One double is at most another if its place is. -/
theorem le_iff {x y : Float} :
    x ≤ y ↔ ∃ a b, placeOf? x = some a ∧ placeOf? y = some b ∧ a ≤ b := by
  have hle : x ≤ y ↔ (x.toModel.unpack.compare y.toModel.unpack).any (·.isLE) = true :=
    decide_eq_true_iff
  -- A comparison with a not-a-number is false; all others are decided by places.
  rw [hle, compare_toModel]
  cases placeOf? x with
  | none => simp
  | some a =>
    cases placeOf? y with
    | none => simp
    | some b =>
      rcases lt_trichotomy a b with h | rfl | h
      · simp [h.cmp_eq_lt, h.le]
      · simp
      · simp [h.cmp_eq_gt, h]

/-- One double is less than another if its place is. -/
theorem lt_iff {x y : Float} :
    x < y ↔ ∃ a b, placeOf? x = some a ∧ placeOf? y = some b ∧ a < b := by
  have hlt : x < y ↔ (x.toModel.unpack.compare y.toModel.unpack == some .lt) = true :=
    decide_eq_true_iff
  rw [hlt, compare_toModel]
  cases placeOf? x with
  | none => simp
  | some a =>
    cases placeOf? y with
    | none => simp
    | some b => simp

theorem le_iff_of_placeOf? {x y : Float} {a b : Line} (hx : placeOf? x = some a)
    (hy : placeOf? y = some b) : x ≤ y ↔ a ≤ b := by
  simp [le_iff, hx, hy]

theorem lt_iff_of_placeOf? {x y : Float} {a b : Line} (hx : placeOf? x = some a)
    (hy : placeOf? y = some b) : x < y ↔ a < b := by
  simp [lt_iff, hx, hy]

/-- Doubles are equal if their places are; so the two zeros are equal. -/
theorem beq_iff {x y : Float} :
    (x == y) = true ↔ ∃ a b, placeOf? x = some a ∧ placeOf? y = some b ∧ a = b := by
  have hbeq : (x == y) = true ↔ (x.toModel.unpack.compare y.toModel.unpack == some .eq) = true :=
    Iff.rfl
  rw [hbeq, compare_toModel]
  cases placeOf? x with
  | none => simp
  | some a =>
    cases placeOf? y with
    | none => simp
    | some b => simpa using eq_comm

end Double

end LayerAnimation
