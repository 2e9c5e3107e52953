import LayerAnimation.Json.Document
import LayerAnimation.Proofs.Decimal.Digits

/-!
# Numbers in documents

A numeral in normal form is found again in the characters that the layout of documents gives it, and
a whole number in its digits, whatever follows that could not belong to a number.

- `scanMagnitude_append` is the rule for a number in its three parts.
- `scanNumber_numeral` covers both ways of writing a numeral, with its point at its place and with an
  exponent, and says that neither passes for a whole number.
- `scanNumber_integerChars` is the same for whole numbers.
-/

namespace LayerAnimation.Document

open Decimal

/-! ## §1 Digits and what follows -/

theorem isDigit_eq (c : Char) : isDigit c = c.isDigit := by
  rw [isDigit, Bool.eq_iff_iff, decide_eq_true_eq, Char.isDigit_iff_toNat]
  exact Iff.rfl

/-- No character follows that could belong to a number. -/
def EndsNumber (rest : List Char) : Prop :=
  ∀ c ∈ rest.head?, isDigit c = false ∧ c ≠ '.' ∧ c ≠ 'e' ∧ c ≠ 'E'

variable {rest : List Char}

theorem isDigit_of_mem_digitChars {n : ℕ} : ∀ c ∈ digitChars n, isDigit c = true := by
  intro c hc
  rw [isDigit_eq]
  exact Decimal.isDigit_of_mem_digitChars hc

/-- As many characters are scanned as are digits. -/
theorem scanDigits_append {ds : List Char} (hds : ∀ c ∈ ds, isDigit c = true)
    (hrest : ∀ c ∈ rest.head?, isDigit c = false) : scanDigits (ds ++ rest) = (ds, rest) := by
  have hnone : rest.takeWhile isDigit = [] ∧ rest.dropWhile isDigit = rest := by
    cases rest with
    | nil => exact ⟨rfl, rfl⟩
    | cons c cs =>
      have hc : isDigit c = false := hrest c rfl
      simp [hc]
  rw [scanDigits, List.takeWhile_append_of_pos hds, List.dropWhile_append_of_pos hds, hnone.1,
    hnone.2, List.append_nil]

/-! ## §2 The parts of a number -/

/-- A point and digits behind it are the fraction. -/
theorem scanOptionalFraction_point (ds : List Char) (hds : ∀ c ∈ ds, isDigit c = true)
    (hne : ds ≠ []) (hrest : ∀ c ∈ rest.head?, isDigit c = false) :
    scanOptionalFraction ('.' :: (ds ++ rest)) = some (some ds, rest) := by
  simp [scanOptionalFraction, scanDigits_append hds hrest, hne]

theorem scanOptionalFraction_none (hrest : ∀ c ∈ rest.head?, c ≠ '.') :
    scanOptionalFraction rest = some (none, rest) := by
  unfold scanOptionalFraction
  split
  · exact absurd rfl (hrest '.' rfl)
  · rfl

/-- Where a number ends there is no exponent. -/
theorem scanOptionalExponent_none (hrest : EndsNumber rest) :
    scanOptionalExponent rest = some (none, rest) := by
  cases rest with
  | nil => rfl
  | cons c cs =>
    obtain ⟨-, -, he, hE⟩ := hrest c rfl
    simp [scanOptionalExponent, he, hE]

/-- A letter, a sign and digits are the exponent. -/
theorem scanOptionalExponent_e (p : ℤ) (hrest : EndsNumber rest) :
    scanOptionalExponent ('e' :: ((if p < 0 then ['-'] else ['+']) ++ digitChars p.natAbs ++ rest))
      = some (some p, rest) := by
  have hscan : scanDigits (digitChars p.natAbs ++ rest) = (digitChars p.natAbs, rest) :=
    scanDigits_append isDigit_of_mem_digitChars fun c hc => (hrest c hc).1
  by_cases hneg : p < 0
  · have hp : -|p| = p := by rw [abs_of_neg hneg, neg_neg]
    simp [scanOptionalExponent, scanExponent, hneg, hscan, digitChars_ne_nil, hp]
  · have hp : |p| = p := abs_of_nonneg (not_lt.mp hneg)
    simp [scanOptionalExponent, scanExponent, hneg, hscan, digitChars_ne_nil, hp]

/-- A number is read part by part. -/
theorem scanMagnitude_append (s : Bool) (whole : List Char) {cs after : List Char}
    {fraction : Option (List Char)} {exponent : Option ℤ} (hwhole : ∀ c ∈ whole, isDigit c = true)
    (hne : whole ≠ []) (hzero : 1 < whole.length → whole.head? ≠ some '0')
    (hcs : ∀ c ∈ cs.head?, isDigit c = false)
    (hfraction : scanOptionalFraction cs = some (fraction, after))
    (hexponent : scanOptionalExponent after = some (exponent, rest)) :
    scanMagnitude s (whole ++ cs) = some (.number (Numeral.normal
      ⟨s, digitsValue (whole ++ fraction.getD []), exponent.getD 0 - (fraction.getD []).length⟩)
      (fraction.isNone && exponent.isNone), rest) := by
  have hguard : (whole.isEmpty || (decide (whole.length > 1) && whole.head? == some '0')) = false := by
    simp only [Bool.or_eq_false_iff, Bool.and_eq_false_iff, List.isEmpty_eq_false_iff,
      decide_eq_false_iff_not, beq_eq_false_iff_ne]
    exact ⟨hne, (em (1 < whole.length)).symm.imp id hzero⟩
  simp [scanMagnitude, scanDigits_append hwhole hcs, hguard, hfraction, hexponent]

/-- A magnitude begins with a digit. -/
theorem exists_digit_of_scanMagnitude {s : Bool} {cs : List Char} {r : Document × List Char}
    (h : scanMagnitude s cs = some r) : ∃ c t, cs = c :: t ∧ isDigit c = true := by
  cases cs with
  | nil => contradiction
  | cons c t =>
    refine ⟨c, t, rfl, ?_⟩
    by_contra hc
    simp [scanMagnitude, scanDigits, hc] at h

/-- What is read as the magnitude of a number is read as a number. -/
theorem scanNumber_of_scanMagnitude {cs : List Char} {r : Document × List Char}
    (h : scanMagnitude false cs = some r) : scanNumber cs = some r := by
  obtain ⟨c, t, rfl, hc⟩ := exists_digit_of_scanMagnitude h
  unfold scanNumber
  split
  · next heq =>
    obtain ⟨rfl, -⟩ := List.cons_eq_cons.mp heq
    contradiction
  · exact h

/-- Where a number begins: at its sign or at a digit. -/
theorem exists_head_of_scanNumber {cs : List Char} {r : Document × List Char}
    (h : scanNumber cs = some r) : ∃ c t, cs = c :: t ∧ (c = '-' ∨ isDigit c = true) := by
  unfold scanNumber at h
  split at h
  · exact ⟨_, _, rfl, .inl rfl⟩
  · obtain ⟨c, t, rfl, hc⟩ := exists_digit_of_scanMagnitude h
    exact ⟨c, t, rfl, .inr hc⟩

/-! ## §3 Numerals -/

section Numerals

variable {s : Bool} {m : ℕ} {e : ℤ}

theorem mem_zeros {k : ℕ} : ∀ c ∈ List.replicate k '0', isDigit c = true := by
  intro c hc
  rw [List.eq_of_mem_replicate hc]
  rfl

theorem isDigit_of_mem_head?_point (t : List Char) :
    ∀ c ∈ ('.' :: t).head?, isDigit c = false := by
  intro c hc
  obtain rfl := Option.some_inj.mp hc
  rfl

/-- All digits stand behind the point. -/
theorem scanMagnitude_behind (normal : Numeral.IsNormal ⟨s, m, e⟩) (hrest : EndsNumber rest) {k : ℕ}
    (hk : -((k : ℤ) + (digitChars m).length) = e) :
    scanMagnitude s (['0'] ++ '.' :: (List.replicate k '0' ++ digitChars m ++ rest))
      = some (.number ⟨s, m, e⟩ false, rest) := by
  have hfraction : ∀ c ∈ List.replicate k '0' ++ digitChars m, isDigit c = true := by
    intro c hc
    exact (List.mem_append.mp hc).elim (mem_zeros c) (isDigit_of_mem_digitChars c)
  have hscan := scanMagnitude_append s ['0'] (by simp; rfl) (by simp) (by simp)
    (isDigit_of_mem_head?_point _) (scanOptionalFraction_point _ hfraction
      (by simp [digitChars_ne_nil]) fun c hc => (hrest c hc).1) (scanOptionalExponent_none hrest)
  have hvalue : digitsValue ('0' :: (List.replicate k '0' ++ digitChars m)) = m := by
    rw [← List.cons_append, ← List.replicate_succ, digitsValue_append]
    simp
  rw [hscan]
  simp [hvalue, hk, Numeral.normal_eq normal]

/-- The number is whole, and zeros stand before the point. -/
theorem scanMagnitude_before {k : ℕ} (normal : Numeral.IsNormal ⟨s, m, k⟩)
    (hrest : EndsNumber rest) :
    scanMagnitude s (digitChars m ++ List.replicate k '0' ++ '.' :: (['0'] ++ rest))
      = some (.number ⟨s, m, k⟩ false, rest) := by
  have hzero : 1 < (digitChars m ++ List.replicate k '0').length →
      (digitChars m ++ List.replicate k '0').head? ≠ some '0' := by
    intro hlong
    rw [List.head?_append_of_ne_nil _ (digitChars_ne_nil m)]
    apply head?_digitChars
    by_contra hm
    obtain rfl : m = 0 := by omega
    rcases normal with ⟨-, hk⟩ | hm
    · simp_all
    · simp at hm
  have hmem : ∀ c ∈ digitChars m ++ List.replicate k '0', isDigit c = true := by
    intro c hc
    exact (List.mem_append.mp hc).elim (isDigit_of_mem_digitChars c) (mem_zeros c)
  have hscan := scanMagnitude_append s _ hmem (by simp [digitChars_ne_nil]) hzero
    (isDigit_of_mem_head?_point _) (scanOptionalFraction_point ['0'] (by simp; rfl) (by simp)
      fun c hc => (hrest c hc).1) (scanOptionalExponent_none hrest)
  have hvalue : digitsValue (digitChars m ++ List.replicate k '0' ++ ['0']) = m * 10 ^ (k + 1) := by
    rw [List.append_assoc, ← List.replicate_succ', digitsValue_append]
    simp [mul_comm]
  -- The zero behind the point is one digit more, which the normal form drops again.
  have hplaces : (k : ℤ) - ((k + 1 : ℕ) : ℤ) = 0 - 1 := by omega
  have hnormal := Numeral.normal_scaled normal (k + 1)
  simp only [hplaces] at hnormal
  simp only [Option.getD_some, Option.getD_none, List.length_singleton, Nat.cast_one, hvalue,
    hnormal] at hscan
  exact hscan

/-- The point divides the digits. -/
theorem scanMagnitude_divided (normal : Numeral.IsNormal ⟨s, m, e⟩) (hrest : EndsNumber rest) {w : ℕ}
    (hw : 0 < w) (hlt : w < (digitChars m).length) (he : -(((digitChars m).length - w : ℕ) : ℤ) = e) :
    scanMagnitude s ((digitChars m).take w ++ '.' :: ((digitChars m).drop w ++ rest))
      = some (.number ⟨s, m, e⟩ false, rest) := by
  have hm : 0 < m := by
    by_contra hm
    obtain rfl : m = 0 := by omega
    rw [digitChars_zero, List.length_singleton] at hlt
    omega
  -- The first digit may be a zero only if it is the only one before the point.
  have hhead : 1 < ((digitChars m).take w).length → ((digitChars m).take w).head? ≠ some '0' := by
    intro _
    rw [List.head?_take, if_neg hw.ne']
    exact head?_digitChars hm
  have hscan := scanMagnitude_append s ((digitChars m).take w)
    (fun c hc => isDigit_of_mem_digitChars c (List.mem_of_mem_take hc))
    (by simp [digitChars_ne_nil, hw.ne']) hhead (isDigit_of_mem_head?_point _)
    (scanOptionalFraction_point ((digitChars m).drop w)
      (fun c hc => isDigit_of_mem_digitChars c (List.mem_of_mem_drop hc)) (by simpa using hlt)
      fun c hc => (hrest c hc).1) (scanOptionalExponent_none hrest)
  rw [hscan]
  simp [he, Numeral.normal_eq normal]

/-- With the point at its place a numeral is found again, wherever that is. -/
theorem scanMagnitude_positional (normal : Numeral.IsNormal ⟨s, m, e⟩) (hrest : EndsNumber rest) :
    scanMagnitude s
      (Layout.json.positional (digitChars m) ((digitChars m).length + e) ++ rest)
      = some (.number ⟨s, m, e⟩ false, rest) := by
  unfold Layout.positional
  split
  · simpa using scanMagnitude_behind normal hrest
      (k := (-(((digitChars m).length : ℤ) + e)).toNat) (by omega)
  · split
    · obtain ⟨k, rfl⟩ := Int.eq_ofNat_of_zero_le (show 0 ≤ e by omega)
      have hk : (((digitChars m).length : ℤ) + k).toNat - (digitChars m).length = k := by omega
      rw [hk]
      simpa [Layout.json] using scanMagnitude_before normal hrest
    · simpa using scanMagnitude_divided normal hrest
        (w := (((digitChars m).length : ℤ) + e).toNat) (by omega) (by omega) (by omega)

/-- With an exponent it is found again too. -/
theorem scanMagnitude_scientific (normal : Numeral.IsNormal ⟨s, m, e⟩) (hrest : EndsNumber rest) :
    scanMagnitude s
      (Layout.json.scientific (digitChars m) ((digitChars m).length + e - 1) ++ rest)
      = some (.number ⟨s, m, e⟩ false, rest) := by
  have hdigits := isDigit_of_mem_digitChars (n := m)
  generalize hp : ((digitChars m).length : ℤ) + e - 1 = p
  have hexponent := scanOptionalExponent_e p hrest
  have hletter : ∀ (t : List Char), ∀ c ∈ ('e' :: t).head?, isDigit c = false ∧ c ≠ '.' := by
    intro t c hc
    obtain rfl := Option.some_inj.mp hc
    exact ⟨rfl, by decide⟩
  have hone : ((digitChars m).take 1).length = 1 := by
    rw [List.length_take]
    exact Nat.min_eq_left Nat.length_toDigits_pos
  have hwhole : ∀ c ∈ (digitChars m).take 1, isDigit c = true :=
    fun c hc => hdigits c (List.mem_of_mem_take hc)
  have hnormal := Numeral.normal_eq normal
  unfold Layout.scientific
  dsimp only
  by_cases hshort : (digitChars m).length ≤ 1
  · -- A single digit has no fraction.
    have hscan := scanMagnitude_append s _ hwhole (by simp [digitChars_ne_nil])
      (fun hlong => absurd hlong hone.le.not_gt)
      (fun c hc => (hletter _ c hc).1) (scanOptionalFraction_none fun c hc => (hletter _ c hc).2)
      hexponent
    have htake : (digitChars m).take 1 = digitChars m := List.take_of_length_le hshort
    have he : p = e := by
      rw [htake] at hone
      omega
    simp only [htake] at hscan
    simpa [hshort, htake, he, hnormal, Layout.json] using hscan
  -- Otherwise all digits but the first stand behind the point.
  · have hbehind : (digitChars m).drop 1 ≠ [] := by
      apply List.ne_nil_of_length_pos
      rw [List.length_drop]
      omega
    have hscan := scanMagnitude_append s _ hwhole (by simp [digitChars_ne_nil])
      (fun hlong => absurd hlong hone.le.not_gt) (isDigit_of_mem_head?_point _)
      (scanOptionalFraction_point ((digitChars m).drop 1)
        (fun c hc => hdigits c (List.mem_of_mem_drop hc)) hbehind
        fun c hc => (hletter _ c hc).1) hexponent
    have hplaces : p - (((digitChars m).length - 1 : ℕ) : ℤ) = e := by omega
    have hjoin : (digitChars m).take 1 ++ (digitChars m).drop 1 = digitChars m :=
      List.take_append_drop 1 _
    simp only [Option.getD_some, hjoin, List.length_drop, hplaces, digitsValue_digitChars,
      hnormal] at hscan
    simpa [hshort, Layout.json] using hscan

/-- A numeral is found again in the characters that the layout of documents gives it. -/
theorem scanNumber_numeral {n : Numeral} (normal : n.IsNormal) (hrest : EndsNumber rest) :
    scanNumber (Layout.json.numeral n ++ rest) = some (.number n false, rest) := by
  obtain ⟨s, m, e⟩ := n
  generalize hbody : (if m = 0 then Layout.json.positional (digitChars m) 1
    else if Layout.json.isPositional ((digitChars m).length + e - 1) then
      Layout.json.positional (digitChars m) ((digitChars m).length + e)
    else Layout.json.scientific (digitChars m) ((digitChars m).length + e - 1)) = body
  -- A zero, a numeral with a point and one with an exponent are the three layouts; each is scanned
  -- without its sign.
  have hscan : scanMagnitude s (body ++ rest) = some (.number ⟨s, m, e⟩ false, rest) := by
    rw [← hbody]
    split
    · next hm =>
      have he : e = 0 := by
        rcases normal with ⟨-, he⟩ | hm'
        · exact he
        · simp [hm] at hm'
      have hone : ((digitChars m).length : ℤ) + e = 1 := by simp [hm, he]
      rw [← hone]
      exact scanMagnitude_positional normal hrest
    · split
      · exact scanMagnitude_positional normal hrest
      · exact scanMagnitude_scientific normal hrest
  have hnumeral : Layout.json.numeral ⟨s, m, e⟩ = if s then '-' :: body else body := by
    rw [← hbody]
    rfl
  rw [hnumeral]
  cases s with
  | true => exact hscan
  | false => exact scanNumber_of_scanMagnitude hscan

end Numerals

/-- A whole number is found again in its digits. -/
theorem scanNumber_integerChars (n : ℤ) (hrest : EndsNumber rest) :
    scanNumber (Json.integerChars n ++ rest)
      = some (.number (Numeral.normal ⟨decide (n < 0), n.natAbs, 0⟩) true, rest) := by
  have hzero : 1 < (digitChars n.natAbs).length → (digitChars n.natAbs).head? ≠ some '0' := by
    intro hlong
    apply head?_digitChars
    by_contra hn
    obtain hn : n.natAbs = 0 := by omega
    simp [hn] at hlong
  have hscan := fun s => scanMagnitude_append s _ isDigit_of_mem_digitChars
    (digitChars_ne_nil n.natAbs) hzero (fun c hc => (hrest c hc).1)
    (scanOptionalFraction_none fun c hc => (hrest c hc).2.1) (scanOptionalExponent_none hrest)
  simp only [Option.getD_none, List.append_nil, digitsValue_digitChars, List.length_nil,
    Nat.cast_zero, sub_zero, Option.isNone_none, Bool.and_self] at hscan
  unfold Json.integerChars
  split
  · next hneg =>
    rw [decide_eq_true hneg]
    exact hscan true
  · next hpos =>
    rw [decide_eq_false hpos]
    exact scanNumber_of_scanMagnitude (hscan false)

end LayerAnimation.Document
