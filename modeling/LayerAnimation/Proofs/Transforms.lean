import LayerAnimation.Geometry
import LayerAnimation.Proofs.Exact
import Mathlib.Data.Matrix.Mul

/-!
# Transforms compose

A transform is a matrix that is stored column by column, and to concatenate two transforms is to
multiply their matrices.  Over exact numbers the laws of matrices are therefore the laws of
transforms.

- `Transform.apply` is what a transform makes of a column vector.
- `Transform.matrix` reads a matrix off sixteen stored numbers, and `Transform.ofMatrix` stores one.
- `Transform.concat_ofMatrix` and `Transform.apply_ofMatrix` are the two products;
  `Transform.identity_eq`, `Transform.translation_eq` and `Transform.scale_eq` are the matrices of the
  transforms that the library builds.
- `Transform.concat_composes` puts the laws together.
-/

namespace LayerAnimation

open Exact

namespace Transform

/-! ## §1 Entries -/

section Entries

variable {α : Type}

/-- Every stored number is the entry of some row and column. -/
theorem ext_entry {a b : Transform α} (h : ∀ r c, a.entry r c = b.entry r c) : a = b := by
  obtain ⟨a⟩ := a
  obtain ⟨b⟩ := b
  congr 1
  ext i hi
  have hplace := h ⟨i % 4, by omega⟩ ⟨i / 4, by omega⟩
  simpa only [entry, Nat.div_add_mod] using hplace

/-- An entry is found where it was put. -/
@[simp] theorem entry_ofEntries (f : Fin 4 → Fin 4 → α) (r c : Fin 4) :
    (ofEntries f).entry r c = f r c := by
  -- Four numbers make up a column, so row and column are remainder and quotient of the place.
  have hrow : (4 * c.val + r.val) % 4 = r.val := by omega
  have hcolumn : (4 * c.val + r.val) / 4 = c.val := by omega
  simp only [entry, ofEntries, Vector.getElem_ofFn, hrow, hcolumn, Fin.eta]

/-- What a transform makes of a column vector: to each component every column contributes the number
that it stores for the row, times the component of the vector that belongs to the column. -/
def apply [Scalar α] (t : Transform α) (v : Fin 4 → α) : Fin 4 → α :=
  fun r => Fin.foldl 4 (fun sum c => sum + t.entries[c.val * 4 + r.val] * v c) 0.0

theorem apply_eq [Scalar α] (t : Transform α) (v : Fin 4 → α) (r : Fin 4) :
    t.apply v r = Fin.foldl 4 (fun sum c => sum + t.entry r c * v c) 0.0 := by
  simp only [apply, entry, Nat.mul_comm]

end Entries

/-! ## §2 Matrices -/

section Matrices

variable {K : Type}

/-- The matrix that sixteen numbers stand for. -/
def matrix (t : Transform K) : Matrix (Fin 4) (Fin 4) K :=
  Matrix.of t.entry

/-- Numbers of a field as exact numbers. -/
def exact (t : Transform K) : Transform (Exact K) :=
  ⟨t.entries.map number⟩

/-- The transform with a given matrix. -/
def ofMatrix (m : Matrix (Fin 4) (Fin 4) K) : Transform (Exact K) :=
  ofEntries fun r c => number (m r c)

@[simp] theorem entry_ofMatrix (m : Matrix (Fin 4) (Fin 4) K) (r c : Fin 4) :
    (ofMatrix m).entry r c = number (m r c) :=
  entry_ofEntries _ r c

/-- A transform over exact numbers is stored from its matrix. -/
theorem exact_eq (t : Transform K) : t.exact = ofMatrix t.matrix := by
  apply ext_entry
  intro r c
  rw [entry_ofMatrix]
  exact Vector.getElem_map ..

variable [Field K] [LinearOrder K]

/-- Transforms are concatenated by multiplying their matrices. -/
theorem concat_ofMatrix (m n : Matrix (Fin 4) (Fin 4) K) :
    (ofMatrix m).concat (ofMatrix n) = ofMatrix (m * n) := by
  apply ext_entry
  intro r c
  simp [concat, Matrix.mul_apply, Fin.sum_univ_four]

variable [IsStrictOrderedRing K]

/-- Transforms are applied by multiplying their matrices with the vector. -/
theorem apply_ofMatrix (m : Matrix (Fin 4) (Fin 4) K) (v : Fin 4 → K) :
    (ofMatrix m).apply (number ∘ v) = number ∘ m.mulVec v := by
  funext r
  simp [apply_eq, Fin.foldl_succ, Matrix.mulVec, dotProduct, Fin.sum_univ_four]

theorem identity_eq : (identity : Transform (Exact K)) = ofMatrix 1 := by
  apply ext_entry
  intro r c
  rw [entry_ofMatrix]
  fin_cases r <;> fin_cases c <;> simp [identity, entry]

/-- Magnifications stand on the diagonal. -/
theorem scale_eq (x y z : K) :
    scale (number x) (number y) (number z) = ofMatrix (Matrix.diagonal ![x, y, z, 1]) := by
  apply ext_entry
  intro r c
  rw [entry_ofMatrix]
  fin_cases r <;> fin_cases c <;> simp [scale, entry]

/-- A displacement stands in the last column. -/
theorem translation_eq (x y z : K) :
    translation (number x) (number y) (number z)
      = ofMatrix !![1, 0, 0, x; 0, 1, 0, y; 0, 0, 1, z; 0, 0, 0, 1] := by
  apply ext_entry
  intro r c
  rw [entry_ofMatrix]
  fin_cases r <;> fin_cases c <;> simp [translation, entry]

end Matrices

/-! ## §3 The laws -/

section Laws

variable {K : Type} [Field K] [LinearOrder K] [IsStrictOrderedRing K]

/-- Displacements one after the other add up. -/
theorem concat_translation (u v : Fin 3 → K) :
    (translation (number (u 0)) (number (u 1)) (number (u 2))).concat
        (translation (number (v 0)) (number (v 1)) (number (v 2)))
      = translation (number (u 0 + v 0)) (number (u 1 + v 1)) (number (u 2 + v 2)) := by
  rw [translation_eq, translation_eq, translation_eq, concat_ofMatrix]
  congr 1
  ext r c
  fin_cases r <;> fin_cases c <;> simp [Matrix.mul_apply, Fin.sum_univ_four, add_comm]

/-- Magnifications multiply along each axis. -/
theorem concat_scale (u v : Fin 3 → K) :
    (scale (number (u 0)) (number (u 1)) (number (u 2))).concat
        (scale (number (v 0)) (number (v 1)) (number (v 2)))
      = scale (number (u 0 * v 0)) (number (u 1 * v 1)) (number (u 2 * v 2)) := by
  rw [scale_eq, scale_eq, scale_eq, concat_ofMatrix, Matrix.diagonal_mul_diagonal]
  congr 2
  funext r
  fin_cases r <;> simp

/-- Over exact numbers transforms compose lawfully, whatever their sixteen entries are.  The order in
which three of them are concatenated does not matter, the identity is neutral on both sides, and
concatenation applies the second transform first.  Displacements one after the other add up, and
magnifications multiply along each axis. -/
theorem concat_composes (a b c : Transform K) :
    (a.exact.concat b.exact).concat c.exact = a.exact.concat (b.exact.concat c.exact) ∧
    identity.concat a.exact = a.exact ∧
    a.exact.concat identity = a.exact ∧
    (∀ v : Fin 4 → K, (a.exact.concat b.exact).apply (number ∘ v)
      = a.exact.apply (b.exact.apply (number ∘ v))) ∧
    (∀ u v : Fin 3 → K,
      (translation (number (u 0)) (number (u 1)) (number (u 2))).concat
          (translation (number (v 0)) (number (v 1)) (number (v 2)))
        = translation (number (u 0 + v 0)) (number (u 1 + v 1)) (number (u 2 + v 2))) ∧
    ∀ u v : Fin 3 → K,
      (scale (number (u 0)) (number (u 1)) (number (u 2))).concat
          (scale (number (v 0)) (number (v 1)) (number (v 2)))
        = scale (number (u 0 * v 0)) (number (u 1 * v 1)) (number (u 2 * v 2)) := by
  -- Through their matrices the laws of transforms are those of matrices.
  simp only [exact_eq]
  refine ⟨?_, ?_, ?_, fun v => ?_, concat_translation, concat_scale⟩
  · rw [concat_ofMatrix, concat_ofMatrix, concat_ofMatrix, concat_ofMatrix, Matrix.mul_assoc]
  · rw [identity_eq, concat_ofMatrix, Matrix.one_mul]
  · rw [identity_eq, concat_ofMatrix, Matrix.mul_one]
  · rw [concat_ofMatrix, apply_ofMatrix, apply_ofMatrix, apply_ofMatrix, Matrix.mulVec_mulVec]

end Laws

/-- Sixteen different entries in the order in which they are stored. -/
def counting : Transform ℚ :=
  ⟨#v[1, 2, 3, 4, 5, 6, 7, 8, 9, 10, 11, 12, 13, 14, 15, 16]⟩

/-- The same entries in the opposite order. -/
def countingDown : Transform ℚ :=
  ⟨#v[16, 15, 14, 13, 12, 11, 10, 9, 8, 7, 6, 5, 4, 3, 2, 1]⟩

/-- The two transforms compose lawfully though they do not commute. -/
theorem concat_composes_counting :
    (counting.exact.concat countingDown.exact).apply (number ∘ ![1, 0, 2, 1])
        = counting.exact.apply (countingDown.exact.apply (number ∘ ![1, 0, 2, 1])) ∧
      counting.exact.concat countingDown.exact ≠ countingDown.exact.concat counting.exact := by
  obtain ⟨-, -, -, happly, -, -⟩ := concat_composes counting countingDown counting
  refine ⟨happly _, fun h => ?_⟩
  have hcorner : (counting.exact.concat countingDown.exact).entry 0 0
      ≠ (countingDown.exact.concat counting.exact).entry 0 0 := by decide +kernel
  exact hcorner (congrArg (fun t => t.entry 0 0) h)

end Transform

end LayerAnimation
