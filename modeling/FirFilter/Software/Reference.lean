import FirFilter.Software.Scripts
import Mathlib.LinearAlgebra.Matrix.Symmetric
import Mathlib.Data.UInt
import Mathlib.Algebra.Order.Field.Rat
/-!
# FirFilter.Software.Reference

`main.c` against its checker `compare_output.m`.

The checker correlates the image with the mask of the file. `main.c` pairs
`filter[k][p]` with the pixel `k` columns to the right and `p` rows down, and so
correlates it with the transposed mask. The masks of the repository are symmetric
and do not show the difference; they are also the only masks that do not.
-/

namespace FirFilter.Software

open Matrix

/-! ### The reference output -/

/-- The integer form of `imfilter(I, M, 'replicate')`. -/
def referenceSum {h w : ℕ} [NeZero h] [NeZero w] (M : Matrix (Fin 7) (Fin 7) Int16)
    (I : Matrix (Fin h) (Fin w) UInt8) : Matrix (Fin h) (Fin w) ℤ :=
  imfilter (d := 3) (I.map fun b => (b.toNat : ℤ)) (M.map Int16.toInt)

/-- What the checker computes is the integer form, scaled. -/
theorem refOutput_eq (d : ImageSize) (M : Matrix (Fin 7) (Fin 7) Int16)
    (I : Matrix (Fin d.height.toNat) (Fin d.width.toNat) UInt8) :
    refOutput ⟨d.height.toNat, d.width.toNat, I.map fun b => (b.toNat : ℚ)⟩
      (M.map fun m => (m.toInt : ℚ) / 2 ^ coeffsFracBits) =
        ⟨d.height.toNat, d.width.toNat, Matrix.of fun i j =>
          (referenceSum M I i j : ℚ) / 2 ^ coeffsFracBits⟩ := by
  have hmask : (M.map fun m => (m.toInt : ℚ) / 2 ^ coeffsFracBits) =
      (1 / 2 ^ coeffsFracBits : ℚ) • (M.map Int16.toInt).map (Int.castRingHom ℚ) := by
    ext r c
    simp only [Matrix.map_apply, Matrix.smul_apply, smul_eq_mul, eq_intCast]
    ring
  have himage : (I.map fun b => (b.toNat : ℚ)) =
      (I.map fun b => (b.toNat : ℤ)).map (Int.castRingHom ℚ) := by
    ext r c
    simp only [Matrix.map_apply, eq_intCast, Int.cast_natCast]
  rw [refOutput, hmask, himage]
  congr 1
  ext i j
  show imfilter (d := 3) _ _ i j = (referenceSum M I i j : ℚ) / 2 ^ coeffsFracBits
  rw [imfilter_smul, imfilter_map, Matrix.smul_apply, Matrix.map_apply, smul_eq_mul, eq_intCast,
    one_div_mul_eq_div]
  rfl

/-- The rounding of the shift is less than a unit of the output. -/
theorem abs_floor_sub_lt (S : ℤ) :
    |(S : ℚ) / 2 ^ coeffsFracBits - ((S / 64 : ℤ) : ℚ) / 2 ^ outputFracBits| <
      1 / 2 ^ outputFracBits := by
  have hdiv : (64 * (S / 64 : ℤ) + (S % 64 : ℤ) : ℚ) = S := mod_cast Int.mul_ediv_add_emod S 64
  have hlo : (0 : ℚ) ≤ (S % 64 : ℤ) := mod_cast Int.emod_nonneg S (by decide)
  have hhi : ((S % 64 : ℤ) : ℚ) < 64 := mod_cast Int.emod_lt_of_pos S (by decide)
  rw [← hdiv, coeffsFracBits, outputFracBits, abs_lt]
  constructor <;> linarith

/-! ### The law -/

/-- An iteration of `main.c` computes the filter that the checker specifies: every
pixel is the reference sum, narrowed, and the checker finds no error of a unit of the
output where the reference is in its range. -/
structure MeetsReference (d : ImageSize) (M : Matrix (Fin 7) (Fin 7) Int16)
    (I : Matrix (Fin d.height.toNat) (Fin d.width.toNat) UInt8) (m : Heap) : Prop where
  exact : ∀ i j,
    ((iterateOn d M I m).1.outputBuf (UInt32.ofNat (i.val * d.width.toNat + j.val))).toInt =
      saturate 15 (referenceSum M I i j / 64)
  error : ∃ D : Matrix (Fin d.height.toNat) (Fin d.width.toNat) ℚ,
    compareOutput (fwriteInt16 M) (writeInputBinImage I) (iterateOn d M I m).2 =
      some ⟨d.height.toNat, d.width.toNat, D⟩ ∧
    ∀ i j, -2 ^ 10 ≤ (referenceSum M I i j : ℚ) / 2 ^ coeffsFracBits →
      (referenceSum M I i j : ℚ) / 2 ^ coeffsFracBits < 2 ^ 10 → |D i j| < 1 / 2 ^ outputFracBits

/-- The mask and its transpose give the same narrowed sums on an image. -/
def TransposeAgrees {h w : ℕ} [NeZero h] [NeZero w] (M : Matrix (Fin 7) (Fin 7) Int16)
    (I : Matrix (Fin h) (Fin w) UInt8) : Prop :=
  ∀ i j, saturate 15 (referenceSum Mᵀ I i j / 64) = saturate 15 (referenceSum M I i j / 64)

/-- The difference image. -/
theorem compareOutput_eq (d : ImageSize) (M : Matrix (Fin 7) (Fin 7) Int16)
    (I : Matrix (Fin d.height.toNat) (Fin d.width.toNat) UInt8) (m : Heap) :
    compareOutput (fwriteInt16 M) (writeInputBinImage I) (iterateOn d M I m).2 =
      some ⟨d.height.toNat, d.width.toNat, Matrix.of fun i j =>
        (referenceSum M I i j : ℚ) / 2 ^ coeffsFracBits -
          (saturate 15 (referenceSum Mᵀ I i j / 64) : ℚ) / 2 ^ outputFracBits⟩ := by
  rw [compareOutput, readFilterMask_fwriteInt16, readInputBinImage_write,
    readOutputBinImage_iterateOn]
  show diffImage (refOutput _ _) _ = _
  rw [refOutput_eq, diffImage, dif_pos ⟨rfl, rfl⟩]
  rfl

theorem error_of_agrees {d : ImageSize} {M : Matrix (Fin 7) (Fin 7) Int16}
    {I : Matrix (Fin d.height.toNat) (Fin d.width.toNat) UInt8} (h : TransposeAgrees M I)
    (i : Fin d.height.toNat) (j : Fin d.width.toNat)
    (hlo : -2 ^ 10 ≤ (referenceSum M I i j : ℚ) / 2 ^ coeffsFracBits)
    (hhi : (referenceSum M I i j : ℚ) / 2 ^ coeffsFracBits < 2 ^ 10) :
    |(referenceSum M I i j : ℚ) / 2 ^ coeffsFracBits -
      (saturate 15 (referenceSum Mᵀ I i j / 64) : ℚ) / 2 ^ outputFracBits| <
        1 / 2 ^ outputFracBits := by
  rw [h i j]
  generalize referenceSum M I i j = S at hlo hhi
  have hlo' : -2 ^ 21 ≤ S := by
    rw [coeffsFracBits, le_div_iff₀ (by positivity)] at hlo
    exact_mod_cast (by linarith : (-2 ^ 21 : ℚ) ≤ S)
  have hhi' : S < 2 ^ 21 := by
    rw [coeffsFracBits, div_lt_iff₀ (by positivity)] at hhi
    exact_mod_cast (by linarith : (S : ℚ) < 2 ^ 21)
  rw [saturate_of_mem (by omega) (by omega)]
  exact abs_floor_sub_lt S

/-- **One image.** -/
theorem meetsReference_iff_agrees (d : ImageSize) (M : Matrix (Fin 7) (Fin 7) Int16)
    (I : Matrix (Fin d.height.toNat) (Fin d.width.toNat) UInt8) (m : Heap) :
    MeetsReference d M I m ↔ TransposeAgrees M I := by
  constructor
  · intro h i j
    exact (outputBuf_iterateOn d M I m i j).symm.trans (h.exact i j)
  · intro h
    refine ⟨fun i j => (outputBuf_iterateOn d M I m i j).trans (h i j), _,
      compareOutput_eq d M I m, fun i j hlo hhi => error_of_agrees h i j hlo hhi⟩

/-! ### The masks that do not show the difference -/

theorem agrees_of_isSymm {h w : ℕ} [NeZero h] [NeZero w] {M : Matrix (Fin 7) (Fin 7) Int16}
    (hM : M.IsSymm) (I : Matrix (Fin h) (Fin w) UInt8) : TransposeAgrees M I := by
  intro i j
  rw [hM.eq]

/-- A single pixel of value `64` stores one coefficient as it is. -/
theorem isSymm_of_agrees {h w : ℕ} [NeZero h] [NeZero w] (hh : 4 ≤ h) (hw : 4 ≤ w)
    {M : Matrix (Fin 7) (Fin 7) Int16}
    (hM : ∀ I : Matrix (Fin h) (Fin w) UInt8, TransposeAgrees M I) : M.IsSymm := by
  ext r c
  obtain ⟨a, b, i, j, hisolated⟩ := imfilter_isolated (R := ℤ) (d := 3) (h := h) (w := w)
    (by omega) (by omega) (by omega) (by omega) r c
  have himage : ((Matrix.single a b (64 : UInt8)).map fun b => (b.toNat : ℤ)) =
      Matrix.single a b (64 : ℤ) := by
    ext r c
    rw [Matrix.map_apply, Matrix.single_apply, Matrix.single_apply]
    split <;> rfl
  have hnarrow : ∀ v : Int16, saturate 15 (v.toInt * 64 / 64) = v.toInt := fun v => by
    have hlo := v.le_toInt
    have hhi := v.toInt_lt
    rw [Int.mul_ediv_cancel _ (by decide), saturate_of_mem (by omega) (by omega)]
  have h := hM (Matrix.single a b 64) i j
  simp only [referenceSum, himage, hisolated, Matrix.map_apply, hnarrow] at h
  exact Int16.toInt_inj.mp h

/-- Images of four rows and columns. -/
def fourByFour : OutputSize :=
  ⟨⟨4, 4, by decide, by decide, by decide, by decide, by decide⟩, by decide⟩

/-- **`main.c` and its checker.** For a given image they agree exactly when the mask and
its transpose do. For a given mask they agree on every image, of every size or of any one
size of at least four rows and columns, exactly when the mask is symmetric. -/
theorem meetsReference_iff (M : Matrix (Fin 7) (Fin 7) Int16) (m : Heap) :
    (∀ (d : OutputSize) I, MeetsReference d.toImageSize M I m ↔ TransposeAgrees M I) ∧
    ((∀ (d : OutputSize) I, MeetsReference d.toImageSize M I m) ↔ M.IsSymm) ∧
    ∀ d : OutputSize, 4 ≤ d.width.toNat → 4 ≤ d.height.toNat →
      ((∀ I, MeetsReference d.toImageSize M I m) ↔ M.IsSymm) := by
  have hsize : ∀ d : OutputSize, 4 ≤ d.width.toNat → 4 ≤ d.height.toNat →
      ((∀ I, MeetsReference d.toImageSize M I m) ↔ M.IsSymm) := by
    intro d hw hh
    simp only [meetsReference_iff_agrees]
    exact ⟨isSymm_of_agrees hh hw, fun hM I => agrees_of_isSymm hM I⟩
  refine ⟨fun d I => meetsReference_iff_agrees d.toImageSize M I m, ⟨fun h => ?_, fun hM d I => ?_⟩,
    hsize⟩
  · exact (hsize fourByFour (by decide) (by decide)).mp fun I => h fourByFour I
  · exact (meetsReference_iff_agrees d.toImageSize M I m).mpr (agrees_of_isSymm hM I)

theorem meetsReference_iff_four : (∀ I, MeetsReference fourByFour.toImageSize 1 I emptyHeap) ↔
    (1 : Matrix (Fin 7) (Fin 7) Int16).IsSymm :=
  (meetsReference_iff 1 emptyHeap).2.2 fourByFour (by decide) (by decide)

/-- Images of two rows and columns. -/
def twoByTwo : OutputSize :=
  ⟨⟨2, 2, by decide, by decide, by decide, by decide, by decide⟩, by decide⟩

/-- The mask that takes the pixel to the right: `main.c` takes the one below. -/
theorem shift_mask_breaks_reference :
    ¬ MeetsReference twoByTwo.toImageSize (Matrix.single 3 4 2048) (Matrix.single 0 1 255)
      emptyHeap := by
  rw [meetsReference_iff_agrees]
  intro h
  exact absurd (h 0 0) (by decide +kernel)

end FirFilter.Software
