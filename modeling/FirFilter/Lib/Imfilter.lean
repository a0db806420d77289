import Mathlib.Algebra.BigOperators.Fin
import Mathlib.Algebra.BigOperators.Ring.Finset
import Mathlib.Data.Matrix.Basis
/-!
# FirFilter.Lib.Imfilter

Two-dimensional correlation with replicated borders, `imfilter(I, M, 'replicate')`.

A pixel outside the image is the nearest pixel of the image, so the extended
image is `replicate I`, a function of two integers. The result at `(i, j)` is the
sum of the products of the mask with the window centred there; the mask is not
mirrored. Swapping the two axes of mask and image swaps those of the result
(`imfilter_transpose`), turning both by half a turn turns the result
(`imfilter_rotate180`), and on images that are large enough the results tell the
entries of the mask apart (`imfilter_isolated`).
-/

namespace FirFilter

open Matrix

variable {R S : Type*} {h w d : ℕ}

/-! ### Replicated borders -/

/-- The index nearest to `z`. -/
def clampIndex (n : ℕ) [NeZero n] (z : ℤ) : Fin n :=
  ⟨(max 0 (min z (n - 1))).toNat, by have := NeZero.pos n; omega⟩

section ClampIndex

variable {n : ℕ} [NeZero n] {z : ℤ}

theorem clampIndex_val (n : ℕ) [NeZero n] (z : ℤ) :
    ((clampIndex n z).val : ℤ) = max 0 (min z (n - 1)) := by
  have := NeZero.pos n
  simp only [clampIndex]
  omega

theorem clampIndex_of_lt (h0 : 0 ≤ z) (hn : z < n) : ((clampIndex n z).val : ℤ) = z := by
  rw [clampIndex_val]
  omega

@[simp] theorem clampIndex_coe (i : Fin n) : clampIndex n i = i := by
  apply Fin.ext
  have := clampIndex_of_lt (n := n) (z := (i.val : ℤ)) (by omega) (by omega)
  omega

/-- The mirrored index. -/
theorem clampIndex_rev (z : ℤ) : clampIndex n (n - 1 - z) = (clampIndex n z).rev := by
  apply Fin.ext
  have := NeZero.pos n
  have h1 := clampIndex_val n (n - 1 - z)
  have h2 := clampIndex_val n z
  rw [Fin.val_rev]
  omega

end ClampIndex

/-- The image, extended by its nearest pixels. -/
def replicate [NeZero h] [NeZero w] (I : Matrix (Fin h) (Fin w) R) (r c : ℤ) : R :=
  I (clampIndex h r) (clampIndex w c)

/-- `imfilter(I, M, 'replicate')` for a mask of `2 * d + 1` rows and columns. -/
def imfilter [Semiring R] [NeZero h] [NeZero w] (I : Matrix (Fin h) (Fin w) R)
    (M : Matrix (Fin (2 * d + 1)) (Fin (2 * d + 1)) R) : Matrix (Fin h) (Fin w) R :=
  fun i j => ∑ r : Fin (2 * d + 1), ∑ c : Fin (2 * d + 1),
    M r c * replicate I (i + r - d) (j + c - d)

variable [NeZero h] [NeZero w]

theorem imfilter_transpose [Semiring R] (I : Matrix (Fin h) (Fin w) R)
    (M : Matrix (Fin (2 * d + 1)) (Fin (2 * d + 1)) R) : imfilter Iᵀ Mᵀ = (imfilter I M)ᵀ := by
  funext j i
  exact Finset.sum_comm

/-- The image turned by half a turn. -/
def rotate180 {m n : ℕ} (A : Matrix (Fin m) (Fin n) R) : Matrix (Fin m) (Fin n) R :=
  A.submatrix Fin.rev Fin.rev

theorem replicate_rotate180 (I : Matrix (Fin h) (Fin w) R) (r c : ℤ) :
    replicate (rotate180 I) r c = replicate I (h - 1 - r) (w - 1 - c) := by
  rw [replicate, replicate, clampIndex_rev, clampIndex_rev]
  rfl

theorem cast_rev {n : ℕ} (i : Fin n) : (i.rev.val : ℤ) = n - 1 - i.val := by
  rw [Fin.val_rev]
  omega

theorem imfilter_rotate180 [Semiring R] (I : Matrix (Fin h) (Fin w) R)
    (M : Matrix (Fin (2 * d + 1)) (Fin (2 * d + 1)) R) :
    imfilter (rotate180 I) (rotate180 M) = rotate180 (imfilter I M) := by
  funext i j
  -- both sums run over the mask backwards
  refine Fintype.sum_equiv Fin.revPerm _ _ fun r => Fintype.sum_equiv Fin.revPerm _ _ fun c => ?_
  have hrow : (h : ℤ) - 1 - (i + r - d) = i.rev.val + r.rev.val - d := by
    rw [cast_rev, cast_rev]
    push_cast
    ring
  have hcol : (w : ℤ) - 1 - (j + c - d) = j.rev.val + c.rev.val - d := by
    rw [cast_rev, cast_rev]
    push_cast
    ring
  rw [replicate_rotate180, hrow, hcol]
  rfl

theorem imfilter_map [Semiring R] [Semiring S] (f : R →+* S) (I : Matrix (Fin h) (Fin w) R)
    (M : Matrix (Fin (2 * d + 1)) (Fin (2 * d + 1)) R) :
    imfilter (I.map f) (M.map f) = (imfilter I M).map f := by
  funext i j
  simp only [imfilter, Matrix.map_apply, map_sum, map_mul, replicate]

theorem imfilter_smul [CommSemiring R] (a : R) (I : Matrix (Fin h) (Fin w) R)
    (M : Matrix (Fin (2 * d + 1)) (Fin (2 * d + 1)) R) : imfilter I (a • M) = a • imfilter I M := by
  funext i j
  simp only [imfilter, Matrix.smul_apply, smul_eq_mul, Finset.mul_sum, mul_assoc]

/-- A mask that is zero outside its centre scales the image. -/
theorem imfilter_center [Semiring R] (I : Matrix (Fin h) (Fin w) R) (v : R) :
    imfilter (d := d) I (Matrix.single ⟨d, by omega⟩ ⟨d, by omega⟩ v) = v • I := by
  ext i j
  have hcenter : replicate I (i + d - d) (j + d - d) = I i j := by
    rw [replicate, add_sub_cancel_right, add_sub_cancel_right, clampIndex_coe, clampIndex_coe]
  rw [imfilter, Finset.sum_eq_single ⟨d, by omega⟩, Finset.sum_eq_single ⟨d, by omega⟩]
  · rw [Matrix.single_apply_same, hcenter, Matrix.smul_apply, smul_eq_mul]
  · intro c _ hc
    rw [Matrix.single_apply, if_neg fun h => hc h.2.symm, zero_mul]
  · simp
  · intro r _ hr
    refine Finset.sum_eq_zero fun c _ => ?_
    rw [Matrix.single_apply, if_neg fun h => hr h.1.symm, zero_mul]
  · simp

/-! ### Isolated pixels -/

/-- In a line of more than `d` pixels, every position of the mask can be put on a
pixel that no other position of the mask sees, from some output pixel. -/
theorem exists_isolated {n : ℕ} [NeZero n] (hd : d < n) (h3 : 3 ≤ n) (r : Fin (2 * d + 1)) :
    ∃ a i : Fin n, ∀ r' : Fin (2 * d + 1), clampIndex n (i + r' - d) = a ↔ r' = r := by
  have hr := r.isLt
  -- a border pixel for the ends of the mask, a pixel inside for the others
  obtain ⟨a, i, ha, hi, hpos, hends⟩ : ∃ a i : ℕ, a < n ∧ i < n ∧ (a : ℤ) = i + r - d ∧
      (0 < a ∧ a + 1 < n ∨ a = 0 ∧ r.val = 0 ∨ a + 1 = n ∧ r.val = 2 * d) := by
    by_cases h0 : r.val = 0
    · exact ⟨0, d, by omega, hd, by omega, by omega⟩
    · by_cases hlast : r.val = 2 * d
      · exact ⟨n - 1, n - 1 - d, by omega, by omega, by omega, by omega⟩
      · by_cases hlow : r.val ≤ d
        · exact ⟨1, d + 1 - r, by omega, by omega, by omega, by omega⟩
        · exact ⟨r - d, 0, by omega, by omega, by omega, by omega⟩
  refine ⟨⟨a, ha⟩, ⟨i, hi⟩, fun r' => ?_⟩
  have hr' := r'.isLt
  have hval := clampIndex_val n (i + r' - d)
  rw [Fin.ext_iff, Fin.ext_iff]
  constructor
  · intro h
    simp only at h
    omega
  · intro h
    simp only
    omega

/-- A single pixel of value `v`, seen from the right place, gives `v` times one entry
of the mask. -/
theorem imfilter_isolated [Semiring R] (hh : d < h) (hw : d < w) (h3 : 3 ≤ h) (w3 : 3 ≤ w)
    (r c : Fin (2 * d + 1)) : ∃ (a : Fin h) (b : Fin w) (i : Fin h) (j : Fin w),
      ∀ (M : Matrix (Fin (2 * d + 1)) (Fin (2 * d + 1)) R) (v : R),
        imfilter (Matrix.single a b v) M i j = M r c * v := by
  obtain ⟨a, i, hi⟩ := exists_isolated hh h3 r
  obtain ⟨b, j, hj⟩ := exists_isolated hw w3 c
  refine ⟨a, b, i, j, fun M v => ?_⟩
  have hterm : ∀ r' c', replicate (Matrix.single a b v) (i + (r' : Fin (2 * d + 1)) - d)
      (j + (c' : Fin (2 * d + 1)) - d) = if r' = r ∧ c' = c then v else 0 := by
    intro r' c'
    rw [replicate, Matrix.single_apply]
    simp only [eq_comm (a := a), eq_comm (a := b), hi r', hj c']
  simp only [imfilter, hterm]
  rw [Finset.sum_eq_single r, Finset.sum_eq_single c]
  · simp
  · intro c' _ hc
    simp [hc]
  · simp
  · intro r' _ hr
    simp [hr]
  · simp

end FirFilter
