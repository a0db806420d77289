import Mathlib.Algebra.Order.Ring.Nat
/-!
# FirFilter.Lib.RowMajor

The flat index `r * w + c` of the element in row `r` and column `c` of an array
with rows of `w` elements.
-/

namespace FirFilter

variable {w h r r' c c' n : ℕ}

theorem rowMajor_div (hc : c < w) : (r * w + c) / w = r := by
  rw [Nat.mul_comm, Nat.mul_add_div (Nat.zero_lt_of_lt hc), Nat.div_eq_of_lt hc, Nat.add_zero]

theorem rowMajor_mod (hc : c < w) : (r * w + c) % w = c := by
  rw [Nat.mul_comm, Nat.mul_add_mod, Nat.mod_eq_of_lt hc]

/-- Row and column are determined by the index. -/
theorem rowMajor_unique (hc : c < w) (hc' : c' < w) (h : r * w + c = r' * w + c') :
    r = r' ∧ c = c' := by
  have hr : r = r' := by rw [← rowMajor_div (r := r) hc, h, rowMajor_div hc']
  subst hr
  exact ⟨rfl, Nat.add_left_cancel h⟩

theorem rowMajor_lt (hr : r < h) (hc : c < w) : r * w + c < h * w := by
  calc r * w + c < (r + 1) * w := by rw [Nat.add_one_mul]; omega
    _ ≤ h * w := Nat.mul_le_mul_right _ hr

/-- Elements of earlier rows, and earlier elements of a row, have smaller indices. -/
theorem rowMajor_lt_of_before (hc : c < w) (h : r < r' ∨ r = r' ∧ c < c') :
    r * w + c < r' * w + c' := by
  rcases h with hr | ⟨rfl, hcc⟩
  · exact (rowMajor_lt hr hc).trans_le (Nat.le_add_right _ _)
  · exact Nat.add_lt_add_left hcc _

/-- Every index of an array is that of a row and a column. -/
theorem exists_rowMajor (hn : n < h * w) : ∃ r c, r < h ∧ c < w ∧ n = r * w + c := by
  have hw : 0 < w := Nat.pos_of_ne_zero fun h0 => by simp [h0] at hn
  exact ⟨n / w, n % w, Nat.div_lt_of_lt_mul (by rwa [Nat.mul_comm]), Nat.mod_lt _ hw,
    (Nat.div_add_mod' n w).symm⟩

/-- Row after row is the flat order. -/
theorem flatMap_range_mul {α : Type*} (F : ℕ → List α) (h w : ℕ) :
    ((List.range h).flatMap fun r => (List.range w).flatMap fun c => F (r * w + c)) =
      (List.range (h * w)).flatMap F := by
  induction h with
  | zero => rw [Nat.zero_mul]; rfl
  | succ h ih =>
      rw [List.range_succ, List.flatMap_append, ih, Nat.succ_mul, List.range_add,
        List.flatMap_append, List.flatMap_singleton, List.flatMap_map]

end FirFilter
