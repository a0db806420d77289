import Mathlib.Algebra.BigOperators.Ring.Finset
import Mathlib.Algebra.Order.BigOperators.Group.Finset
import Mathlib.Algebra.Order.Ring.Int
import Mathlib.Tactic.Ring
/-!
# FirFilter.Lib.Gain

The range of a weighted sum of samples.

The samples go from `0` to `top` and the weights are integers. The sum is largest when the
samples with a positive weight are `top` and the others `0`, which gives the positive gain
`posGain`; the negative one is that of the negated weights. The sums in between are not all
reached, but no gap is wider than the largest weight (`exists_just_above`).
-/

namespace FirFilter.Gain

variable {ι : Type*} [Fintype ι] {c : ι → ℤ} {top : ℕ}

/-- The sum of the samples `v` with the weights `c`. -/
def weighted (c : ι → ℤ) (v : ι → ℕ) : ℤ := ∑ i, c i * (v i : ℤ)

/-- The sum of the positive weights. -/
def posGain (c : ι → ℤ) : ℤ := ∑ i, max (c i) 0

theorem weighted_neg (c : ι → ℤ) (v : ι → ℕ) : weighted (-c) v = -weighted c v := by
  simp [weighted, Finset.sum_neg_distrib]

theorem weighted_le {v : ι → ℕ} (hv : ∀ i, v i ≤ top) : weighted c v ≤ top * posGain c := by
  rw [weighted, posGain, Finset.mul_sum]
  refine Finset.sum_le_sum fun i _ => ?_
  have hi : (v i : ℤ) ≤ top := Int.ofNat_le.mpr (hv i)
  calc c i * (v i : ℤ) ≤ max (c i) 0 * (v i : ℤ) :=
        mul_le_mul_of_nonneg_right (le_max_left _ _) (Int.natCast_nonneg _)
    _ ≤ max (c i) 0 * top := mul_le_mul_of_nonneg_left hi (le_max_right _ _)
    _ = top * max (c i) 0 := mul_comm _ _

/-- The bound is reached. -/
theorem exists_weighted_eq (c : ι → ℤ) (top : ℕ) :
    ∃ v : ι → ℕ, (∀ i, v i ≤ top) ∧ weighted c v = top * posGain c := by
  refine ⟨fun i => if 0 < c i then top else 0, fun i => ?_, ?_⟩
  · dsimp only
    split
    · exact le_rfl
    · exact Nat.zero_le _
  · rw [weighted, posGain, Finset.mul_sum]
    refine Finset.sum_congr rfl fun i _ => ?_
    split
    · rename_i h
      rw [max_eq_left h.le, mul_comm]
    · rename_i h
      rw [max_eq_right (not_lt.mp h), Nat.cast_zero, mul_zero, mul_zero]

/-- One step down in a sample with a positive weight. -/
theorem exists_lower {v : ι → ℕ} (h : 0 < weighted c v) : ∃ i, ∃ v' : ι → ℕ,
    (∀ j, v' j ≤ v j) ∧ weighted c v' = weighted c v - c i ∧ ∑ j, v' j < ∑ j, v j := by
  classical
  obtain ⟨i, -, hi⟩ := Finset.exists_lt_of_sum_lt
    (show ∑ _i : ι, (0 : ℤ) < ∑ i, c i * (v i : ℤ) by simpa [weighted] using h)
  have hvi : 0 < v i := Nat.pos_of_ne_zero fun h0 => by simp [h0] at hi
  refine ⟨i, Function.update v i (v i - 1), fun j => ?_, ?_, ?_⟩
  · by_cases hj : j = i
    · rw [hj, Function.update_self]
      exact Nat.sub_le _ _
    · rw [Function.update_of_ne hj]
  · have hsplit : ∀ u : ι → ℕ, weighted c u =
        c i * (u i : ℤ) + ∑ j ∈ Finset.univ.erase i, c j * (u j : ℤ) := fun u =>
      (Finset.add_sum_erase _ _ (Finset.mem_univ i)).symm
    have hrest : ∑ j ∈ Finset.univ.erase i, c j * (Function.update v i (v i - 1) j : ℤ) =
        ∑ j ∈ Finset.univ.erase i, c j * (v j : ℤ) := Finset.sum_congr rfl fun j hj => by
      rw [Function.update_of_ne (Finset.ne_of_mem_erase hj)]
    rw [hsplit, hsplit v, hrest, Function.update_self, Nat.cast_sub hvi]
    push_cast
    ring
  · refine Finset.sum_lt_sum (fun j _ => ?_) ⟨i, Finset.mem_univ i, ?_⟩
    · by_cases hj : j = i
      · rw [hj, Function.update_self]
        exact Nat.sub_le _ _
      · rw [Function.update_of_ne hj]
    · rw [Function.update_self]
      exact Nat.sub_lt hvi Nat.one_pos

/-- **No wide gaps.** Below samples whose sum is at least `B` there are some whose sum is
at least `B` by less than the largest weight. -/
theorem exists_just_above {B width : ℤ} (hB : 0 < B) (hc : ∀ i, c i ≤ width) (v : ι → ℕ)
    (hv : B ≤ weighted c v) :
    ∃ v' : ι → ℕ, (∀ i, v' i ≤ v i) ∧ B ≤ weighted c v' ∧ weighted c v' < B + width := by
  induction hn : ∑ i, v i using Nat.strong_induction_on generalizing v with
  | _ n ih =>
      by_cases hlt : weighted c v < B + width
      · exact ⟨v, fun _ => le_rfl, hv, hlt⟩
      · obtain ⟨i, v', hle, hsum, htotal⟩ := exists_lower (hB.trans_le hv)
        have hi := hc i
        obtain ⟨v'', hle', hlo, hhi⟩ := ih _ (hn ▸ htotal) v' (by omega) rfl
        exact ⟨v'', fun j => (hle' j).trans (hle j), hlo, hhi⟩

end FirFilter.Gain
