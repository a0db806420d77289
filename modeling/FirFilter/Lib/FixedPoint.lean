import Mathlib.Algebra.Order.Group.MinMax
import Mathlib.Data.Int.Basic
import Mathlib.Data.BitVec
import Mathlib.Tactic.Positivity
import Mathlib.Tactic.Ring
/-!
# FirFilter.Lib.FixedPoint

Narrowing a signed sum to fewer bits, in the two ways hardware and software do it.

`saturate n` clamps to the range of `n + 1` signed bits, and cutting `n + 1` bits
out of a two's complement word reads the value modulo `2 ^ (n + 1)`
(`toInt_slice`). Below the cut both round towards `-∞`. The two ways agree
exactly where `saturate_eq_bmod_iff` says.
-/

namespace FirFilter

/-- Clamp to the `n + 1`-bit signed range. -/
def saturate (n : ℕ) (x : ℤ) : ℤ := max (-2 ^ n) (min (2 ^ n - 1) x)

section Saturate

variable (n : ℕ)

theorem pow_pos_int : (0 : ℤ) < 2 ^ n := by positivity

theorem saturate_mono {x y : ℤ} (h : x ≤ y) : saturate n x ≤ saturate n y :=
  max_le_max_left _ (min_le_min_left _ h)

theorem saturate_mem (x : ℤ) : -2 ^ n ≤ saturate n x ∧ saturate n x < 2 ^ n := by
  have := pow_pos_int n
  unfold saturate
  omega

variable {n} {x : ℤ}

theorem saturate_of_mem (hlo : -2 ^ n ≤ x) (hhi : x < 2 ^ n) : saturate n x = x := by
  unfold saturate
  omega

theorem saturate_of_ge (h : 2 ^ n ≤ x) : saturate n x = 2 ^ n - 1 := by
  have := pow_pos_int n
  unfold saturate
  omega

theorem saturate_of_lt (h : x < -2 ^ n) : saturate n x = -2 ^ n := by
  have := pow_pos_int n
  unfold saturate
  omega

/-- A balanced residue, as a residue and a sign. -/
theorem bmod_two_pow (n : ℕ) (x : ℤ) : x.bmod (2 ^ (n + 1)) =
    if x % (2 * 2 ^ n) < 2 ^ n then x % (2 * 2 ^ n) else x % (2 * 2 ^ n) - 2 * 2 ^ n := by
  have hcast : ((2 ^ (n + 1) : ℕ) : ℤ) = 2 * 2 ^ n := by push_cast; ring
  have hhalf : ((2 * 2 ^ n : ℤ) + 1) / 2 = 2 ^ n := by omega
  rw [Int.bmod, hcast, hhalf]

/-- **Wrapping against saturating.** They agree on the values that fit, and beyond
them only where the residue happens to be the clamped value. -/
theorem saturate_eq_bmod_iff : saturate n x = x.bmod (2 ^ (n + 1)) ↔
    (-2 ^ n ≤ x ∧ x < 2 ^ n) ∨ (0 < x ∧ x % (2 * 2 ^ n) = 2 ^ n - 1) ∨
      (x < 0 ∧ x % (2 * 2 ^ n) = 2 ^ n) := by
  have hpos := pow_pos_int n
  have h0 := Int.emod_nonneg x (show (2 * 2 ^ n : ℤ) ≠ 0 by omega)
  have h1 := Int.emod_lt_of_pos x (show (0 : ℤ) < 2 * 2 ^ n by omega)
  rw [bmod_two_pow]
  rcases lt_or_ge x (-2 ^ n) with hlo | hlo
  · rw [saturate_of_lt hlo]
    split <;> omega
  · rcases lt_or_ge x (2 ^ n) with hhi | hhi
    · rw [saturate_of_mem hlo hhi, ← bmod_two_pow]
      refine iff_of_true ?_ (.inl ⟨hlo, hhi⟩)
      have hcast : ((2 ^ (n + 1) : ℕ) : ℤ) = 2 * 2 ^ n := by push_cast; ring
      exact (Int.bmod_eq_of_le (by omega) (by omega)).symm
    · rw [saturate_of_ge hhi]
      split <;> omega

end Saturate

/-! ### Cutting bits out of a word -/

/-- `n + 1` bits from bit `k` of a two's complement word are the value divided by
`2 ^ k`, modulo `2 ^ (n + 1)`. -/
theorem toInt_slice {w k n : ℕ} (h : n + 1 + k ≤ w) (x : ℤ) :
    ((BitVec.ofInt w x).extractLsb (n + k) k).toInt = (x / 2 ^ k).bmod (2 ^ (n + 1)) := by
  obtain ⟨d, rfl⟩ := Nat.exists_eq_add_of_le h
  -- the word keeps `x` up to a multiple of `2 ^ (n + 1 + k + d)`
  have hsplit : x / 2 ^ k = x % 2 ^ (n + 1 + k + d) / 2 ^ k +
      (2 ^ (n + 1) : ℕ) * (2 ^ d * (x / 2 ^ (n + 1 + k + d))) := by
    have hk : (2 ^ k : ℤ) ≠ 0 := by positivity
    conv_lhs => rw [← Int.emod_add_mul_ediv x (2 ^ (n + 1 + k + d))]
    rw [show (2 : ℤ) ^ (n + 1 + k + d) * (x / 2 ^ (n + 1 + k + d)) =
        (2 ^ (n + 1) : ℕ) * (2 ^ d * (x / 2 ^ (n + 1 + k + d))) * 2 ^ k by push_cast; ring,
      Int.add_mul_ediv_right _ _ hk]
  have hword : (((BitVec.ofInt (n + 1 + k + d) x).toNat >>> k : ℕ) : ℤ) =
      x % 2 ^ (n + 1 + k + d) / 2 ^ k := by
    have hr : 0 ≤ x % 2 ^ (n + 1 + k + d) := Int.emod_nonneg _ (by positivity)
    rw [Nat.shiftRight_eq_div_pow, BitVec.toNat_ofInt]
    push_cast
    rw [Int.toNat_of_nonneg hr]
  rw [BitVec.toInt_extractLsb, hword, hsplit, Int.add_mul_bmod_self_left, Nat.add_sub_cancel]

end FirFilter
