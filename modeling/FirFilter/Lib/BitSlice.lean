import Mathlib.Data.Nat.Basic
/-!
# FirFilter.Lib.BitSlice

Slices of one wide bit vector, read with `BitVec.extractLsb'` and assigned with
`assignSlice`: an array of words that is stored flattened, word `i` at the bits
`width * (i + 1) - 1 downto width * i`.

The laws are those of an array. `extract_assignSlice_sub` reads back any part of
the slice just assigned, `extract_assignSlice_of_disjoint` is the frame rule, and
`slots_disjoint` supplies its side condition for two slots of one pitch.
-/

namespace FirFilter

variable {n w : ℕ}

/-- `v(lo + w - 1 downto lo) <= x`, every other bit of `v` as before. -/
def assignSlice (v : BitVec n) (lo : ℕ) (x : BitVec w) : BitVec n :=
  (v &&& ~~~((BitVec.allOnes w).setWidth n <<< lo)) ||| (x.setWidth n <<< lo)

theorem getLsbD_assignSlice (v : BitVec n) (lo : ℕ) (x : BitVec w) {k : ℕ} (hk : k < n) :
    (assignSlice v lo x).getLsbD k =
      if lo ≤ k ∧ k < lo + w then x.getLsbD (k - lo) else v.getLsbD k := by
  simp only [assignSlice, BitVec.getLsbD_or, BitVec.getLsbD_and, BitVec.getLsbD_not,
    BitVec.getLsbD_shiftLeft, BitVec.getLsbD_setWidth, BitVec.getLsbD_allOnes]
  by_cases hlo : lo ≤ k
  · by_cases hw : k < lo + w
    · have hin : k - lo < w := by omega
      have hn : k - lo < n := by omega
      simp [hk, hlo, hw, hin, hn, Nat.not_lt.mpr hlo]
    · have hout : ¬ k - lo < w := by omega
      have hx : x.getLsbD (k - lo) = false := BitVec.getLsbD_of_ge _ _ (by omega)
      simp [hk, hw, hout, hx]
  · have : k < lo := by omega
    simp [hk, hlo, this]

/-- Any part of the slice just assigned reads back as that part of the value. -/
theorem extract_assignSlice_sub (v : BitVec n) (lo : ℕ) (x : BitVec w) {u : ℕ} (hu : u ≤ w)
    (hn : lo + w ≤ n) : (assignSlice v lo x).extractLsb' lo u = x.extractLsb' 0 u := by
  apply BitVec.eq_of_getLsbD_eq
  intro k hk
  rw [BitVec.getLsbD_extractLsb', BitVec.getLsbD_extractLsb',
    getLsbD_assignSlice v lo x (by omega), if_pos (by omega)]
  simp

/-- **Frame rule.** A slice that does not overlap the one assigned is unchanged. -/
theorem extract_assignSlice_of_disjoint (v : BitVec n) (lo : ℕ) (x : BitVec w) {lo' u : ℕ}
    (h : lo' + u ≤ lo ∨ lo + w ≤ lo') (hn : lo' + u ≤ n) :
    (assignSlice v lo x).extractLsb' lo' u = v.extractLsb' lo' u := by
  apply BitVec.eq_of_getLsbD_eq
  intro k hk
  rw [BitVec.getLsbD_extractLsb', BitVec.getLsbD_extractLsb',
    getLsbD_assignSlice v lo x (by omega), if_neg (by omega)]

/-- Two different slots of one pitch do not overlap. -/
theorem slots_disjoint (pitch : ℕ) {i j : ℕ} (h : i ≠ j) :
    pitch * j + pitch ≤ pitch * i ∨ pitch * i + pitch ≤ pitch * j := by
  rcases Nat.lt_or_gt_of_ne h with hlt | hgt
  · exact .inr (by rw [← Nat.mul_succ]; exact Nat.mul_le_mul_left pitch hlt)
  · exact .inl (by rw [← Nat.mul_succ]; exact Nat.mul_le_mul_left pitch hgt)

/-- A slot below `count` lies inside a vector of `count` slots. -/
theorem slot_le {pitch count i : ℕ} (h : i < count) : pitch * i + pitch ≤ pitch * count := by
  rw [← Nat.mul_succ]
  exact Nat.mul_le_mul_left pitch h

end FirFilter
