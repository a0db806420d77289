import FirFilter.Software.Main
import FirFilter.Lib.FixedPoint
import Mathlib.Algebra.BigOperators.Intervals
import Mathlib.Algebra.Order.BigOperators.Group.Finset
/-!
# FirFilter.Software.Arithmetic

The fixed-width arithmetic of the filter loops is exact.

Coefficients come from 16-bit words and pixels from bytes, so a product has fewer
than 24 bits and a sum of 49 products fewer than 30: no partial sum of the loops
over `k` and `p` leaves the range of `tmp`. The shift is a floor division, and
after the clamp the conversion to `short` keeps the value.
-/

namespace FirFilter.Software

/-! ### Single operations -/

theorem toInt_pixel (x : UInt8) : x.toUInt32.toInt32.toInt = x.toNat := by
  have hlt := x.toNat_lt
  have hnat : x.toUInt32.toInt32.toBitVec.toNat = x.toNat := UInt8.toNat_toUInt32 x
  show x.toUInt32.toInt32.toBitVec.toInt = _
  rw [BitVec.toInt_eq_toNat_of_lt (by omega), hnat]

/-- A coefficient from the file, as an `int`. -/
theorem toInt32_short (v : Int16) :
    -2 ^ 15 ≤ v.toInt32.toInt ∧ v.toInt32.toInt < 2 ^ 15 := by
  rw [Int16.toInt_toInt32]
  exact ⟨v.le_toInt, v.toInt_lt⟩

/-- The range of `int`. -/
def InInt (x : ℤ) : Prop := -2 ^ 31 ≤ x ∧ x < 2 ^ 31

theorem toInt_add_of_mem {a b : Int32} (h : InInt (a.toInt + b.toInt)) :
    (a + b).toInt = a.toInt + b.toInt := by
  obtain ⟨hlo, hhi⟩ := h
  rw [Int32.toInt_add]
  exact Int.bmod_eq_of_le (by omega) (by omega)

theorem toInt_mul_of_mem {a b : Int32} (h : InInt (a.toInt * b.toInt)) :
    (a * b).toInt = a.toInt * b.toInt := by
  obtain ⟨hlo, hhi⟩ := h
  rw [Int32.toInt_mul]
  exact Int.bmod_eq_of_le (by omega) (by omega)

/-- The arithmetic shift is a floor division. -/
theorem toInt_shift (tmp : Int32) : (tmp >>> fractionBits).toInt = tmp.toInt / 64 := by
  show (tmp.toBitVec.sshiftRight' _).toInt = _
  rw [BitVec.toInt_sshiftRight']
  exact Int.shiftRight_eq_div_pow _ 6

/-- `tmp` when it is assigned to an element of `output_buf`. -/
def shiftAndClamp (tmp : Int32) : Int32 :=
  let tmp := tmp >>> fractionBits
  if shrtMax < tmp then shrtMax else if tmp < shrtMin then shrtMin else tmp

theorem narrow_eq (tmp : Int32) : narrow tmp = (shiftAndClamp tmp).toInt16 := rfl

theorem shiftAndClamp_toInt (tmp : Int32) :
    (shiftAndClamp tmp).toInt = saturate 15 (tmp.toInt / 64) := by
  have hshift := toInt_shift tmp
  have hmax : shrtMax.toInt = 32767 := rfl
  have hmin : shrtMin.toInt = -32768 := rfl
  unfold shiftAndClamp
  simp only [Int32.lt_iff_toInt_lt, hshift, hmax, hmin]
  split
  · rw [saturate_of_ge (by omega)]
    rfl
  · split
    · rw [saturate_of_lt (by omega)]
      rfl
    · rw [saturate_of_mem (by omega) (by omega), hshift]

/-- **Narrowing.** The stored value is the floor division by `64`, clamped: the conversion
to `short` has nothing to cut off. -/
theorem narrow_toInt (tmp : Int32) : (narrow tmp).toInt = saturate 15 (tmp.toInt / 64) := by
  have hmem := saturate_mem 15 (tmp.toInt / 64)
  rw [narrow_eq, Int32.toInt_toInt16, shiftAndClamp_toInt]
  exact Int.bmod_eq_of_le (by omega) (by omega)

/-! ### The accumulator -/

/-- The coefficients fit in 16 signed bits. -/
def ShortFilter (m : Heap) : Prop :=
  ∀ k < 7, ∀ p < 7, -2 ^ 15 ≤ (m.filter (UInt32.ofNat k) (UInt32.ofNat p)).toInt ∧
    (m.filter (UInt32.ofNat k) (UInt32.ofNat p)).toInt < 2 ^ 15

/-- The exact product for `k` and `p` at output pixel `(i, j)`. -/
def term (m : Heap) (i j : UInt32) (k p : ℕ) : ℤ :=
  (m.filter (UInt32.ofNat k) (UInt32.ofNat p)).toInt *
    (m.image (j + UInt32.ofNat k) (i + UInt32.ofNat p)).toNat

/-- The exact sum of the products before round `k`, `p`. -/
def partialSum (t : ℕ → ℕ → ℤ) (k p : ℕ) : ℤ :=
  ∑ k' ∈ Finset.range k, ∑ p' ∈ Finset.range 7, t k' p' + ∑ p' ∈ Finset.range p, t k p'

theorem partialSum_succ (t : ℕ → ℕ → ℤ) (k p : ℕ) :
    partialSum t k (p + 1) = partialSum t k p + t k p := by
  rw [partialSum, Finset.sum_range_succ, ← add_assoc]
  rfl

theorem partialSum_row (t : ℕ → ℕ → ℤ) (k : ℕ) : partialSum t (k + 1) 0 = partialSum t k 7 := by
  simp only [partialSum, Finset.sum_range_succ, Finset.sum_range_zero, add_zero]

theorem abs_partialSum_le {t : ℕ → ℕ → ℤ} {b : ℤ} (hb : ∀ k < 7, ∀ p < 7, |t k p| ≤ b)
    {k p : ℕ} (hk : k < 7) (hp : p ≤ 7) : |partialSum t k p| ≤ (7 * k + p) * b := by
  have hrow : ∀ k < 7, ∀ p ≤ 7, |∑ p' ∈ Finset.range p, t k p'| ≤ p * b := fun k hk p hp => by
    calc |∑ p' ∈ Finset.range p, t k p'| ≤ ∑ p' ∈ Finset.range p, |t k p'| :=
          Finset.abs_sum_le_sum_abs _ _
      _ ≤ ∑ _p' ∈ Finset.range p, b := Finset.sum_le_sum fun p' hp' =>
          hb k hk p' ((Finset.mem_range.mp hp').trans_le hp)
      _ = p * b := by rw [Finset.sum_const, Finset.card_range, nsmul_eq_mul]
  have hrows : |∑ k' ∈ Finset.range k, ∑ p' ∈ Finset.range 7, t k' p'| ≤ k * (7 * b) := by
    calc |∑ k' ∈ Finset.range k, ∑ p' ∈ Finset.range 7, t k' p'|
        ≤ ∑ k' ∈ Finset.range k, |∑ p' ∈ Finset.range 7, t k' p'| :=
          Finset.abs_sum_le_sum_abs _ _
      _ ≤ ∑ _k' ∈ Finset.range k, 7 * b := Finset.sum_le_sum fun k' hk' =>
          hrow k' ((Finset.mem_range.mp hk').trans hk) 7 le_rfl
      _ = k * (7 * b) := by rw [Finset.sum_const, Finset.card_range, nsmul_eq_mul]
  calc |partialSum t k p| ≤ k * (7 * b) + p * b :=
        (abs_add_le _ _).trans (add_le_add hrows (hrow k hk p hp))
    _ = (7 * k + p) * b := by ring

theorem abs_term_le {m : Heap} (hm : ShortFilter m) (i j : UInt32) :
    ∀ k < 7, ∀ p < 7, |term m i j k p| ≤ 2 ^ 15 * 255 := by
  intro k hk p hp
  obtain ⟨hlo, hhi⟩ := hm k hk p hp
  have hpix := (m.image (j + UInt32.ofNat k) (i + UInt32.ofNat p)).toNat_lt
  rw [term, abs_mul]
  refine mul_le_mul ?_ ?_ (abs_nonneg _) (by norm_num)
  · rw [abs_le]
    omega
  · rw [Nat.abs_cast]
    omega

/-- No product leaves the range of `tmp`. -/
theorem term_inInt {m : Heap} (hm : ShortFilter m) (i j : UInt32) {k p : ℕ} (hk : k < 7)
    (hp : p < 7) : InInt (term m i j k p) := by
  have h := abs_le.mp (abs_term_le hm i j k hk p hp)
  unfold InInt
  omega

/-- No partial sum of the loops leaves the range of `tmp`. -/
theorem partialSum_inInt {m : Heap} (hm : ShortFilter m) (i j : UInt32) {k p : ℕ} (hk : k < 7)
    (hp : p ≤ 7) : InInt (partialSum (term m i j) k p) := by
  have h := abs_le.mp (abs_partialSum_le (abs_term_le hm i j) hk hp)
  unfold InInt
  omega

theorem toInt_product {m : Heap} (hm : ShortFilter m) (i j : UInt32) {k p : UInt32}
    (hk : k.toNat < 7) (hp : p.toNat < 7) :
    (product m k p (j + k) (i + p)).toInt = term m i j k.toNat p.toNat := by
  have hterm := term_inInt hm i j hk hp
  simp only [term, UInt32.ofNat_toNat] at hterm ⊢
  rw [← toInt_pixel] at hterm ⊢
  exact toInt_mul_of_mem hterm

/-- The heap `m'` has the inputs of the filter loops from `m`. -/
structure SameInputs (m m' : Heap) : Prop where
  filter : m'.filter = m.filter
  width : m'.width = m.width
  height : m'.height = m.height
  image : m'.image = m.image

/-- The state before round `k`, `p`. -/
structure Accumulated (m : Heap) (i j : UInt32) (k p : ℕ) (s : Heap × Int32) : Prop where
  inputs : SameInputs m s.1
  outputBuf : s.1.outputBuf = m.outputBuf
  tmp : s.2.toInt = partialSum (term m i j) k p

/-- One round of the loops over `k` and `p`. -/
def addProduct (i j k p : UInt32) (s : Heap × Int32) : Heap × Int32 :=
  (s.1.accessCell (j + k) (i + p) false, s.2 + product s.1 k p (j + k) (i + p))

/-- The loops over `k` and `p`, stopped after `k` rows of the mask and `p` entries of the
next. -/
def accumulatePrefix (i j k p : UInt32) (m : Heap) : Heap × Int32 :=
  forLoop 0 p (addProduct i j k)
    (forLoop 0 k (fun k => forLoop 0 filterSize (addProduct i j k)) (m, 0))

theorem accumulate_eq_prefix (i j : UInt32) (m : Heap) :
    accumulate i j m = accumulatePrefix i j filterSize 0 m := by
  rw [accumulatePrefix, forLoop_of_le (Nat.le_refl _)]
  rfl

/-- **Step lemma.** -/
theorem Accumulated.step {m : Heap} (hm : ShortFilter m) {i j k p : UInt32} {s : Heap × Int32}
    (h : Accumulated m i j k.toNat p.toNat s) (hk : k.toNat < 7) (hp : p.toNat < 7) :
    Accumulated m i j k.toNat (p.toNat + 1) (addProduct i j k p s) := by
  have hterm : (product s.1 k p (j + k) (i + p)).toInt = term m i j k.toNat p.toNat := by
    rw [product, h.inputs.filter, h.inputs.image]
    exact toInt_product hm i j hk hp
  have hsum := partialSum_inInt hm i j (k := k.toNat) (p := p.toNat + 1) hk hp
  rw [partialSum_succ, ← h.tmp, ← hterm] at hsum
  refine ⟨⟨h.inputs.filter, h.inputs.width, h.inputs.height, h.inputs.image⟩, h.outputBuf, ?_⟩
  rw [partialSum_succ, ← h.tmp, ← hterm]
  exact toInt_add_of_mem hsum

/-- **Every prefix of the loops is exact.** -/
theorem accumulatePrefix_exact {m : Heap} (hm : ShortFilter m) (i j : UInt32) {k p : UInt32}
    (h : k.toNat < 7 ∧ p.toNat ≤ 7 ∨ k.toNat = 7 ∧ p.toNat = 0) :
    Accumulated m i j k.toNat p.toNat (accumulatePrefix i j k p m) := by
  have hrows : Accumulated m i j k.toNat 0
      (forLoop 0 k (fun k => forLoop 0 filterSize (addProduct i j k)) (m, 0)) := by
    refine forLoop_induction_zero (fun k => Accumulated m i j k 0)
      ⟨⟨rfl, rfl, rfl, rfl⟩, rfl, rfl⟩ ?_
    intro k' s hk' hs
    have hrow : Accumulated m i j k'.toNat filterSize.toNat _ :=
      forLoop_induction_zero (Accumulated m i j k'.toNat) hs
        fun p s hp hs => hs.step hm (by omega) hp
    exact ⟨hrow.inputs, hrow.outputBuf, hrow.tmp.trans (partialSum_row _ _).symm⟩
  exact forLoop_induction_zero (Accumulated m i j k.toNat) hrows
    fun p' s hp' hs => hs.step hm (by omega) (by omega)

/-- The exact sum of the products at output pixel `(i, j)`. -/
def windowSum (m : Heap) (i j : UInt32) : ℤ :=
  ∑ k ∈ Finset.range 7, ∑ p ∈ Finset.range 7, term m i j k p

/-- **The accumulator is exact.** -/
theorem accumulate_exact {m : Heap} (hm : ShortFilter m) (i j : UInt32) :
    SameInputs m (accumulate i j m).1 ∧ (accumulate i j m).1.outputBuf = m.outputBuf ∧
      (accumulate i j m).2.toInt = windowSum m i j := by
  have hrun := accumulatePrefix_exact hm i j (k := filterSize) (p := 0) (.inr ⟨rfl, rfl⟩)
  rw [← accumulate_eq_prefix] at hrun
  refine ⟨hrun.inputs, hrun.outputBuf, hrun.tmp.trans ?_⟩
  simp only [toNat_filterSize, UInt32.toNat_zero, partialSum, Finset.sum_range_zero, add_zero,
    windowSum]

theorem SameInputs.windowSum {m m' : Heap} (h : SameInputs m m') (i j : UInt32) :
    windowSum m' i j = windowSum m i j := by
  simp only [Software.windowSum, term, h.filter, h.image]

theorem SameInputs.shortFilter {m m' : Heap} (h : SameInputs m m') (hm : ShortFilter m) :
    ShortFilter m' := by
  unfold ShortFilter
  rw [h.filter]
  exact hm

theorem SameInputs.trans {m m' m'' : Heap} (h : SameInputs m m') (h' : SameInputs m' m'') :
    SameInputs m m'' :=
  ⟨h'.filter.trans h.filter, h'.width.trans h.width, h'.height.trans h.height,
    h'.image.trans h.image⟩

end FirFilter.Software
