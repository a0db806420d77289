import Mathlib.LinearAlgebra.Matrix.Notation
import FirFilter.Lib.Gain
import FirFilter.System.Session
/-!
# FirFilter.System.MaskGain

For which masks the component is `main.c`.

A session sends what `main.c` writes as long as no window sum leaves the 22 bits that the
component cuts its output from. Whether that is so is a property of the mask alone: white
pixels under the positive coefficients and black ones elsewhere give the largest sum, and
the other way round the smallest. The condition is exact. When the mask exceeds it there is
an image whose sum is just beyond the range, where the wrapped value cannot be that of the
clamp again.
-/

namespace FirFilter.System

open Hardware Software Clocked Ledger Matrix Gain

variable {g : Generics} {P : Parts g}

/-! ### The gain of a mask -/

/-- The coefficients, one after the other. -/
def coefficients (M : Matrix (Fin 7) (Fin 7) Int16) (k : Fin 7 × Fin 7) : ℤ := (M k.1 k.2).toInt

/-- White pixels do not take the sums out of the range. -/
def GainFits (M : Matrix (Fin 7) (Fin 7) Int16) : Prop :=
  255 * posGain (coefficients M) < 2 ^ 21 ∧ 255 * posGain (-coefficients M) ≤ 2 ^ 21

instance (M : Matrix (Fin 7) (Fin 7) Int16) : Decidable (GainFits M) :=
  inferInstanceAs (Decidable (_ ∧ _))

theorem abs_coefficients_le (M : Matrix (Fin 7) (Fin 7) Int16) (k : Fin 7 × Fin 7) :
    |coefficients M k| ≤ 2 ^ 15 := by
  have hlo := (M k.1 k.2).le_toInt
  have hhi := (M k.1 k.2).toInt_lt
  rw [abs_le, coefficients]
  omega

section Sums

variable {h w : ℕ} [NeZero h] [NeZero w] (M : Matrix (Fin 7) (Fin 7) Int16)
  (I : Matrix (Fin h) (Fin w) UInt8)

/-- A reference sum is a weighted sum of pixels. -/
theorem referenceSum_eq_weighted (i : Fin h) (j : Fin w) :
    referenceSum M I i j = weighted (coefficients M) fun k =>
      (replicate I (i + (k.1 : ℕ) - 3) (j + (k.2 : ℕ) - 3)).toNat := by
  rw [referenceSum, weighted, Fintype.sum_prod_type]
  rfl

/-- The sums of a mask that fits are in range, whatever the image. -/
theorem referenceSum_of_gainFits (hM : GainFits M) (i : Fin h) (j : Fin w) :
    -2 ^ 21 ≤ referenceSum M I i j ∧ referenceSum M I i j < 2 ^ 21 := by
  have htop : ∀ k : Fin 7 × Fin 7,
      (replicate I (i + (k.1 : ℕ) - 3) (j + (k.2 : ℕ) - 3)).toNat ≤ 255 := fun k => by
    have := (replicate I (i + (k.1 : ℕ) - 3) (j + (k.2 : ℕ) - 3)).toNat_lt
    omega
  have hhi := weighted_le (c := coefficients M) htop
  have hlo := weighted_le (c := -coefficients M) htop
  rw [weighted_neg] at hlo
  rw [referenceSum_eq_weighted]
  obtain ⟨h1, h2⟩ := hM
  push_cast at hhi hlo
  constructor <;> omega

end Sums

/-- An image whose window around the pixel in row and column `3` is given. -/
def windowImage (h w : ℕ) (v : Fin 7 × Fin 7 → ℕ) : Matrix (Fin h) (Fin w) UInt8 :=
  Matrix.of fun i j =>
    if hij : i.val < 7 ∧ j.val < 7 then UInt8.ofNat (v (⟨i, hij.1⟩, ⟨j, hij.2⟩)) else 0

theorem referenceSum_windowImage {h w : ℕ} [NeZero h] [NeZero w] (hh : 7 ≤ h) (hw : 7 ≤ w)
    (M : Matrix (Fin 7) (Fin 7) Int16) {v : Fin 7 × Fin 7 → ℕ} (hv : ∀ k, v k ≤ 255) :
    referenceSum M (windowImage h w v) ⟨3, by omega⟩ ⟨3, by omega⟩ =
      weighted (coefficients M) v := by
  rw [referenceSum_eq_weighted]
  unfold weighted
  refine Finset.sum_congr rfl fun k _ => ?_
  have hrow := clampIndex_coe (⟨k.1, by omega⟩ : Fin h)
  have hcol := clampIndex_coe (⟨k.2, by omega⟩ : Fin w)
  have hpixel : replicate (windowImage h w v) (((⟨3, by omega⟩ : Fin h) : ℕ) + (k.1 : ℕ) - 3)
      (((⟨3, by omega⟩ : Fin w) : ℕ) + (k.2 : ℕ) - 3) = UInt8.ofNat (v k) := by
    simp only [Nat.cast_ofNat, add_sub_cancel_left, replicate]
    rw [hrow, hcol]
    exact dif_pos ⟨k.1.isLt, k.2.isLt⟩
  dsimp only
  rw [hpixel, UInt8.toNat_ofNat_of_lt' (Nat.lt_succ_of_le (hv k))]

/-- **The condition is exact.** A mask that does not fit has an image with a sum just beyond
the range. -/
theorem exists_image_beyond {h w : ℕ} [NeZero h] [NeZero w] (hh : 7 ≤ h) (hw : 7 ≤ w)
    {M : Matrix (Fin 7) (Fin 7) Int16} (hM : ¬ GainFits M) :
    ∃ I : Matrix (Fin h) (Fin w) UInt8,
      ¬ NarrowsAlike (referenceSum M I ⟨3, by omega⟩ ⟨3, by omega⟩) := by
  have hwidth := fun k => abs_le.mp (abs_coefficients_le M k)
  by_cases hpos : 255 * posGain (coefficients M) < 2 ^ 21
  · have hneg : ¬ 255 * posGain (-coefficients M) ≤ 2 ^ 21 := fun h => hM ⟨hpos, h⟩
    obtain ⟨v, hv, hmax⟩ := exists_weighted_eq (-coefficients M) 255
    have hwidth' : ∀ k, (-coefficients M) k ≤ 2 ^ 15 := fun k => neg_le.mp (hwidth k).1
    obtain ⟨v', hle, hlo, hhi⟩ := exists_just_above (B := 2 ^ 21 + 1) (by decide) hwidth' v
      (by rw [hmax]; push_cast; omega)
    refine ⟨windowImage h w v', ?_⟩
    rw [referenceSum_windowImage hh hw M fun k => (hle k).trans (hv k)]
    rw [weighted_neg] at hlo hhi
    unfold NarrowsAlike
    omega
  · obtain ⟨v, hv, hmax⟩ := exists_weighted_eq (coefficients M) 255
    obtain ⟨v', hle, hlo, hhi⟩ := exists_just_above (B := 2 ^ 21) (by decide)
      (fun k => (hwidth k).2) v (by rw [hmax]; push_cast; omega)
    refine ⟨windowImage h w v', ?_⟩
    rw [referenceSum_windowImage hh hw M fun k => (hle k).trans (hv k)]
    unfold NarrowsAlike
    omega

/-- The order of the axes does not matter. -/
theorem gainFits_transpose (M : Matrix (Fin 7) (Fin 7) Int16) : GainFits Mᵀ ↔ GainFits M := by
  have hsum : ∀ f : ℤ → ℤ, ∑ k, f (coefficients Mᵀ k) = ∑ k, f (coefficients M k) := fun f =>
    Fintype.sum_equiv (Equiv.prodComm _ _) _ _ fun _ => rfl
  have hpos : posGain (coefficients Mᵀ) = posGain (coefficients M) := hsum fun z => max z 0
  have hneg : posGain (-coefficients Mᵀ) = posGain (-coefficients M) := hsum fun z => max (-z) 0
  rw [GainFits, GainFits, hpos, hneg]

/-! ### Sessions -/

/-- What the registers hold does not depend on the image. -/
theorem Holds.of_image {d : ImageSize} {M : Matrix (Fin 7) (Fin 7) Int16}
    {I I' : Matrix (Fin d.height.toNat) (Fin d.width.toNat) UInt8} {m : Heap} {s : Component P}
    (hg : DefaultWidths g) (h : Holds d (paddedHeap d M I m) s) :
    Holds d (paddedHeap d M I' m) s := by
  refine ⟨h.configured, fun k p => ?_⟩
  have hk : k.val < 7 := hg.kernelSize ▸ k.isLt
  have hp : p.val < 7 := hg.kernelSize ▸ p.isLt
  rw [h.coeffs, (paddedHeap_prepared d M I m).filter k hk p hp,
    (paddedHeap_prepared d M I' m).filter k hk p hp]

/-- Every result is sent at some time when the handshakes keep coming. -/
theorem exists_result {f : FrameSize g} {s : Component P} {inp : ℕ → Pins g}
    (h0 : s.control = {}) (hc : ∀ n, Configured f.width f.height (run Component.step s inp n))
    (hb : ∀ n, (run Component.step s inp n).regs.controlBit)
    (valid : ∀ n, ∃ m ≥ n, (inp m).asiInValid) (ready : ∀ n, ∃ m ≥ n, (inp m).asoOutReady)
    (k : ℕ) : ∃ n, resultsSent s inp n = k ∧ (run Component.step s inp n).transfers (inp n) := by
  obtain ⟨e, hidle, hdone⟩ := frames_complete h0 hc hb valid ready (k + 1)
  have hsent := (handshakes_of_idle h0 (fun m _ => hc m) (n := e) (by
    unfold Component.Idle
    rw [hidle])).2
  have hpos := Nat.mul_pos (lt_of_lt_of_le Nat.zero_lt_two f.two_le_height) f.width_pos
  have hk : k < resultsSent s inp e := by
    rw [hsent]
    exact (Nat.lt_of_succ_le hdone).trans_le (Nat.le_mul_of_pos_right _ hpos)
  obtain ⟨n, -, hn⟩ := exists_count_eq hk
  exact ⟨n, hn⟩

/-- Of blocks of two bytes that agree so far the next ones agree. -/
theorem eq_of_prefix_append {f : ℕ → List UInt8} (hf : ∀ n, (f n).length = 2)
    {A B : List UInt8} {k N : ℕ} (hA : A.length = 2 * k) (hB : B.length = 2) (hk : k < N)
    (h : A ++ B <+: (List.range N).flatMap f) : B = f k := by
  have hlen : ∀ j, ((List.range j).flatMap f).length = 2 * j := fun j => by
    simp [List.length_flatMap, hf, Nat.mul_comm]
  have hshort : (List.range (k + 1)).flatMap f <+: (List.range N).flatMap f := by
    obtain ⟨r, rfl⟩ := Nat.exists_eq_add_of_le (Nat.succ_le_of_lt hk)
    exact ⟨_, (by rw [Nat.succ_eq_add_one, List.range_add (n := k + 1), List.flatMap_append])⟩
  have hsame : A ++ B = (List.range k).flatMap f ++ f k := by
    have heq := (List.prefix_of_prefix_length_le h hshort (by
      rw [hlen, List.length_append]
      omega)).eq_of_length (by rw [hlen, List.length_append]; omega)
    rwa [List.range_succ, List.flatMap_append, List.flatMap_singleton] at heq
  exact (List.append_inj hsame (by rw [hlen, hA])).2

theorem length_resultBytes (t : Component P) (inp : ℕ → Pins g) (n : ℕ) :
    ((sentDuring t inp n).flatMap resultBytes).length = 2 * resultsSent t inp n := by
  induction n with
  | zero => rfl
  | succ n ih =>
      rw [sentDuring_succ, List.flatMap_append, List.length_append, ih, resultsSent_succ]
      split
      · rw [List.flatMap_singleton, resultBytes, length_encodeLE]
        rfl
      · rfl

section Results

variable (hT : P.altshiftTaps.DelayLine g.maxImageWidth) (hB : P.registerBank.KeepsLast)
  (hP : P.PairsColumns) {d : ImageSize} (hd : Fits g d) (M : Matrix (Fin 7) (Fin 7) Int16)
  (I : ℕ → Matrix (Fin d.height.toNat) (Fin d.width.toNat) UInt8) (m : Heap)
  {t : Component P} (h0 : t.control = {}) {inp : ℕ → Pins g} {n : ℕ}
  (hset : ∀ k, ∀ i ≤ n, Holds d (paddedHeap d M (I k) m) (run Component.step t inp i))
  (hfeed : ∀ i < n, (run Component.step t inp i).accepts (inp i) →
    (inp i).asiInData = imageStream d I g (beatsTaken t inp i))

include hT hB hP hd h0 hset hfeed

/-- A result with the bytes of the file comes from a sum that both narrow to the same value. -/
theorem narrowsAlike_of_sent (fresh : ℕ → Heap) {k N : ℕ} (i : Fin d.height.toNat)
    (j : Fin d.width.toNat)
    (hindex : resultsSent t inp n = k * (d.height.toNat * d.width.toNat) +
      (i.val * d.width.toNat + j.val))
    (ht : (run Component.step t inp n).transfers (inp n)) (hN : k < N)
    (hsame : (sentDuring t inp (n + 1)).flatMap resultBytes <+: mainBytes d M I fresh N) :
    NarrowsAlike (referenceSum Mᵀ (I k) i j) := by
  have hij : i.val * d.width.toNat + j.val < d.height.toNat * d.width.toNat :=
    rowMajor_lt i.isLt j.isLt
  obtain ⟨k', r, c, hr, hc, hindex', hsum⟩ := exactSum_in_session hT hB hd M I m h0 hset hfeed ht
  obtain ⟨rfl, hplace⟩ := rowMajor_unique hij (rowMajor_lt hr hc) (hindex.symm.trans hindex')
  obtain ⟨rfl, rfl⟩ := rowMajor_unique j.isLt hc hplace
  rw [windowSum_paddedHeap d M (I k) m i j] at hsum
  rw [sentDuring_succ, if_pos ht, List.flatMap_append, List.flatMap_singleton,
    mainBytes_eq d M I m] at hsame
  have hbytes := eq_of_prefix_append (fun _ => length_encodeInt16 _)
    (length_resultBytes t inp n) (by rw [resultBytes_eq, length_encodeInt16]) (by
      rw [hindex]
      exact rowMajor_lt hN hij) hsame
  rw [resultBytes_eq] at hbytes
  have hvalue := congrArg decodeInt16 hbytes
  rw [decodeInt16_encodeInt16, decodeInt16_encodeInt16, hindex,
    sessionValue_frame M I m k hij, storedValue, rowMajor_div j.isLt, rowMajor_mod j.isLt,
    windowSum_paddedHeap d M (I k) m i j] at hvalue
  have hstored := saturate_mem 15 (referenceSum Mᵀ (I k) i j / 64)
  refine (saturate_eq_bmod_sixteen _).mp ?_
  rw [← hsum, ← asoOutData_toInt hP, hsum]
  have hcut := congrArg Int16.toInt hvalue
  rw [Int16.toInt_ofInt_of_le (BitVec.le_toInt _) (BitVec.toInt_lt),
    Int16.toInt_ofInt_of_le hstored.1 hstored.2] at hcut
  exact hcut.symm

end Results

/-- **For which masks the component is `main.c`.** Programmed for images of at least seven
columns and rows, the component sends a prefix of what `main.c` writes, for every stream of
images and at any time, exactly when the gain of the mask fits. There is no other reason for
the two to differ, and no mask beyond the bound is saved by the images it may see. -/
theorem gainFits_iff_refines (hT : P.altshiftTaps.DelayLine g.maxImageWidth)
    (hB : P.registerBank.KeepsLast) (hP : P.PairsColumns) {d : OutputSize}
    (hd : Fits g d.toImageSize) (hrows : 7 ≤ d.height.toNat) (hcols : 7 ≤ d.width.toNat)
    (M : Matrix (Fin 7) (Fin 7) Int16) (A : Matrix (Fin d.height.toNat) (Fin d.width.toNat) UInt8)
    (m : Heap) (fresh : ℕ → Heap) {t : Component P} (h0 : t.control = {})
    (ht : Holds d.toImageSize (paddedHeap d.toImageSize M A m) t) (hbit : t.regs.controlBit) :
    GainFits M ↔ ∀ I inp, (∀ n, (inp n).Quiet) →
      (∀ n, (run Component.step t inp n).accepts (inp n) →
        (inp n).asiInData = imageStream d.toImageSize I g (beatsTaken t inp n)) →
      ∀ n, (sentDuring t inp n).flatMap resultBytes <+:
        mainBytes d.toImageSize M I fresh (framesDone t inp n + 1) := by
  constructor
  · intro hM I inp hquiet hfeed n
    have hset : ∀ k n, Holds d.toImageSize (paddedHeap d.toImageSize M (I k) m)
        (run Component.step t inp n) := by
      intro k n
      rw [← run_watch_fst Component.step FrameLog.record (t, {})]
      exact Holds.of_quiet (p := (t, {})) (ht.of_image hd.widths) hquiet n
    have hsum : ∀ k, SumsInRange d.toImageSize (paddedHeap d.toImageSize M (I k) m) := by
      intro k i hi j hj
      rw [windowSum_paddedHeap d.toImageSize M (I k) m ⟨i, hi⟩ ⟨j, hj⟩]
      exact referenceSum_of_gainFits Mᵀ (I k) ((gainFits_transpose M).mpr hM) ⟨i, hi⟩ ⟨j, hj⟩
    exact (started_refines hT hB hP hd M I m hsum h0 (fun k i _ => hset k i)
      (fun i _ => hfeed i) fresh).1
  · intro hall
    by_contra hM
    obtain ⟨I, hI⟩ := exists_image_beyond hrows hcols
      (fun hM' => hM ((gainFits_transpose M).mp hM'))
    obtain ⟨inp, hinp⟩ := exists_stream t (imageStream d.toImageSize (fun _ => I) g)
    have hquiet : ∀ n, (inp n).Quiet := fun n => by
      rw [hinp]
      exact eager_quiet g
    have hfeed : ∀ n, (run Component.step t inp n).accepts (inp n) →
        (inp n).asiInData = imageStream d.toImageSize (fun _ => I) g (beatsTaken t inp n) := by
      intro n _
      rw [hinp]
    have hset : ∀ n, Holds d.toImageSize (paddedHeap d.toImageSize M I m)
        (run Component.step t inp n) := by
      intro n
      rw [← run_watch_fst Component.step FrameLog.record (t, {})]
      exact Holds.of_quiet (p := (t, {})) (ht.of_image hd.widths) hquiet n
    -- the result in row and column `3` of the first image goes out
    obtain ⟨n, hn, htransfer⟩ := exists_result (f := hd.frameSize) h0
      (fun n => (hset n).configured)
      (fun n => by rw [Component.controlBit_run_of_quiet _ hquiet, hbit])
      (fun n => ⟨n, le_rfl, by rw [hinp]; rfl⟩) (fun n => ⟨n, le_rfl, by rw [hinp]; rfl⟩)
      (3 * d.width.toNat + 3)
    exact hI (narrowsAlike_of_sent hT hB hP hd M (fun _ => I) m h0 (fun _ i _ => hset i)
      (fun i _ => hfeed i) fresh ⟨3, by omega⟩ ⟨3, by omega⟩ (k := 0)
      (by rw [hn, Nat.zero_mul, Nat.zero_add]) htransfer (Nat.succ_pos _)
      (hall (fun _ => I) inp hquiet hfeed (n + 1)))

/-! ### The masks of `create_coeffs_file.m` -/

/-- The mask of `avg.bin` -/
def avgMask : Matrix (Fin 7) (Fin 7) ℚ := Matrix.of fun _ _ => 1 / 49

/-- The mask of `log.bin` -/
def logMask : Matrix (Fin 7) (Fin 7) ℚ :=
  !![0, 0, 0, 0, 0, 0, 0;
     0, 0, 0, -1, 0, 0, 0;
     0, 0, -1, -2, -1, 0, 0;
     0, -1, -2, 16, -2, -1, 0;
     0, 0, -1, -2, -1, 0, 0;
     0, 0, 0, -1, 0, 0, 0;
     0, 0, 0, 0, 0, 0, 0]

/-- The mask of `sharp.bin` -/
def sharpMask : Matrix (Fin 7) (Fin 7) ℚ :=
  !![0, 0, 0, 0, 0, 0, 0;
     0, 0, 0, 0, 0, 0, 0;
     0, 0, -1/9, -1/9, -1/9, 0, 0;
     0, 0, -1/9, 17/9, -1/9, 0, 0;
     0, 0, -1/9, -1/9, -1/9, 0, 0;
     0, 0, 0, 0, 0, 0, 0;
     0, 0, 0, 0, 0, 0, 0]

/-- `filter_mask_fixed_point` -/
def fixedPoint (filterMask : Matrix (Fin 7) (Fin 7) ℚ) : Matrix (Fin 7) (Fin 7) Int16 :=
  filterMask.map fun x => int16 (x * 2 ^ coeffsFracBits)

-- the component serves two of the three masks
example : GainFits (fixedPoint avgMask) := by decide +kernel

example : GainFits (fixedPoint sharpMask) := by decide +kernel

example : ¬ GainFits (fixedPoint logMask) := by decide +kernel

/-- Seven columns and seven rows. -/
def sevenBySeven : OutputSize :=
  ⟨⟨7, 7, by decide, by decide, by decide, by decide, by decide⟩, by decide⟩

/-- Programmed for seven columns, seven rows and `avg.bin`. -/
def avgComponent : Component (Parts.plain sevenGenerics) where
  regs := { controlReg := 1, imageWidthReg := 7, imageHeightReg := 7,
            coeffsReg := BitVec.ofNat _ (42 * ((2 ^ (32 * 49) - 1) / (2 ^ 32 - 1))) }
  control := {}
  process := (fun _ => 0, fun _ _ => 0)

theorem avgComponent_holds (I : Matrix (Fin 7) (Fin 7) UInt8) (m : Heap) :
    Holds sevenBySeven.toImageSize
      (paddedHeap sevenBySeven.toImageSize (fixedPoint avgMask) I m) avgComponent := by
  have hm := paddedHeap_prepared sevenBySeven.toImageSize (fixedPoint avgMask) I m
  have hcoeffs : ∀ k p : Fin 7, (avgComponent.regs.coeffsShrink (coeffSlotIndex k p)).toInt =
      (fixedPoint avgMask k p).toInt := by decide +kernel
  refine ⟨⟨rfl, rfl⟩, fun k p => ?_⟩
  rw [hm.filter k k.isLt p p.isLt, Int16.toInt_toInt32]
  exact (hcoeffs k p).trans
    (congrArg Int16.toInt (coefficient_fwriteInt16 (fixedPoint avgMask) k p).symm)

theorem gainFits_iff_refines_avg :
    (sentDuring avgComponent (fun _ => { eager sevenGenerics with asiInData := 255 })
      400).flatMap resultBytes <+: mainBytes sevenBySeven.toImageSize (fixedPoint avgMask)
        (fun _ => Matrix.of fun _ _ => 255) (fun _ => emptyHeap) (framesDone avgComponent
          (fun _ => { eager sevenGenerics with asiInData := 255 }) 400 + 1) :=
  (gainFits_iff_refines (Parts.plain_delayLine sevenGenerics)
    (Parts.plain_keepsLast sevenGenerics) (Parts.plain_pairsColumns sevenGenerics)
    ⟨⟨rfl, rfl, rfl, rfl⟩, rfl, by decide, by decide⟩ (by decide) (by decide)
    (fixedPoint avgMask) 0 emptyHeap (fun _ => emptyHeap) rfl (avgComponent_holds _ _)
    (by decide)).mp (by decide +kernel) _ _ (fun _ => ⟨rfl, rfl⟩) (fun _ _ => rfl) 400

end FirFilter.System
