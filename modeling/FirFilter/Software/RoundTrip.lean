import FirFilter.Software.Reference
/-!
# FirFilter.Software.RoundTrip

An image goes unchanged through the encoder, `main.c` and the decoder.

The mask that is `1` at its centre has the coefficient `2 ^ 11` there. A pixel `v`
gives the sum `2 ^ 11 * v`, of which the shift keeps `2 ^ 5 * v`: no bit is lost, the
clamp does nothing, and the decoder divides by `2 ^ 5`.
-/

namespace FirFilter.Software

open Matrix

/-- The mask that is `1` at its centre and `0` elsewhere. -/
def centreMask : Matrix (Fin 7) (Fin 7) ℚ := Matrix.single 3 3 1

/-- The mask in fixed point. -/
def centreCoeffs : Matrix (Fin 7) (Fin 7) Int16 := Matrix.single 3 3 2048

theorem createCoeffsFile_centreMask : createCoeffsFile centreMask = fwriteInt16 centreCoeffs := by
  have hone : int16 (1 * 2 ^ coeffsFracBits) = 2048 := by decide +kernel
  have hzero : int16 (0 * 2 ^ coeffsFracBits) = 0 := by decide +kernel
  rw [createCoeffsFile]
  congr 1
  ext r c
  rw [Matrix.map_apply, centreMask, centreCoeffs, Matrix.single_apply, Matrix.single_apply]
  split
  · rw [hone]
  · rw [hzero]

theorem referenceSum_centre {h w : ℕ} [NeZero h] [NeZero w] (I : Matrix (Fin h) (Fin w) UInt8)
    (i : Fin h) (j : Fin w) :
    referenceSum centreCoeffs I i j = 2 ^ 11 * (I i j).toNat := by
  have hmask : centreCoeffs.map Int16.toInt = Matrix.single 3 3 (2 ^ 11) := by
    ext r c
    rw [Matrix.map_apply, centreCoeffs, Matrix.single_apply, Matrix.single_apply]
    split <;> rfl
  rw [referenceSum, hmask]
  exact congrFun (congrFun (imfilter_center (d := 3) _ _) i) j

/-- **The round trip.** The decoder returns the image, and no stored value is rounded or
clamped: `64` times the value is the sum it comes from. -/
theorem image_roundTrip (d : OutputSize)
    (I : Matrix (Fin d.height.toNat) (Fin d.width.toNat) UInt8) (m : Heap) :
    let r := mainIteration (createCoeffsFile centreMask) (writeInputBinImage I) m
    readOutputBinImage r.2 =
        some ⟨d.height.toNat, d.width.toNat, I.map fun b => (b.toNat : ℚ)⟩ ∧
      ∀ i j, 64 * (r.1.outputBuf (UInt32.ofNat (i.val * d.width.toNat + j.val))).toInt =
        referenceSum centreCoeffs I i j := by
  have hsymm : centreCoeffsᵀ = centreCoeffs := Matrix.transpose_single _ _ _
  have hstored : ∀ i j, saturate 15 (referenceSum centreCoeffs I i j / 64) =
      2 ^ 5 * (I i j).toNat := fun i j => by
    have hlt := (I i j).toNat_lt
    rw [referenceSum_centre, saturate_of_mem (by omega) (by omega)]
    omega
  have hread := readOutputBinImage_iterateOn d.toImageSize centreCoeffs I m
  have hbuf := outputBuf_iterateOn d.toImageSize centreCoeffs I m
  rw [createCoeffsFile_centreMask]
  rw [hsymm] at hread hbuf
  refine ⟨hread.trans (congrArg (fun A => some (Image.mk _ _ A)) ?_), fun i j => ?_⟩
  · ext i j
    show ((saturate 15 (referenceSum _ I i j / 64) : ℤ) : ℚ) / 2 ^ outputFracBits = _
    rw [hstored, Matrix.map_apply, outputFracBits]
    push_cast
    ring
  · have hvalue := (hbuf i j).trans (hstored i j)
    refine (congrArg (64 * ·) hvalue).trans ?_
    rw [referenceSum_centre]
    ring

end FirFilter.Software
