import FirFilter.Software.Reference
/-!
# FirFilter.Software.Symmetry

The filter of `main.c` treats its axes and its directions alike.

The loops do not: side columns are padded by index tests and rows by copying, the
padded image is stored by columns and the output by rows. What they compute is a
correlation with replicated borders all the same, and that turns with its mask and its
image.
-/

namespace FirFilter.Software

open Matrix Matlab

/-! ### Turning the mask and the image -/

section Reference

variable {h w : ℕ} [NeZero h] [NeZero w] (M : Matrix (Fin 7) (Fin 7) Int16)
  (I : Matrix (Fin h) (Fin w) UInt8)

theorem referenceSum_transpose : referenceSum Mᵀ Iᵀ = (referenceSum M I)ᵀ :=
  imfilter_transpose (d := 3) (I.map fun b => (b.toNat : ℤ)) (M.map Int16.toInt)

theorem referenceSum_rotate180 :
    referenceSum (rotate180 M) (rotate180 I) = rotate180 (referenceSum M I) :=
  imfilter_rotate180 (d := 3) (I.map fun b => (b.toNat : ℤ)) (M.map Int16.toInt)

end Reference

variable (d : ImageSize) (M : Matrix (Fin 7) (Fin 7) Int16)
  (I : Matrix (Fin d.height.toNat) (Fin d.width.toNat) UInt8) (m : Heap)

/-! ### The loops on a mask and an image -/

/-- A heap as the padding loops find it: the mask in `filter` and the image in
`input_buf`, row after row. -/
def withInputs : Heap :=
  { m with
    filter := fun k p =>
      if h : k.toNat < 7 ∧ p.toNat < 7 then (M ⟨k.toNat, h.1⟩ ⟨p.toNat, h.2⟩).toInt32
      else m.filter k p
    width := d.width
    height := d.height
    inputBuf := fun n =>
      if h : n.toNat < d.height.toNat * d.width.toNat then
        I (Fin.divNat ⟨n.toNat, h⟩) (Fin.modNat ⟨n.toNat, h⟩)
      else m.inputBuf n }

/-- `output_buf` as an image. -/
def outputImage : Matrix (Fin d.height.toNat) (Fin d.width.toNat) Int16 :=
  fun i j => m.outputBuf (UInt32.ofNat (i.val * d.width.toNat + j.val))

/-- What the padding and filter loops make of a mask and an image. -/
def filterOutput : Matrix (Fin d.height.toNat) (Fin d.width.toNat) Int16 :=
  outputImage d (filtering (pad d.width d.height (withInputs d M I m)))

/-- The loops find what they find after loading the files of the mask and the image. -/
theorem loaded_withInputs :
    Loaded (fwriteInt16 M) d.width d.height (columnMajor Iᵀ) (withInputs d M I m) := by
  refine ⟨rfl, rfl, fun k hk p hp => ?_, fun n hn => ?_⟩
  · have hk' : (UInt32.ofNat k).toNat = k := toNat_ofNat_of_lt (by omega)
    have hp' : (UInt32.ofNat p).toNat = p := toNat_ofNat_of_lt (by omega)
    have hcoeff := coefficient_fwriteInt16 M ⟨k, hk⟩ ⟨p, hp⟩
    simp only [withInputs, hk', hp', hk, hp, and_self, dif_pos, hcoeff]
  · rw [d.toNat_pixels, Nat.mul_comm] at hn
    rw [List.getD_eq_getElem _ _ (by rwa [length_columnMajor])]
    simp only [withInputs, hn, dif_pos, columnMajor, List.getElem_ofFn, transpose_apply]

/-- **What the loops compute.** -/
theorem toInt_filterOutput (i : Fin d.height.toNat) (j : Fin d.width.toNat) :
    (filterOutput d M I m i j).toInt = saturate 15 (referenceSum Mᵀ I i j / 64) := by
  have hit := (loaded_withInputs d M I m).prepared.iterated
  have hout := hit.outputBuf i i.isLt j j.isLt
  rw [fileSum_eq] at hout
  exact hout

/-- The same loops in an iteration of `main.c`. -/
theorem outputImage_iterateOn (m' : Heap) :
    outputImage d (iterateOn d M I m).1 = filterOutput d M I m' := by
  ext i j
  apply Int16.toInt_inj.mp
  rw [toInt_filterOutput]
  exact outputBuf_iterateOn d M I m i j

/-- The size of the transposed image. -/
def ImageSize.transpose (hcolumns : 4 * (d.height.toNat + 6) < 2 ^ 32) : ImageSize where
  width := d.height
  height := d.width
  width_pos := d.height_pos
  height_pos := d.width_pos
  pixels_lt := by rw [Nat.mul_comm]; exact d.pixels_lt
  columns_lt := hcolumns
  rows_lt := by have := d.columns_lt; omega

/-! ### The law -/

theorem filterOutput_transpose (hcolumns : 4 * (d.height.toNat + 6) < 2 ^ 32) (m' : Heap) :
    filterOutput (d.transpose hcolumns) Mᵀ Iᵀ m' = (filterOutput d M I m)ᵀ := by
  ext (i : Fin d.width.toNat) (j : Fin d.height.toNat)
  have hsum : referenceSum Mᵀᵀ Iᵀ i j = referenceSum Mᵀ I j i := by
    rw [referenceSum_transpose, transpose_apply]
  apply Int16.toInt_inj.mp
  calc (filterOutput (d.transpose hcolumns) Mᵀ Iᵀ m' i j).toInt
      = saturate 15 (referenceSum Mᵀᵀ Iᵀ i j / 64) :=
        toInt_filterOutput (d.transpose hcolumns) Mᵀ Iᵀ m' i j
    _ = saturate 15 (referenceSum Mᵀ I j i / 64) := by rw [hsum]
    _ = (filterOutput d M I m j i).toInt := (toInt_filterOutput d M I m j i).symm

theorem filterOutput_rotate180 (m' : Heap) :
    filterOutput d (rotate180 M) (rotate180 I) m' = rotate180 (filterOutput d M I m) := by
  ext i j
  have hsum : referenceSum (rotate180 M)ᵀ (rotate180 I) i j = referenceSum Mᵀ I i.rev j.rev := by
    show referenceSum (rotate180 Mᵀ) (rotate180 I) i j = _
    rw [referenceSum_rotate180]
    rfl
  apply Int16.toInt_inj.mp
  calc (filterOutput d (rotate180 M) (rotate180 I) m' i j).toInt
      = saturate 15 (referenceSum (rotate180 M)ᵀ (rotate180 I) i j / 64) :=
        toInt_filterOutput d (rotate180 M) (rotate180 I) m' i j
    _ = saturate 15 (referenceSum Mᵀ I i.rev j.rev / 64) := by rw [hsum]
    _ = (filterOutput d M I m i.rev j.rev).toInt := (toInt_filterOutput d M I m i.rev j.rev).symm

/-- **The axes and the directions are alike.** For every mask and every image for which
both runs stay within the limits on the size, transposing the mask and the image
transposes what is stored, and turning them by half a turn turns it by half a turn. -/
theorem filterOutput_symmetries (m' : Heap) :
    (∀ hcolumns : 4 * (d.height.toNat + 6) < 2 ^ 32,
      filterOutput (d.transpose hcolumns) Mᵀ Iᵀ m' = (filterOutput d M I m)ᵀ) ∧
    filterOutput d (rotate180 M) (rotate180 I) m' = rotate180 (filterOutput d M I m) :=
  ⟨fun hcolumns => filterOutput_transpose d M I m hcolumns m', filterOutput_rotate180 d M I m m'⟩

/-- The mask that takes the pixel to the right, and its transpose. -/
theorem filterOutput_symmetries_shift :
    filterOutput (twoByTwo.toImageSize.transpose (by decide)) (Matrix.single 3 4 2048)ᵀ
        (Matrix.single 0 1 255)ᵀ emptyHeap =
      (filterOutput twoByTwo.toImageSize (Matrix.single 3 4 2048) (Matrix.single 0 1 255)
        emptyHeap)ᵀ :=
  (filterOutput_symmetries twoByTwo.toImageSize (Matrix.single 3 4 2048) (Matrix.single 0 1 255)
    emptyHeap emptyHeap).1 (by decide)

end FirFilter.Software
