import FirFilter.Software.Reference
import FirFilter.Software.Replication
/-!
# FirFilter.Software.Formats

The files that are accepted.

No program checks what it reads. The scripts stop with an error when `reshape` gets too few
elements, and `main.c` goes on with whatever its buffers held. Both ignore what follows the
last element. So the scripts accept exactly the files that start with what they would have
written, and on these `main.c` reads the same mask and the same image.
-/

namespace FirFilter.Software

open Matlab Matrix

/-! ### What the scripts accept -/

/-- A matrix of words that are read is one that was written. -/
theorem exists_columnMajor_map {α β : Type*} {h w : ℕ} {l : List α} {f : α → β}
    {A : Matrix (Fin h) (Fin w) β} (hl : l.map f = columnMajor Aᵀ) :
    ∃ B : Matrix (Fin h) (Fin w) α, l = columnMajor Bᵀ ∧ A = B.map f := by
  have hlen : l.length = h * w := by
    rw [← List.length_map (f := f), hl, length_columnMajor]
  obtain ⟨B, hB⟩ : ∃ B, reshape w h l = some B := ⟨_, dif_pos hlen⟩
  have hBl := reshape_eq_some_iff.mp hB
  refine ⟨Bᵀ, hBl, ?_⟩
  rw [hBl, ← columnMajor_map] at hl
  have hsame := (reshape_columnMajor (B.map f)).symm.trans (hl ▸ reshape_columnMajor Aᵀ)
  rw [transpose_map, Option.some.inj hsame, transpose_transpose]

/-- Every word of two bytes is a `short`. -/
theorem exists_int16_words {l : List ℕ} (hl : ∀ v ∈ l, v < 256 ^ 2) :
    ∃ vs : List Int16, l = vs.map fun v => v.toUInt16.toNat := by
  refine ⟨l.map fun v => (UInt16.ofNat v).toInt16, ?_⟩
  rw [List.map_map]
  refine (List.map_id l).symm.trans (List.map_congr_left fun v hv => ?_)
  exact (UInt16.toNat_ofNat_of_lt' (hl v hv)).symm

/-- Every word of one byte is a byte. -/
theorem exists_uint8_words {l : List ℕ} (hl : ∀ v ∈ l, v < 256 ^ 1) :
    ∃ vs : List UInt8, l = vs.map UInt8.toNat := by
  refine ⟨l.map UInt8.ofNat, ?_⟩
  rw [List.map_map]
  refine (List.map_id l).symm.trans (List.map_congr_left fun v hv => ?_)
  exact (UInt8.toNat_ofNat_of_lt' (hl v hv)).symm

theorem readFilterMask_append {file : List UInt8} {A : Matrix (Fin 7) (Fin 7) ℚ}
    (h : readFilterMask file = some A) (rest : List UInt8) :
    readFilterMask (file ++ rest) = some A := by
  obtain ⟨B, hB, -⟩ := Option.map_eq_some_iff.mp h
  have hlen : (readWords 2 49 file).1.length = 49 := by
    have hwords := congrArg List.length (reshape_eq_some_iff.mp hB)
    rwa [List.length_map, length_columnMajor] at hwords
  rwa [readFilterMask, readWords_append hlen]

/-- **Masks.** The scripts accept the files that start with 49 words. -/
theorem readFilterMask_eq_some_iff {file : List UInt8} {A : Matrix (Fin 7) (Fin 7) ℚ} :
    readFilterMask file = some A ↔ ∃ (M : Matrix (Fin 7) (Fin 7) Int16) (rest : List UInt8),
      file = fwriteInt16 M ++ rest ∧ A = M.map fun m => (m.toInt : ℚ) / 2 ^ coeffsFracBits := by
  constructor
  · intro h
    obtain ⟨B, hB, rfl⟩ := Option.map_eq_some_iff.mp h
    have hwords := reshape_eq_some_iff.mp hB
    obtain ⟨hfile, hlt⟩ := readWords_sound 2 49 file
    obtain ⟨vs, hvs⟩ := exists_int16_words hlt
    rw [hvs, List.map_map, ← transpose_transpose B] at hwords
    obtain ⟨M, rfl, hM⟩ := exists_columnMajor_map hwords
    refine ⟨M, (readWords 2 49 file).2, ?_, hM.trans (Matrix.ext fun r c => ?_)⟩
    · rw [hvs, encodeLE_two] at hfile
      exact hfile.symm
    · rw [Matrix.map_apply, Matrix.map_apply, Function.comp_apply, toInt16_toNat]
  · rintro ⟨M, rest, rfl, rfl⟩
    exact readFilterMask_append (readFilterMask_fwriteInt16 M) rest

theorem readBinImage_append {bytes : ℕ} {value : ℕ → ℚ} {file : List UInt8} {J : Image}
    (h : readBinImage bytes value file = some J) (rest : List UInt8) :
    readBinImage bytes value (file ++ rest) = some J := by
  unfold readBinImage at h ⊢
  split at h
  · rename_i width height file' hheader
    obtain ⟨B, hB, -⟩ := Option.map_eq_some_iff.mp h
    have hlen : (readWords bytes (width * height) file').1.length = width * height := by
      have hwords := congrArg List.length (reshape_eq_some_iff.mp hB)
      rwa [List.length_map, length_columnMajor, Nat.mul_comm height] at hwords
    rw [readWords_append (by rw [hheader]; rfl), hheader]
    dsimp only
    rwa [readWords_append hlen]
  · exact absurd h (by simp)

theorem readBinImage_sound (d : ImageSize) {bytes : ℕ} {value : ℕ → ℚ} {file : List UInt8}
    {J : Image} (h : readBinImage bytes value
      (encodeUInt32 d.width ++ encodeUInt32 d.height ++ file) = some J) :
    ∃ (vs : List ℕ) (rest : List UInt8) (A : Matrix (Fin d.height.toNat) (Fin d.width.toNat) ℚ),
      (∀ v ∈ vs, v < 256 ^ bytes) ∧ file = vs.flatMap (encodeLE bytes) ++ rest ∧
        vs.map value = columnMajor Aᵀ ∧ J = ⟨d.height.toNat, d.width.toNat, A⟩ := by
  have hheader := readWords_encode 4 [d.width.toNat, d.height.toNat] file (by
    intro v hv
    rcases List.mem_cons.mp hv with rfl | hv
    · exact d.width.toNat_lt
    · obtain rfl := List.mem_singleton.mp hv
      exact d.height.toNat_lt)
  have hfile : encodeUInt32 d.width ++ encodeUInt32 d.height ++ file =
      [d.width.toNat, d.height.toNat].flatMap (encodeLE 4) ++ file := by
    simp only [encodeUInt32, List.flatMap_cons, List.flatMap_nil, List.append_nil]
  rw [hfile, readBinImage, show (2 : ℕ) = [d.width.toNat, d.height.toNat].length from rfl,
    hheader] at h
  obtain ⟨B, hB, rfl⟩ := Option.map_eq_some_iff.mp h
  obtain ⟨hpixels, hlt⟩ := readWords_sound bytes (d.width.toNat * d.height.toNat) file
  exact ⟨_, _, Bᵀ, hlt, hpixels.symm, by rw [transpose_transpose]; exact reshape_eq_some_iff.mp hB,
    rfl⟩

/-- **Images.** The scripts accept the files that start with a header and its pixels. -/
theorem readInputBinImage_eq_some_iff (d : ImageSize) {pixels : List UInt8} {J : Image} :
    readInputBinImage (encodeUInt32 d.width ++ encodeUInt32 d.height ++ pixels) = some J ↔
      ∃ (I : Matrix (Fin d.height.toNat) (Fin d.width.toNat) UInt8) (rest : List UInt8),
        pixels = columnMajor Iᵀ ++ rest ∧
          J = ⟨d.height.toNat, d.width.toNat, I.map fun b => (b.toNat : ℚ)⟩ := by
  constructor
  · intro h
    obtain ⟨l, rest, A, hlt, hpixels, hwords, rfl⟩ := readBinImage_sound d h
    obtain ⟨vs, rfl⟩ := exists_uint8_words hlt
    rw [List.map_map] at hwords
    obtain ⟨I, rfl, rfl⟩ := exists_columnMajor_map hwords
    refine ⟨I, rest, ?_, rfl⟩
    rw [hpixels, encodeLE_one]
  · rintro ⟨I, rest, rfl, rfl⟩
    rw [← List.append_assoc, ← writeInputBinImage_eq]
    exact readBinImage_append (readInputBinImage_write d I) rest

/-! ### What `main.c` reads of them -/

theorem coefficient_append {file : List UInt8} (hfile : 98 ≤ file.length) (rest : List UInt8)
    {n : ℕ} (hn : n < 49) : coefficient (file ++ rest) n = coefficient file n := by
  rw [coefficient, coefficient, List.drop_append_of_le_length (by omega),
    List.take_append_of_le_length (by rw [List.length_drop]; omega)]

theorem paddedPixel_append (d : ImageSize) {pixels : List UInt8}
    (hpixels : d.width.toNat * d.height.toNat ≤ pixels.length) (rest : List UInt8) (x y : ℕ) :
    paddedPixel d (pixels ++ rest) x y = paddedPixel d pixels x y :=
  List.getD_append _ _ _ _ ((d.toNat_source_lt x y).trans_le hpixels)

/-- Nor does `main.c` read what follows. -/
theorem Iterated.of_append {d : ImageSize} {filterFile pixels rest rest' : List UInt8} {m : Heap}
    (hfilter : 98 ≤ filterFile.length)
    (hpixels : d.width.toNat * d.height.toNat ≤ pixels.length)
    (h : Iterated d (filterFile ++ rest) (pixels ++ rest') m) :
    Iterated d filterFile pixels m := by
  refine ⟨h.width, h.height, fun x y hx hy => ?_, fun i hi j hj => ?_⟩
  · rw [h.image x y hx hy, paddedPixel_append d hpixels]
  · have hsum : fileSum d (filterFile ++ rest) (pixels ++ rest') i j =
        fileSum d filterFile pixels i j := by
      unfold fileSum
      refine Finset.sum_congr rfl fun k hk => Finset.sum_congr rfl fun p hp => ?_
      have hk7 := Finset.mem_range.mp hk
      have hp7 := Finset.mem_range.mp hp
      rw [coefficient_append hfilter _ (by omega), paddedPixel_append d hpixels]
    rw [h.outputBuf i hi j hj, hsum]

section Pipeline

variable (d : ImageSize)

theorem mainIteration_append (M : Matrix (Fin 7) (Fin 7) Int16)
    (I : Matrix (Fin d.height.toNat) (Fin d.width.toNat) UInt8) (rest rest' : List UInt8)
    (m : Heap) :
    (mainIteration (fwriteInt16 M ++ rest) (encodeUInt32 d.width ++ encodeUInt32 d.height ++
      (columnMajor Iᵀ ++ rest')) m).2 = (iterateOn d M I m).2 := by
  have hfilter := (length_fwriteInt16 M).ge
  have hpixels := (length_pixels d I).ge
  have hfilter' : 98 ≤ (fwriteInt16 M ++ rest).length := by
    rw [List.length_append]
    omega
  have hpixels' : d.width.toNat * d.height.toNat ≤ (columnMajor Iᵀ ++ rest').length := by
    rw [List.length_append]
    omega
  obtain ⟨hit, hout⟩ := mainIteration_iterated d hfilter' hpixels' m
  obtain ⟨hit', hout'⟩ := iterateOn_iterated d M I m
  rw [hout, hout']
  exact outputFile_of_iterated (hit.of_append hfilter hpixels) hit'

/-- The scripts find in these files what they find in the files that were written. -/
theorem compareOutput_append (M : Matrix (Fin 7) (Fin 7) Int16)
    (I : Matrix (Fin d.height.toNat) (Fin d.width.toNat) UInt8) (rest rest' output : List UInt8) :
    compareOutput (fwriteInt16 M ++ rest) (writeInputBinImage I ++ rest') output =
      compareOutput (fwriteInt16 M) (writeInputBinImage I) output := by
  have hmask := readFilterMask_fwriteInt16 M
  have himage := readInputBinImage_write d I
  have hlonger : readInputBinImage (writeInputBinImage I ++ rest') = _ :=
    readBinImage_append himage rest'
  rw [compareOutput, compareOutput, readFilterMask_append hmask, hmask, hlonger, himage]

end Pipeline

/-- **The pipeline accepts exactly what was written.** The checker has something to say about
`main.c` exactly when the mask and the image file start with what the scripts write for some
mask and image. It is then the difference of the sums of this mask and of its transpose, the
latter narrowed: nothing else in the files is read, and nothing that the heap held is left. -/
theorem compareOutput_eq_some_iff (d : OutputSize) (coeffs pixels : List UInt8) (m : Heap)
    (D : Image) :
    let input := encodeUInt32 d.width ++ encodeUInt32 d.height ++ pixels
    compareOutput coeffs input (mainIteration coeffs input m).2 = some D ↔
      ∃ (M : Matrix (Fin 7) (Fin 7) Int16)
        (I : Matrix (Fin d.height.toNat) (Fin d.width.toNat) UInt8) (rest rest' : List UInt8),
        coeffs = fwriteInt16 M ++ rest ∧ input = writeInputBinImage I ++ rest' ∧
          D = ⟨d.height.toNat, d.width.toNat, Matrix.of fun i j =>
            (referenceSum M I i j : ℚ) / 2 ^ coeffsFracBits -
              (saturate 15 (referenceSum Mᵀ I i j / 64) : ℚ) / 2 ^ outputFracBits⟩ := by
  intro input
  have hwritten : ∀ (M : Matrix (Fin 7) (Fin 7) Int16)
      (I : Matrix (Fin d.height.toNat) (Fin d.width.toNat) UInt8) (rest rest' : List UInt8),
      coeffs = fwriteInt16 M ++ rest → input = writeInputBinImage I ++ rest' →
        compareOutput coeffs input (mainIteration coeffs input m).2 =
          compareOutput (fwriteInt16 M) (writeInputBinImage I)
            (iterateOn d.toImageSize M I m).2 := by
    intro M I rest rest' hcoeffs hinput
    have hbytes := mainIteration_append d.toImageSize M I rest rest' m
    rw [← List.append_assoc, ← writeInputBinImage_eq, ← hinput] at hbytes
    rw [hcoeffs, hbytes, hinput, compareOutput_append]
  constructor
  · intro h
    obtain ⟨A, hA, hrest⟩ := Option.bind_eq_some_iff.mp h
    obtain ⟨J, hJ, -⟩ := Option.bind_eq_some_iff.mp hrest
    obtain ⟨M, rest, hcoeffs, -⟩ := readFilterMask_eq_some_iff.mp hA
    obtain ⟨I, rest', hpixels, -⟩ := (readInputBinImage_eq_some_iff d.toImageSize).mp hJ
    have hinput : input = writeInputBinImage I ++ rest' := by
      rw [writeInputBinImage_eq, List.append_assoc, ← hpixels]
    rw [hwritten M I rest rest' hcoeffs hinput, compareOutput_eq] at h
    exact ⟨M, I, rest, rest', hcoeffs, hinput, (Option.some.inj h).symm⟩
  · rintro ⟨M, I, rest, rest', hcoeffs, hinput, rfl⟩
    rw [hwritten M I rest rest' hcoeffs hinput, compareOutput_eq]

end FirFilter.Software
