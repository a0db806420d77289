import FirFilter.Software.Filter
import FirFilter.Lib.Matlab
import Mathlib.Data.List.GetD
import Mathlib.Data.Rat.Floor
/-!
# FirFilter.Software.Scripts

The MATLAB scripts around `main.c`.

They write and read whole matrices, always transposed, so that the files are
row-major although MATLAB is column-major. A double is a rational number here:
the scripts only scale by powers of two, round and add products that are exact.
`none` is a script that stops with an error.
-/

namespace FirFilter.Software

open Matlab Matrix

/-! ### The scripts -/

/-- `fractional_bits` of the masks -/
def coeffsFracBits : ℕ := 11

/-- `fractional_bits` of the output image -/
def outputFracBits : ℕ := 5

/-- `round(x)`, ties away from zero. -/
def roundAway (x : ℚ) : ℤ := if 0 ≤ x then ⌊x + 1 / 2⌋ else -⌊-x + 1 / 2⌋

/-- `int16(x)` -/
def int16 (x : ℚ) : Int16 := Int16.ofInt (saturate 15 (roundAway x))

/-- `fwrite(fp, A', 'int16')` -/
def fwriteInt16 {m n : ℕ} (A : Matrix (Fin m) (Fin n) Int16) : List UInt8 :=
  (columnMajor Aᵀ).flatMap encodeInt16

/-- `create_coeffs_file.m`, for one mask. -/
def createCoeffsFile (filterMask : Matrix (Fin 7) (Fin 7) ℚ) : List UInt8 :=
  fwriteInt16 (filterMask.map fun x => int16 (x * 2 ^ coeffsFracBits))

/-- `fwrite(fp, n, 'uint32')` of a dimension. -/
def fwriteUInt32 (n : ℕ) : List UInt8 := encodeUInt32 (UInt32.ofNat (min n (2 ^ 32 - 1)))

/-- `write_input_bin_image.m` -/
def writeInputBinImage {height width : ℕ} (I : Matrix (Fin height) (Fin width) UInt8) :
    List UInt8 :=
  fwriteUInt32 width ++ fwriteUInt32 height ++ columnMajor Iᵀ

/-- A matrix that a script has read. -/
structure Image where
  height : ℕ
  width : ℕ
  pixel : Matrix (Fin height) (Fin width) ℚ

/-- The value of a word read as `'int16'`. -/
def toInt16 (v : ℕ) : ℤ := (UInt16.ofNat v).toInt16.toInt

/-- `width` and `height` as `'uint32'`, then
`reshape(fread(fp, width*height, ...), [width height])'`. -/
def readBinImage (bytes : ℕ) (value : ℕ → ℚ) (file : List UInt8) : Option Image :=
  match readWords 4 2 file with
  | ([width, height], file) =>
      (reshape width height ((readWords bytes (width * height) file).1.map value)).map
        fun A => ⟨height, width, Aᵀ⟩
  | _ => none

/-- "Read input image" -/
def readInputBinImage : List UInt8 → Option Image := readBinImage 1 fun v => v

/-- `read_output_bin_image.m` -/
def readOutputBinImage : List UInt8 → Option Image :=
  readBinImage 2 fun v => toInt16 v / 2 ^ outputFracBits

/-- "Read filter coeffs" -/
def readFilterMask (file : List UInt8) : Option (Matrix (Fin 7) (Fin 7) ℚ) :=
  (reshape 7 7 ((readWords 2 49 file).1.map fun v => (toInt16 v : ℚ) / 2 ^ coeffsFracBits)).map
    transpose

/-- `imfilter(input_image, filter_mask, 'replicate')` -/
def refOutput (I : Image) (filterMask : Matrix (Fin 7) (Fin 7) ℚ) : Image where
  height := I.height
  width := I.width
  pixel := Matrix.of fun i j =>
    haveI := i.neZero
    haveI := j.neZero
    imfilter (d := 3) I.pixel filterMask i j

/-- `ref_output - output_image` -/
def diffImage (ref out : Image) : Option Image :=
  if h : out.height = ref.height ∧ out.width = ref.width then
    some ⟨ref.height, ref.width, Matrix.of fun i j =>
      ref.pixel i j - out.pixel (i.cast h.1.symm) (j.cast h.2.symm)⟩
  else none

/-- `compare_output.m`: the difference image. -/
def compareOutput (coeffs input output : List UInt8) : Option Image := do
  let filterMask ← readFilterMask coeffs
  let inputImage ← readInputBinImage input
  let outputImage ← readOutputBinImage output
  diffImage (refOutput inputImage filterMask) outputImage

/-! ### Reading what was written -/

theorem encodeLE_one (l : List UInt8) : (l.map UInt8.toNat).flatMap (encodeLE 1) = l := by
  induction l with
  | nil => rfl
  | cons b l ih =>
      rw [List.map_cons, List.flatMap_cons, ih]
      simp only [encodeLE, UInt8.ofNat_toNat, List.cons_append, List.nil_append]

theorem encodeLE_two (l : List Int16) :
    (l.map fun v => v.toUInt16.toNat).flatMap (encodeLE 2) = l.flatMap encodeInt16 := by
  rw [List.flatMap_map]
  rfl

theorem toInt16_toNat (v : Int16) : toInt16 v.toUInt16.toNat = v.toInt := by
  rw [toInt16, UInt16.ofNat_toNat]
  rfl

theorem fwriteUInt32_toNat (v : UInt32) : fwriteUInt32 v.toNat = encodeUInt32 v := by
  have := v.toNat_lt
  rw [fwriteUInt32, Nat.min_eq_left (by omega), UInt32.ofNat_toNat]

/-- Coefficient `n` of a file of words is the word. -/
theorem coefficient_flatMap (l : List Int16) {n : ℕ} (hn : n < l.length) :
    coefficient (l.flatMap encodeInt16) n = l[n] := by
  have hdrop : ∀ (l : List Int16) (n : ℕ),
      (l.flatMap encodeInt16).drop (2 * n) = (l.drop n).flatMap encodeInt16 := by
    intro l n
    induction n generalizing l with
    | zero => rfl
    | succ n ih =>
        cases l with
        | nil => simp
        | cons v l =>
            rw [List.flatMap_cons, Nat.mul_succ, Nat.add_comm, ← List.drop_drop,
              List.drop_left' (length_encodeInt16 v), ih, List.drop_succ_cons]
  rw [coefficient, hdrop, List.drop_eq_getElem_cons hn, List.flatMap_cons,
    List.take_left' (length_encodeInt16 _), decodeInt16_encodeInt16]

section Files

variable (d : ImageSize)

/-- The mask file read by `main.c`: `filter[r][c]` is entry `(r, c)` of the mask. -/
theorem coefficient_fwriteInt16 (M : Matrix (Fin 7) (Fin 7) Int16) (r c : Fin 7) :
    coefficient (fwriteInt16 M) (7 * r + c) = M r c := by
  have hlt : r.val * 7 + c.val < (columnMajor Mᵀ).length := by
    rw [length_columnMajor]
    omega
  rw [Nat.mul_comm, fwriteInt16, coefficient_flatMap _ hlt]
  exact getElem_columnMajor Mᵀ c r hlt

theorem length_fwriteInt16 (M : Matrix (Fin 7) (Fin 7) Int16) : (fwriteInt16 M).length = 98 := by
  rw [fwriteInt16, List.length_flatMap]
  simp [length_encodeInt16]

/-- The image file read by `main.c`. -/
theorem writeInputBinImage_eq (I : Matrix (Fin d.height.toNat) (Fin d.width.toNat) UInt8) :
    writeInputBinImage I = encodeUInt32 d.width ++ encodeUInt32 d.height ++ columnMajor Iᵀ := by
  rw [writeInputBinImage, fwriteUInt32_toNat, fwriteUInt32_toNat]

theorem length_pixels (I : Matrix (Fin d.height.toNat) (Fin d.width.toNat) UInt8) :
    (columnMajor Iᵀ).length = d.width.toNat * d.height.toNat := by
  rw [length_columnMajor, Nat.mul_comm]

theorem paddedPixel_columnMajor (I : Matrix (Fin d.height.toNat) (Fin d.width.toNat) UInt8)
    (x y : ℕ) : paddedPixel d (columnMajor Iᵀ) x y = replicate I (y - 3) (x - 3) := by
  have hlt := d.toNat_source_lt x y
  have hsrc := d.toNat_source x y
  rw [paddedPixel, List.getD_eq_getElem _ _ (by rw [length_pixels]; exact hlt)]
  simp only [hsrc]
  exact getElem_columnMajor Iᵀ _ _ _

/-- **The sums of `main.c`.** The mask is applied with its axes exchanged. -/
theorem fileSum_eq (M : Matrix (Fin 7) (Fin 7) Int16)
    (I : Matrix (Fin d.height.toNat) (Fin d.width.toNat) UInt8)
    (i : Fin d.height.toNat) (j : Fin d.width.toNat) :
    fileSum d (fwriteInt16 M) (columnMajor Iᵀ) i j =
      imfilter (d := 3) (I.map fun b => (b.toNat : ℤ)) (Mᵀ.map Int16.toInt) i j := by
  have hterm : ∀ k p : Fin 7, (coefficient (fwriteInt16 M) (7 * k + p)).toInt *
      ((paddedPixel d (columnMajor Iᵀ) (j + k) (i + p)).toNat : ℤ) =
        (M k p).toInt * replicate (I.map fun b => (b.toNat : ℤ)) (i + p - (3 : ℕ))
          (j + k - (3 : ℕ)) := by
    intro k p
    rw [coefficient_fwriteInt16, paddedPixel_columnMajor, replicate, replicate, Matrix.map_apply]
    push_cast
    rfl
  unfold fileSum imfilter
  rw [Finset.sum_comm, Finset.sum_range]
  refine Finset.sum_congr rfl fun p _ => ?_
  rw [Finset.sum_range]
  exact Finset.sum_congr rfl fun k _ => hterm k p

/-- A matrix written with its dimensions is read again. -/
theorem readBinImage_write {bytes : ℕ} {value : ℕ → ℚ} {vs : List ℕ}
    (hvs : ∀ v ∈ vs, v < 256 ^ bytes) (A : Matrix (Fin d.height.toNat) (Fin d.width.toNat) ℚ)
    (hA : vs.map value = columnMajor Aᵀ) :
    readBinImage bytes value (encodeUInt32 d.width ++ encodeUInt32 d.height ++
      vs.flatMap (encodeLE bytes)) = some ⟨d.height.toNat, d.width.toNat, A⟩ := by
  have hlen : vs.length = d.width.toNat * d.height.toNat := by
    rw [← List.length_map (f := value), hA, length_columnMajor, Nat.mul_comm]
  have hheader := readWords_encode 4 [d.width.toNat, d.height.toNat]
    (vs.flatMap (encodeLE bytes)) (by
      intro v hv
      rcases List.mem_cons.mp hv with rfl | hv
      · exact d.width.toNat_lt
      · obtain rfl := List.mem_singleton.mp hv
        exact d.height.toNat_lt)
  have hpixels := readWords_encode bytes vs [] hvs
  rw [hlen, List.append_nil] at hpixels
  have hfile : encodeUInt32 d.width ++ encodeUInt32 d.height ++ vs.flatMap (encodeLE bytes) =
      [d.width.toNat, d.height.toNat].flatMap (encodeLE 4) ++ vs.flatMap (encodeLE bytes) := by
    simp only [encodeUInt32, List.flatMap_cons, List.flatMap_nil, List.append_nil]
  rw [hfile, readBinImage, show (2 : ℕ) = [d.width.toNat, d.height.toNat].length from rfl, hheader]
  simp only [hpixels, hA, reshape_columnMajor, Option.map_some, transpose_transpose]

theorem readInputBinImage_write (I : Matrix (Fin d.height.toNat) (Fin d.width.toNat) UInt8) :
    readInputBinImage (writeInputBinImage I) =
      some ⟨d.height.toNat, d.width.toNat, I.map fun b => (b.toNat : ℚ)⟩ := by
  rw [writeInputBinImage_eq, ← encodeLE_one (columnMajor Iᵀ)]
  refine readBinImage_write d (fun v hv => ?_) _ ?_
  · obtain ⟨b, -, rfl⟩ := List.mem_map.mp hv
    exact b.toNat_lt
  · rw [List.map_map, ← columnMajor_map, transpose_map]
    rfl

/-- The mask read by `compare_output.m`. -/
theorem readFilterMask_fwriteInt16 (M : Matrix (Fin 7) (Fin 7) Int16) :
    readFilterMask (fwriteInt16 M) = some (M.map fun m => (m.toInt : ℚ) / 2 ^ coeffsFracBits) := by
  have hwords := readWords_encode 2 ((columnMajor Mᵀ).map fun v => v.toUInt16.toNat) [] (by
    intro v hv
    obtain ⟨m, -, rfl⟩ := List.mem_map.mp hv
    exact m.toUInt16.toNat_lt)
  rw [encodeLE_two, List.append_nil, List.length_map, length_columnMajor] at hwords
  have hvalues : ((columnMajor Mᵀ).map fun v => v.toUInt16.toNat).map
      (fun v => (toInt16 v : ℚ) / 2 ^ coeffsFracBits) =
        columnMajor (M.map fun m => (m.toInt : ℚ) / 2 ^ coeffsFracBits)ᵀ := by
    rw [List.map_map, ← transpose_map, columnMajor_map]
    refine List.map_congr_left fun v _ => ?_
    show ((toInt16 v.toUInt16.toNat : ℤ) : ℚ) / _ = _
    rw [toInt16_toNat]
  rw [readFilterMask, fwriteInt16, show (49 : ℕ) = 7 * 7 from rfl, hwords]
  simp only [hvalues, reshape_columnMajor, Option.map_some, transpose_transpose]

/-- The image that the scripts read from the output file. -/
theorem readOutputBinImage_outputFile {m : Heap} (hw : m.width = d.width)
    (hh : m.height = d.height) :
    readOutputBinImage (outputFile m) = some ⟨d.height.toNat, d.width.toNat, Matrix.of fun i j =>
      ((m.outputBuf (UInt32.ofNat (i.val * d.width.toNat + j.val))).toInt : ℚ) /
        2 ^ outputFracBits⟩ := by
  have hpix : (d.width * d.height).toNat = d.height.toNat * d.width.toNat := by
    rw [toNat_mul_of_lt d.pixels_lt, Nat.mul_comm]
  have hwords : (List.range (d.width * d.height).toNat).flatMap
      (fun k => encodeInt16 (m.outputBuf (UInt32.ofNat k))) =
        ((List.range (d.height.toNat * d.width.toNat)).map fun k =>
          (m.outputBuf (UInt32.ofNat k)).toUInt16.toNat).flatMap (encodeLE 2) := by
    rw [List.flatMap_map, hpix]
    rfl
  rw [outputFile, hw, hh, hwords]
  refine readBinImage_write d (fun v hv => ?_) _ ?_
  · obtain ⟨k, -, rfl⟩ := List.mem_map.mp hv
    exact (m.outputBuf (UInt32.ofNat k)).toUInt16.toNat_lt
  · have hrows := columnMajor_rowMajor (m := d.width.toNat) (n := d.height.toNat) fun k =>
      ((m.outputBuf (UInt32.ofNat k)).toInt : ℚ) / 2 ^ outputFracBits
    rw [List.map_map]
    refine Eq.trans ?_ hrows.symm
    refine List.map_congr_left fun k _ => ?_
    show ((toInt16 (m.outputBuf (UInt32.ofNat k)).toUInt16.toNat : ℤ) : ℚ) / _ = _
    rw [toInt16_toNat]

/-! ### `main.c` on the files -/

/-- An iteration of `main.c` on the files of a mask and an image. -/
def iterateOn (M : Matrix (Fin 7) (Fin 7) Int16)
    (I : Matrix (Fin d.height.toNat) (Fin d.width.toNat) UInt8) (m : Heap) : Heap × List UInt8 :=
  mainIteration (fwriteInt16 M) (writeInputBinImage I) m

theorem iterateOn_iterated (M : Matrix (Fin 7) (Fin 7) Int16)
    (I : Matrix (Fin d.height.toNat) (Fin d.width.toNat) UInt8) (m : Heap) :
    Iterated d (fwriteInt16 M) (columnMajor Iᵀ) (iterateOn d M I m).1 ∧
      (iterateOn d M I m).2 = outputFile (iterateOn d M I m).1 := by
  have hfilter := (length_fwriteInt16 M).ge
  have hpixels := (length_pixels d I).ge
  have hrun := mainIteration_iterated d hfilter hpixels m
  rw [← writeInputBinImage_eq] at hrun
  exact hrun

/-- **What `main.c` stores**, in terms of the matrices. -/
theorem outputBuf_iterateOn (M : Matrix (Fin 7) (Fin 7) Int16)
    (I : Matrix (Fin d.height.toNat) (Fin d.width.toNat) UInt8) (m : Heap)
    (i : Fin d.height.toNat) (j : Fin d.width.toNat) :
    ((iterateOn d M I m).1.outputBuf (UInt32.ofNat (i.val * d.width.toNat + j.val))).toInt =
      saturate 15 (imfilter (d := 3) (I.map fun b => (b.toNat : ℤ)) (Mᵀ.map Int16.toInt) i j /
        64) := by
  rw [← fileSum_eq]
  exact (iterateOn_iterated d M I m).1.outputBuf i i.isLt j j.isLt

/-- What the scripts read from the file that `main.c` writes. -/
theorem readOutputBinImage_iterateOn (M : Matrix (Fin 7) (Fin 7) Int16)
    (I : Matrix (Fin d.height.toNat) (Fin d.width.toNat) UInt8) (m : Heap) :
    readOutputBinImage (iterateOn d M I m).2 =
      some ⟨d.height.toNat, d.width.toNat, Matrix.of fun i j =>
        (saturate 15 (imfilter (d := 3) (I.map fun b => (b.toNat : ℤ)) (Mᵀ.map Int16.toInt) i j /
          64) : ℚ) / 2 ^ outputFracBits⟩ := by
  obtain ⟨hit, hfile⟩ := iterateOn_iterated d M I m
  rw [hfile, readOutputBinImage_outputFile d hit.width hit.height]
  simp only [outputBuf_iterateOn]

end Files

/-- An image size whose output fits in a block of `output_buf`. -/
structure OutputSize extends ImageSize where
  output_lt : 2 * (width.toNat * height.toNat) < 2 ^ 32

end FirFilter.Software
