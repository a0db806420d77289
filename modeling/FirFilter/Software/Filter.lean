import FirFilter.Software.Load
import FirFilter.Software.Padding
/-!
# FirFilter.Software.Filter

What one iteration of `main.c` computes.

`filterImage_exact` is the spec lemma of the filter loops on any heap. On the
padded image the sum at `(r, c)` is the correlation of the image with the
*transposed* mask, since the loops pair `filter[k][p]` with the pixel `k` columns
to the right and `p` rows down.
-/

namespace FirFilter.Software

open Heap Matrix

/-! ### The filter loops -/

/-- The filter loops have stored the rows above `i` and the first `j` pixels of row
`i`. -/
structure Stored (d : ImageSize) (m : Heap) (i j : ℕ) (m' : Heap) : Prop where
  inputs : SameInputs m m'
  stored : ∀ r c : ℕ, c < d.width.toNat → (r < i ∨ r = i ∧ c < j) →
    (m'.outputBuf (UInt32.ofNat (r * d.width.toNat + c))).toInt =
      saturate 15 (windowSum m (UInt32.ofNat r) (UInt32.ofNat c) / 64)

theorem ImageSize.outputIndex_eq (d : ImageSize) {i j : UInt32} (hi : i.toNat < d.height.toNat)
    (hj : j.toNat < d.width.toNat) :
    (i * d.width + j).toNat = i.toNat * d.width.toNat + j.toNat := by
  have hlt := d.rowMajor_lt hi hj
  have hpix := d.pixels_lt
  have hmul : (i * d.width).toNat = i.toNat * d.width.toNat := toNat_mul_of_lt (by omega)
  rw [toNat_add_of_lt (by omega), hmul]

theorem Stored.storeOutput {d : ImageSize} {m m' m'' : Heap} {i j : UInt32} {v : Int16}
    (h : Stored d m i.toNat j.toNat m') (hin : SameInputs m' m'')
    (hout : m''.outputBuf = m'.outputBuf) (hv : v.toInt = saturate 15 (windowSum m i j / 64))
    (hi : i.toNat < d.height.toNat) (hj : j.toNat < d.width.toNat) :
    Stored d m i.toNat (j.toNat + 1) (m''.storeOutput (i * d.width + j) v) := by
  have hindex := d.outputIndex_eq hi hj
  have hin' := h.inputs.trans hin
  refine ⟨⟨hin'.filter, hin'.width, hin'.height, hin'.image⟩, fun r c hc hdone => ?_⟩
  show (Function.update m''.outputBuf (i * d.width + j) v
    (UInt32.ofNat (r * d.width.toNat + c))).toInt = _
  by_cases hrc : r = i.toNat ∧ c = j.toNat
  · have hat : UInt32.ofNat (r * d.width.toNat + c) = i * d.width + j := by
      rw [hrc.1, hrc.2, ← hindex, UInt32.ofNat_toNat]
    rw [hat, Function.update_self, hv, hrc.1, hrc.2, UInt32.ofNat_toNat, UInt32.ofNat_toNat]
  · have hold : r < i.toNat ∨ r = i.toNat ∧ c < j.toNat := by omega
    have hlt := rowMajor_lt_of_before hc hold
    rw [← hindex] at hlt
    have hne : UInt32.ofNat (r * d.width.toNat + c) ≠ i * d.width + j := fun heq => by
      have htoNat := congrArg UInt32.toNat heq
      rw [toNat_ofNat_of_lt (hlt.trans (UInt32.toNat_lt _))] at htoNat
      omega
    rw [Function.update_of_ne hne, hout]
    exact h.stored r c hc hold

/-- **Step lemma.** -/
theorem Stored.step {d : ImageSize} {m m' : Heap} (hm : ShortFilter m) {i j : UInt32}
    (h : Stored d m i.toNat j.toNat m') (hi : i.toNat < d.height.toNat)
    (hj : j.toNat < d.width.toNat) :
    Stored d m i.toNat (j.toNat + 1) (filterPixel d.width i j m') := by
  obtain ⟨hin, hout, htmp⟩ := accumulate_exact (h.inputs.shortFilter hm) i j
  refine h.storeOutput hin hout ?_ hi hj
  rw [narrow_toInt, htmp, h.inputs.windowSum]

/-- **The filter loops.** -/
theorem filterImage_exact (d : ImageSize) {m : Heap} (hm : ShortFilter m) :
    Stored d m d.height.toNat 0 (filterImage d.width d.height m) := by
  refine forLoop_induction_zero (fun i => Stored d m i 0)
    ⟨⟨rfl, rfl, rfl, rfl⟩, fun r c _ hdone => by omega⟩ ?_
  intro i s hi hs
  have hrow : Stored d m i.toNat d.width.toNat _ :=
    forLoop_induction_zero (Stored d m i.toNat) hs fun j s hj hs => hs.step hm hi hj
  exact ⟨hrow.inputs, fun r c hc hdone => hrow.stored r c hc (by omega)⟩

/-! ### One iteration -/

/-- The heap `m'` has the coefficients and the dimensions of `m`. -/
structure SameParams (m m' : Heap) : Prop where
  filter : m'.filter = m.filter
  width : m'.width = m.width
  height : m'.height = m.height

theorem sameParams_copyInput {m m' : Heap} (hm : SameParams m m') (x y k : UInt32) :
    SameParams m (m'.copyInput x y k) := by
  simp only [copyInput, storeCell, accessCell, access]
  exact ⟨hm.filter, hm.width, hm.height⟩

theorem sameParams_padRows (w h : UInt32) (m : Heap) : SameParams m (padRows w h m) := by
  unfold padRows
  refine forLoop_preserves (SameParams m) ⟨rfl, rfl, rfl⟩ fun i s hs => ?_
  exact forLoop_preserves (SameParams m) hs fun j s hs => sameParams_copyInput hs _ _ _

theorem sameParams_copyCell {m m' : Heap} (hm : SameParams m m') (x y y' : UInt32) :
    SameParams m (m'.copyCell x y y') := by
  simp only [copyCell, storeCell, accessCell, access]
  exact ⟨hm.filter, hm.width, hm.height⟩

theorem sameParams_padBorder (w h : UInt32) {m m' : Heap} (hm : SameParams m m') :
    SameParams m (padBorder w h m') := by
  unfold padBorder
  refine forLoop_preserves (SameParams m) hm fun i s hs => ?_
  refine forLoop_preserves (SameParams m) hs fun j s hs => ?_
  exact sameParams_copyCell (sameParams_copyCell hs _ _ _) _ _ _

/-- The padding writes cells of the image only. -/
theorem sameParams_pad (w h : UInt32) (m : Heap) : SameParams m (pad w h m) := by
  have hrows := sameParams_padRows w h m
  exact sameParams_padBorder w h ⟨hrows.filter, hrows.width, hrows.height⟩

/-- The pixel of the file that cell `(x, y)` of the padded image replicates. -/
def paddedPixel (d : ImageSize) (pixels : List UInt8) (x y : ℕ) : UInt8 :=
  pixels.getD (d.source x y).toNat 0

/-- The exact sum at output pixel `(i, j)`, from the contents of the files. -/
def fileSum (d : ImageSize) (filterFile pixels : List UInt8) (i j : ℕ) : ℤ :=
  ∑ k ∈ Finset.range 7, ∑ p ∈ Finset.range 7,
    (coefficient filterFile (7 * k + p)).toInt * (paddedPixel d pixels (j + k) (i + p)).toNat

/-- The heap after an iteration, from the contents of the files. -/
structure Iterated (d : ImageSize) (filterFile pixels : List UInt8) (m : Heap) : Prop where
  width : m.width = d.width
  height : m.height = d.height
  image : ∀ x y : UInt32, x.toNat < d.width.toNat + 6 → y.toNat < d.height.toNat + 6 →
    m.image x y = paddedPixel d pixels x.toNat y.toNat
  outputBuf : ∀ i < d.height.toNat, ∀ j < d.width.toNat,
    (m.outputBuf (UInt32.ofNat (i * d.width.toNat + j))).toInt =
      saturate 15 (fileSum d filterFile pixels i j / 64)

/-- On the padded image the sums are those of the files. -/
theorem windowSum_padded {d : ImageSize} {filterFile pixels : List UInt8} {m : Heap}
    (hfilter : ∀ k < 7, ∀ p < 7, m.filter (UInt32.ofNat k) (UInt32.ofNat p) =
      (coefficient filterFile (7 * k + p)).toInt32)
    (himage : ∀ x y : UInt32, x.toNat < d.width.toNat + 6 → y.toNat < d.height.toNat + 6 →
      m.image x y = paddedPixel d pixels x.toNat y.toNat) {i j : ℕ}
    (hi : i < d.height.toNat) (hj : j < d.width.toNat) :
    windowSum m (UInt32.ofNat i) (UInt32.ofNat j) = fileSum d filterFile pixels i j := by
  have hcols := d.columns_lt
  have hrows := d.rows_lt
  have hadd : ∀ a b : ℕ, a + b < 2 ^ 32 →
      (UInt32.ofNat a + UInt32.ofNat b).toNat = a + b := fun a b hab => by
    rw [← UInt32.ofNat_add, toNat_ofNat_of_lt hab]
  refine Finset.sum_congr rfl fun k hk => Finset.sum_congr rfl fun p hp => ?_
  rw [Finset.mem_range] at hk hp
  have hx := hadd j k (by omega)
  have hy := hadd i p (by omega)
  rw [term, hfilter k hk p hp, Int16.toInt_toInt32,
    himage _ _ (by omega) (by omega), hx, hy]

/-- The heap the filter loops start from. -/
structure Prepared (d : ImageSize) (filterFile pixels : List UInt8) (m : Heap) : Prop where
  width : m.width = d.width
  height : m.height = d.height
  filter : ∀ k < 7, ∀ p < 7, m.filter (UInt32.ofNat k) (UInt32.ofNat p) =
    (coefficient filterFile (7 * k + p)).toInt32
  image : ∀ x y : UInt32, x.toNat < d.width.toNat + 6 → y.toNat < d.height.toNat + 6 →
    m.image x y = paddedPixel d pixels x.toNat y.toNat

theorem ImageSize.toNat_pixels (d : ImageSize) :
    (d.height * d.width).toNat = d.width.toNat * d.height.toNat := by
  have := d.pixels_lt
  rw [toNat_mul_of_lt (by rw [Nat.mul_comm]; exact this), Nat.mul_comm]

theorem Loaded.prepared {d : ImageSize} {filterFile pixels : List UInt8} {m : Heap}
    (hm : Loaded filterFile d.width d.height pixels m) :
    Prepared d filterFile pixels (pad d.width d.height m) := by
  have hsame := sameParams_pad d.width d.height m
  refine ⟨hsame.width.trans hm.width, hsame.height.trans hm.height, hsame.filter ▸ hm.filter,
    fun x y hx hy => ?_⟩
  rw [image_pad d m hx hy]
  exact hm.inputBuf _ (by rw [d.toNat_pixels]; exact d.toNat_source_lt _ _)

theorem Prepared.shortFilter {d : ImageSize} {filterFile pixels : List UInt8} {m : Heap}
    (hm : Prepared d filterFile pixels m) : ShortFilter m := by
  intro k hk p hp
  rw [hm.filter k hk p hp]
  exact toInt32_short _

theorem Prepared.iterated {d : ImageSize} {filterFile pixels : List UInt8} {m : Heap}
    (hm : Prepared d filterFile pixels m) : Iterated d filterFile pixels (filtering m) := by
  have hstored := filterImage_exact d
    (m := m.malloc .outputBuf (2 * d.width * d.height)) hm.shortFilter
  unfold filtering
  rw [hm.width, hm.height]
  refine ⟨hstored.inputs.width.trans hm.width, hstored.inputs.height.trans hm.height,
    fun x y hx hy => ?_, fun i hi j hj => ?_⟩
  · rw [hstored.inputs.image]
    exact hm.image x y hx hy
  · rw [hstored.stored i j hj (.inl hi)]
    exact congrArg (saturate 15 <| · / 64) (windowSum_padded hm.filter hm.image hi hj)

theorem Iterated.of_contents {d : ImageSize} {filterFile pixels : List UInt8} {m m' : Heap}
    (hm : Iterated d filterFile pixels m) (hc : contents m' = contents m) :
    Iterated d filterFile pixels m' := by
  obtain ⟨hin, -, hout⟩ := inputs_of_contents hc
  exact ⟨hin.width.trans hm.width, hin.height.trans hm.height, hin.image ▸ hm.image,
    hout ▸ hm.outputBuf⟩

/-- What follows the filter loops only frees the image and writes the file. -/
theorem contents_finish (w n : UInt32) (m : Heap) :
    contents (readOutput n ((freeColumns w m).free .image)) = contents m := by
  rw [contents_readOutput]
  exact contents_freeColumns w m

/-- An iteration, from what it has loaded. -/
theorem Loaded.iterated {d : ImageSize} {filterFile pixels filterFile' imageFile : List UInt8}
    {m : Heap} (hload : Loaded filterFile d.width d.height pixels (load filterFile' imageFile m)) :
    let r := mainIteration filterFile' imageFile m
    Iterated d filterFile pixels r.1 ∧ r.2 = outputFile r.1 := by
  unfold mainIteration
  generalize load filterFile' imageFile m = m₁ at hload
  simp only [hload.width, hload.height]
  have hfilt := hload.prepared.iterated
  generalize filtering (pad d.width d.height m₁) = m₂ at hfilt
  have hc := contents_finish m₂.width
    (((freeColumns m₂.width m₂).free .image).width * ((freeColumns m₂.width m₂).free .image).height)
    m₂
  generalize readOutput _ _ = m₃ at hc
  exact ⟨hfilt.of_contents hc, rfl⟩

/-- **One iteration of `main.c`.** -/
theorem mainIteration_iterated (d : ImageSize) {filterFile pixels : List UInt8}
    (hfilter : 98 ≤ filterFile.length)
    (hpixels : d.width.toNat * d.height.toNat ≤ pixels.length) (m : Heap) :
    let r := mainIteration filterFile
      (encodeUInt32 d.width ++ encodeUInt32 d.height ++ pixels) m
    Iterated d filterFile pixels r.1 ∧ r.2 = outputFile r.1 :=
  (load_loaded hfilter (d.toNat_pixels ▸ hpixels) m).iterated

end FirFilter.Software
