import FirFilter.Software.Replication
/-!
# FirFilter.Software.Bounds

Which image headers keep `main.c` inside its buffers.

The header is not validated, and the sizes of the blocks and the bounds of the
loops are computed in 32-bit arithmetic that wraps separately for each of them.
`SafeHeader` is the exact condition. Outside it some access is out of bounds: the
pointers do not fit in `image`, `input_buf` is read with a width of `0`, a column is
too short for its border rows, or `output_buf` is too small for the pixels.
-/

namespace FirFilter.Software

open Heap

/-! ### The accesses of an iteration -/

/-- The accesses of one iteration. -/
def accesses (filterFile imageFile : List UInt8) (m : Heap) : List Access :=
  (mainIteration filterFile imageFile { m with log := [] }).1.log

/-- The sizes of the blocks of `image` between their allocation and `free`. -/
structure Allocated (w h : UInt32) (E : Buffer → ℕ) : Prop where
  image : E .image = (4 * (w + 2 * paddingSize)).toNat / 4
  column : ∀ x : UInt32, x.toNat < (w + 2 * paddingSize).toNat →
    E (.column x) = (h + 2 * paddingSize).toNat

theorem Allocated.update {w h : UInt32} {E : Buffer → ℕ} (hE : Allocated w h E) {b : Buffer}
    (himage : Buffer.image ≠ b) (hcol : ∀ x, Buffer.column x ≠ b) (n : ℕ) :
    Allocated w h (Function.update E b n) :=
  ⟨(Function.update_of_ne himage _ _).trans hE.image,
    fun x hx => (Function.update_of_ne (hcol x) _ _).trans (hE.column x hx)⟩

/-- Reading the mask touches none of the image data. -/
theorem readFilter_keeps (filterFile : List UInt8) (m : Heap) :
    (readFilter filterFile m).log = m.log ∧ (readFilter filterFile m).elements = m.elements := by
  unfold readFilter
  refine forLoop_preserves (fun s : Heap × List UInt8 => s.1.log = m.log ∧
    s.1.elements = m.elements) ⟨rfl, rfl⟩ fun i s hs => ?_
  exact forLoop_preserves (fun s : Heap × List UInt8 => s.1.log = m.log ∧
    s.1.elements = m.elements) hs fun j s hs => hs

theorem sameParams_readPixels (n : UInt32) (file : List UInt8) (m : Heap) :
    SameParams m (readPixels n file m) :=
  forLoop_preserves (SameParams m) ⟨rfl, rfl, rfl⟩ fun _ _ hs => ⟨hs.filter, hs.width, hs.height⟩

/-- The block for the pixels, and reading them. -/
theorem readPixels_malloc (w h : UInt32) (pixels : List UInt8) (m : Heap) :
    let m' := readPixels (h * w) pixels (m.malloc .inputBuf (1 * h * w))
    SameParams m m' ∧ m'.elements .inputBuf = (1 * h * w).toNat ∧
      m'.log =
        pixelsTrace m'.elements (UInt32.ofNat (min (h * w).toNat pixels.length)) ++ m.log := by
  have hparams := sameParams_readPixels (h * w) pixels (m.malloc .inputBuf (1 * h * w))
  obtain ⟨hE, hlog⟩ := logs_readPixels (h * w) pixels (m.malloc .inputBuf (1 * h * w)) rfl
  refine ⟨⟨hparams.filter, hparams.width, hparams.height⟩, ?_, ?_⟩
  · rw [hE, elements_malloc]
    exact Nat.div_one _
  · rw [hE, hlog]
    rfl

/-- The blocks of `image`. -/
theorem allocateColumns_malloc (w h : UInt32) (m : Heap) :
    let m' := allocateColumns w h (m.malloc .image (4 * (w + 2 * paddingSize)))
    SameParams m m' ∧ Allocated w h m'.elements ∧
      m'.elements .inputBuf = m.elements .inputBuf ∧
      m'.log = pointersTrace m'.elements w true ++ m.log := by
  have hne : Buffer.inputBuf ≠ .image := nofun
  obtain ⟨hin, -, -⟩ := inputs_of_contents
    (contents_allocateColumns w h (m.malloc .image (4 * (w + 2 * paddingSize))))
  have himage := elements_allocateColumns_of_ne w h (b := .image)
    (m.malloc .image (4 * (w + 2 * paddingSize))) nofun
  have hinput := elements_allocateColumns_of_ne w h (b := .inputBuf)
    (m.malloc .image (4 * (w + 2 * paddingSize))) nofun
  refine ⟨⟨hin.filter, hin.width, hin.height⟩, ⟨?_, fun x hx => ?_⟩, ?_, ?_⟩
  · exact himage.trans (elements_malloc m .image _)
  · exact elements_allocateColumns w h _ hx
  · exact hinput.trans (elements_malloc_of_ne m _ hne)
  · simp only [log_allocateColumns, pointersTrace, himage]
    rfl

/-- The sizes after loading are those of the header. -/
theorem load_sizes (filterFile imageFile : List UInt8) (m : Heap) :
    let r := readHeader imageFile (readFilter filterFile m)
    (load filterFile imageFile m).width = r.1.width ∧
      (load filterFile imageFile m).height = r.1.height := by
  intro r
  simp only [load, width_malloc, height_malloc]
  have hparams := sameParams_readPixels (r.1.height * r.1.width) r.2
    (r.1.malloc .inputBuf (1 * r.1.height * r.1.width))
  generalize readPixels (r.1.height * r.1.width) r.2
    (r.1.malloc .inputBuf (1 * r.1.height * r.1.width)) = m₁ at hparams
  obtain ⟨hin, -, -⟩ := inputs_of_contents (contents_allocateColumns m₁.width m₁.height
    (m₁.malloc .image (4 * (m₁.width + 2 * paddingSize))))
  exact ⟨hin.width.trans hparams.width, hin.height.trans hparams.height⟩

/-- The log after loading. -/
theorem load_log (filterFile imageFile : List UInt8) (m : Heap) {w h : UInt32}
    (hw : (load filterFile imageFile m).width = w)
    (hh : (load filterFile imageFile m).height = h) :
    let m' := load filterFile imageFile m
    Allocated w h m'.elements ∧ m'.elements .inputBuf = (1 * h * w).toNat ∧ ∃ available : ℕ,
      m'.log = pointersTrace m'.elements w true ++
        (pixelsTrace m'.elements (UInt32.ofNat (min (h * w).toNat available)) ++ m.log) := by
  obtain ⟨hlog, -⟩ := readFilter_keeps filterFile m
  obtain ⟨hwidth, hheight⟩ := load_sizes filterFile imageFile m
  rw [hw] at hwidth
  rw [hh] at hheight
  have hheader : (readHeader imageFile (readFilter filterFile m)).1.log = m.log := hlog
  simp only [load, width_malloc, height_malloc]
  generalize readHeader imageFile (readFilter filterFile m) = r at hheader hwidth hheight ⊢
  rw [hwidth, hheight]
  obtain ⟨hparams₁, hinput₁, hlog₁⟩ := readPixels_malloc r.1.width r.1.height r.2 r.1
  generalize readPixels (r.1.height * r.1.width) r.2 _ = m₁ at hparams₁ hinput₁ hlog₁ ⊢
  have hwidth₁ : m₁.width = r.1.width := hparams₁.width
  have hheight₁ : m₁.height = r.1.height := hparams₁.height
  simp only [hwidth₁, hheight₁]
  obtain ⟨-, halloc, hinput₂, hlog₂⟩ := allocateColumns_malloc r.1.width r.1.height m₁
  refine ⟨halloc, hinput₂.trans hinput₁, r.2.length, hlog₂.trans ?_⟩
  simp only [hlog₁, pixelsTrace, hinput₂, hheader]

/-- The filter loops, with the block for the output. -/
theorem log_filtering {w h : UInt32} {m : Heap} (hw : m.width = w) (hh : m.height = h) :
    (filtering m).elements = Function.update m.elements .outputBuf ((2 * w * h).toNat / 2) ∧
      (filtering m).log =
        filterTrace (Function.update m.elements .outputBuf ((2 * w * h).toNat / 2)) w h ++
          m.log := by
  have hsizes : (m.malloc .outputBuf (2 * w * h)).elements =
      Function.update m.elements .outputBuf ((2 * w * h).toNat / 2) := rfl
  unfold filtering
  rw [hw, hh]
  exact logs_filterImage w h (m.malloc .outputBuf (2 * w * h)) hsizes

/-- What follows the filter loops. -/
theorem log_finish (w n : UInt32) (m : Heap) :
    (readOutput n ((freeColumns w m).free .image)).log =
      outputTrace m.elements n ++ (pointersTrace m.elements w false ++ m.log) := by
  have hne : Buffer.outputBuf ≠ .image := nofun
  have hsize : ((freeColumns w m).free .image).elements .outputBuf = m.elements .outputBuf :=
    (elements_free_of_ne _ hne).trans (elements_freeColumns_of_ne w m nofun)
  rw [(logs_readOutput n _ rfl).2, ← log_freeColumns]
  simp only [outputTrace, hsize]
  rfl

theorem sameParams_accumulate (i j : UInt32) {m m' : Heap} (hm : SameParams m m') :
    SameParams m (accumulate i j m').1 := by
  unfold accumulate
  refine forLoop_preserves (fun s : Heap × Int32 => SameParams m s.1) hm fun k s hs => ?_
  exact forLoop_preserves (fun s : Heap × Int32 => SameParams m s.1) hs fun p s hs =>
    ⟨hs.filter, hs.width, hs.height⟩

theorem sameParams_storeOutput {m m' : Heap} (hm : SameParams m m') (k : UInt32) (v : Int16) :
    SameParams m (m'.storeOutput k v) := ⟨hm.filter, hm.width, hm.height⟩

theorem sameParams_filtering (m : Heap) : SameParams m (filtering m) := by
  unfold filtering filterImage
  refine forLoop_preserves (SameParams m) ⟨rfl, rfl, rfl⟩ fun i s hs => ?_
  refine forLoop_preserves (SameParams m) hs fun j s hs => ?_
  exact sameParams_storeOutput (sameParams_accumulate i j hs) _ _

/-- **The accesses of an iteration**, newest first: to the output, the pointers of the
columns freed, the filter loops, the two padding loops, the pointers of the columns
allocated, and the pixels. -/
theorem log_mainIteration (filterFile imageFile : List UInt8) (m : Heap) {w h : UInt32}
    (hwidth : (load filterFile imageFile m).width = w)
    (hheight : (load filterFile imageFile m).height = h) :
    ∃ E E' E'' : Buffer → ℕ, ∃ available : ℕ,
      Allocated w h E ∧ E .inputBuf = (1 * h * w).toNat ∧ Allocated w h E' ∧
      Allocated w h E'' ∧ E'' .outputBuf = (2 * w * h).toNat / 2 ∧
      (mainIteration filterFile imageFile m).1.log =
        (outputTrace E'' (w * h) ++ (pointersTrace E'' w false ++ (filterTrace E'' w h ++
          (borderTrace E' w h ++ rowsTrace E w h ++ (pointersTrace E w true ++
            pixelsTrace E (UInt32.ofNat (min (h * w).toNat available))))))) ++ m.log := by
  obtain ⟨halloc, hinput, available, hlog⟩ := load_log filterFile imageFile m hwidth hheight
  unfold mainIteration
  generalize load filterFile _ _ = m₁ at hwidth hheight halloc hinput hlog
  simp only [hwidth, hheight]
  obtain ⟨hE', hlog'⟩ := log_pad w h m₁
  have hsame := sameParams_pad w h m₁
  have halloc' := halloc.update (b := .inputBuf) nofun nofun 0
  rw [← hE'] at halloc' hlog'
  generalize pad w h m₁ = m₂ at hlog' hsame halloc'
  obtain ⟨hE'', hlog''⟩ := log_filtering (hsame.width.trans hwidth) (hsame.height.trans hheight)
  have halloc'' := halloc'.update (b := .outputBuf) nofun nofun ((2 * w * h).toNat / 2)
  have houtput : (filtering m₂).elements .outputBuf = (2 * w * h).toNat / 2 := by
    rw [hE'', Function.update_self]
  rw [← hE''] at halloc'' hlog''
  have hparams := sameParams_filtering m₂
  have hwidth₃ := (hparams.width.trans hsame.width).trans hwidth
  have hheight₃ := (hparams.height.trans hsame.height).trans hheight
  generalize filtering m₂ = m₃ at hlog'' halloc'' houtput hwidth₃ hheight₃
  have hcols := inputs_of_contents (contents_freeColumns w m₃)
  have hfinish := log_finish w (w * h) m₃
  rw [hlog'', hlog', hlog] at hfinish
  refine ⟨_, _, _, available, halloc, hinput, halloc', halloc'', houtput, ?_⟩
  simp only [hwidth₃]
  have hw : ((freeColumns w m₃).free .image).width = w := hcols.1.width.trans hwidth₃
  have hh : ((freeColumns w m₃).free .image).height = h := hcols.1.height.trans hheight₃
  rw [hw, hh]
  refine Eq.trans ?_ (hfinish.trans ?_)
  · rfl
  · simp only [List.append_assoc]

/-! ### The headers that are safe -/

/-- The headers that keep every access in its block: the pointers fit in `image`, and
the image has no rows, or no columns and a height just below the wrap, or an area that
`output_buf` can hold. -/
def SafeHeader (w h : UInt32) : Prop :=
  (w.toNat + 6) % 2 ^ 32 < 2 ^ 30 ∧
    (h.toNat = 0 ∨ (w.toNat = 0 ∧ 2 ^ 32 - 2 ≤ h.toNat) ∨
      (1 ≤ w.toNat ∧ w.toNat + 6 < 2 ^ 30 ∧ 1 ≤ h.toNat ∧ w.toNat * h.toNat < 2 ^ 31))

def AllInBounds (es : List Access) : Prop := ∀ a ∈ es, a.InBounds

theorem allInBounds_append {es es' : List Access} :
    AllInBounds (es ++ es') ↔ AllInBounds es ∧ AllInBounds es' := List.forall_mem_append

section Sizes

variable {w h : UInt32} {E : Buffer → ℕ}

theorem toNat_columns_mod (w : UInt32) : (w + 2 * paddingSize).toNat = (w.toNat + 6) % 2 ^ 32 :=
  UInt32.toNat_add _ _

theorem Allocated.image_eq (hE : Allocated w h E) :
    E .image = (w + 2 * paddingSize).toNat % 2 ^ 30 := by
  have h4 : (4 : UInt32).toNat = 4 := rfl
  rw [hE.image, UInt32.toNat_mul, h4]
  omega

theorem toNat_outputBuf (w h : UInt32) : (2 * w * h).toNat / 2 = w.toNat * h.toNat % 2 ^ 31 := by
  have h2 : (2 : UInt32).toNat = 2 := rfl
  rw [UInt32.toNat_mul, UInt32.toNat_mul, h2, Nat.mod_mul_mod, Nat.mul_assoc]
  omega

/-- The pointers fit exactly when their number does not wrap as a number of bytes. -/
theorem pointersTrace_inBounds_iff (hE : Allocated w h E) (write : Bool) :
    AllInBounds (pointersTrace E w write) ↔ (w.toNat + 6) % 2 ^ 32 < 2 ^ 30 := by
  have himage := hE.image_eq
  have hcols := toNat_columns_mod w
  constructor
  · intro hall
    by_contra hbig
    have hlt : E .image < 2 ^ 32 := by omega
    have hidx : (UInt32.ofNat (E .image)).toNat = E .image := toNat_ofNat_of_lt hlt
    have hbad := hall ⟨.image, UInt32.ofNat (E .image), write, E .image⟩
      (mem_forTrace.mpr ⟨UInt32.ofNat (E .image), Nat.zero_le _, by omega, by simp⟩)
    exact absurd hbad (by rw [Access.InBounds, hidx]; exact lt_irrefl _)
  · intro hsmall a ha
    obtain ⟨i, -, hi, ha⟩ := mem_forTrace.mp ha
    obtain rfl := List.mem_singleton.mp ha
    show i.toNat < E .image
    omega

/-- The copies of row `3` need columns of four cells. -/
theorem rows_of_border (hE : Allocated w h E) (hpos : 0 < (w.toNat + 6) % 2 ^ 32)
    (hall : AllInBounds (borderTrace E w h)) : 4 ≤ (h + 2 * paddingSize).toNat := by
  have hw := toNat_columns_mod w
  have hcolumn := hE.column 0 (by rw [hw]; exact hpos)
  have hread := hall ⟨.column 0, paddingSize, false, E (.column 0)⟩
    (mem_forTrace.mpr ⟨0, Nat.le_refl _, by decide, mem_forTrace.mpr
      ⟨0, Nat.le_refl _, by rw [hw]; exact hpos, by simp [cellEntries]⟩⟩)
  rwa [Access.InBounds, hcolumn, toNat_paddingSize] at hread

theorem borderTrace_inBounds (hE : Allocated w h E) (hcols : (w.toNat + 6) % 2 ^ 32 < 2 ^ 30)
    (hrows : 4 ≤ (h + 2 * paddingSize).toNat) : AllInBounds (borderTrace E w h) := by
  have himage := hE.image_eq
  have hw := toNat_columns_mod w
  intro a ha
  obtain ⟨i, -, hi, ha⟩ := mem_forTrace.mp ha
  obtain ⟨j, -, hj, ha⟩ := mem_forTrace.mp ha
  have hcolumn := hE.column j hj
  rw [toNat_paddingSize] at hi
  have hmirror : (h + 2 * paddingSize - i - 1).toNat < (h + 2 * paddingSize).toNat := by
    have h1 : (h + 2 * paddingSize - i).toNat = (h + 2 * paddingSize).toNat - i.toNat :=
      toNat_sub_of_le (by omega)
    rw [toNat_sub_of_le (by rw [h1, UInt32.toNat_one]; omega), h1, UInt32.toNat_one]
    omega
  have hbottom : (h + paddingSize - 1).toNat < (h + 2 * paddingSize).toNat := by
    have h6 : (h + 2 * paddingSize).toNat = (h.toNat + 6) % 2 ^ 32 := UInt32.toNat_add _ _
    rw [UInt32.toNat_sub, UInt32.toNat_add, toNat_paddingSize, UInt32.toNat_one]
    omega
  have hcell : ∀ y write, y.toNat < (h + 2 * paddingSize).toNat →
      AllInBounds (cellEntries E j y write) := by
    intro y write hy a ha
    rcases mem_cellEntries.mp ha with rfl | rfl
    · show y.toNat < E (.column j)
      omega
    · show j.toNat < E .image
      omega
  rcases List.mem_append.mp ha with ha | ha <;> rcases List.mem_append.mp ha with ha | ha
  · exact hcell _ _ hmirror a ha
  · exact hcell _ _ hbottom a ha
  · exact hcell _ _ (by omega) a ha
  · exact hcell _ _ (by rw [toNat_paddingSize]; omega) a ha

/-- Without rows the first padding loop and the filter loops do nothing. -/
theorem trace_of_noRows (hh : h.toNat = 0) :
    AllInBounds (rowsTrace E w h) ∧ AllInBounds (filterTrace E w h) := by
  constructor
  · intro a ha
    obtain ⟨i, hi, hi', -⟩ := mem_forTrace.mp ha
    rw [toNat_paddingSize] at hi
    rw [UInt32.toNat_add, hh, toNat_paddingSize] at hi'
    omega
  · intro a ha
    obtain ⟨i, j, hi, -⟩ := mem_filterTrace ha
    omega

/-- Nor do they without columns, when the bound on the rows wraps. -/
theorem trace_of_noColumns (hw : w.toNat = 0) (hh : 2 ^ 32 - 3 ≤ h.toNat) :
    AllInBounds (rowsTrace E w h) ∧ AllInBounds (filterTrace E w h) := by
  have := h.toNat_lt
  constructor
  · intro a ha
    obtain ⟨i, hi, hi', -⟩ := mem_forTrace.mp ha
    rw [toNat_paddingSize] at hi
    rw [UInt32.toNat_add, toNat_paddingSize] at hi'
    omega
  · intro a ha
    obtain ⟨i, j, -, hj, -⟩ := mem_filterTrace ha
    omega

/-- An image whose area fits. -/
theorem trace_of_area {d : ImageSize} (hE : Allocated d.width d.height E)
    (harea : d.width.toNat * d.height.toNat < 2 ^ 31) :
    (E .inputBuf = (1 * d.height * d.width).toNat →
      AllInBounds (rowsTrace E d.width d.height)) ∧
    (E .outputBuf = (2 * d.width * d.height).toNat / 2 →
      AllInBounds (filterTrace E d.width d.height)) := by
  have hcols := d.columns_lt
  have himage := hE.image_eq
  rw [d.toNat_columns] at himage
  have hcolumn := hE.column
  rw [d.toNat_columns, d.toNat_rows] at hcolumn
  constructor
  · intro hinput a ha
    rw [UInt32.one_mul, d.toNat_pixels] at hinput
    rcases mem_rowsTrace ha with ⟨x, y, hx, -, hy, rfl⟩ | ⟨x, hx, rfl⟩ | ⟨k, hk, rfl⟩
    · show y.toNat < E (.column x)
      rw [hcolumn x hx]
      omega
    · show x.toNat < E .image
      omega
    · show k.toNat < E .inputBuf
      omega
  · intro houtput a ha
    rw [toNat_outputBuf, Nat.mod_eq_of_lt harea] at houtput
    obtain ⟨i, j, hi, hj, rfl | ⟨k, p, hk, hp, rfl | rfl⟩⟩ := mem_filterTrace ha
    · show (i * d.width + j).toNat < E .outputBuf
      rw [d.outputIndex_eq hi hj, houtput]
      exact d.rowMajor_lt hi hj
    · obtain ⟨hx, hy⟩ := d.toNat_cell hi hj hk hp
      show (i + p).toNat < E (.column (j + k))
      rw [hcolumn _ hx]
      exact hy
    · have hx := (d.toNat_cell (p := 0) hi hj hk (by decide)).1
      show (j + k).toNat < E .image
      omega

/-- With rows but without columns, a height that does not wrap reads the empty
`input_buf`. -/
theorem rows_of_noColumns (hw : w.toNat = 0) (hinput : E .inputBuf = (1 * h * w).toNat)
    (hpos : 1 ≤ h.toNat) (hall : AllInBounds (rowsTrace E w h)) : 2 ^ 32 - 3 ≤ h.toNat := by
  by_contra hlt
  obtain rfl : w = 0 := UInt32.toNat_inj.mp hw
  have hrow : (h + paddingSize).toNat = h.toNat + 3 :=
    toNat_add_of_lt (by rw [toNat_paddingSize]; omega)
  rw [UInt32.mul_zero] at hinput
  have hread := hall ⟨.inputBuf, inputIndex 0 paddingSize 0, false, E .inputBuf⟩
    (mem_forTrace.mpr ⟨paddingSize, Nat.le_refl _, by rw [hrow, toNat_paddingSize]; omega,
      mem_forTrace.mpr ⟨0, Nat.le_refl _, by decide, by simp⟩⟩)
  rw [Access.InBounds, hinput] at hread
  exact absurd hread (Nat.not_lt_zero _)

/-- With rows, the filter loops need every pointer of a row. -/
theorem width_of_filter (hE : Allocated w h E) (hpos : 1 ≤ h.toNat)
    (hall : AllInBounds (filterTrace E w h)) : w.toNat + 6 < 2 ^ 30 := by
  by_contra hbig
  have himage := hE.image_eq
  rw [toNat_columns_mod] at himage
  have hlt := w.toNat_lt
  have hidx : (UInt32.ofNat (E .image)).toNat = E .image :=
    toNat_ofNat_of_lt (by omega)
  have hread := hall ⟨.image, UInt32.ofNat (E .image) + 0, false, E .image⟩
    (mem_forTrace.mpr ⟨0, Nat.le_refl _, hpos, mem_forTrace.mpr
      ⟨UInt32.ofNat (E .image), Nat.zero_le _, by omega, List.mem_append_right _
        (mem_forTrace.mpr ⟨0, Nat.le_refl _, by decide, mem_forTrace.mpr
          ⟨0, Nat.le_refl _, by decide, mem_cellEntries.mpr (.inr rfl)⟩⟩)⟩⟩)
  rw [Access.InBounds, UInt32.add_zero, hidx] at hread
  exact absurd hread (lt_irrefl _)

/-- The filter loops store as many pixels as `output_buf` must hold. -/
theorem area_of_filter (houtput : E .outputBuf = (2 * w * h).toNat / 2)
    (hall : AllInBounds (filterTrace E w h)) : w.toNat * h.toNat < 2 ^ 31 := by
  by_contra hbig
  rw [toNat_outputBuf] at houtput
  -- the pixel whose index is the number of elements
  obtain ⟨i, j, hi, hj, hsplit⟩ := exists_rowMajor (n := E .outputBuf) (w := w.toNat)
    (h := h.toNat) (by rw [Nat.mul_comm]; omega)
  have hi' : (UInt32.ofNat i).toNat = i := toNat_ofNat_of_lt (hi.trans h.toNat_lt)
  have hj' : (UInt32.ofNat j).toNat = j := toNat_ofNat_of_lt (hj.trans w.toNat_lt)
  have hmul : (UInt32.ofNat i * w).toNat = i * w.toNat := by
    rw [toNat_mul_of_lt (by rw [hi']; omega), hi']
  have hidx : (UInt32.ofNat i * w + UInt32.ofNat j).toNat = E .outputBuf := by
    rw [toNat_add_of_lt (by rw [hmul, hj']; omega), hmul, hj', hsplit]
  have hstore := hall _ (mem_forTrace.mpr ⟨UInt32.ofNat i, Nat.zero_le _, by rw [hi']; exact hi,
    mem_forTrace.mpr ⟨UInt32.ofNat j, Nat.zero_le _, by rw [hj']; exact hj,
      List.mem_append_left _ (List.mem_singleton.mpr rfl)⟩⟩)
  rw [Access.InBounds, hidx] at hstore
  exact absurd hstore (lt_irrefl _)

/-- As many elements are written to the file as `output_buf` must hold. -/
theorem outputTrace_inBounds (houtput : E .outputBuf = (2 * w * h).toNat / 2)
    (harea : w.toNat * h.toNat < 2 ^ 31) : AllInBounds (outputTrace E (w * h)) := by
  intro a ha
  obtain ⟨k, -, hk, ha⟩ := mem_forTrace.mp ha
  obtain rfl := List.mem_singleton.mp ha
  rw [toNat_mul_of_lt (by omega)] at hk
  rw [toNat_outputBuf, Nat.mod_eq_of_lt harea] at houtput
  show k.toNat < E .outputBuf
  omega

theorem pixelsTrace_inBounds (hinput : E .inputBuf = (1 * h * w).toNat) (available : ℕ) :
    AllInBounds (pixelsTrace E (UInt32.ofNat (min (h * w).toNat available))) := by
  intro a ha
  obtain ⟨k, -, hk, ha⟩ := mem_forTrace.mp ha
  obtain rfl := List.mem_singleton.mp ha
  rw [toNat_ofNat_of_lt ((Nat.min_le_left _ _).trans_lt (h * w).toNat_lt)] at hk
  rw [UInt32.one_mul] at hinput
  show k.toNat < E .inputBuf
  omega

end Sizes

/-- The accesses that an iteration adds to the log are in their blocks exactly when the sizes
that it reads are safe. -/
theorem log_inBounds_iff (filterFile imageFile : List UInt8) (m : Heap) {w h : UInt32}
    (hwidth : (load filterFile imageFile m).width = w)
    (hheight : (load filterFile imageFile m).height = h) :
    ∃ es, (mainIteration filterFile imageFile m).1.log = es ++ m.log ∧
      (AllInBounds es ↔ SafeHeader w h) := by
  obtain ⟨E, E', E'', _, hE, hinput, hE', hE'', houtput, heq⟩ :=
    log_mainIteration filterFile imageFile m hwidth hheight
  have hlt := h.toNat_lt
  have hrows : (h + 2 * paddingSize).toNat = (h.toNat + 6) % 2 ^ 32 := UInt32.toNat_add _ _
  refine ⟨_, heq, ?_⟩
  simp only [allInBounds_append]
  constructor
  · rintro ⟨-, hpointers, hfilter, ⟨hborder, hrowsIn⟩, -, -⟩
    have hcols := (pointersTrace_inBounds_iff hE'' false).mp hpointers
    refine ⟨hcols, ?_⟩
    rcases Nat.eq_zero_or_pos h.toNat with hh | hh
    · exact .inl hh
    · rcases Nat.eq_zero_or_pos w.toNat with hw | hw
      · have hwrap := rows_of_noColumns hw hinput hh hrowsIn
        have hfour := rows_of_border hE' (by omega) hborder
        exact .inr (.inl ⟨hw, by omega⟩)
      · exact .inr (.inr ⟨hw, width_of_filter hE'' hh hfilter, hh,
          area_of_filter houtput hfilter⟩)
  · rintro ⟨hcols, hsafe⟩
    have hfour : 4 ≤ (h + 2 * paddingSize).toNat := by
      rcases hsafe with hh | ⟨-, hh⟩ | ⟨hw, -, hh, harea⟩
      · omega
      · omega
      · have hhle : h.toNat ≤ w.toNat * h.toNat := Nat.le_mul_of_pos_left _ hw
        omega
    have hborder : AllInBounds (borderTrace E' w h) := borderTrace_inBounds hE' hcols hfour
    obtain ⟨harea, hloops⟩ : w.toNat * h.toNat < 2 ^ 31 ∧
        AllInBounds (rowsTrace E w h) ∧ AllInBounds (filterTrace E'' w h) := by
      rcases hsafe with hh | ⟨hw, hh⟩ | ⟨hw, hcols', hh, harea⟩
      · exact ⟨by rw [hh]; omega, (trace_of_noRows hh).1, (trace_of_noRows hh).2⟩
      · exact ⟨by rw [hw]; omega, (trace_of_noColumns hw (by omega)).1,
          (trace_of_noColumns hw (by omega)).2⟩
      · have hhle : h.toNat ≤ w.toNat * h.toNat := Nat.le_mul_of_pos_left _ hw
        let d : ImageSize := ⟨w, h, hw, hh, by omega, by omega, by omega⟩
        exact ⟨harea, (trace_of_area (d := d) hE harea).1 hinput,
          (trace_of_area (d := d) hE'' harea).2 houtput⟩
    exact ⟨outputTrace_inBounds houtput harea, (pointersTrace_inBounds_iff hE'' false).mpr hcols,
      hloops.2, ⟨hborder, hloops.1⟩, (pointersTrace_inBounds_iff hE true).mpr hcols,
      pixelsTrace_inBounds hinput _⟩

theorem load_sizes_encode (filterFile pixels : List UInt8) (w h : UInt32) (m : Heap) :
    let m' := load filterFile (encodeUInt32 w ++ encodeUInt32 h ++ pixels) m
    m'.width = w ∧ m'.height = h := by
  obtain ⟨hwidth, hheight⟩ := load_sizes filterFile (encodeUInt32 w ++ encodeUInt32 h ++ pixels) m
  simp only [readHeader_encode] at hwidth hheight
  exact ⟨hwidth, hheight⟩

/-- **Memory safety of an iteration.** Every access is in its block exactly when the
header is safe, whatever the files hold otherwise. -/
theorem accesses_inBounds_iff (filterFile pixels : List UInt8) (w h : UInt32) (m : Heap) :
    AllInBounds (accesses filterFile (encodeUInt32 w ++ encodeUInt32 h ++ pixels) m) ↔
      SafeHeader w h := by
  obtain ⟨hwidth, hheight⟩ := load_sizes_encode filterFile pixels w h { m with log := [] }
  obtain ⟨es, hlog, hiff⟩ := log_inBounds_iff filterFile _ _ hwidth hheight
  rw [← hiff, accesses, hlog, List.append_nil]

/-- A whole image of no columns and one row: `input_buf` is empty, and the padding reads it. -/
theorem header_out_of_bounds :
    ¬ AllInBounds (accesses [] (encodeUInt32 0 ++ encodeUInt32 1) emptyHeap) := by
  obtain ⟨hwidth, hheight⟩ := load_sizes_encode [] [] 0 1 emptyHeap
  rw [List.append_nil] at hwidth hheight
  obtain ⟨es, hlog, hiff⟩ := log_inBounds_iff [] (encodeUInt32 0 ++ encodeUInt32 1) emptyHeap
    hwidth hheight
  have hes : accesses [] (encodeUInt32 0 ++ encodeUInt32 1) emptyHeap = es :=
    hlog.trans (List.append_nil es)
  rw [hes, hiff]
  simp [SafeHeader]

end FirFilter.Software
