import FirFilter.Software.Arithmetic
/-!
# FirFilter.Software.Load

What `main.c` has in memory after reading its two files, and the parts of an
iteration that only allocate, free or write files.

A complete mask file has 49 words of two bytes, in the order of the loops, and a
complete image file a header and `w * h` bytes. Nothing is left of what the heap
held before.
-/

namespace FirFilter.Software

open Heap

/-! ### Words and files -/

theorem decodeUInt32_encodeUInt32 (v : UInt32) : decodeUInt32 (encodeUInt32 v) = v := by
  rw [decodeUInt32, encodeUInt32, decodeLE_encodeLE v.toNat_lt, UInt32.ofNat_toNat]

theorem decodeInt16_encodeInt16 (v : Int16) : decodeInt16 (encodeInt16 v) = v := by
  rw [decodeInt16, encodeInt16, decodeLE_encodeLE v.toUInt16.toNat_lt, UInt16.ofNat_toNat]
  rfl

theorem length_encodeUInt32 (v : UInt32) : (encodeUInt32 v).length = 4 := length_encodeLE 4 _

theorem length_encodeInt16 (v : Int16) : (encodeInt16 v).length = 2 := length_encodeLE 2 _

/-- A complete `fread` takes its bytes from the file. -/
theorem fread_of_le {old file : List UInt8} (h : old.length ≤ file.length) :
    fread old file = (file.take old.length, file.drop old.length) := by
  rw [fread, List.drop_eq_nil_of_le h, List.append_nil]

/-! ### The mask file -/

/-- Coefficient `n` of a mask file. -/
def coefficient (filterFile : List UInt8) (n : ℕ) : Int16 :=
  decodeInt16 ((filterFile.drop (2 * n)).take 2)

/-- The first `n` coefficients have been read. -/
structure FilterRead (file : List UInt8) (m : Heap) (k p : ℕ) (s : Heap × List UInt8) : Prop where
  rest : s.2 = file.drop (2 * (7 * k + p))
  read : ∀ k' p', p' < 7 → (k' < k ∨ k' = k ∧ p' < p) →
    s.1.filter (UInt32.ofNat k') (UInt32.ofNat p') = (coefficient file (7 * k' + p')).toInt32
  log : s.1.log = m.log
  elements : s.1.elements = m.elements

theorem FilterRead.step {file : List UInt8} (hfile : 98 ≤ file.length) {m : Heap} {k p : UInt32}
    {s : Heap × List UInt8} (h : FilterRead file m k.toNat p.toNat s) (hk : k.toNat < 7)
    (hp : p.toNat < 7) :
    FilterRead file m k.toNat (p.toNat + 1) (readCoefficient k p s) := by
  have hread : fread (encodeInt16 s.1.readValueInt) s.2 =
      ((file.drop (2 * (7 * k.toNat + p.toNat))).take 2,
        file.drop (2 * (7 * k.toNat + p.toNat) + 2)) := by
    rw [h.rest, fread_of_le (by rw [length_encodeInt16, List.length_drop]; omega),
      length_encodeInt16, List.drop_drop]
  unfold readCoefficient
  rw [hread]
  refine ⟨rfl, fun k' p' hp' hdone => ?_, h.log, h.elements⟩
  show update₂ s.1.filter k p (coefficient file (7 * k.toNat + p.toNat)).toInt32
    (UInt32.ofNat k') (UInt32.ofNat p') = _
  rw [update₂_ofNat _ _ _ _ (by omega) (by omega)]
  split
  · rename_i hcell
    rw [hcell.1, hcell.2]
  · exact h.read k' p' hp' (by omega)

/-- **Reading the mask.** -/
theorem readFilter_read {file : List UInt8} (hfile : 98 ≤ file.length) (m : Heap) :
    ∃ s, readFilter file m = s.1 ∧ FilterRead file m 7 0 s := by
  refine ⟨_, rfl, ?_⟩
  show FilterRead file m filterSize.toNat 0 (forLoop 0 filterSize _ (m, file))
  refine forLoop_induction_zero (fun k => FilterRead file m k 0)
    ⟨rfl, fun k' p' _ hdone => by omega, rfl, rfl⟩ ?_
  intro k s hk hs
  have hrow : FilterRead file m k.toNat filterSize.toNat _ :=
    forLoop_induction_zero (FilterRead file m k.toNat) hs
      fun p s hp hs => hs.step hfile hk hp
  refine ⟨?_, fun k' p' hp' hdone => hrow.read k' p' hp' ?_, hrow.log, hrow.elements⟩
  · rw [hrow.rest]
    congr 1
  · simp only [toNat_filterSize]
    omega

/-- The coefficients read so far come from 16-bit words, also when the file has ended. -/
def ShortRead (k p : ℕ) (s : Heap × List UInt8) : Prop :=
  ∀ k' < 7, ∀ p' < 7, (k' < k ∨ k' = k ∧ p' < p) →
    -2 ^ 15 ≤ (s.1.filter (UInt32.ofNat k') (UInt32.ofNat p')).toInt ∧
      (s.1.filter (UInt32.ofNat k') (UInt32.ofNat p')).toInt < 2 ^ 15

theorem ShortRead.step {k p : UInt32} {s : Heap × List UInt8} (h : ShortRead k.toNat p.toNat s) :
    ShortRead k.toNat (p.toNat + 1) (readCoefficient k p s) := by
  intro k' hk' p' hp' hdone
  simp only [readCoefficient]
  rw [update₂_ofNat _ _ _ _ (by omega) (by omega)]
  split
  · exact toInt32_short _
  · exact h k' hk' p' hp' (by omega)

theorem shortFilter_readFilter (file : List UInt8) (m : Heap) :
    ShortFilter (readFilter file m) := by
  have hread : ShortRead filterSize.toNat 0 (forLoop 0 filterSize
      (fun i => forLoop 0 filterSize fun j => readCoefficient i j) (m, file)) := by
    refine forLoop_induction_zero (fun k => ShortRead k 0)
      (fun k' _ p' _ hdone => by omega) fun k s _ hs => ?_
    have hrow : ShortRead k.toNat filterSize.toNat _ :=
      forLoop_induction_zero (ShortRead k.toNat) hs fun p s _ hs => hs.step
    exact fun k' hk' p' hp' hdone => hrow k' hk' p' hp' (by simp only [toNat_filterSize]; omega)
  exact fun k hk p hp => hread k hk p hp (.inl hk)

/-! ### Parts that keep the contents -/

/-- Everything but the block sizes and the log. -/
def contents (m : Heap) : Heap := { m with elements := fun _ => 0, log := [] }

theorem inputs_of_contents {m m' : Heap} (h : contents m' = contents m) :
    SameInputs m m' ∧ m'.inputBuf = m.inputBuf ∧ m'.outputBuf = m.outputBuf := by
  obtain ⟨⟩ := m
  obtain ⟨⟩ := m'
  simp only [contents, Heap.mk.injEq] at h
  obtain ⟨-, hfilter, hwidth, hheight, hinput, himage, houtput, -⟩ := h
  exact ⟨⟨hfilter, hwidth, hheight, himage⟩, hinput, houtput⟩

theorem contents_allocateColumns (w h : UInt32) (m : Heap) :
    contents (allocateColumns w h m) = contents m :=
  forLoop_preserves (fun m' => contents m' = contents m) rfl fun _ _ hm' => hm'

theorem contents_freeColumns (w : UInt32) (m : Heap) :
    contents (freeColumns w m) = contents m :=
  forLoop_preserves (fun m' => contents m' = contents m) rfl fun _ _ hm' => hm'

theorem contents_readOutput (n : UInt32) (m : Heap) : contents (readOutput n m) = contents m :=
  forLoop_preserves (fun m' => contents m' = contents m) rfl fun _ _ hm' => hm'

/-! ### The image file -/

/-- `readHeader` on a file with a header. -/
theorem readHeader_encode (w h : UInt32) (pixels : List UInt8) (m : Heap) :
    readHeader (encodeUInt32 w ++ encodeUInt32 h ++ pixels) m =
      ({ m with width := w, height := h }, pixels) := by
  have hread : ∀ (old v : UInt32) (rest : List UInt8),
      fread (encodeUInt32 old) (encodeUInt32 v ++ rest) = (encodeUInt32 v, rest) := by
    intro old v rest
    rw [fread_of_le (by rw [List.length_append, length_encodeUInt32, length_encodeUInt32]; omega),
      length_encodeUInt32, ← length_encodeUInt32 v, List.take_left, List.drop_left]
  simp only [readHeader, List.append_assoc, hread, decodeUInt32_encodeUInt32]

/-- The first `k` bytes have been stored. -/
structure PixelsRead (file : List UInt8) (m : Heap) (k : ℕ) (m' : Heap) : Prop where
  width : m'.width = m.width
  height : m'.height = m.height
  filter : m'.filter = m.filter
  read : ∀ k' : UInt32, k'.toNat < k → m'.inputBuf k' = file.getD k'.toNat 0

/-- **Reading the pixels.** -/
theorem readPixels_read {n : UInt32} {file : List UInt8} (h : n.toNat ≤ file.length) (m : Heap) :
    PixelsRead file m n.toNat (readPixels n file m) := by
  unfold readPixels
  rw [Nat.min_eq_left h, UInt32.ofNat_toNat]
  refine forLoop_induction_zero (PixelsRead file m) ⟨rfl, rfl, rfl, fun k' hk' => by omega⟩ ?_
  intro k s _ hs
  refine ⟨hs.width, hs.height, hs.filter, fun k' hk' => ?_⟩
  show Function.update s.inputBuf k (file.getD k.toNat 0) k' = _
  by_cases heq : k' = k
  · rw [heq, Function.update_self]
  · rw [Function.update_of_ne heq]
    have hne : k'.toNat ≠ k.toNat := fun h => heq (UInt32.toNat_inj.mp h)
    exact hs.read k' (by omega)

/-! ### Both files -/

/-- What is in memory before the padding. -/
structure Loaded (filterFile : List UInt8) (w h : UInt32) (pixels : List UInt8) (m : Heap) :
    Prop where
  width : m.width = w
  height : m.height = h
  filter : ∀ k < 7, ∀ p < 7, m.filter (UInt32.ofNat k) (UInt32.ofNat p) =
    (coefficient filterFile (7 * k + p)).toInt32
  inputBuf : ∀ k : UInt32, k.toNat < (h * w).toNat → m.inputBuf k = pixels.getD k.toNat 0

theorem Loaded.of_contents {filterFile pixels : List UInt8} {w h : UInt32} {m m' : Heap}
    (hm : Loaded filterFile w h pixels m) (hc : contents m' = contents m) :
    Loaded filterFile w h pixels m' := by
  obtain ⟨hin, hinput, -⟩ := inputs_of_contents hc
  exact ⟨hin.width.trans hm.width, hin.height.trans hm.height, hin.filter ▸ hm.filter,
    hinput ▸ hm.inputBuf⟩

/-- **Loading.** -/
theorem load_loaded {filterFile pixels : List UInt8} {w h : UInt32}
    (hfilter : 98 ≤ filterFile.length) (hpixels : (h * w).toNat ≤ pixels.length) (m : Heap) :
    Loaded filterFile w h pixels
      (load filterFile (encodeUInt32 w ++ encodeUInt32 h ++ pixels) m) := by
  obtain ⟨s, hs, hread⟩ := readFilter_read hfilter m
  simp only [load, hs, readHeader_encode]
  refine Loaded.of_contents ?_ (contents_allocateColumns _ _ _)
  have hpix := readPixels_read hpixels
    (Heap.malloc { s.1 with width := w, height := h } .inputBuf (1 * h * w))
  refine ⟨hpix.width, hpix.height, fun k hk p hp => ?_, hpix.read⟩
  exact (congrFun (congrFun hpix.filter _) _).trans (hread.read k p hp (.inl hk))

/-- Whatever the files, the coefficients loaded come from 16-bit words. -/
theorem shortFilter_load (filterFile imageFile : List UInt8) (m : Heap) :
    ShortFilter (load filterFile imageFile m) := by
  have hpixels : ∀ (n : UInt32) (file : List UInt8) (m : Heap),
      (readPixels n file m).filter = m.filter := fun n file m =>
    forLoop_preserves (fun m' : Heap => m'.filter = m.filter) rfl fun _ _ hm' => hm'
  have hread := shortFilter_readFilter filterFile m
  unfold load readHeader ShortFilter
  generalize readFilter filterFile m = m₀ at hread
  simp only [(inputs_of_contents (contents_allocateColumns _ _ _)).1.filter, hpixels, malloc]
  exact hread

end FirFilter.Software
