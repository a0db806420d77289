import FirFilter.Software.Replication
import FirFilter.Software.Scripts
/-!
# FirFilter.Software.ShortFiles

Files that are too short.

`main.c` does not look at what `fread` returns. Bytes that a file does not have are those
that the buffer held: for the mask this is one word, read again and again, so that a short
mask repeats its last coefficient; for the image it is what the new blocks of the two sizes
and of `input_buf` happen to hold. A turn on any files is therefore a turn on complete ones,
and what they have beyond the files is what `malloc` gave, whatever the turns before did.
-/

namespace FirFilter.Software

open Heap

/-! ### `fread` -/

theorem length_fread (old file : List UInt8) : (fread old file).1.length = old.length := by
  rw [fread, List.length_append, List.length_take, List.length_drop]
  omega

/-- Each byte is that of the file, or else what it was. -/
theorem getD_fread (old file : List UInt8) (k : ℕ) (v : UInt8) :
    (fread old file).1.getD k v = if k < old.length then file.getD k (old.getD k v) else v := by
  split
  · rename_i hk
    rcases Nat.lt_or_ge k file.length with hlt | hge
    · rw [fread, List.getD_append _ _ _ _ (by rw [List.length_take]; omega),
        List.getD_eq_getElem _ _ (by rw [List.length_take]; omega), List.getElem_take,
        List.getD_eq_getElem _ _ hlt]
    · have htake : file.take old.length = file := List.take_of_length_le (by omega)
      rw [fread, htake, List.getD_append_right _ _ _ _ hge, List.getD_eq_default file _ hge,
        List.getD_eq_getElem _ _ (by rw [List.length_drop]; omega), List.getElem_drop,
        List.getD_eq_getElem _ _ hk]
      congr 1
      omega
  · rename_i hk
    exact List.getD_eq_default _ _ (by rw [length_fread]; omega)

/-- Two objects one after the other are read like one. -/
theorem fread_append (a b file : List UInt8) : fread (a ++ b) file =
    ((fread a file).1 ++ (fread b (fread a file).2).1, (fread b (fread a file).2).2) := by
  simp only [fread, List.drop_drop, List.length_append, List.length_drop, Prod.mk.injEq, and_true]
  rcases Nat.le_total file.length a.length with hle | hle
  · rw [List.take_of_length_le (by omega), List.take_of_length_le hle,
      List.drop_eq_nil_of_le hle, Nat.sub_eq_zero_of_le hle, List.drop_append_of_le_length hle]
    simp
  · rw [List.take_add, List.drop_eq_nil_of_le hle, List.drop_append, List.drop_eq_nil_of_le hle]
    simp

/-! ### The mask -/

/-- `*read_value_int` after `n` reads: the word of the file, and at its end the last one,
with its low byte replaced when a single byte is left. -/
def heldWord (old : Int16) (file : List UInt8) (n : ℕ) : List UInt8 :=
  let words := encodeInt16 old ++ file
  if 2 * n ≤ file.length then (words.drop (2 * n)).take 2
  else if file.length % 2 = 0 then words.drop file.length
  else (words.drop file.length).reverse

theorem length_heldWord (old : Int16) (file : List UInt8) (n : ℕ) :
    (heldWord old file n).length = 2 := by
  have hwords : (encodeInt16 old ++ file).length = file.length + 2 := by
    rw [List.length_append, length_encodeInt16, Nat.add_comm]
  unfold heldWord
  dsimp only
  split_ifs
  · rw [List.length_take, List.length_drop, hwords]
    omega
  · rw [List.length_drop, hwords]
    omega
  · rw [List.length_reverse, List.length_drop, hwords]
    omega

/-- **One coefficient**, of any file. -/
theorem fread_heldWord (old : Int16) (file : List UInt8) (n : ℕ) :
    fread (heldWord old file n) (file.drop (2 * n)) =
      (heldWord old file (n + 1), file.drop (2 * (n + 1))) := by
  have hfile : ∀ k, file.drop k = (encodeInt16 old ++ file).drop (2 + k) := fun k => by
    rw [← List.drop_drop, List.drop_left' (length_encodeInt16 old)]
  have hwords : (encodeInt16 old ++ file).length = file.length + 2 := by
    rw [List.length_append, length_encodeInt16, Nat.add_comm]
  rw [fread, length_heldWord, List.drop_drop, List.length_drop]
  refine Prod.ext ?_ rfl
  dsimp only
  have htail : ((encodeInt16 old ++ file).drop file.length).length = 2 := by
    rw [List.length_drop, hwords]
    omega
  rcases Nat.lt_trichotomy file.length (2 * n + 1) with hlt | heq | hgt
  · -- nothing is left of the file
    have hsame : heldWord old file n = heldWord old file (n + 1) := by
      simp only [heldWord, if_neg (show ¬ 2 * (n + 1) ≤ file.length by omega)]
      split
      · have heq : file.length = 2 * n := by omega
        rw [if_pos (by omega), ← heq, List.take_of_length_le htail.le]
      · rfl
    rw [List.drop_eq_nil_of_le (Nat.le_of_lt_succ hlt), List.take_nil, List.nil_append,
      Nat.sub_eq_zero_of_le (Nat.le_of_lt_succ hlt), List.drop_zero, hsame]
  · -- one byte is left, and the high one stays
    obtain ⟨x, y, hxy⟩ := List.length_eq_two.mp htail
    have hlow : file.drop (2 * n) = [y] := by
      rw [hfile, show 2 + 2 * n = file.length + 1 by omega, ← List.drop_drop, hxy]
      rfl
    have hhigh : (heldWord old file n).drop (file.length - 2 * n) = [x] := by
      simp only [heldWord, if_pos (show 2 * n ≤ file.length by omega)]
      rw [List.drop_take, List.drop_drop, show 2 * n + (file.length - 2 * n) = file.length by omega,
        hxy, heq, Nat.add_sub_cancel_left]
      rfl
    rw [hlow, hhigh]
    simp only [heldWord, if_neg (show ¬ 2 * (n + 1) ≤ file.length by omega),
      if_neg (show ¬ file.length % 2 = 0 by omega), hxy]
    rfl
  · have hnone : (heldWord old file n).drop (file.length - 2 * n) = [] :=
      List.drop_eq_nil_of_le (by rw [length_heldWord]; omega)
    rw [hnone, List.append_nil, hfile]
    simp only [heldWord, if_pos (show 2 * (n + 1) ≤ file.length by omega)]
    rw [Nat.mul_succ, Nat.add_comm 2]

theorem encodeInt16_decodeInt16 {bytes : List UInt8} (h : bytes.length = 2) :
    encodeInt16 (decodeInt16 bytes) = bytes := by
  have hlt := decodeLE_lt bytes
  have hback := encodeLE_decodeLE bytes
  rw [h] at hlt hback
  rw [encodeInt16, decodeInt16, UInt16.toUInt16_toInt16, UInt16.toNat_ofNat_of_lt' hlt, hback]

theorem encodeUInt32_decodeUInt32 {bytes : List UInt8} (h : bytes.length = 4) :
    encodeUInt32 (decodeUInt32 bytes) = bytes := by
  have hlt := decodeLE_lt bytes
  have hback := encodeLE_decodeLE bytes
  rw [h] at hlt hback
  rw [encodeUInt32, decodeUInt32, toNat_ofNat_of_lt hlt, hback]

/-- The mask file that is read. -/
def completeMask (old : Int16) (file : List UInt8) : List UInt8 :=
  ((List.range 49).map fun n => decodeInt16 (heldWord old file (n + 1))).flatMap encodeInt16

theorem length_completeMask (old : Int16) (file : List UInt8) :
    (completeMask old file).length = 98 := by
  simp [completeMask, List.length_flatMap, length_encodeInt16, Function.comp_def]

theorem coefficient_completeMask (old : Int16) (file : List UInt8) {n : ℕ} (hn : n < 49) :
    coefficient (completeMask old file) n = decodeInt16 (heldWord old file (n + 1)) := by
  rw [completeMask, coefficient_flatMap _ (by simpa using hn)]
  simp

/-! ### The files that are read -/

namespace Heap

variable (m : Heap)

/-- The header that is read. -/
def header (imageFile : List UInt8) : List UInt8 :=
  (fread (encodeUInt32 m.width ++ encodeUInt32 m.height) imageFile).1

def readWidth (imageFile : List UInt8) : UInt32 := decodeUInt32 ((m.header imageFile).take 4)

def readHeight (imageFile : List UInt8) : UInt32 := decodeUInt32 ((m.header imageFile).drop 4)

/-- The pixels that are read. -/
def pixels (imageFile : List UInt8) : List UInt8 :=
  (fread ((List.range (m.readHeight imageFile * m.readWidth imageFile).toNat).map
    fun k => m.inputBuf (UInt32.ofNat k)) (imageFile.drop 8)).1

theorem length_pixels (imageFile : List UInt8) : (m.pixels imageFile).length =
    (m.readHeight imageFile * m.readWidth imageFile).toNat := by
  rw [pixels, length_fread, List.length_map, List.length_range]

/-- The mask and the image file that are read, when the new blocks hold `m`. -/
def complete (f : List UInt8 × List UInt8) : List UInt8 × List UInt8 :=
  (completeMask m.readValueInt f.1, m.header f.2 ++ m.pixels f.2)

theorem complete_image (f : List UInt8 × List UInt8) : (m.complete f).2 =
    encodeUInt32 (m.readWidth f.2) ++ encodeUInt32 (m.readHeight f.2) ++ m.pixels f.2 := by
  have hlen : (m.header f.2).length = 8 := by
    rw [header, length_fread, List.length_append, length_encodeUInt32, length_encodeUInt32]
  rw [readWidth, readHeight, encodeUInt32_decodeUInt32 (by rw [List.length_take, hlen]; rfl),
    encodeUInt32_decodeUInt32 (by rw [List.length_drop, hlen]), List.take_append_drop]
  rfl

end Heap

/-! ### Reading -/

/-- The first `n` coefficients have been read. -/
structure MaskRead (file : List UInt8) (m : Heap) (k p : ℕ) (s : Heap × List UInt8) : Prop where
  rest : s.2 = file.drop (2 * (7 * k + p))
  word : s.1.readValueInt = decodeInt16 (heldWord m.readValueInt file (7 * k + p))
  width : s.1.width = m.width
  height : s.1.height = m.height
  inputBuf : s.1.inputBuf = m.inputBuf
  read : ∀ k' p', p' < 7 → (k' < k ∨ k' = k ∧ p' < p) →
    s.1.filter (UInt32.ofNat k') (UInt32.ofNat p') =
      (coefficient (completeMask m.readValueInt file) (7 * k' + p')).toInt32

theorem MaskRead.step {file : List UInt8} {m : Heap} {k p : UInt32} {s : Heap × List UInt8}
    (h : MaskRead file m k.toNat p.toNat s) (hk : k.toNat < 7) :
    MaskRead file m k.toNat (p.toNat + 1) (readCoefficient k p s) := by
  have hread := fread_heldWord m.readValueInt file (7 * k.toNat + p.toNat)
  rw [← encodeInt16_decodeInt16 (length_heldWord _ _ (7 * k.toNat + p.toNat)),
    ← h.word, ← h.rest] at hread
  unfold readCoefficient
  rw [hread]
  refine ⟨rfl, rfl, h.width, h.height, h.inputBuf, fun k' p' hp' hdone => ?_⟩
  show update₂ s.1.filter k p _ (UInt32.ofNat k') (UInt32.ofNat p') = _
  rw [update₂_ofNat _ _ _ _ (by omega) (by omega)]
  split
  · rename_i hcell
    rw [hcell.1, hcell.2, coefficient_completeMask _ _ (by omega)]
  · exact h.read k' p' hp' (by omega)

/-- **Reading a mask**, of any length. -/
theorem readFilter_completes (file : List UInt8) (m : Heap) :
    ∃ s, readFilter file m = s.1 ∧ MaskRead file m 7 0 s := by
  refine ⟨_, rfl, ?_⟩
  show MaskRead file m filterSize.toNat 0 (forLoop 0 filterSize _ (m, file))
  refine forLoop_induction_zero (fun k => MaskRead file m k 0)
    ⟨rfl, (decodeInt16_encodeInt16 _).symm, rfl, rfl, rfl, fun k' p' _ hdone => by omega⟩ ?_
  · intro k s hk hs
    have hrow : MaskRead file m k.toNat filterSize.toNat _ :=
      forLoop_induction_zero (MaskRead file m k.toNat) hs fun p s _ hs => hs.step hk
    refine ⟨hrow.rest, hrow.word, hrow.width, hrow.height, hrow.inputBuf,
      fun k' p' hp' hdone => hrow.read k' p' hp' ?_⟩
    simp only [toNat_filterSize]
    omega

/-- **Reading a header**, of any length. -/
theorem readHeader_completes (file : List UInt8) (m : Heap) : readHeader file m =
    ({ m with width := m.readWidth file, height := m.readHeight file },
      file.drop 8) := by
  have hheader : m.header file = (fread (encodeUInt32 m.width) file).1 ++
      (fread (encodeUInt32 m.height) (fread (encodeUInt32 m.width) file).2).1 :=
    congrArg Prod.fst (fread_append (encodeUInt32 m.width) (encodeUInt32 m.height) file)
  have hlen : (fread (encodeUInt32 m.width) file).1.length = 4 :=
    (length_fread _ _).trans (length_encodeUInt32 _)
  have hrest : (fread (encodeUInt32 m.height) (fread (encodeUInt32 m.width) file).2).2 =
      file.drop 8 := by
    simp only [fread, List.drop_drop, length_encodeUInt32]
  rw [Heap.readWidth, Heap.readHeight, hheader, List.take_left' hlen, List.drop_left' hlen,
    ← hrest]
  rfl

/-- **Reading pixels**, as many as there are. -/
theorem readPixels_completes (n : UInt32) (file : List UInt8) (m : Heap) (k : UInt32) :
    (readPixels n file m).inputBuf k =
      (fread ((List.range n.toNat).map fun k => m.inputBuf (UInt32.ofNat k)) file).1.getD k.toNat
        (m.inputBuf k) := by
  have hcount : (UInt32.ofNat (min n.toNat file.length)).toNat = min n.toNat file.length :=
    toNat_ofNat_of_lt ((Nat.min_le_left _ _).trans_lt n.toNat_lt)
  have hloop : ∀ k, (readPixels n file m).inputBuf k =
      if k.toNat < min n.toNat file.length then file.getD k.toNat 0 else m.inputBuf k := by
    rw [← hcount]
    refine forLoop_induction_zero (fun j (s : Heap) => ∀ k : UInt32, s.inputBuf k =
      if k.toNat < j then file.getD k.toNat 0 else m.inputBuf k) (fun k => rfl) ?_
    intro j s _ hs k
    show Function.update s.inputBuf j (file.getD j.toNat 0) k = _
    by_cases heq : k = j
    · rw [heq, Function.update_self, if_pos (Nat.lt_succ_self _)]
    · have hne : k.toNat ≠ j.toNat := fun h => heq (UInt32.toNat_inj.mp h)
      rw [Function.update_of_ne heq, hs k]
      congr 1
      exact propext ⟨fun h => Nat.lt_succ_of_lt h, fun h => by omega⟩
  have hold : ∀ v, k.toNat < n.toNat →
      ((List.range n.toNat).map fun k => m.inputBuf (UInt32.ofNat k)).getD k.toNat v =
        m.inputBuf k := fun v hk => by
    rw [List.getD_eq_getElem _ _ (by simpa using hk), List.getElem_map, List.getElem_range,
      UInt32.ofNat_toNat]
  rw [hloop, getD_fread, List.length_map, List.length_range]
  by_cases hk : k.toNat < n.toNat
  · rw [if_pos hk, hold _ hk]
    by_cases hlt : k.toNat < file.length
    · rw [if_pos (lt_min hk hlt), List.getD_eq_getElem _ _ hlt, List.getD_eq_getElem _ _ hlt]
    · rw [if_neg fun h => hlt (h.trans_le (Nat.min_le_right _ _)),
        List.getD_eq_default _ _ (Nat.le_of_not_lt hlt)]
  · rw [if_neg hk, if_neg fun h => hk (h.trans_le (Nat.min_le_left _ _))]

theorem readPixels_keeps (n : UInt32) (file : List UInt8) (m : Heap) :
    let m' := readPixels n file m
    m'.width = m.width ∧ m'.height = m.height ∧ m'.filter = m.filter :=
  forLoop_preserves (fun m' : Heap => m'.width = m.width ∧ m'.height = m.height ∧
    m'.filter = m.filter) ⟨rfl, rfl, rfl⟩ fun _ _ hs => hs

/-- **Loading files**, of any length. -/
theorem load_completes (f : List UInt8 × List UInt8) (m : Heap) :
    Loaded (m.complete f).1 (m.readWidth f.2) (m.readHeight f.2) (m.pixels f.2)
      (load f.1 f.2 m) := by
  obtain ⟨s, hs, hread⟩ := readFilter_completes f.1 m
  have hheader : s.1.header f.2 = m.header f.2 := by
    simp only [Heap.header, hread.width, hread.height]
  have hwidth : s.1.readWidth f.2 = m.readWidth f.2 := by
    rw [Heap.readWidth, hheader, Heap.readWidth]
  have hheight : s.1.readHeight f.2 = m.readHeight f.2 := by
    rw [Heap.readHeight, hheader, Heap.readHeight]
  simp only [load, hs, readHeader_completes, hwidth, hheight, height_malloc, width_malloc]
  generalize hm₁ : Heap.malloc { s.1 with width := m.readWidth f.2,
                                          height := m.readHeight f.2 } .inputBuf _ = m₁
  have hbuf : m₁.inputBuf = m.inputBuf := by
    rw [← hm₁]
    exact hread.inputBuf
  have hpixels := readPixels_completes (m.readHeight f.2 * m.readWidth f.2) (f.2.drop 8) m₁
  obtain ⟨hw, hh, hfilter⟩ := readPixels_keeps (m.readHeight f.2 * m.readWidth f.2)
    (f.2.drop 8) m₁
  generalize readPixels _ _ m₁ = m₂ at hpixels hw hh hfilter
  rw [← hm₁] at hw hh hfilter
  simp only [hbuf] at hpixels
  have hload : Loaded (m.complete f).1 (m.readWidth f.2) (m.readHeight f.2) (m.pixels f.2) m₂ := by
    refine ⟨hw, hh, fun k hk p hp => ?_, fun k hk => ?_⟩
    · rw [hfilter]
      exact hread.read k p hp (.inl hk)
    · have hlt : k.toNat < (m.pixels f.2).length := by rwa [Heap.length_pixels]
      rw [hpixels]
      show (m.pixels f.2).getD k.toNat _ = _
      rw [List.getD_eq_getElem _ _ hlt, List.getD_eq_getElem _ _ hlt]
  exact hload.of_contents (contents_allocateColumns m₂.width m₂.height
    (m₂.malloc .image (4 * (m₂.width + 2 * paddingSize))))

/-! ### Turns -/

theorem header_inj {w h w' h' : UInt32} {pixels pixels' : List UInt8}
    (heq : encodeUInt32 w ++ encodeUInt32 h ++ pixels =
      encodeUInt32 w' ++ encodeUInt32 h' ++ pixels') : w = w' ∧ h = h' ∧ pixels = pixels' := by
  have hread := congrArg (fun file => readHeader file emptyHeap) heq
  simp only [readHeader_encode, Prod.mk.injEq] at hread
  exact ⟨congrArg Heap.width hread.1, congrArg Heap.height hread.1, hread.2⟩

/-- **Step lemma.** An iteration on any files writes what one on the complete files does. -/
theorem mainIteration_completes {f : List UInt8 × List UInt8} {m : Heap}
    (hf : CompleteFiles (m.complete f)) (m₀ : Heap) :
    (mainIteration f.1 f.2 m).2 = (mainIteration (m.complete f).1 (m.complete f).2 m₀).2 := by
  obtain ⟨hmask, d, pixels, himage, hpixels⟩ := hf
  have hload := load_completes f m
  obtain ⟨hwidth, hheight, rfl⟩ := header_inj ((Heap.complete_image m f).symm.trans himage)
  rw [hwidth, hheight] at hload
  obtain ⟨hit, hout⟩ := hload.iterated
  obtain ⟨hit', hout'⟩ := mainIteration_iterated d hmask hpixels m₀
  rw [himage, hout, hout']
  exact outputFile_of_iterated hit hit'

namespace MainTurn

variable (t : MainTurn)

/-- The complete files of a turn: what a file does not have is what the new blocks of this turn
hold. -/
def complete : List UInt8 × List UInt8 := t.fresh.complete t.files

/-- The sizes that the turn reads. -/
def width : UInt32 := t.fresh.readWidth t.files.2

def height : UInt32 := t.fresh.readHeight t.files.2

/-- The sizes are those of an image that `main.c` can filter. -/
def Sized : Prop := ∃ d : OutputSize, d.width = t.width ∧ d.height = t.height

variable {t}

theorem Sized.completeFiles (ht : t.Sized) : CompleteFiles t.complete := by
  obtain ⟨d, hw, hh⟩ := ht
  refine ⟨(length_completeMask _ _).ge, d.toImageSize, t.fresh.pixels t.files.2, ?_, ?_⟩
  · rw [complete, complete_image, hw, hh]
    rfl
  · have hlen : (t.fresh.pixels t.files.2).length = (t.height * t.width).toNat :=
      Heap.length_pixels _ _
    rw [hlen, ← hw, ← hh, toNat_mul_of_lt (by rw [Nat.mul_comm]; exact d.pixels_lt),
      Nat.mul_comm]

/-- A turn loads its complete files. -/
theorem loaded (t : MainTurn) (m : Heap) :
    Loaded t.complete.1 t.width t.height (t.fresh.pixels t.files.2)
      (load t.files.1 t.files.2 (m.renew t.fresh)) :=
  load_completes t.files (m.renew t.fresh)

/-- **Step lemma.** A turn writes what an iteration on its complete files does. -/
theorem Sized.run_completes (ht : t.Sized) (m m₀ : Heap) :
    (t.run m).2 = (mainIteration t.complete.1 t.complete.2 m₀).2 :=
  mainIteration_completes (m := m.renew t.fresh) ht.completeFiles m₀

end MainTurn

/-- **Short files.** The complete files of the turns are complete, and a run of `main.c` on any
files writes, turn by turn, what any run on the complete files of its turns writes, from any
heap and with anything in the new blocks of that run. -/
theorem mainLoop_completes (m m' : Heap) {ts : List MainTurn} (hts : ∀ t ∈ ts, t.Sized) :
    (∀ t ∈ ts, CompleteFiles t.complete) ∧ ∀ ts' : List MainTurn,
      ts'.map MainTurn.files = ts.map MainTurn.complete → mainLoop m ts = mainLoop m' ts' := by
  refine ⟨fun t ht => (hts t ht).completeFiles, fun ts' hsame => ?_⟩
  induction ts generalizing m m' ts' with
  | nil =>
      rw [List.map_eq_nil_iff.mp hsame]
      rfl
  | cons t ts ih =>
      obtain ⟨t', ts', rfl, hfiles, hrest⟩ := List.map_eq_cons_iff.mp hsame
      have hturn : (t.run m).2 = (t'.run m').2 := by
        rw [(hts t List.mem_cons_self).run_completes m (m'.renew t'.fresh), ← hfiles]
        rfl
      have hts' := fun t ht => hts t (List.mem_cons_of_mem _ ht)
      rw [mainLoop, mainLoop, hturn, ih _ _ hts' ts' hrest]

/-- One coefficient and one pixel; and then a mask without any bytes and an image that ends in
its header, when the new blocks hold `2048`, a height of `1` and pixels of `100`. -/
theorem mainLoop_completes_short :
    mainLoop emptyHeap
        [⟨([0, 8], [1, 0, 0, 0, 1, 0, 0, 0, 200]), emptyHeap⟩,
          ⟨([], [1]), { emptyHeap with readValueInt := 2048, height := 1,
                                       inputBuf := fun _ => 100 }⟩] =
      mainLoop emptyHeap
        [⟨((List.replicate 49 [0, 8]).flatten, [1, 0, 0, 0, 1, 0, 0, 0, 200]), emptyHeap⟩,
          ⟨((List.replicate 49 [0, 8]).flatten, [1, 0, 0, 0, 1, 0, 0, 0, 100]), emptyHeap⟩] := by
  refine (mainLoop_completes emptyHeap emptyHeap fun t ht => ?_).2 _ ?_
  · refine ⟨⟨⟨1, 1, by decide, by decide, by decide, by decide, by decide⟩, by decide⟩, ?_⟩
    rcases List.mem_pair.mp ht with rfl | rfl <;> exact ⟨rfl, rfl⟩
  · decide +kernel

end FirFilter.Software
