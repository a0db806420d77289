import FirFilter.Lib.Ownership
import FirFilter.Software.Bounds
import FirFilter.Software.ShortFiles
/-!
# FirFilter.Software.Allocation

Every `malloc` and `free` of `main.c`, in the account of its pointers.

`Heap` knows the blocks that hold image data. Here are all of them: the mask, its rows, the
two sizes and the buffer of a coefficient as well. Each part of an iteration has the
account of its allocations next to it, with the sizes as the source computes them, and the
parts agree on the blocks that both know (`Matches`). The rows of the mask are the blocks
that nothing frees: `free(filter)` frees the array of the pointers to them.

The account keeps every pointer apart, as `main.c` does only while it stores nothing outside
of its blocks: `image` holds the pointers to the columns. The results are therefore about
turns with a `SafeHeader`, where no access leaves its block.
-/

namespace FirFilter.Software

open Ownership Ownership.Account Heap

/-- The pointers that `main.c` allocates to. -/
inductive Pointer
  | filter
  | readValueInt
  | filterRow (i : UInt32)
  | width
  | height
  | data (b : Buffer)
  deriving DecidableEq

/-! ### The account of an iteration -/

/-- "read filter" -/
def accountFilter (p : Account Pointer) : Account Pointer :=
  forLoop 0 filterSize (fun i p => p.malloc (.filterRow i) (4 * filterSize).toNat)
    ((p.malloc .filter (4 * filterSize).toNat).malloc .readValueInt 2)

/-- "read image", up to the allocation of `image`. -/
def accountImage (w h : UInt32) (p : Account Pointer) : Account Pointer :=
  let p := (p.malloc .width 4).malloc .height 4
  let p := p.malloc (.data .inputBuf) (1 * h * w).toNat
  let p := p.malloc (.data .image) (4 * (w + 2 * paddingSize)).toNat
  forLoop 0 (w + 2 * paddingSize)
    (fun i p => p.malloc (.data (.column i)) (1 * (h + 2 * paddingSize)).toNat) p

/-- From the padding to the filter loops. -/
def accountFiltering (w h : UInt32) (p : Account Pointer) : Account Pointer :=
  (p.free (.data .inputBuf)).malloc (.data .outputBuf) (2 * w * h).toNat

/-- The rest: the columns, `image`, `output_buf` and the small blocks. -/
def accountFinish (w : UInt32) (p : Account Pointer) : Account Pointer :=
  let p := forLoop 0 (w + 2 * paddingSize) (fun i p => p.free (.data (.column i))) p
  let p := (p.free (.data .image)).free (.data .outputBuf)
  (((p.free .filter).free .height).free .width).free .readValueInt

/-- The account of one iteration, for the size that was read. -/
def accountIteration (w h : UInt32) (p : Account Pointer) : Account Pointer :=
  accountFinish w (accountFiltering w h (accountImage w h (accountFilter p)))

/-! ### One iteration -/

/-- Between two iterations: the pointers but for the rows own nothing. -/
def Idle (p : Account Pointer) : Prop := ∀ a, (∀ i, a ≠ .filterRow i) → p.owned a = none

theorem column_injective : Function.Injective fun i => Pointer.data (.column i) := fun i j h => by
  simpa using h

theorem filterRow_injective : Function.Injective Pointer.filterRow := fun i j h => by simpa using h

variable {p : Account Pointer} {k n : ℕ} {w h : UInt32}

/-- After "read filter". -/
structure FilterHeld (q : Account Pointer) : Prop where
  filter : q.owned .filter = some 28
  readValueInt : q.owned .readValueInt = some 2

theorem accountFilter_held (hp : Idle p) (hlive : p.Live k n) :
    FilterHeld (accountFilter p) ∧ (accountFilter p).Live (k + 9) (n + 226) ∧
      ∀ a, (∀ i, a ≠ .filterRow i) → a ≠ .filter → a ≠ .readValueInt →
        (accountFilter p).owned a = none := by
  obtain ⟨hlive', -, hkeep⟩ := forLoop_malloc filterRow_injective
    ((hlive.malloc .filter 28).malloc .readValueInt 2) filterSize 28
  have hrow : ∀ a, (∀ i, a ≠ .filterRow i) → ¬ Passed Pointer.filterRow filterSize.toNat a :=
    fun a ha ⟨i, _, hi⟩ => ha i hi
  refine ⟨⟨?_, ?_⟩, hlive', fun a ha h1 h2 => ?_⟩
  · exact (hkeep _ (hrow _ (by simp))).trans (by simp)
  · exact (hkeep _ (hrow _ (by simp))).trans (by simp)
  · refine (hkeep _ (hrow _ ha)).trans ?_
    rw [owned_malloc_of_ne h2, owned_malloc_of_ne h1]
    exact hp a ha

/-- The bytes of the blocks of an image. -/
def inputBytes (w h : UInt32) : ℕ := (1 * h * w).toNat
def imageBytes (w : UInt32) : ℕ := (4 * (w + 2 * paddingSize)).toNat
def columnBytes (h : UInt32) : ℕ := (1 * (h + 2 * paddingSize)).toNat
def outputBytes (w h : UInt32) : ℕ := (2 * w * h).toNat

/-- The columns that are allocated. -/
abbrev Columns (w : UInt32) (a : Pointer) : Prop :=
  Passed (fun i => Pointer.data (.column i)) (w + 2 * paddingSize).toNat a

/-- The blocks that are freed one by one in the end. -/
def single : List Pointer :=
  [.readValueInt, .width, .height, .filter, .data .outputBuf, .data .image]

/-- While the filter loops run. -/
structure ImageHeld (w h : UInt32) (q : Account Pointer) : Prop extends FilterHeld q where
  width : q.owned .width = some 4
  height : q.owned .height = some 4
  image : q.owned (.data .image) = some (imageBytes w)
  outputBuf : q.owned (.data .outputBuf) = some (outputBytes w h)
  columns : ∀ a, Columns w a → q.owned a = some (columnBytes h)
  others : ∀ a, (∀ i, a ≠ .filterRow i) → ¬ Columns w a → a ∉ single → q.owned a = none

theorem not_columns {a : Pointer} (ha : ∀ i, a ≠ .data (.column i)) : ¬ Columns w a :=
  fun ⟨i, _, hi⟩ => ha i hi

theorem accountFiltering_held (hp : Idle p) (hlive : p.Live k n) :
    let q := accountFiltering w h (accountImage w h (accountFilter p))
    ImageHeld w h q ∧ q.Live (k + 13 + (w + 2 * paddingSize).toNat)
      (n + 234 + imageBytes w + outputBytes w h +
        (w + 2 * paddingSize).toNat * columnBytes h) := by
  obtain ⟨hfilter, hlive, hnone⟩ := accountFilter_held hp hlive
  generalize accountFilter p = q at hfilter hlive hnone
  -- the blocks before the columns
  have hlive := (((hlive.malloc .width 4).malloc .height 4).malloc (.data .inputBuf)
    (inputBytes w h)).malloc (.data .image) (imageBytes w)
  obtain ⟨hlive, hcolumns, hkeep⟩ := forLoop_malloc column_injective hlive (w + 2 * paddingSize)
    (columnBytes h)
  change (accountImage w h q).Live _ _ at hlive
  change ∀ a, _ → (accountImage w h q).owned a = _ at hcolumns
  change ∀ a, _ → (accountImage w h q).owned a = _ at hkeep
  have hinput : (accountImage w h q).owned (.data .inputBuf) = some (inputBytes w h) := by
    rw [hkeep _ (not_columns (by simp))]
    simp
  have hafter : ∀ a, a ≠ .data .inputBuf → a ≠ .data .outputBuf →
      (accountFiltering w h (accountImage w h q)).owned a = (accountImage w h q).owned a := by
    intro a h1 h2
    rw [accountFiltering, owned_malloc_of_ne h2, owned_free_of_ne h1]
  refine ⟨?_, ?_⟩
  · refine ⟨⟨?_, ?_⟩, ?_, ?_, ?_, owned_malloc_self, fun a ha => ?_, fun a h1 h2 h3 => ?_⟩
    · rw [hafter _ (by simp) (by simp), hkeep _ (not_columns (by simp))]
      simp [hfilter.filter]
    · rw [hafter _ (by simp) (by simp), hkeep _ (not_columns (by simp))]
      simp [hfilter.readValueInt]
    · rw [hafter _ (by simp) (by simp), hkeep _ (not_columns (by simp))]
      simp
    · rw [hafter _ (by simp) (by simp), hkeep _ (not_columns (by simp))]
      simp
    · rw [hafter _ (by simp) (by simp), hkeep _ (not_columns (by simp))]
      simp
    · obtain ⟨i, hi, rfl⟩ := id ha
      rw [hafter _ (by simp) (by simp), hcolumns _ ha]
    · simp only [single, List.mem_cons, List.not_mem_nil, or_false, not_or] at h3
      obtain ⟨hr, hw, hh, hf, ho, hi⟩ := h3
      by_cases hin : a = .data .inputBuf
      · rw [hin, accountFiltering, owned_malloc_of_ne (by simp), owned_free_self]
      · rw [hafter a hin ho, hkeep a h2, owned_malloc_of_ne hi, owned_malloc_of_ne hin,
          owned_malloc_of_ne hh, owned_malloc_of_ne hw]
        exact hnone a h1 hf hr
  · have hlast : (accountImage w h q).Live (k + 12 + (w + 2 * paddingSize).toNat + 1)
        (n + 234 + imageBytes w + (w + 2 * paddingSize).toNat * columnBytes h + inputBytes w h) :=
      hlive.of_eq (by omega) (by omega)
    have hfilter : (accountFiltering w h (accountImage w h q)).Live _ (_ + outputBytes w h) :=
      (hlast.free hinput).malloc (.data .outputBuf) (outputBytes w h)
    exact hfilter.of_eq (by omega) (by omega)

theorem owned_accountFinish (q : Account Pointer) (a : Pointer) :
    (accountFinish w q).owned a = if a ∈ single then none else
      (forLoop 0 (w + 2 * paddingSize) (fun i p => p.free (.data (.column i))) q).owned a := by
  simp only [accountFinish, owned_free, single, List.mem_cons, List.not_mem_nil, or_false]
  split_ifs <;> simp_all

/-- **Step lemma.** An iteration frees every block it has allocated, through its owner, but
for the rows of the mask. -/
theorem Idle.iteration (hp : Idle p) (hlive : p.Live k n) (w h : UInt32) :
    Idle (accountIteration w h p) ∧ (accountIteration w h p).Live (k + 7) (n + 196) := by
  obtain ⟨hheld, hlive⟩ := accountFiltering_held (w := w) (h := h) hp hlive
  unfold accountIteration
  generalize accountFiltering w h (accountImage w h (accountFilter p)) = q at hheld hlive
  have hsplit : q.Live (k + 7 + 1 + 1 + 1 + 1 + 1 + 1 + (w + 2 * paddingSize).toNat)
      (n + 196 + 2 + 4 + 4 + 28 + outputBytes w h + imageBytes w +
        (w + 2 * paddingSize).toNat * columnBytes h) := hlive.of_eq (by omega) (by omega)
  obtain ⟨hlive, hcolumns, hkeep⟩ := forLoop_free column_injective hsplit hheld.columns
  constructor
  · intro a ha
    rw [owned_accountFinish]
    by_cases hmem : a ∈ single
    · rw [if_pos hmem]
    · rw [if_neg hmem]
      by_cases hcol : Columns w a
      · exact hcolumns a hcol
      · rw [hkeep a hcol]
        exact hheld.others a ha hcol hmem
  · have hthe : ∀ a, (∀ i, a ≠ .data (.column i)) → (forLoop 0 (w + 2 * paddingSize)
        (fun i p => p.free (.data (.column i))) q).owned a = q.owned a := fun a ha =>
      hkeep a (not_columns ha)
    unfold accountFinish
    generalize forLoop 0 (w + 2 * paddingSize) (fun i p => p.free (.data (.column i))) q = r
      at hlive hthe
    refine ((((((hlive.free ?_).free ?_).free ?_).free ?_).free ?_).free ?_)
    · simp [hthe, hheld.image]
    · simp [hthe, hheld.outputBuf]
    · simp [hthe, hheld.filter]
    · simp [hthe, hheld.height]
    · simp [hthe, hheld.width]
    · simp [hthe, hheld.readValueInt]

/-! ### The blocks of `Heap` -/

/-- The heap and the account agree on the blocks that hold image data. -/
def Matches (m : Heap) (p : Account Pointer) : Prop :=
  ∀ b, m.elements b = (p.owned (.data b)).getD 0 / b.elementSize

theorem Matches.malloc {m : Heap} (hm : Matches m p) (b : Buffer) (bytes : UInt32) :
    Matches (m.malloc b bytes) (p.malloc (.data b) bytes.toNat) := by
  intro b'
  by_cases hb : b' = b
  · subst hb
    rw [elements_malloc, owned_malloc_self, Option.getD_some]
  · rw [elements_malloc_of_ne m bytes hb, owned_malloc_of_ne (by simpa using hb)]
    exact hm b'

theorem Matches.free {m : Heap} (hm : Matches m p) (b : Buffer) :
    Matches (m.free b) (p.free (.data b)) := by
  intro b'
  rw [owned_free]
  by_cases hb : b' = b
  · subst hb
    simp [Heap.free]
  · rw [elements_free_of_ne m hb, if_neg (by simpa using hb)]
    exact hm b'

theorem Matches.of_elements {m m' : Heap} (hm : Matches m p) (h : m'.elements = m.elements) :
    Matches m' p := fun b => (congrFun h b).trans (hm b)

/-- Blocks that are not image data. -/
theorem Matches.of_owned {m : Heap} {q : Account Pointer} (hm : Matches m p)
    (h : ∀ b, q.owned (.data b) = p.owned (.data b)) : Matches m q := fun b => by
  rw [hm b, h b]

theorem matches_accountFilter {m : Heap} (hm : Matches m p) : Matches m (accountFilter p) := by
  refine forLoop_preserves (Matches m) (hm.of_owned (by simp)) fun i q hq => ?_
  exact hq.of_owned (by simp)

/-- Loading, for the size it reads. -/
theorem matches_load {m : Heap} (hm : Matches m p) (filterFile imageFile : List UInt8) :
    Matches (load filterFile imageFile m) (accountImage (load filterFile imageFile m).width
      (load filterFile imageFile m).height (accountFilter p)) := by
  obtain ⟨-, helements⟩ := readFilter_keeps filterFile m
  have hheader : (readHeader imageFile (readFilter filterFile m)).1.elements = m.elements :=
    helements
  have hfilter := (matches_accountFilter hm).of_elements hheader
  obtain ⟨hw, hh⟩ := load_sizes filterFile imageFile m
  rw [hw, hh]
  unfold load
  generalize readHeader imageFile (readFilter filterFile m) = r at hfilter
  simp only [height_malloc, width_malloc]
  have hpixels := sameParams_readPixels (r.1.height * r.1.width) r.2
    (r.1.malloc .inputBuf (1 * r.1.height * r.1.width))
  obtain ⟨hE, -⟩ := logs_readPixels (r.1.height * r.1.width) r.2
    (r.1.malloc .inputBuf (1 * r.1.height * r.1.width)) rfl
  generalize readPixels (r.1.height * r.1.width) r.2
    (r.1.malloc .inputBuf (1 * r.1.height * r.1.width)) = m₁ at hpixels hE
  have hwidth : m₁.width = r.1.width := hpixels.width
  have hheight : m₁.height = r.1.height := hpixels.height
  rw [hwidth, hheight]
  have hsizes : Matches r.1 (((accountFilter p).malloc .width 4).malloc .height 4) :=
    hfilter.of_owned (by simp)
  have hblocks := ((hsizes.malloc .inputBuf _).of_elements hE).malloc .image
    (4 * (r.1.width + 2 * paddingSize))
  exact forLoop_simulation hblocks fun i s t hst => (hst.malloc (.column i) _).of_elements rfl

theorem matches_filtering {m : Heap} (hm : Matches m p) :
    Matches (filtering (pad m.width m.height m)) (accountFiltering m.width m.height p) := by
  have hparams := sameParams_pad m.width m.height m
  obtain ⟨hrows, -⟩ := logs_padRows m.width m.height m rfl
  obtain ⟨hborder, -⟩ := logs_padBorder m.width m.height
    ((padRows m.width m.height m).free .inputBuf) rfl
  have hpad : Matches (pad m.width m.height m) (p.free (.data .inputBuf)) :=
    ((hm.of_elements hrows).free .inputBuf).of_elements hborder
  unfold filtering
  rw [hparams.width, hparams.height]
  exact (hpad.malloc .outputBuf _).of_elements (logs_filterImage _ _ _ rfl).1

theorem matches_finish {m : Heap} (hm : Matches m p) (n : UInt32) :
    Matches ((readOutput n ((freeColumns m.width m).free .image)).free .outputBuf)
      (accountFinish m.width p) := by
  have hcolumns : Matches (freeColumns m.width m) (forLoop 0 (m.width + 2 * paddingSize)
      (fun i p => p.free (.data (.column i))) p) :=
    forLoop_simulation hm fun i s t hst => (hst.of_elements rfl).free (.column i)
  have houtput := (hcolumns.free .image).of_elements (logs_readOutput n _ rfl).1
  exact (houtput.free .outputBuf).of_owned fun b => by simp [accountFinish]

/-- **The account is that of `mainIteration`.** -/
theorem mainIteration_matches {m : Heap} (hm : Matches m p) (filterFile imageFile : List UInt8) :
    Matches (mainIteration filterFile imageFile m).1
      (accountIteration (load filterFile imageFile m).width
        (load filterFile imageFile m).height p) := by
  have hload := matches_load hm filterFile imageFile
  unfold mainIteration accountIteration
  generalize load filterFile imageFile m = d at hload
  have hfiltering := matches_filtering hload
  have hwidth : (filtering (pad d.width d.height d)).width = d.width :=
    (sameParams_filtering _).width.trans (sameParams_pad _ _ d).width
  have hfinish := matches_finish hfiltering
  rw [hwidth] at hfinish
  simp only [hwidth]
  exact hfinish _

/-! ### The endless loop -/

/-- A turn with its account. -/
def accountedTurn (s : Heap × Account Pointer) (t : MainTurn) : Heap × Account Pointer :=
  ((t.run s.1).1, accountIteration t.width t.height s.2)

/-- **Step lemma.** The accesses that a turn adds to the log are in their blocks. -/
theorem log_run_inBounds {t : MainTurn} (ht : SafeHeader t.width t.height) (m : Heap) :
    ∃ es, (t.run m).1.log = es ++ m.log ∧ AllInBounds es := by
  obtain ⟨es, hlog, hiff⟩ := log_inBounds_iff t.files.1 t.files.2 (m.renew t.fresh)
    (t.loaded m).width (t.loaded m).height
  exact ⟨es, hlog, hiff.mpr ht⟩

/-- **Step lemma.** The account goes on to agree with the heap. -/
theorem Matches.turn {m : Heap} (hm : Matches m p) (t : MainTurn) :
    Matches (t.run m).1 (accountIteration t.width t.height p) := by
  have hturn := mainIteration_matches (m := m.renew t.fresh) hm t.files.1 t.files.2
  rwa [(t.loaded m).width, (t.loaded m).height] at hturn

/-- **The leak.** Started with nothing allocated, on any files whose sizes are safe, complete or
not: every access is in its block, no `free` is bad, between two turns no pointer but those to
the rows of the mask owns a block, and yet seven blocks more, with 196 bytes, are live after
every turn. The account agrees with the block sizes the accesses are checked against. -/
theorem mainLoop_leaks (m : Heap) (ts : List MainTurn)
    (hts : ∀ t ∈ ts, SafeHeader t.width t.height) :
    let s := ts.foldl accountedTurn ({ m with elements := fun _ => 0, log := [] }, empty Pointer)
    AllInBounds s.1.log ∧ s.2.Live (7 * ts.length) (196 * ts.length) ∧ Idle s.2 ∧
      Matches s.1 s.2 := by
  induction ts using List.reverseRecOn with
  | nil => exact ⟨nofun, ⟨rfl, rfl, rfl⟩, fun _ _ => rfl, fun _ => by simp [empty]⟩
  | append_singleton ts t ih =>
      obtain ⟨hbounds, hlive, hidle, hmatches⟩ :=
        ih fun t' ht' => hts t' (List.mem_append_left _ ht')
      simp only [List.foldl_append, List.foldl_cons, List.foldl_nil, List.length_append,
        List.length_singleton, Nat.mul_succ]
      have ht : SafeHeader t.width t.height := hts t (by simp)
      generalize ts.foldl accountedTurn _ = s at hbounds hlive hidle hmatches
      obtain ⟨es, hlog, hes⟩ := log_run_inBounds ht s.1
      obtain ⟨hidle', hlive'⟩ := hidle.iteration hlive t.width t.height
      refine ⟨?_, hlive', hidle', hmatches.turn t⟩
      rw [accountedTurn, hlog]
      exact allInBounds_append.mpr ⟨hes, hbounds⟩

/-- Two images of one pixel, the second one without the byte of its pixel. -/
theorem mainLoop_leaks_two :
    let s := [(⟨([0, 8], [1, 0, 0, 0, 1, 0, 0, 0, 200]), emptyHeap⟩ : MainTurn),
      ⟨([], [1, 0, 0, 0, 1]), emptyHeap⟩].foldl accountedTurn (emptyHeap, empty Pointer)
    AllInBounds s.1.log ∧ s.2.Live 14 392 := by
  have hleaks := mainLoop_leaks emptyHeap
    [⟨([0, 8], [1, 0, 0, 0, 1, 0, 0, 0, 200]), emptyHeap⟩,
      ⟨([], [1, 0, 0, 0, 1]), emptyHeap⟩] fun t ht => by
        rcases List.mem_pair.mp ht with rfl | rfl
        all_goals exact ⟨by decide +kernel, .inr (.inr (by decide +kernel))⟩
  exact ⟨hleaks.1, hleaks.2.1⟩

end FirFilter.Software
