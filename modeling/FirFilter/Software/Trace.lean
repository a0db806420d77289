import FirFilter.Software.Main
/-!
# FirFilter.Software.Trace

The accesses of every loop of `main.c`.

Which elements a loop touches depends on the dimensions only, never on the
contents of the arrays. So each loop has a trace, a list computed from the
dimensions and the block sizes, and the loop adds exactly this list to the log
(`logs_…`). The traces follow the loops they belong to; membership in them is
read off with `mem_forTrace`.
-/

namespace FirFilter.Software

open Heap

variable {E : Buffer → ℕ}

/-! ### The traces -/

/-- `fread` into `input_buf`. -/
def pixelsTrace (E : Buffer → ℕ) (n : UInt32) : List Access :=
  forTrace 0 n fun k => [⟨.inputBuf, k, true, E .inputBuf⟩]

/-- The loops over the pointers in `image`; `write` when they are stored. -/
def pointersTrace (E : Buffer → ℕ) (w : UInt32) (write : Bool) : List Access :=
  forTrace 0 (w + 2 * paddingSize) fun i => [⟨.image, i, write, E .image⟩]

/-- The first padding loop. -/
def rowsTrace (E : Buffer → ℕ) (w h : UInt32) : List Access :=
  forTrace paddingSize (h + paddingSize) fun i => forTrace 0 (w + 2 * paddingSize) fun j =>
    cellEntries E j i true ++ [⟨.inputBuf, inputIndex w i j, false, E .inputBuf⟩]

/-- The second padding loop. -/
def borderTrace (E : Buffer → ℕ) (w h : UInt32) : List Access :=
  forTrace 0 paddingSize fun i => forTrace 0 (w + 2 * paddingSize) fun j =>
    (cellEntries E j (h + 2 * paddingSize - i - 1) true ++
        cellEntries E j (h + paddingSize - 1) false) ++
      (cellEntries E j i true ++ cellEntries E j paddingSize false)

/-- The loops over `k` and `p`. -/
def windowTrace (E : Buffer → ℕ) (i j : UInt32) : List Access :=
  forTrace 0 filterSize fun k => forTrace 0 filterSize fun p => cellEntries E (j + k) (i + p) false

/-- The filter loops. -/
def filterTrace (E : Buffer → ℕ) (w h : UInt32) : List Access :=
  forTrace 0 h fun i => forTrace 0 w fun j =>
    [⟨.outputBuf, i * w + j, true, E .outputBuf⟩] ++ windowTrace E i j

/-- `fwrite` from `output_buf`. -/
def outputTrace (E : Buffer → ℕ) (n : UInt32) : List Access :=
  forTrace 0 n fun k => [⟨.outputBuf, k, false, E .outputBuf⟩]

/-! ### The loops add their traces -/

theorem logs_readPixels (n : UInt32) (file : List UInt8) :
    Logs E (readPixels n file) (pixelsTrace E (UInt32.ofNat (min n.toNat file.length))) :=
  Emits.forLoop (fun k => logs_storeInput k _) 0 _

theorem logs_padRows (w h : UInt32) : Logs E (padRows w h) (rowsTrace E w h) :=
  Emits.forLoop (fun i => Emits.forLoop (fun j => logs_copyInput j i _) 0 _) _ _

theorem logs_padBorder (w h : UInt32) : Logs E (padBorder w h) (borderTrace E w h) :=
  Emits.forLoop (fun i => Emits.forLoop
    (fun j => (logs_copyCell j _ _).comp (logs_copyCell j i paddingSize)) 0 _) _ _

theorem logs_accumulate (i j : UInt32) :
    Logs E (fun m => (accumulate i j m).1) (windowTrace E i j) := by
  have hbody : ∀ k p, Emits (fun s : Heap × Int32 => s.1.log) (fun s => s.1.elements = E)
      (fun s => (s.1.accessCell (j + k) (i + p) false, s.2 + product s.1 k p (j + k) (i + p)))
      (cellEntries E (j + k) (i + p) false) := by
    rintro k p s rfl
    exact ⟨rfl, rfl⟩
  intro m hm
  exact Emits.forLoop (fun k => Emits.forLoop (fun p => hbody k p) 0 filterSize) 0 filterSize
    (m, 0) hm

theorem logs_filterPixel (w i j : UInt32) : Logs E (filterPixel w i j)
    ([⟨.outputBuf, i * w + j, true, E .outputBuf⟩] ++ windowTrace E i j) := by
  intro m hm
  obtain ⟨hE, hlog⟩ := logs_accumulate i j m hm
  obtain ⟨hE', hlog'⟩ := logs_storeOutput (i * w + j) (narrow (accumulate i j m).2) _ hE
  exact ⟨hE', by rw [filterPixel, hlog', hlog, List.append_assoc]⟩

theorem logs_filterImage (w h : UInt32) : Logs E (filterImage w h) (filterTrace E w h) :=
  Emits.forLoop (fun i => Emits.forLoop (fun j => logs_filterPixel w i j) 0 w) 0 h

theorem logs_readOutput (n : UInt32) : Logs E (readOutput n) (outputTrace E n) :=
  Emits.forLoop (fun k => logs_access .outputBuf k false) 0 n

/-! ### The loops that change block sizes -/

/-- Allocating columns keeps the other blocks. -/
theorem log_allocateColumns (w h : UInt32) (m : Heap) :
    (allocateColumns w h m).log = pointersTrace m.elements w true ++ m.log := by
  have hbody : ∀ i, Emits Heap.log (fun m' => m'.elements .image = m.elements .image)
      (fun m => (m.malloc (.column i) (1 * (h + 2 * paddingSize))).access .image i true)
      [⟨.image, i, true, m.elements .image⟩] := by
    intro i m' hm'
    have hne : Buffer.image ≠ .column i := nofun
    have hsize : (m'.malloc (.column i) (1 * (h + 2 * paddingSize))).elements .image =
        m.elements .image := (elements_malloc_of_ne m' _ hne).trans hm'
    refine ⟨hsize, ?_⟩
    show ⟨.image, i, true, (m'.malloc (.column i) _).elements .image⟩ :: m'.log = _
    rw [hsize]
    rfl
  exact (Emits.forLoop hbody 0 _ m rfl).2

theorem log_freeColumns (w : UInt32) (m : Heap) :
    (freeColumns w m).log = pointersTrace m.elements w false ++ m.log := by
  have hbody : ∀ i, Emits Heap.log (fun m' => m'.elements .image = m.elements .image)
      (fun m => (m.access .image i false).free (.column i))
      [⟨.image, i, false, m.elements .image⟩] := by
    intro i m' hm'
    have hne : Buffer.image ≠ .column i := nofun
    refine ⟨(elements_free_of_ne _ hne).trans hm', ?_⟩
    show ⟨.image, i, false, m'.elements .image⟩ :: m'.log = _
    rw [hm']
    rfl
  exact (Emits.forLoop hbody 0 _ m rfl).2

theorem elements_allocateColumns_of_ne (w h : UInt32) (m : Heap) {b : Buffer}
    (hb : ∀ x, b ≠ .column x) : (allocateColumns w h m).elements b = m.elements b := by
  refine forLoop_preserves (fun m' : Heap => m'.elements b = m.elements b) rfl ?_
  intro i m' hm'
  exact (elements_malloc_of_ne m' _ (hb i)).trans hm'

theorem elements_freeColumns_of_ne (w : UInt32) (m : Heap) {b : Buffer}
    (hb : ∀ x, b ≠ .column x) : (freeColumns w m).elements b = m.elements b := by
  refine forLoop_preserves (fun m' : Heap => m'.elements b = m.elements b) rfl ?_
  intro i m' hm'
  exact (elements_free_of_ne _ (hb i)).trans hm'

theorem elements_allocateColumns (w h : UInt32) (m : Heap) {x : UInt32}
    (hx : x.toNat < (w + 2 * paddingSize).toNat) :
    (allocateColumns w h m).elements (.column x) = (h + 2 * paddingSize).toNat := by
  refine forLoop_induction_zero (fun i (m' : Heap) => ∀ x : UInt32, x.toNat < i →
    m'.elements (.column x) = (h + 2 * paddingSize).toNat) ?_ ?_ x hx
  · intro x hx
    omega
  · intro i m' _ hm' x hx
    show (m'.malloc (.column i) (1 * (h + 2 * paddingSize))).elements (.column x) = _
    by_cases hxi : x = i
    · rw [hxi, elements_malloc, UInt32.one_mul]
      exact Nat.div_one _
    · rw [elements_malloc_of_ne m' _ fun heq => hxi (by injection heq)]
      have hne : x.toNat ≠ i.toNat := fun h => hxi (UInt32.toNat_inj.mp h)
      exact hm' x (by omega)

end FirFilter.Software
