import FirFilter.Software.Filter
import FirFilter.Software.Trace
/-!
# FirFilter.Software.Replication

The padding leaves nothing undefined.

The contents after the padding loops are in `image_pad`. Here are the accesses on
the way: the second loop copies within `image`, and every cell it copies has its
final value already. So the output file is a function of the two input files,
whatever the heap held and whatever iterations came before.
-/

namespace FirFilter.Software

open Heap

/-! ### Properties of a trace, newest access first -/

/-- `input_buf` is only read, below `n`. -/
def ReadsInputBelow (n : ℕ) (es : List Access) : Prop :=
  ∀ a ∈ es, a.buffer = .inputBuf → a.write = false ∧ a.index.toNat < n

/-- Only cells with `x < columns` and `y < rows` are written. -/
def WritesCellsBelow (columns rows : ℕ) (es : List Access) : Prop :=
  ∀ a ∈ es, a.write = true →
    ∃ x : UInt32, a.buffer = .column x ∧ x.toNat < columns ∧ a.index.toNat < rows

/-- Only cells with `x < columns` and `y < rows` are read. -/
def ReadsCellsBelow (columns rows : ℕ) (es : List Access) : Prop :=
  ∀ a ∈ es, ∀ x : UInt32, a.buffer = .column x → x.toNat < columns ∧ a.index.toNat < rows

/-- A cell that is read has been written before and is not written after. -/
def ReadsFinalCells (es : List Access) : Prop :=
  ∀ later a earlier, es = later ++ a :: earlier → ∀ x, a.buffer = .column x → a.write = false →
    (∃ b ∈ earlier, b.buffer = .column x ∧ b.index = a.index ∧ b.write = true) ∧
      ∀ b ∈ later, b.buffer = .column x → b.index = a.index → b.write = false

/-! ### The two padding loops -/

theorem mem_cellEntries {E : Buffer → ℕ} {x y : UInt32} {write : Bool} {a : Access} :
    a ∈ cellEntries E x y write ↔
      a = ⟨.column x, y, write, E (.column x)⟩ ∨ a = ⟨.image, x, false, E .image⟩ := by
  simp [cellEntries]

/-- The accesses of the first loop: cells of the rows of the image, and pixels of the
file. -/
theorem mem_rowsTrace {d : ImageSize} {E : Buffer → ℕ} {a : Access}
    (ha : a ∈ rowsTrace E d.width d.height) :
    (∃ x y : UInt32, x.toNat < d.width.toNat + 6 ∧ 3 ≤ y.toNat ∧ y.toNat < d.height.toNat + 3 ∧
      a = ⟨.column x, y, true, E (.column x)⟩) ∨
    (∃ x : UInt32, x.toNat < d.width.toNat + 6 ∧ a = ⟨.image, x, false, E .image⟩) ∨
    ∃ k : UInt32, k.toNat < d.width.toNat * d.height.toNat ∧
      a = ⟨.inputBuf, k, false, E .inputBuf⟩ := by
  obtain ⟨i, hi, hi', ha⟩ := mem_forTrace.mp ha
  obtain ⟨j, -, hj, ha⟩ := mem_forTrace.mp ha
  rw [toNat_paddingSize] at hi
  rw [d.toNat_lastRow] at hi'
  rw [d.toNat_columns] at hj
  rcases List.mem_append.mp ha with ha | ha
  · rcases mem_cellEntries.mp ha with rfl | rfl
    · exact .inl ⟨j, i, hj, hi, hi', rfl⟩
    · exact .inr (.inl ⟨j, hj, rfl⟩)
  · obtain rfl := List.mem_singleton.mp ha
    exact .inr (.inr ⟨_, by rw [d.inputIndex_eq hi hi' hj]; exact d.toNat_source_lt _ _, rfl⟩)

/-- The first loop writes every cell of its rows. -/
theorem rowsTrace_writes {d : ImageSize} {E : Buffer → ℕ} {x y : UInt32}
    (hx : x.toNat < d.width.toNat + 6) (hy : 3 ≤ y.toNat) (hy' : y.toNat < d.height.toNat + 3) :
    ⟨.column x, y, true, E (.column x)⟩ ∈ rowsTrace E d.width d.height := by
  refine mem_forTrace.mpr ⟨y, hy, by rwa [d.toNat_lastRow], mem_forTrace.mpr
    ⟨x, Nat.zero_le _, by rwa [d.toNat_columns], ?_⟩⟩
  exact List.mem_append_left _ (mem_cellEntries.mpr (.inl rfl))

/-- The accesses of the second loop: writes above and below the rows of the image,
reads of its first and last row. -/
theorem mem_borderTrace {d : ImageSize} {E : Buffer → ℕ} {a : Access}
    (ha : a ∈ borderTrace E d.width d.height) :
    (∃ x y : UInt32, x.toNat < d.width.toNat + 6 ∧
      (y.toNat < 3 ∨ d.height.toNat + 3 ≤ y.toNat ∧ y.toNat < d.height.toNat + 6) ∧
      a = ⟨.column x, y, true, E (.column x)⟩) ∨
    (∃ x y : UInt32, x.toNat < d.width.toNat + 6 ∧
      (y.toNat = 3 ∨ y.toNat = d.height.toNat + 2) ∧
      a = ⟨.column x, y, false, E (.column x)⟩) ∨
    ∃ x : UInt32, x.toNat < d.width.toNat + 6 ∧ a = ⟨.image, x, false, E .image⟩ := by
  obtain ⟨i, -, hi, ha⟩ := mem_forTrace.mp ha
  obtain ⟨j, -, hj, ha⟩ := mem_forTrace.mp ha
  rw [toNat_paddingSize] at hi
  rw [d.toNat_columns] at hj
  have hmirror := d.toNat_mirror hi
  rcases List.mem_append.mp ha with ha | ha <;> rcases List.mem_append.mp ha with ha | ha <;>
    rcases mem_cellEntries.mp ha with rfl | rfl
  · exact .inl ⟨j, _, hj, .inr (by omega), rfl⟩
  · exact .inr (.inr ⟨j, hj, rfl⟩)
  · exact .inr (.inl ⟨j, _, hj, .inr d.toNat_bottom, rfl⟩)
  · exact .inr (.inr ⟨j, hj, rfl⟩)
  · exact .inl ⟨j, i, hj, .inl hi, rfl⟩
  · exact .inr (.inr ⟨j, hj, rfl⟩)
  · exact .inr (.inl ⟨j, _, hj, .inl rfl, rfl⟩)
  · exact .inr (.inr ⟨j, hj, rfl⟩)

/-- The accesses of the filter loops. -/
theorem mem_filterTrace {E : Buffer → ℕ} {w h : UInt32} {a : Access}
    (ha : a ∈ filterTrace E w h) : ∃ i j : UInt32, i.toNat < h.toNat ∧ j.toNat < w.toNat ∧
      (a = ⟨.outputBuf, i * w + j, true, E .outputBuf⟩ ∨
        ∃ k p : UInt32, k.toNat < 7 ∧ p.toNat < 7 ∧
          (a = ⟨.column (j + k), i + p, false, E (.column (j + k))⟩ ∨
            a = ⟨.image, j + k, false, E .image⟩)) := by
  obtain ⟨i, -, hi, ha⟩ := mem_forTrace.mp ha
  obtain ⟨j, -, hj, ha⟩ := mem_forTrace.mp ha
  refine ⟨i, j, hi, hj, ?_⟩
  rcases List.mem_append.mp ha with ha | ha
  · exact .inl (List.mem_singleton.mp ha)
  · obtain ⟨k, -, hk, ha⟩ := mem_forTrace.mp ha
    obtain ⟨p, -, hp, ha⟩ := mem_forTrace.mp ha
    exact .inr ⟨k, p, hk, hp, mem_cellEntries.mp ha⟩

/-- The filter loops stay inside the padded array. -/
theorem ImageSize.toNat_cell (d : ImageSize) {i j k p : UInt32} (hi : i.toNat < d.height.toNat)
    (hj : j.toNat < d.width.toNat) (hk : k.toNat < 7) (hp : p.toNat < 7) :
    (j + k).toNat < d.width.toNat + 6 ∧ (i + p).toNat < d.height.toNat + 6 := by
  have hcols := d.columns_lt
  have hrows := d.rows_lt
  rw [toNat_add_of_lt (by omega), toNat_add_of_lt (by omega)]
  omega

theorem filterTrace_reads (d : ImageSize) (E : Buffer → ℕ) :
    ReadsCellsBelow (d.width.toNat + 6) (d.height.toNat + 6)
      (filterTrace E d.width d.height) := by
  intro a ha x hx
  obtain ⟨i, j, hi, hj, rfl | ⟨k, p, hk, hp, rfl | rfl⟩⟩ := mem_filterTrace ha
  · cases hx
  · obtain rfl : j + k = x := by injection hx
    exact d.toNat_cell hi hj hk hp
  · cases hx

/-- The log and the block sizes after the padding. -/
theorem log_pad (w h : UInt32) (m : Heap) :
    (pad w h m).elements = Function.update m.elements .inputBuf 0 ∧
      (pad w h m).log = borderTrace (Function.update m.elements .inputBuf 0) w h ++
        rowsTrace m.elements w h ++ m.log := by
  obtain ⟨hE, hrows⟩ := logs_padRows w h m rfl
  have hfree : ((padRows w h m).free .inputBuf).elements =
      Function.update m.elements .inputBuf 0 := by rw [free, hE]
  obtain ⟨hE', hborder⟩ := logs_padBorder w h ((padRows w h m).free .inputBuf) hfree
  refine ⟨hE', ?_⟩
  rw [pad, hborder, List.append_assoc, ← hrows]
  rfl

/-- Reads of the second loop find final values. -/
theorem readsFinalCells_pad (d : ImageSize) (E E' : Buffer → ℕ) :
    ReadsFinalCells (borderTrace E' d.width d.height ++ rowsTrace E d.width d.height) := by
  intro later a earlier hsplit x hx hread
  have hrows : a ∉ rowsTrace E d.width d.height := fun ha => by
    rcases mem_rowsTrace ha with ⟨x', y', -, -, -, rfl⟩ | ⟨x', -, rfl⟩ | ⟨k, -, rfl⟩
    · cases hread
    · cases hx
    · cases hx
  -- so the read is in the second loop
  obtain ⟨mid, rfl, hborder⟩ : ∃ mid, earlier = mid ++ rowsTrace E d.width d.height ∧
      borderTrace E' d.width d.height = later ++ a :: mid := by
    rcases List.append_eq_append_iff.mp hsplit with ⟨as, -, has⟩ | ⟨bs, hbs, hrest⟩
    · exact absurd (by rw [has]; simp) hrows
    · cases bs with
      | nil => exact absurd (by rw [← List.nil_append (rowsTrace E _ _), ← hrest]; simp) hrows
      | cons b mid =>
          obtain ⟨rfl, rfl⟩ := List.cons.inj hrest
          exact ⟨mid, rfl, hbs⟩
  have hh := d.height_pos
  have hmem : a ∈ borderTrace E' d.width d.height := by rw [hborder]; simp
  obtain ⟨hcol, hrow⟩ : x.toNat < d.width.toNat + 6 ∧
      (a.index.toNat = 3 ∨ a.index.toNat = d.height.toNat + 2) := by
    rcases mem_borderTrace hmem with ⟨x', y', -, -, rfl⟩ | ⟨x', y', hx', hy', rfl⟩ | ⟨x', -, rfl⟩
    · cases hread
    · obtain rfl : x' = x := by injection hx
      exact ⟨hx', hy'⟩
    · cases hx
  constructor
  · exact ⟨_, List.mem_append_right _ (rowsTrace_writes (y := a.index) hcol (by omega) (by omega)),
      rfl, rfl, rfl⟩
  · intro b hb hbx hby
    have hb' : b ∈ borderTrace E' d.width d.height := by
      rw [hborder]
      exact List.mem_append_left _ hb
    rcases mem_borderTrace hb' with ⟨x', y', -, hy', rfl⟩ | ⟨x', y', -, -, rfl⟩ | ⟨x', -, rfl⟩
    · have : y'.toNat = a.index.toNat := congrArg UInt32.toNat hby
      omega
    · rfl
    · rfl

/-- The pixels of the file are read inside the image. -/
theorem readsInputBelow_pad (d : ImageSize) (E E' : Buffer → ℕ) :
    ReadsInputBelow (d.width.toNat * d.height.toNat)
      (borderTrace E' d.width d.height ++ rowsTrace E d.width d.height) := by
  intro a ha hbuf
  rcases List.mem_append.mp ha with ha | ha
  · rcases mem_borderTrace ha with ⟨x, y, -, -, rfl⟩ | ⟨x, y, -, -, rfl⟩ | ⟨x, -, rfl⟩ <;>
      cases hbuf
  · rcases mem_rowsTrace ha with ⟨x, y, -, -, -, rfl⟩ | ⟨x, -, rfl⟩ | ⟨k, hk, rfl⟩
    · cases hbuf
    · cases hbuf
    · exact ⟨rfl, hk⟩

/-- Only cells of the padded array are written. -/
theorem writesCellsBelow_pad (d : ImageSize) (E E' : Buffer → ℕ) :
    WritesCellsBelow (d.width.toNat + 6) (d.height.toNat + 6)
      (borderTrace E' d.width d.height ++ rowsTrace E d.width d.height) := by
  intro a ha hwrite
  rcases List.mem_append.mp ha with ha | ha
  · rcases mem_borderTrace ha with ⟨x, y, hx, hy, rfl⟩ | ⟨x, y, -, -, rfl⟩ | ⟨x, -, rfl⟩
    · refine ⟨x, rfl, hx, ?_⟩
      show y.toNat < _
      omega
    · cases hwrite
    · cases hwrite
  · rcases mem_rowsTrace ha with ⟨x, y, hx, -, hy, rfl⟩ | ⟨x, -, rfl⟩ | ⟨k, -, rfl⟩
    · refine ⟨x, rfl, hx, ?_⟩
      show y.toNat < _
      omega
    · cases hwrite
    · cases hwrite

/-! ### The output file -/

/-- The output file is determined by the two input files. -/
theorem outputFile_of_iterated {d : ImageSize} {filterFile pixels : List UInt8} {m m' : Heap}
    (hm : Iterated d filterFile pixels m) (hm' : Iterated d filterFile pixels m') :
    outputFile m = outputFile m' := by
  have hcount : (d.width * d.height).toNat = d.width.toNat * d.height.toNat :=
    toNat_mul_of_lt d.pixels_lt
  unfold outputFile
  rw [hm.width, hm.height, hm'.width, hm'.height]
  congr 1
  refine List.flatMap_congr fun k hk => ?_
  rw [List.mem_range, hcount, Nat.mul_comm] at hk
  obtain ⟨i, j, hi, hj, rfl⟩ := exists_rowMajor hk
  have heq : m.outputBuf (UInt32.ofNat (i * d.width.toNat + j)) =
      m'.outputBuf (UInt32.ofNat (i * d.width.toNat + j)) := by
    apply Int16.toInt_inj.mp
    rw [hm.outputBuf i hi j hj, hm'.outputBuf i hi j hj]
  rw [heq]

/-- A mask file with all its coefficients and an image file with all its pixels. -/
def CompleteFiles (f : List UInt8 × List UInt8) : Prop :=
  98 ≤ f.1.length ∧ ∃ (d : ImageSize) (pixels : List UInt8),
    f.2 = encodeUInt32 d.width ++ encodeUInt32 d.height ++ pixels ∧
      d.width.toNat * d.height.toNat ≤ pixels.length

/-- The file written depends on the files read, not on the heap. -/
theorem mainIteration_output {f : List UInt8 × List UInt8} (hf : CompleteFiles f) (m m' : Heap) :
    (mainIteration f.1 f.2 m).2 = (mainIteration f.1 f.2 m').2 := by
  obtain ⟨hfilter, d, pixels, himage, hpixels⟩ := hf
  obtain ⟨hit, hout⟩ := mainIteration_iterated d hfilter hpixels m
  obtain ⟨hit', hout'⟩ := mainIteration_iterated d hfilter hpixels m'
  rw [himage, hout, hout']
  exact outputFile_of_iterated hit hit'

/-- Nor on the turns before, nor on what the new blocks hold. -/
theorem mainLoop_output (m₀ : Heap) {ts : List MainTurn} (hts : ∀ t ∈ ts, CompleteFiles t.files)
    (m : Heap) : mainLoop m ts = ts.map fun t => (mainIteration t.files.1 t.files.2 m₀).2 := by
  induction ts generalizing m with
  | nil => rfl
  | cons t ts ih =>
      rw [mainLoop, List.map_cons, ih fun t ht => hts t (List.mem_cons_of_mem _ ht), MainTurn.run,
        mainIteration_output (hts t List.mem_cons_self) (m.renew t.fresh) m₀]

/-- **The padding is edge replication and leaves nothing undefined.** From any heap,
the padding loops read `input_buf` inside the image, write only cells of the padded
array, copy only cells that are final, and end with every cell equal to the pixel it
replicates. The filter loops read no other cells, and so the files written depend on
the files read only. -/
theorem padding_replicates (d : ImageSize) (m : Heap) :
    (∃ es, (pad d.width d.height m).log = es ++ m.log ∧
      ReadsInputBelow (d.width.toNat * d.height.toNat) es ∧
      WritesCellsBelow (d.width.toNat + 6) (d.height.toNat + 6) es ∧ ReadsFinalCells es) ∧
    (∀ x y : UInt32, x.toNat < d.width.toNat + 6 → y.toNat < d.height.toNat + 6 →
      (pad d.width d.height m).image x y =
        m.inputBuf (UInt32.ofNat ((clampIndex d.height.toNat (y.toNat - 3)).val * d.width.toNat +
          (clampIndex d.width.toNat (x.toNat - 3)).val))) ∧
    (∃ es, (filterImage d.width d.height m).log = es ++ m.log ∧
      ReadsCellsBelow (d.width.toNat + 6) (d.height.toNat + 6) es) ∧
    ∀ ts : List MainTurn, (∀ t ∈ ts, CompleteFiles t.files) → ∀ m' m₀ : Heap,
      mainLoop m' ts = ts.map fun t => (mainIteration t.files.1 t.files.2 m₀).2 := by
  refine ⟨?_, fun x y hx hy => image_pad d m hx hy, ?_, fun ts hts m' m₀ =>
    mainLoop_output m₀ hts m'⟩
  · exact ⟨_, (log_pad d.width d.height m).2, readsInputBelow_pad d _ _,
      writesCellsBelow_pad d _ _, readsFinalCells_pad d _ _⟩
  · exact ⟨_, (logs_filterImage d.width d.height m rfl).2, filterTrace_reads d m.elements⟩

end FirFilter.Software
