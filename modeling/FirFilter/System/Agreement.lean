import FirFilter.Hardware.Stream
import FirFilter.Software.RoundTrip
import FirFilter.System.Narrowing
/-!
# FirFilter.System.Agreement

The component and `main.c` on the same image.

`main.c` keeps the padded image by columns and walks over windows; the component is
fed the rows of the same array and sees it through its delay line. At transfer
`r * w + c` both have formed the same sum (`exactSum_of_window`), and where the sums
are in range they narrow it to the same value. The transfers of a frame are
therefore `output_buf`, in order, under every handshake pattern.
-/

namespace FirFilter.System

open Hardware Software Clocked Matrix

variable {g : Generics} {P : Parts g}

/-! ### The setting -/

/-- The component is built for the width of the image, and for at least its height. -/
structure Fits (g : Generics) (d : ImageSize) : Prop where
  widths : DefaultWidths g
  row_eq : d.width.toNat + 6 = g.maxImageWidth
  two_le_height : 2 ≤ d.height.toNat
  height_le : d.height.toNat ≤ g.maxImageHeight

/-- The frame of an image. -/
def Fits.frameSize {d : ImageSize} (hd : Fits g d) : FrameSize g where
  width := d.width.toNat
  height := d.height.toNat
  width_pos := d.width_pos
  padded_le := by
    have := hd.row_eq
    have := hd.widths.kernelSize
    omega
  two_le_height := hd.two_le_height
  height_le := hd.height_le

theorem Fits.pitch {d : ImageSize} (hd : Fits g d) : hd.frameSize.pitch = d.width.toNat + 6 := by
  have hK := hd.widths.kernelSize
  have hpitch := hd.frameSize.pitch_add_one
  have hwidth : hd.frameSize.width = d.width.toNat := rfl
  omega

/-- The registers hold the size of the image and the coefficients of `main.c`. -/
structure Holds (d : ImageSize) (m : Heap) (s : Component P) : Prop where
  configured : Configured d.width.toNat d.height.toNat s
  coeffs : ∀ k p : Fin g.kernelSize, (s.regs.coeffsShrink (coeffSlotIndex k p)).toInt =
    (m.filter (UInt32.ofNat k.val) (UInt32.ofNat p.val)).toInt

/-- A run without bus writes keeps what the registers hold. -/
theorem Holds.of_quiet {d : ImageSize} {m : Heap} {p : Watched P} (h : Holds d m p.1)
    {inp : ℕ → Pins g} (hq : ∀ n, (inp n).Quiet) (n : ℕ) : Holds d m (observe p inp n).1 := by
  refine ⟨configured_of_quiet h.configured hq n, fun k p' => ?_⟩
  have hconf := Component.config_run_of_quiet p.1 hq n
  simp only [Component.config, Prod.mk.injEq] at hconf
  rw [observe, run_watch_fst, Registers.coeffsShrink, hconf.2.2.2]
  exact h.coeffs k p'

/-- The padded array, row after row. -/
def rowOrder (g : Generics) (d : ImageSize) (m : Heap) (n : ℕ) : BitVec g.pixelWidth :=
  BitVec.ofNat g.pixelWidth (m.image (UInt32.ofNat (n % (d.width.toNat + 6)))
    (UInt32.ofNat (n / (d.width.toNat + 6)))).toNat

theorem toNat_rowOrder {d : ImageSize} (hd : DefaultWidths g) (m : Heap) {x y : ℕ}
    (hx : x < d.width.toNat + 6) : (rowOrder g d m (y * (d.width.toNat + 6) + x)).toNat =
      (m.image (UInt32.ofNat x) (UInt32.ofNat y)).toNat := by
  have hpow : 2 ^ g.pixelWidth = 2 ^ 8 := by rw [hd.pixelWidth]
  have hlt := (m.image (UInt32.ofNat x) (UInt32.ofNat y)).toNat_lt
  rw [rowOrder, rowMajor_mod hx, rowMajor_div hx, BitVec.toNat_ofNat, hpow, Nat.mod_eq_of_lt hlt]

/-! ### One transfer -/

/-- **The same sum.** With the window of transfer `(r, c)` in its register bank, the
component forms the sum that `main.c` forms for pixel `(r, c)`. -/
theorem exactSum_of_window {d : ImageSize} (hd : Fits g d) {m : Heap} {s : Component P}
    (hs : Holds d m s) {r c : ℕ} (hc : c < d.width.toNat)
    (hwindow : ∀ a b : Fin g.kernelSize, s.process.window a b =
      rowOrder g d m (r * hd.frameSize.pitch + c + a.val * g.maxImageWidth + b.val)) :
    exactSum s = windowSum m (UInt32.ofNat r) (UInt32.ofNat c) := by
  have hK := hd.widths.kernelSize
  have hpixel : ∀ k p : Fin g.kernelSize,
      (P.registerBank.output s.process.2 k.rev p.rev).toNat =
        (m.image (UInt32.ofNat c + UInt32.ofNat k.val)
          (UInt32.ofNat r + UInt32.ofNat p.val)).toNat := by
    intro k p
    have hk := k.isLt
    have hindex : r * hd.frameSize.pitch + c + p.val * g.maxImageWidth + k.val =
        (r + p.val) * (d.width.toNat + 6) + (c + k.val) := by
      rw [hd.pitch, ← hd.row_eq, Nat.add_mul]
      omega
    show (s.process.window p k).toNat = _
    rw [hwindow, hindex, toNat_rowOrder hd.widths m (by omega), UInt32.ofNat_add,
      UInt32.ofNat_add]
  have hsum : windowSum m (UInt32.ofNat r) (UInt32.ofNat c) =
      ∑ k ∈ Finset.range g.kernelSize, ∑ p ∈ Finset.range g.kernelSize,
        term m (UInt32.ofNat r) (UInt32.ofNat c) k p := by
    rw [hK]
    rfl
  unfold exactSum productSum
  rw [hsum, Finset.sum_range]
  refine Finset.sum_congr rfl fun k _ => ?_
  rw [Finset.sum_range]
  refine Finset.sum_congr rfl fun p _ => ?_
  rw [hs.coeffs, hpixel, term]

/-- The window sums of `main.c` fit in the bits that the component cuts out. -/
def SumsInRange (d : ImageSize) (m : Heap) : Prop :=
  ∀ i < d.height.toNat, ∀ j < d.width.toNat,
    -2 ^ 21 ≤ windowSum m (UInt32.ofNat i) (UInt32.ofNat j) ∧
      windowSum m (UInt32.ofNat i) (UInt32.ofNat j) < 2 ^ 21

/-- What `main.c` stores from the padded heap `m`. -/
def storedValue (d : ImageSize) (m : Heap) (n : ℕ) : ℤ :=
  saturate 15 (windowSum m (UInt32.ofNat (n / d.width.toNat)) (UInt32.ofNat (n % d.width.toNat)) /
    64)

/-- The transfers made so far in the frame are the values stored first. -/
def Delivered (d : ImageSize) (m : Heap) (l : FrameLog g) : Prop :=
  l.sent.map BitVec.toInt = (List.range l.sent.length).map (storedValue d m)

/-- **Step lemma.** A transfer delivers the next value. -/
theorem Delivered.record {d : ImageSize} {m : Heap} {s : Component P} {l : FrameLog g}
    {x : Pins g} (hl : Delivered d m l)
    (hvalue : s.transfers x → s.asoOutData.toInt = storedValue d m l.sent.length) :
    Delivered d m (l.record s x) := by
  by_cases ht : s.transfers x
  · have hstate : s.control.currentState ≠ .S0 := by
      intro h0
      simp [Component.transfers, Component.outValid, h0, asoOutValid] at ht
    have hsent : (l.record s x).sent = l.sent ++ [s.asoOutData] := by
      simp only [FrameLog.record, FrameLog.opened, hstate, if_false, ht, if_true]
    unfold Delivered
    rw [hsent, List.map_append, List.length_append, List.length_singleton, List.range_succ,
      List.map_append, hl, List.map_singleton, List.map_singleton, hvalue ht]
  · have hsent : (l.record s x).sent = (l.opened s.control.currentState).sent := by
      simp only [FrameLog.record, ht, Bool.false_eq_true, if_false, List.append_nil]
    unfold Delivered
    rw [hsent, FrameLog.opened]
    split
    · rfl
    · exact hl

/-- A frame has no more transfers than the image has pixels. -/
theorem sent_length_le {d : ImageSize} (hd : Fits g d) {p : Watched P} (hp : FrameStart p)
    {inp : ℕ → Pins g}
    (hc : ∀ n, Configured d.width.toNat d.height.toNat (observe p inp n).1) (n : ℕ) :
    (observe p inp n).2.sent.length ≤ d.height.toNat * d.width.toNat := by
  have hinv : FrameInv hd.frameSize (observe p inp n) :=
    .of_run hp fun k _ => hc k
  by_cases h0 : (observe p inp n).1.control.currentState = .S0
  · obtain ⟨-, ⟨-, -, ht⟩ | ⟨-, ht⟩⟩ := hinv.progress.at_idle h0
    · omega
    · exact ht.le
  · exact (hinv.progress.le_total h0).2

section Run

variable (hT : P.altshiftTaps.DelayLine g.maxImageWidth) (hB : P.registerBank.KeepsLast)
  (hP : P.PairsColumns) {d : ImageSize} (hd : Fits g d) {m : Heap} (hm : SumsInRange d m)
  {p : Watched P} (hp : FrameStart p) {inp : ℕ → Pins g}
  (hset : ∀ n, Holds d m (observe p inp n).1)
  (hfeed : ∀ n, Feeds (rowOrder g d m) (observe p inp n) (inp n))

include hT hB hP hd hm hp hset hfeed

/-- The value on the output at a transfer. -/
theorem asoOutData_at_transfer (n : ℕ) (ht : (observe p inp n).1.transfers (inp n)) :
    (observe p inp n).1.asoOutData.toInt =
      storedValue d m (observe p inp n).2.sent.length := by
  obtain ⟨htransfer, -⟩ := transfers_window hT hB hd.frameSize (rowOrder g d m) hp
    (fun k _ => (hset k).configured) fun k (_ : k < n) => hfeed k
  obtain ⟨hlt, hwindow⟩ := htransfer ht
  generalize (observe p inp n).2.sent.length = t at hlt hwindow ⊢
  obtain ⟨r, c, hr, hc, rfl⟩ : ∃ r c, r < d.height.toNat ∧ c < d.width.toNat ∧
      t = r * d.width.toNat + c := exists_rowMajor hlt
  have hsum := exactSum_of_window hd (hset n) hc (hwindow r c hc rfl)
  obtain ⟨hlo, hhi⟩ := hm r hr c hc
  rw [asoOutData_of_mem hP (by rw [hsum]; exact hlo) (by rw [hsum]; exact hhi), hsum,
    storedValue, rowMajor_div hc, rowMajor_mod hc]

/-- **Run lemma.** -/
theorem delivered_of_run (n : ℕ) : Delivered d m (observe p inp n).2 := by
  induction n with
  | zero =>
      obtain ⟨s, l⟩ := p
      obtain rfl : l = {} := hp.2
      rfl
  | succ n ih =>
      exact ih.record (asoOutData_at_transfer hT hB hP hd hm hp hset hfeed n)

end Run

/-! ### The whole frame -/

/-- `main.c` after the padding, on the files of a mask and an image. -/
def paddedHeap (d : ImageSize) (M : Matrix (Fin 7) (Fin 7) Int16)
    (I : Matrix (Fin d.height.toNat) (Fin d.width.toNat) UInt8) (m : Heap) : Heap :=
  pad d.width d.height (load (fwriteInt16 M) (writeInputBinImage I) m)

/-- The values of `output_buf` after an iteration, in order. -/
def outputValues (d : ImageSize) (M : Matrix (Fin 7) (Fin 7) Int16)
    (I : Matrix (Fin d.height.toNat) (Fin d.width.toNat) UInt8) (m : Heap) : List ℤ :=
  (List.range (d.height.toNat * d.width.toNat)).map fun n =>
    ((iterateOn d M I m).1.outputBuf (UInt32.ofNat n)).toInt

theorem paddedHeap_prepared (d : ImageSize) (M : Matrix (Fin 7) (Fin 7) Int16)
    (I : Matrix (Fin d.height.toNat) (Fin d.width.toNat) UInt8) (m : Heap) :
    Prepared d (fwriteInt16 M) (Matlab.columnMajor Iᵀ) (paddedHeap d M I m) := by
  have hload := load_loaded (w := d.width) (h := d.height) (length_fwriteInt16 M).ge
    (d.toNat_pixels ▸ (length_pixels d I).ge) m
  rw [← writeInputBinImage_eq] at hload
  exact hload.prepared

/-- The window sums of the padded heap, in terms of the matrices. -/
theorem windowSum_paddedHeap (d : ImageSize) (M : Matrix (Fin 7) (Fin 7) Int16)
    (I : Matrix (Fin d.height.toNat) (Fin d.width.toNat) UInt8) (m : Heap)
    (i : Fin d.height.toNat) (j : Fin d.width.toNat) :
    windowSum (paddedHeap d M I m) (UInt32.ofNat i.val) (UInt32.ofNat j.val) =
      referenceSum Mᵀ I i j := by
  have hm := paddedHeap_prepared d M I m
  rw [windowSum_padded hm.filter hm.image i.isLt j.isLt, fileSum_eq]
  rfl

/-- `output_buf` holds the narrowed window sums. -/
theorem outputValues_eq (d : ImageSize) (M : Matrix (Fin 7) (Fin 7) Int16)
    (I : Matrix (Fin d.height.toNat) (Fin d.width.toNat) UInt8) (m : Heap) :
    outputValues d M I m = (List.range (d.height.toNat * d.width.toNat)).map
      (storedValue d (paddedHeap d M I m)) := by
  refine List.map_congr_left fun n hn => ?_
  obtain ⟨r, c, hr, hc, rfl⟩ := exists_rowMajor (List.mem_range.mp hn)
  have hbuf := outputBuf_iterateOn d M I m ⟨r, hr⟩ ⟨c, hc⟩
  have hsum := windowSum_paddedHeap d M I m ⟨r, hr⟩ ⟨c, hc⟩
  rw [storedValue, rowMajor_div hc, rowMajor_mod hc, hsum]
  exact hbuf

/-- **The component and `main.c` agree.** Fed the padded array of `main.c` row by row,
with the same coefficients and sums in range, the component transfers the values of
`output_buf` in order: at any time a prefix of them, at the end of the frame all of
them, and the frame ends when the handshakes keep coming. -/
theorem component_agrees (hT : P.altshiftTaps.DelayLine g.maxImageWidth)
    (hB : P.registerBank.KeepsLast) (hP : P.PairsColumns) (d : OutputSize)
    (hd : Fits g d.toImageSize) (M : Matrix (Fin 7) (Fin 7) Int16)
    (I : Matrix (Fin d.height.toNat) (Fin d.width.toNat) UInt8) (m : Heap)
    (hm : SumsInRange d.toImageSize (paddedHeap d.toImageSize M I m))
    {p : Watched P} (hp : FrameStart p) {inp : ℕ → Pins g}
    (hset : ∀ n, Holds d.toImageSize (paddedHeap d.toImageSize M I m) (observe p inp n).1)
    (hfeed : ∀ n, Feeds (rowOrder g d.toImageSize (paddedHeap d.toImageSize M I m))
      (observe p inp n) (inp n)) :
    (∀ n, (observe p inp n).2.sent.map BitVec.toInt <+: outputValues d.toImageSize M I m) ∧
    (∀ n, FrameDone hd.frameSize (observe p inp n) →
      (observe p inp n).2.sent.map BitVec.toInt = outputValues d.toImageSize M I m) ∧
    ((∀ n, (observe p inp n).1.regs.controlBit) → (∀ n, ∃ k ≥ n, (inp k).asiInValid) →
      (∀ n, ∃ k ≥ n, (inp k).asoOutReady) → ∃ n, FrameDone hd.frameSize (observe p inp n)) := by
  have hsent := delivered_of_run hT hB hP hd hm hp hset hfeed
  refine ⟨fun n => ?_, fun n hdone => ?_, fun hb hvalid hready =>
    frame_completes hp (fun n => (hset n).configured) hb hvalid hready⟩
  · have hle := sent_length_le hd hp (fun n => (hset n).configured) n
    rw [hsent n, outputValues_eq, ← Nat.min_eq_left hle, ← List.take_range, List.map_take]
    exact List.take_prefix _ _
  · rw [hsent n, hdone.2, outputValues_eq]
    rfl

/-- Programmed for two columns, two rows and the mask that is `1` at its centre. -/
def smallComponent : Component (Parts.plain smallGenerics) where
  regs := { controlReg := 1, imageWidthReg := 2, imageHeightReg := 2,
            coeffsReg := 2048#_ <<< (32 * 24) }
  control := {}
  process := (fun _ => 0, fun _ _ => 0)

theorem smallComponent_holds (I : Matrix (Fin 2) (Fin 2) UInt8) (m : Heap) :
    Holds twoByTwo.toImageSize (paddedHeap twoByTwo.toImageSize centreCoeffs I m)
      smallComponent := by
  have hm := paddedHeap_prepared twoByTwo.toImageSize centreCoeffs I m
  have hcoeffs : ∀ k p : Fin 7, (smallComponent.regs.coeffsShrink (coeffSlotIndex k p)).toInt =
      (centreCoeffs k p).toInt := by decide +kernel
  refine ⟨⟨rfl, rfl⟩, fun k p => ?_⟩
  rw [hm.filter k k.isLt p p.isLt, Int16.toInt_toInt32]
  exact (hcoeffs k p).trans (congrArg Int16.toInt (coefficient_fwriteInt16 centreCoeffs k p).symm)

theorem centreCoeffs_inRange (d : ImageSize)
    (I : Matrix (Fin d.height.toNat) (Fin d.width.toNat) UInt8) (m : Heap) :
    SumsInRange d (paddedHeap d centreCoeffs I m) := by
  intro i hi j hj
  have hsymm : centreCoeffsᵀ = centreCoeffs := Matrix.transpose_single _ _ _
  have hsum := windowSum_paddedHeap d centreCoeffs I m ⟨i, hi⟩ ⟨j, hj⟩
  have hlt := (I ⟨i, hi⟩ ⟨j, hj⟩).toNat_lt
  rw [hsymm, referenceSum_centre] at hsum
  rw [hsum]
  omega

theorem component_agrees_small : ∃ (inp : ℕ → Pins smallGenerics) (n : ℕ),
    (observe (smallComponent, {}) inp n).2.sent.map BitVec.toInt =
      outputValues twoByTwo.toImageSize centreCoeffs (Matrix.single 0 1 255) emptyHeap := by
  obtain ⟨inp, hinp⟩ := exists_feed (smallComponent, {})
    (rowOrder smallGenerics twoByTwo.toImageSize
      (paddedHeap twoByTwo.toImageSize centreCoeffs (Matrix.single 0 1 255) emptyHeap))
  have hquiet : ∀ n, (inp n).Quiet := fun n => by rw [hinp]; exact eager_quiet smallGenerics
  have hready : ∀ n, (inp n).asiInValid ∧ (inp n).asoOutReady := fun n => by
    rw [hinp]
    exact ⟨rfl, rfl⟩
  obtain ⟨-, hvalues, hends⟩ := component_agrees (Parts.plain_delayLine smallGenerics)
    (Parts.plain_keepsLast smallGenerics) (Parts.plain_pairsColumns smallGenerics) twoByTwo
    ⟨⟨rfl, rfl, rfl, rfl⟩, rfl, by decide, by decide⟩ centreCoeffs (Matrix.single 0 1 255)
    emptyHeap (centreCoeffs_inRange _ _ _) ⟨rfl, rfl⟩
    (Holds.of_quiet (smallComponent_holds _ _) hquiet) fun n _ => congrArg Pins.asiInData (hinp n)
  obtain ⟨n, hdone⟩ := hends
    (fun n => by
      rw [observe, run_watch_fst, Component.controlBit_run_of_quiet _ hquiet]
      decide)
    (fun n => ⟨n, le_rfl, (hready n).1⟩) fun n => ⟨n, le_rfl, (hready n).2⟩
  exact ⟨inp, n, hvalues n hdone⟩

end FirFilter.System
