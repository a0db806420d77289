import FirFilter.Hardware.Frames
import FirFilter.Hardware.Backpressure
import FirFilter.Hardware.RegisterFile
import FirFilter.Software.Replication
import FirFilter.System.Agreement
/-!
# FirFilter.System.Session

A whole session of the component, from reset.

The bus writes the sizes, the coefficients of a mask file and at last the control bit,
with whatever other accesses in between; after that the source sends one image after the
other, each extended at its edges, as one stream of beats. What comes out is what
`main.c` writes for the same mask and the same images, without the headers of its files:
`mainLoop` is the specification, and the component refines it byte for byte.
-/

namespace FirFilter.System

open Hardware Software Clocked Ledger Matrix

variable {g : Generics} {P : Parts g}

/-! ### Programming -/

/-- The words behind the bus after `n` cycles. -/
abbrev busWords (inp : ℕ → Pins g) (n : ℕ) : BitVec g.addressBusWidth → BitVec g.dataBusWidth :=
  WordMemory.contents 0 (fun k => busOp (inp k)) n

/-- In cycle `n` the words behind the bus are the size `d` and the mask of a file. -/
structure Words (d : ImageSize) (filterFile : List UInt8) (inp : ℕ → Pins g) (n : ℕ) : Prop where
  width : (busWords inp n (imageWidthAddr g)).toNat = d.width.toNat
  height : (busWords inp n (imageHeightAddr g)).toNat = d.height.toNat
  coeffs : ∀ i : Fin (g.kernelSize * g.kernelSize),
    ((busWords inp n (coeffsAddr g i)).extractLsb' 0 g.coeffWidth).toInt =
      (coefficient filterFile i).toInt

/-- The bus cycles before `n` program the component for images of size `d` with the mask
of a file, and the control bit comes last. -/
structure Programs (d : ImageSize) (filterFile : List UInt8) (inp : ℕ → Pins g) (n : ℕ) : Prop
    extends Words d filterFile inp n where
  started : (busWords inp n (controlAddr g)).getLsbD 0 = true
  notBefore : ∀ m < n, (busWords inp m (controlAddr g)).getLsbD 0 = false

section Program

variable (hK : AddressesFit g) {s : Component P} (h0 : s.IsReset) {inp : ℕ → Pins g} {n : ℕ}

include hK h0

theorem word_run (inp : ℕ → Pins g) (n : ℕ) {k : ℕ} (hk : k < 4) (hs : k ≠ 1) :
    (run Component.step s inp n).regs.word (BitVec.ofNat g.addressBusWidth k) =
      busWords inp n (BitVec.ofNat g.addressBusWidth k) := by
  have hnat : (BitVec.ofNat g.addressBusWidth k).toNat = k := (hK.eq_fixed_iff _ hk).mp rfl
  refine represents_of_run hK h0.1 inp n _ ?_
  unfold Hardware.Stored
  omega

theorem controlBit_run (inp : ℕ → Pins g) (n : ℕ) :
    (run Component.step s inp n).regs.controlBit = (busWords inp n (controlAddr g)).getLsbD 0 := by
  have hword := word_run hK h0 inp n (k := 0) (by decide) (by decide)
  rw [Registers.word, if_pos ((hK.eq_fixed_iff _ (by decide)).mp rfl)] at hword
  rw [Registers.controlBit, hword]
  rfl

/-- While it is stopped an idle component stays idle, whatever the streams do. -/
theorem control_while_stopped {e : ℕ} (he : (run Component.step s inp e).control = {})
    (hle : e ≤ n) (h : ∀ m, e ≤ m → m < n → (busWords inp m (controlAddr g)).getLsbD 0 = false) :
    (run Component.step s inp n).control = {} := by
  induction n, hle using Nat.le_induction with
  | base => exact he
  | succ n hle ih =>
      have hidle := ih fun m h1 h2 => h m h1 (Nat.lt_succ_of_lt h2)
      have hbit := (controlBit_run hK h0 inp n).trans (h n hle (Nat.lt_succ_self n))
      rw [run_succ]
      by_cases hr : (inp n).reset
      · rw [Component.step, if_pos hr]
        rfl
      · rw [Component.step_control (by simpa using hr)]
        refine (Transition.idle (by rw [hidle]) ?_).edge_eq.trans hidle
        simp [Component.signals, hbit]

variable {d : ImageSize} {filterFile : List UInt8}

theorem Words.configured (h : Words d filterFile inp n) :
    Configured d.width.toNat d.height.toNat (run Component.step s inp n) := by
  have hfixed : ∀ {k : ℕ}, k < 4 → (BitVec.ofNat g.addressBusWidth k).toNat = k := fun hk =>
    (hK.eq_fixed_iff _ hk).mp rfl
  have hwidth := word_run hK h0 inp n (k := 2) (by decide) (by decide)
  have hheight := word_run hK h0 inp n (k := 3) (by decide) (by decide)
  simp only [Registers.word, hfixed (show 2 < 4 by decide), hfixed (show 3 < 4 by decide)]
    at hwidth hheight
  exact ⟨(congrArg BitVec.toNat hwidth).trans h.width,
    (congrArg BitVec.toNat hheight).trans h.height⟩

theorem Words.coeffsShrink (h : Words d filterFile inp n)
    (i : Fin (g.kernelSize * g.kernelSize)) :
    ((run Component.step s inp n).regs.coeffsShrink i).toInt =
      (coefficient filterFile i).toInt := by
  have hi := i.isLt
  have haddr := hK.toNat_coeffsAddr i
  rw [Registers.coeffsShrink_eq_word hK, represents_of_run hK h0.1 inp n _
    (.inr (.inr (.inr (by omega))))]
  exact h.coeffs i

/-- **Programmed.** The component holds the sizes of the images and the
coefficients that `main.c` reads from the mask file. -/
theorem Words.holds (hg : DefaultWidths g) {M : Matrix (Fin 7) (Fin 7) Int16}
    (h : Words d (fwriteInt16 M) inp n)
    (I : Matrix (Fin d.height.toNat) (Fin d.width.toNat) UInt8) (m : Heap) :
    Holds d (paddedHeap d M I m) (run Component.step s inp n) := by
  refine ⟨h.configured hK h0, fun k p => ?_⟩
  have hk : k.val < 7 := hg.kernelSize ▸ k.isLt
  have hp : p.val < 7 := hg.kernelSize ▸ p.isLt
  have hslot : (coeffSlotIndex k p).val = 7 * k.val + p.val := by
    have hmul : g.kernelSize * k.val = 7 * k.val := congrArg (· * k.val) hg.kernelSize
    show p.val + g.kernelSize * k.val = _
    omega
  rw [h.coeffsShrink hK h0, hslot, (paddedHeap_prepared d M I m).filter k hk p hp,
    Int16.toInt_toInt32]

end Program

/-! ### The stream of images -/

section Frames

variable (d : ImageSize) (M : Matrix (Fin 7) (Fin 7) Int16)
  (I : ℕ → Matrix (Fin d.height.toNat) (Fin d.width.toNat) UInt8)

/-- Beat `n` of an image that is extended at its edges and sent row after row. -/
def extendedRows (g : Generics) (A : Matrix (Fin d.height.toNat) (Fin d.width.toNat) UInt8)
    (n : ℕ) : BitVec g.pixelWidth :=
  BitVec.ofNat g.pixelWidth (replicate A ((n / (d.width.toNat + 6) : ℕ) - 3)
    ((n % (d.width.toNat + 6) : ℕ) - 3)).toNat

/-- The images one after the other. -/
def imageStream (g : Generics) (n : ℕ) : BitVec g.pixelWidth :=
  extendedRows d g (I (n / paddedBeats g d.height.toNat)) (n % paddedBeats g d.height.toNat)

/-- It is the padded array of `main.c`, row after row. -/
theorem rowOrder_paddedHeap (A : Matrix (Fin d.height.toNat) (Fin d.width.toNat) UInt8) (m : Heap)
    {x y : ℕ} (hx : x < d.width.toNat + 6) (hy : y < d.height.toNat + 6) :
    rowOrder g d (paddedHeap d M A m) (y * (d.width.toNat + 6) + x) =
      extendedRows d g A (y * (d.width.toNat + 6) + x) := by
  have hcols := d.columns_lt
  have hrows := d.rows_lt
  have hx' : (UInt32.ofNat x).toNat = x := toNat_ofNat_of_lt (by omega)
  have hy' : (UInt32.ofNat y).toNat = y := toNat_ofNat_of_lt (by omega)
  rw [rowOrder, extendedRows, rowMajor_mod hx, rowMajor_div hx,
    (paddedHeap_prepared d M A m).image _ _ (by omega) (by omega), hx', hy',
    paddedPixel_columnMajor]

end Frames

section Values

variable {d : ImageSize} (hd : Fits g d) (M : Matrix (Fin 7) (Fin 7) Int16)
  (I : ℕ → Matrix (Fin d.height.toNat) (Fin d.width.toNat) UInt8) (m : Heap)

/-- Result `n` of a session, by the arithmetic of `main.c`. -/
def sessionValue (n : ℕ) : ℤ :=
  storedValue d (paddedHeap d M (I (n / (d.height.toNat * d.width.toNat))) m)
    (n % (d.height.toNat * d.width.toNat))

/-- The results of frame `k` are those of image `k`. -/
theorem sessionValue_frame (k : ℕ) {n : ℕ} (hn : n < d.height.toNat * d.width.toNat) :
    sessionValue M I m (k * (d.height.toNat * d.width.toNat) + n) =
      storedValue d (paddedHeap d M (I k) m) n := by
  rw [sessionValue, rowMajor_div hn, rowMajor_mod hn]

theorem Fits.beats {d : ImageSize} (hd : Fits g d) :
    hd.frameSize.beats = paddedBeats g d.height.toNat := by
  refine hd.frameSize.beats_eq_paddedBeats ?_
  have hrow := hd.row_eq
  have hwidth : hd.frameSize.width = d.width.toNat := rfl
  rw [hwidth, hd.widths.kernelSize]
  omega

include hd in
/-- The beats of frame `k` are the rows of image `k`. -/
theorem imageStream_frame (k : ℕ) {r c : ℕ} (hr : r < d.height.toNat) (hc : c < d.width.toNat)
    (a b : Fin g.kernelSize) :
    imageStream d I g (k * hd.frameSize.beats +
        (r * hd.frameSize.pitch + c + a.val * g.maxImageWidth + b.val)) =
      rowOrder g d (paddedHeap d M (I k) m)
        (r * hd.frameSize.pitch + c + a.val * g.maxImageWidth + b.val) := by
  have hK := hd.widths.kernelSize
  have ha := a.isLt
  have hb := b.isLt
  have hindex : r * hd.frameSize.pitch + c + a.val * g.maxImageWidth + b.val =
      (r + a.val) * (d.width.toNat + 6) + (c + b.val) := by
    rw [hd.pitch, ← hd.row_eq, Nat.add_mul]
    omega
  have hlt : (r + a.val) * (d.width.toNat + 6) + (c + b.val) < paddedBeats g d.height.toNat := by
    unfold paddedBeats
    rw [← hd.row_eq]
    exact rowMajor_lt (by omega) (by omega)
  rw [imageStream, hd.beats, hindex, rowMajor_div hlt, rowMajor_mod hlt,
    rowOrder_paddedHeap d M (I k) m (by omega) (by omega)]

end Values

/-! ### The results of a session -/

section Results

variable (hT : P.altshiftTaps.DelayLine g.maxImageWidth) (hB : P.registerBank.KeepsLast)
  {d : ImageSize} (hd : Fits g d) (M : Matrix (Fin 7) (Fin 7) Int16)
  (I : ℕ → Matrix (Fin d.height.toNat) (Fin d.width.toNat) UInt8) (m : Heap)
  {t : Component P} (h0 : t.control = {}) {inp : ℕ → Pins g} {n : ℕ}
  (hset : ∀ k, ∀ i ≤ n, Holds d (paddedHeap d M (I k) m) (run Component.step t inp i))
  (hfeed : ∀ i < n, (run Component.step t inp i).accepts (inp i) →
    (inp i).asiInData = imageStream d I g (beatsTaken t inp i))

include hT hB hd h0 hset hfeed

/-- The sum that a transfer narrows. -/
theorem exactSum_in_session (ht : (run Component.step t inp n).transfers (inp n)) :
    ∃ k r c, r < d.height.toNat ∧ c < d.width.toNat ∧
      resultsSent t inp n = k * (d.height.toNat * d.width.toNat) + (r * d.width.toNat + c) ∧
      exactSum (run Component.step t inp n) =
        windowSum (paddedHeap d M (I k) m) (UInt32.ofNat r) (UInt32.ofNat c) := by
  have hc : ∀ i ≤ n,
      Configured hd.frameSize.width hd.frameSize.height (run Component.step t inp i) :=
    fun i hi => (hset 0 i hi).configured
  obtain ⟨hlt, hwindow⟩ := frames_window hT hB _ h0 hc hfeed ht
  have hledger := (handshake_ledger h0 hc).2
  generalize (FrameLog.underWay (observe (t, {}) inp n)).sent.length = j at hledger
  rw [hledger, Nat.succ_mul] at hlt
  have hj : j < d.height.toNat * d.width.toNat := Nat.lt_of_add_lt_add_left hlt
  obtain ⟨r, c, hr, hcol, rfl⟩ := exists_rowMajor hj
  refine ⟨framesDone t inp n, r, c, hr, hcol, hledger, ?_⟩
  refine exactSum_of_window hd (hset (framesDone t inp n) n le_rfl) hcol fun a b => ?_
  rw [hwindow r c hcol hledger, imageStream_frame hd M I m _ hr hcol]

variable (hP : P.PairsColumns) (hm : ∀ k, SumsInRange d (paddedHeap d M (I k) m))

include hP hm

/-- The value on the output at a transfer. -/
theorem asoOutData_in_session (ht : (run Component.step t inp n).transfers (inp n)) :
    (run Component.step t inp n).asoOutData.toInt =
      sessionValue M I m (resultsSent t inp n) := by
  obtain ⟨k, r, c, hr, hc, hindex, hsum⟩ := exactSum_in_session hT hB hd M I m h0 hset hfeed ht
  obtain ⟨hlo, hhi⟩ := hm k r hr c hc
  rw [asoOutData_of_mem hP (by rw [hsum]; exact hlo) (by rw [hsum]; exact hhi), hsum, hindex,
    sessionValue_frame M I m k (rowMajor_lt hr hc), storedValue, rowMajor_div hc, rowMajor_mod hc]

/-- **Run lemma.** The results are the values of `main.c`, in order. -/
theorem sentDuring_session : (sentDuring t inp n).map BitVec.toInt =
    (List.range (resultsSent t inp n)).map (sessionValue M I m) := by
  induction n with
  | zero => rfl
  | succ n ih =>
      have hset' : ∀ k, ∀ i ≤ n, Holds d (paddedHeap d M (I k) m) (run Component.step t inp i) :=
        fun k i hi => hset k i (Nat.le_succ_of_le hi)
      have hfeed' := fun i (hi : i < n) => hfeed i (Nat.lt_succ_of_lt hi)
      rw [sentDuring_succ, List.map_append, ih hset' hfeed', resultsSent_succ]
      split
      · rename_i ht
        rw [List.range_succ, List.map_append, List.map_singleton, List.map_singleton,
          asoOutData_in_session hT hB hd M I m h0 hset' hfeed' hP hm ht]
      · rw [List.map_nil, List.append_nil, Nat.add_zero]

end Results

/-! ### The files of `main.c` -/

/-- The bytes of a result. -/
def resultBytes (v : BitVec 16) : List UInt8 := encodeLE 2 v.toNat

theorem resultBytes_eq (v : BitVec 16) : resultBytes v = encodeInt16 (Int16.ofInt v.toInt) := by
  show encodeLE 2 v.toNat = encodeLE 2 (BitVec.ofInt 16 v.toInt).toNat
  rw [BitVec.ofInt_toInt]

section Files

variable (d : ImageSize) (M : Matrix (Fin 7) (Fin 7) Int16)
  (I : ℕ → Matrix (Fin d.height.toNat) (Fin d.width.toNat) UInt8) (m : Heap)

/-- What `main.c` writes for the first `k` images, without the headers. The blocks of turn `i`
hold `fresh i` when they are allocated. -/
def mainBytes (fresh : ℕ → Heap) (k : ℕ) : List UInt8 :=
  (mainLoop emptyHeap ((List.range k).map fun i =>
    ⟨(fwriteInt16 M, writeInputBinImage (I i)), fresh i⟩)).flatMap (List.drop 8)

/-- The values of one file. -/
theorem drop_outputFile (A : Matrix (Fin d.height.toNat) (Fin d.width.toNat) UInt8) :
    (iterateOn d M A m).2.drop 8 = (List.range (d.height.toNat * d.width.toNat)).flatMap
      fun n => encodeInt16 (Int16.ofInt (storedValue d (paddedHeap d M A m) n)) := by
  obtain ⟨hit, hfile⟩ := iterateOn_iterated d M A m
  have hcount : (d.width * d.height).toNat = d.height.toNat * d.width.toNat := by
    rw [toNat_mul_of_lt d.pixels_lt, Nat.mul_comm]
  have hheader : (encodeUInt32 d.width ++ encodeUInt32 d.height).length = 8 := by
    rw [List.length_append, length_encodeUInt32, length_encodeUInt32]
  have hvalues := outputValues_eq d M A m
  rw [outputValues, List.map_inj_left] at hvalues
  rw [hfile, outputFile, hit.width, hit.height, hcount, List.drop_left' hheader]
  refine List.flatMap_congr fun n hn => ?_
  rw [← hvalues n hn, Int16.ofInt_toInt]

/-- The files of a mask and an image are complete. -/
theorem completeFiles (A : Matrix (Fin d.height.toNat) (Fin d.width.toNat) UInt8) :
    CompleteFiles (fwriteInt16 M, writeInputBinImage A) :=
  ⟨(length_fwriteInt16 M).ge, d, _, writeInputBinImage_eq d A, (length_pixels d A).ge⟩

theorem mainBytes_eq (fresh : ℕ → Heap) (k : ℕ) : mainBytes d M I fresh k =
    (List.range (k * (d.height.toNat * d.width.toNat))).flatMap
      fun n => encodeInt16 (Int16.ofInt (sessionValue M I m n)) := by
  rw [mainBytes, mainLoop_output m, List.map_map, List.flatMap_map, ← flatMap_range_mul]
  · refine List.flatMap_congr fun i _ => (drop_outputFile d M m (I i)).trans ?_
    refine List.flatMap_congr fun n hn => ?_
    rw [sessionValue_frame M I m i (List.mem_range.mp hn)]
  · intro t ht
    obtain ⟨i, -, rfl⟩ := List.mem_map.mp ht
    exact completeFiles d M (I i)

/-- Fewer results are a prefix. -/
theorem mainBytes_prefix (fresh : ℕ → Heap) {j k : ℕ}
    (h : j ≤ k * (d.height.toNat * d.width.toNat)) :
    (List.range j).flatMap (fun n => encodeInt16 (Int16.ofInt (sessionValue M I m n))) <+:
      mainBytes d M I fresh k := by
  obtain ⟨r, hr⟩ := Nat.exists_eq_add_of_le h
  rw [mainBytes_eq d M I m, hr, List.range_add, List.flatMap_append]
  exact List.prefix_append _ _

end Files

/-! ### The session -/

theorem sentDuring_add (s : Component P) (inp : ℕ → Pins g) (m n : ℕ) :
    sentDuring s inp (m + n) = sentDuring s inp m ++
      sentDuring (run Component.step s inp m) (fun k => inp (m + k)) n := by
  induction n with
  | zero => simp [sentDuring]
  | succ n ih =>
      rw [← Nat.add_assoc, sentDuring_succ, ih, sentDuring_succ, List.append_assoc, run_add]

theorem sentDuring_of_idle {s : Component P} {inp : ℕ → Pins g} {n : ℕ}
    (h : ∀ m ≤ n, (run Component.step s inp m).Idle) : sentDuring s inp n = [] := by
  induction n with
  | zero => rfl
  | succ n ih =>
      rw [sentDuring_succ, ih fun m hm => h m (Nat.le_succ_of_le hm),
        (no_handshake_of_idle (h n (Nat.le_succ n)) _).2]
      rfl

section Started

variable (hT : P.altshiftTaps.DelayLine g.maxImageWidth) (hB : P.registerBank.KeepsLast)
  (hP : P.PairsColumns) {d : ImageSize} (hd : Fits g d) (M : Matrix (Fin 7) (Fin 7) Int16)
  (I : ℕ → Matrix (Fin d.height.toNat) (Fin d.width.toNat) UInt8) (m : Heap)
  (hm : ∀ k, SumsInRange d (paddedHeap d M (I k) m)) {t : Component P} (h0 : t.control = {})
  {inp : ℕ → Pins g} {n : ℕ}
  (hset : ∀ k, ∀ i ≤ n, Holds d (paddedHeap d M (I k) m) (run Component.step t inp i))
  (hfeed : ∀ i < n, (run Component.step t inp i).accepts (inp i) →
    (inp i).asiInData = imageStream d I g (beatsTaken t inp i))

include hT hB hP hd hm h0 hset hfeed

/-- From the start on the results are those of the frames that have ended, and a prefix of
those of the next. -/
theorem started_refines (fresh : ℕ → Heap) :
    (sentDuring t inp n).flatMap resultBytes <+: mainBytes d M I fresh (framesDone t inp n + 1) ∧
      ((run Component.step t inp n).Idle →
        (sentDuring t inp n).flatMap resultBytes = mainBytes d M I fresh (framesDone t inp n)) := by
  have hc : ∀ k ≤ n,
      Configured hd.frameSize.width hd.frameSize.height (run Component.step t inp k) :=
    fun k hk => (hset 0 k hk).configured
  have hbytes : (sentDuring t inp n).flatMap resultBytes =
      (List.range (resultsSent t inp n)).flatMap
        fun j => encodeInt16 (Int16.ofInt (sessionValue M I m j)) := by
    have hvalues := congrArg (List.flatMap fun v => encodeInt16 (Int16.ofInt v))
      (sentDuring_session hT hB hd M I m h0 hset hfeed hP hm)
    rw [List.flatMap_map, List.flatMap_map] at hvalues
    exact (List.flatMap_congr fun v _ => resultBytes_eq v).trans hvalues
  constructor
  · rw [hbytes]
    refine mainBytes_prefix d M I m fresh ?_
    rw [(handshake_ledger h0 hc).2, Nat.succ_mul]
    exact Nat.add_le_add_left (underWay_le h0 hc).2 _
  · intro hidle
    rw [hbytes, (handshakes_of_idle h0 hc hidle).2, mainBytes_eq d M I m]
    rfl

end Started

/-- **The session refines `main.c`.** From reset, once the bus has programmed the sizes, the
mask and at last the control bit, with any accesses in any order and any stream activity
meanwhile, the component turns the stream of extended images into what `main.c` writes for
the same files, byte for byte and whatever `malloc` gives: at any time a prefix of it, in `S0`
exactly the images that are done. Every number of images gets done when the handshakes keep
coming. No sum of an image may exceed the output, which wraps where `main.c` clamps. -/
theorem session_refines (hK : AddressesFit g) (hT : P.altshiftTaps.DelayLine g.maxImageWidth)
    (hB : P.registerBank.KeepsLast) (hP : P.PairsColumns) (d : OutputSize)
    (hd : Fits g d.toImageSize) (M : Matrix (Fin 7) (Fin 7) Int16)
    (I : ℕ → Matrix (Fin d.height.toNat) (Fin d.width.toNat) UInt8) (fresh : ℕ → Heap)
    (hm : ∀ k i j, -2 ^ 21 ≤ referenceSum Mᵀ (I k) i j ∧ referenceSum Mᵀ (I k) i j < 2 ^ 21)
    {s : Component P} (h0 : s.IsReset) {inp : ℕ → Pins g} {n₀ : ℕ}
    (hprog : Programs d.toImageSize (fwriteInt16 M) inp n₀)
    (hquiet : ∀ k, (inp (n₀ + k)).Quiet)
    (hfeed : ∀ n, (run Component.step s inp n).accepts (inp n) →
      (inp n).asiInData = imageStream d.toImageSize I g (beatsTaken s inp n)) :
    (∀ n, (sentDuring s inp n).flatMap resultBytes <+:
      mainBytes d.toImageSize M I fresh (framesDone s inp n + 1)) ∧
    (∀ n, (run Component.step s inp n).Idle → (sentDuring s inp n).flatMap resultBytes =
      mainBytes d.toImageSize M I fresh (framesDone s inp n)) ∧
    ((∀ n, ∃ k ≥ n, (inp k).asiInValid) → (∀ n, ∃ k ≥ n, (inp k).asoOutReady) →
      ∀ k, ∃ n, (run Component.step s inp n).Idle ∧ k ≤ framesDone s inp n) := by
  have hbefore : ∀ k ≤ n₀, (run Component.step s inp k).control = {} := fun k hk =>
    control_while_stopped (e := 0) hK h0 h0.2 (Nat.zero_le k) fun j _ hj =>
      hprog.notBefore j (hj.trans_le hk)
  have hidle : ∀ k ≤ n₀, (run Component.step s inp k).Idle := fun k hk => by
    unfold Component.Idle
    rw [hbefore k hk]
  obtain ⟨hbeats, -, hframes⟩ := counts_of_idle hidle
  have hset : ∀ k n, Holds d.toImageSize (paddedHeap d.toImageSize M (I k) emptyHeap)
      (run Component.step (run Component.step s inp n₀) (fun k => inp (n₀ + k)) n) := by
    intro k n
    rw [← run_watch_fst Component.step FrameLog.record (run Component.step s inp n₀, {})]
    exact Holds.of_quiet (p := (_, {})) (hprog.holds hK h0 hd.widths (I k) emptyHeap) hquiet n
  have hsum : ∀ k, SumsInRange d.toImageSize (paddedHeap d.toImageSize M (I k) emptyHeap) := by
    intro k i hi j hj
    rw [windowSum_paddedHeap d.toImageSize M (I k) emptyHeap ⟨i, hi⟩ ⟨j, hj⟩]
    exact hm k ⟨i, hi⟩ ⟨j, hj⟩
  have hrun := fun n => started_refines hT hB hP hd M I emptyHeap hsum (hbefore n₀ le_rfl)
    (n := n) (fun k i _ => hset k i) (fun i _ ha => by
      rw [← run_add] at ha
      rw [hfeed _ ha, beatsTaken_add, hbeats, Nat.zero_add]) fresh
  -- before the start there are no results, and after it those of the started run
  have hlater : ∀ n, sentDuring s inp (n₀ + n) = sentDuring (run Component.step s inp n₀)
      (fun k => inp (n₀ + k)) n := fun n => by
    rw [sentDuring_add, sentDuring_of_idle hidle, List.nil_append]
  have hdone : ∀ n, framesDone s inp (n₀ + n) = framesDone (run Component.step s inp n₀)
      (fun k => inp (n₀ + k)) n := fun n => by
    rw [framesDone_add, hframes, Nat.zero_add]
  refine ⟨fun n => ?_, fun n hn => ?_, fun valid ready k => ?_⟩
  · rcases Nat.le_total n n₀ with hle | hle
    · rw [sentDuring_of_idle fun k hk => hidle k (hk.trans hle)]
      exact List.nil_prefix
    · obtain ⟨j, rfl⟩ := Nat.exists_eq_add_of_le hle
      rw [hlater, hdone]
      exact (hrun j).1
  · rcases Nat.le_total n n₀ with hle | hle
    · rw [sentDuring_of_idle fun k hk => hidle k (hk.trans hle),
        (counts_of_idle fun k hk => hidle k (hk.trans hle)).2.2]
      rfl
    · obtain ⟨j, rfl⟩ := Nat.exists_eq_add_of_le hle
      rw [hlater, hdone]
      rw [run_add] at hn
      exact (hrun j).2 hn
  · have hbit := (controlBit_run hK h0 inp n₀).trans hprog.started
    obtain ⟨j, hj, hk⟩ := frames_complete (f := hd.frameSize) (hbefore n₀ le_rfl)
      (fun n => (hset 0 n).configured)
      (fun n => by rw [Component.controlBit_run_of_quiet _ hquiet, hbit])
      (recurs_add valid n₀) (recurs_add ready n₀) k
    refine ⟨n₀ + j, ?_, by rwa [hdone]⟩
    unfold Component.Idle
    rw [run_add, hj]

/-- Two columns, two rows, the mask that is `1` at its centre, and white images. -/
def whiteSession (n : ℕ) : Pins smallGenerics :=
  if n = 0 then { avsParamsWrite := true, avsParamsAddress := 2, avsParamsWritedata := 2 }
  else if n = 1 then { avsParamsWrite := true, avsParamsAddress := 3, avsParamsWritedata := 2 }
  else if n = 2 then { avsParamsWrite := true, avsParamsAddress := 28, avsParamsWritedata := 2048 }
  else if n = 3 then { avsParamsWrite := true, avsParamsAddress := 0, avsParamsWritedata := 1 }
  else { eager smallGenerics with asiInData := 255 }

theorem whiteSession_later (k : ℕ) :
    whiteSession (4 + k) = { eager smallGenerics with asiInData := 255 } := by
  simp only [whiteSession, show 4 + k ≠ 0 by omega, show 4 + k ≠ 1 by omega,
    show 4 + k ≠ 2 by omega, show 4 + k ≠ 3 by omega, if_false]

theorem whiteSession_programs :
    Programs twoByTwo.toImageSize (fwriteInt16 centreCoeffs) whiteSession 4 where
  width := by decide
  height := by decide
  coeffs := by decide +kernel
  started := by decide
  notBefore := by decide

theorem session_refines_white : ∃ n,
    3 ≤ framesDone (Component.programmed (Parts.plain smallGenerics) 2 2).clear whiteSession n ∧
      (sentDuring (Component.programmed (Parts.plain smallGenerics) 2 2).clear whiteSession
        n).flatMap resultBytes = mainBytes twoByTwo.toImageSize centreCoeffs
          (fun _ => Matrix.of fun _ _ => 255) (fun _ => emptyHeap) (framesDone
            (Component.programmed (Parts.plain smallGenerics) 2 2).clear whiteSession n) := by
  have hsymm : centreCoeffsᵀ = centreCoeffs := Matrix.transpose_single _ _ _
  have hpin : ∀ n ≥ 4, whiteSession n = { eager smallGenerics with asiInData := 255 } :=
    fun n hn => by
      obtain ⟨k, rfl⟩ := Nat.exists_eq_add_of_le hn
      exact whiteSession_later k
  have hidle : ∀ n < 4, (run Component.step
      (Component.programmed (Parts.plain smallGenerics) 2 2).clear whiteSession n).Idle := by
    decide +kernel
  obtain ⟨-, hvalues, hframes⟩ := session_refines (by decide)
    (Parts.plain_delayLine smallGenerics) (Parts.plain_keepsLast smallGenerics)
    (Parts.plain_pairsColumns smallGenerics) twoByTwo
    ⟨⟨rfl, rfl, rfl, rfl⟩, rfl, by decide, by decide⟩ centreCoeffs
    (fun _ => Matrix.of fun _ _ => 255) (fun _ => emptyHeap) (fun k i j => by
      rw [hsymm, referenceSum_centre]
      show (-2 ^ 21 : ℤ) ≤ 2 ^ 11 * (255 : UInt8).toNat ∧
        (2 ^ 11 * (255 : UInt8).toNat : ℤ) < 2 ^ 21
      decide)
    (Component.clear_isReset (Component.programmed (Parts.plain smallGenerics) 2 2))
    whiteSession_programs (fun k => by rw [whiteSession_later]; exact ⟨rfl, rfl⟩)
    (fun n ha => by
      rcases Nat.lt_or_ge n 4 with hn | hn
      · rw [(no_handshake_of_idle (hidle n hn) _).1] at ha
        cases ha
      · rw [hpin n hn]
        rfl)
  obtain ⟨n, hn, hdone⟩ := hframes (fun n => ⟨n + 4, by omega, by rw [hpin _ (by omega)]; rfl⟩)
    (fun n => ⟨n + 4, by omega, by rw [hpin _ (by omega)]; rfl⟩) 3
  exact ⟨n, hdone, hvalues n hn⟩

end FirFilter.System
