import FirFilter.Lib.BusMaster
import FirFilter.Lib.Fifo
import Mathlib.Data.BitVec
/-!
# FirFilter.Hardware.JtagUart

The device behind `stdin` and `stdout`.

Two queues of 64 bytes lie between the bus and the host. The processor sees them through
two registers: reading the data register takes a byte, writing it sends one, and the
control register tells how much room there is and enables the two interrupts. The host
takes bytes and brings bytes whenever it likes.

The pins of the bus are those of the cycle in which a transfer is accepted. The master
holds `av_writedata` for one more cycle, in which the byte goes into the queue; here it is
latched.
-/

namespace FirFilter.Hardware

open Clocked BusMaster

/-- The pins during one cycle: the transfer on the bus, if any, and what the host does. -/
structure UartPins where
  rstN : Bool := true
  avAddress : Bool := false
  avRead : Bool := false
  avWrite : Bool := false
  avWritedata : BitVec 32 := 0
  rEna : Bool := false
  tEna : Bool := false
  tDat : BitVec 8 := 0
  tPause : Bool := false
  deriving DecidableEq

variable (F : Fifo (BitVec 8))

/-- The registers. `wdata` is `av_writedata` in the second cycle of a transfer. -/
structure JtagUart where
  wfifo : F.State := F.aclr
  rfifo : F.State := F.aclr
  ac : Bool := false
  fifoAE : Bool := false
  fifoAF : Bool := false
  fifoWr : Bool := false
  wdata : BitVec 8 := 0
  ienAE : Bool := false
  ienAF : Bool := false
  pauseIrq : Bool := false
  rVal : Bool := false
  tDav : Bool := true
  read0 : Bool := false
  rvalid : Bool := false
  woverflow : Bool := false

variable {F}

namespace JtagUart

variable (u : JtagUart F) (x : UartPins)

/-! ### Signals -/

def fifoFF : Bool := F.full u.wfifo
def fifoEF : Bool := F.empty u.rfifo
def rfifoFull : Bool := F.full u.rfifo
def wfifoEmpty : Bool := F.empty u.wfifo

/-- `{fifo_FF, wfifo_used}` -/
def wfifoUsed : BitVec 7 := (BitVec.ofBool u.fifoFF ++ BitVec.ofNat 6 (F.usedw u.wfifo)).cast rfl

/-- `{rfifo_full, rfifo_used}` -/
def rfifoUsed : BitVec 7 :=
  (BitVec.ofBool u.rfifoFull ++ BitVec.ofNat 6 (F.usedw u.rfifo)).cast rfl

def rdWfifo : Bool := x.rEna && !u.wfifoEmpty
def wrRfifo : Bool := x.tEna && !u.rfifoFull
def ipenAE : Bool := u.ienAE && u.fifoAE
def ipenAF : Bool := u.ienAF && (u.pauseIrq || u.fifoAF)
def avIrq : Bool := u.ipenAE || u.ipenAF

def dataWrite : Bool := x.avWrite && !x.avAddress
def controlWrite : Bool := x.avWrite && x.avAddress
def dataRead : Bool := x.avRead && !x.avAddress
def activity : Bool := x.tPause || x.tEna

/-- The read request to the receive queue. -/
def fifoRd : Bool := dataRead x && !u.fifoEF

/-- The bits that both registers show. -/
def flags : BitVec 8 :=
  (BitVec.ofBool u.rvalid ++ BitVec.ofBool u.woverflow ++ BitVec.ofBool (!u.fifoFF) ++
    BitVec.ofBool (!u.fifoEF) ++ 0#1 ++ BitVec.ofBool u.ac ++ BitVec.ofBool u.ipenAE ++
    BitVec.ofBool u.ipenAF).cast rfl

def avReaddata : BitVec 32 :=
  if u.read0 then (0#9 ++ u.rfifoUsed ++ u.flags ++ F.q u.rfifo).cast rfl
  else (0#9 ++ (0x40#7 - u.wfifoUsed) ++ u.flags ++ 0#6 ++ BitVec.ofBool u.ienAE ++
    BitVec.ofBool u.ienAF).cast rfl

/-! ### The clock edge -/

def step : JtagUart F :=
  if x.rstN then
    { wfifo := F.step u.wfifo (if u.fifoWr then some u.wdata else none) (u.rdWfifo x)
      rfifo := F.step u.rfifo (if u.wrRfifo x then some x.tDat else none) (u.fifoRd x)
      ac := if controlWrite x && x.avWritedata.getLsbD 10 && !activity x then false
        else u.ac || activity x
      fifoAE := u.wfifoUsed.toNat ≤ 8
      fifoAF := 0x40 - u.rfifoUsed.toNat ≤ 8
      fifoWr := dataWrite x && !u.fifoFF
      wdata := x.avWritedata.setWidth 8
      ienAE := if controlWrite x then x.avWritedata.getLsbD 1 else u.ienAE
      ienAF := if controlWrite x then x.avWritedata.getLsbD 0 else u.ienAF
      pauseIrq := if x.tPause && !u.fifoEF then true else if u.read0 then false else u.pauseIrq
      rVal := u.rdWfifo x
      tDav := !u.rfifoFull
      read0 := dataRead x
      rvalid := if dataRead x then !u.fifoEF else u.rvalid
      woverflow := if dataWrite x then u.fifoFF else u.woverflow }
  else {}

end JtagUart

/-! ### The registers, bit by bit -/

/-- A mask of one bit. -/
theorem and_eq_zero_iff {w m : BitVec 32} {k : ℕ}
    (hm : ∀ i < 32, m.getLsbD i = decide (i = k)) (hk : k < 32) :
    w &&& m = 0 ↔ w.getLsbD k = false := by
  constructor
  · intro h
    have hbit := congrArg (fun v => v.getLsbD k) h
    simpa [hm k hk] using hbit
  · intro h
    apply BitVec.eq_of_getLsbD_eq
    intro i hi
    rw [BitVec.getLsbD_and, hm i hi]
    by_cases hik : i = k
    · simp [hik, h]
    · simp [hik]

theorem getLsbD_zero_append {n m : ℕ} (v : BitVec n) (i : ℕ) :
    (if i < n then v.getLsbD i else (0#m).getLsbD (i - n)) = v.getLsbD i := by
  split
  · rfl
  · rw [BitVec.getLsbD_of_ge v i (by omega)]
    simp

/-- A full queue counts 64 words, the others less. -/
theorem toNat_used {b : Bool} {n : ℕ} (hn : n < 64) :
    ((BitVec.ofBool b ++ BitVec.ofNat 6 n).cast rfl : BitVec 7).toNat =
      (if b then 64 else 0) + n := by
  rw [BitVec.toNat_cast, BitVec.toNat_append, BitVec.toNat_ofNat, Nat.mod_eq_of_lt hn,
    ← Nat.shiftLeft_add_eq_or_of_lt hn]
  cases b <;> simp

namespace JtagUart

variable {u : JtagUart F}

section Control

variable (h : u.read0 = false)

include h

theorem control_ri : u.avReaddata.getLsbD 8 = u.ipenAF := by
  simp only [avReaddata, h, flags, BitVec.getLsbD_cast, BitVec.getLsbD_append,
    Bool.false_eq_true, if_false]
  simp

theorem control_wi : u.avReaddata.getLsbD 9 = u.ipenAE := by
  simp only [avReaddata, h, flags, BitVec.getLsbD_cast, BitVec.getLsbD_append,
    Bool.false_eq_true, if_false]
  simp

theorem control_wspace : u.avReaddata >>> 16 = (0x40#7 - u.wfifoUsed).setWidth 32 := by
  apply BitVec.eq_of_getLsbD_eq
  intro i hi
  simp only [avReaddata, h, BitVec.getLsbD_cast, BitVec.getLsbD_append, Bool.false_eq_true,
    if_false, BitVec.getLsbD_ushiftRight, BitVec.getLsbD_setWidth]
  have h1 : ¬ 16 + i < 1 := by omega
  have h2 : ¬ 16 + i - 1 < 1 := by omega
  have h3 : ¬ 16 + i - 1 - 1 < 6 := by omega
  have h4 : ¬ 16 + i - 1 - 1 - 6 < 8 := by omega
  have h5 : 16 + i - 1 - 1 - 6 - 8 = i := by omega
  simp only [h1, h2, h3, h4, h5, hi, if_false, decide_true, Bool.true_and]
  exact getLsbD_zero_append _ i

end Control

section Data

variable (h : u.read0 = true)

include h

theorem data_rvalid : u.avReaddata.getLsbD 15 = u.rvalid := by
  simp only [avReaddata, h, flags, BitVec.getLsbD_cast, BitVec.getLsbD_append, if_true]
  simp

theorem data_byte : u.avReaddata.setWidth 8 = F.q u.rfifo := by
  apply BitVec.eq_of_getLsbD_eq
  intro i hi
  simp only [avReaddata, h, BitVec.getLsbD_cast, BitVec.getLsbD_append, if_true,
    BitVec.getLsbD_setWidth]
  simp [hi]

end Data

section Queues

variable {contents : F.State → List (BitVec 8)} (hF : F.Queues 64 contents)

include hF

theorem toNat_wfifoUsed (hle : (contents u.wfifo).length ≤ 64) :
    u.wfifoUsed.toNat = (contents u.wfifo).length := by
  have hlt : F.usedw u.wfifo < 64 := by
    rw [hF.usedw]
    exact Nat.mod_lt _ (by decide)
  exact (toNat_used hlt).trans (hF.used hle)

theorem toNat_rfifoUsed (hle : (contents u.rfifo).length ≤ 64) :
    u.rfifoUsed.toNat = (contents u.rfifo).length := by
  have hlt : F.usedw u.rfifo < 64 := by
    rw [hF.usedw]
    exact Nat.mod_lt _ (by decide)
  exact (toNat_used hlt).trans (hF.used hle)

end Queues

end JtagUart

/-! ### What goes through -/

/-- The bytes so far: those written to the data register, those of them that came while the
queue was full, those the host has taken, those the host has brought, and those read from the
data register. -/
structure UartLog where
  written : List (BitVec 8) := []
  dropped : List (BitVec 8) := []
  taken : List (BitVec 8) := []
  given : List (BitVec 8) := []
  read : List (BitVec 8) := []
  deriving DecidableEq

def UartLog.record (l : UartLog) (u : JtagUart F) (x : UartPins) : UartLog where
  written := if JtagUart.dataWrite x then l.written ++ [x.avWritedata.setWidth 8] else l.written
  dropped := if JtagUart.dataWrite x && u.fifoFF then l.dropped ++ [x.avWritedata.setWidth 8]
    else l.dropped
  taken := if u.rVal then l.taken ++ [F.q u.wfifo] else l.taken
  given := if u.wrRfifo x then l.given ++ [x.tDat] else l.given
  read := if u.fifoRd x then l.read ++ [F.q (u.step x).rfifo] else l.read

namespace UartLog

variable {l : UartLog} {u : JtagUart F} {x : UartPins}

theorem record_written : (l.record u x).written =
    l.written ++ if JtagUart.dataWrite x then [x.avWritedata.setWidth 8] else [] := by
  cases h : JtagUart.dataWrite x <;> simp [record, h]

theorem record_dropped : (l.record u x).dropped =
    l.dropped ++ if JtagUart.dataWrite x && u.fifoFF then [x.avWritedata.setWidth 8] else [] := by
  cases h : JtagUart.dataWrite x && u.fifoFF <;> simp [record, h]

theorem record_taken : (l.record u x).taken =
    l.taken ++ if u.rVal then [F.q u.wfifo] else [] := by
  cases h : u.rVal <;> simp [record, h]

theorem record_given : (l.record u x).given =
    l.given ++ if u.wrRfifo x then [x.tDat] else [] := by
  cases h : u.wrRfifo x <;> simp [record, h]

theorem record_read : (l.record u x).read =
    l.read ++ if u.fifoRd x then [F.q (u.step x).rfifo] else [] := by
  cases h : u.fifoRd x <;> simp [record, h]

end UartLog

/-- The slave, with a record of the bytes. -/
def uartBus (F : Fifo (BitVec 8)) : Device (JtagUart F × UartLog) UartPins Bool (BitVec 32) where
  step := watch JtagUart.step UartLog.record
  data p := p.1.avReaddata
  Idle x := x.rstN = true ∧ x.avRead = false ∧ x.avWrite = false
  Writes x a v := x.rstN = true ∧ x.avRead = false ∧ x.avWrite = true ∧ x.avAddress = a ∧
    x.avWritedata = v
  Reads x a := x.rstN = true ∧ x.avRead = true ∧ x.avWrite = false ∧ x.avAddress = a

variable {contents : F.State → List (BitVec 8)} {p : JtagUart F × UartLog} {x : UartPins}
  {space n : ℕ}

/-- Every byte is at one place between the bus and the host, in order, and there is room
for `space` more. -/
structure Conveys (contents : F.State → List (BitVec 8)) (space : ℕ) (p : JtagUart F × UartLog) :
    Prop where
  room : space + (contents p.1.wfifo).length + (if p.1.fifoWr then 1 else 0) ≤ 64
  rroom : (contents p.1.rfifo).length ≤ 64
  sent : p.2.written = p.2.taken ++ (if p.1.rVal then [F.q p.1.wfifo] else []) ++
    contents p.1.wfifo ++ (if p.1.fifoWr then [p.1.wdata] else [])
  got : p.2.given = p.2.read ++ contents p.1.rfifo
  fits : p.1.woverflow = false
  dropped : p.2.dropped = []
  almostEmpty : p.1.fifoAE = true → (contents p.1.wfifo).length ≤ 9
  almostFull : p.1.fifoAF = true → 55 ≤ (contents p.1.rfifo).length
  paused : p.1.pauseIrq = true → contents p.1.rfifo ≠ [] ∨ p.1.read0 = true

namespace Conveys

variable (hF : F.Queues 64 contents) (h : Conveys contents (space + n) p) (hr : x.rstN = true)

include hF h

theorem not_full (hn : 0 < n) : p.1.fifoFF = false := by
  have hroom := h.room
  have hne : (contents p.1.wfifo).length ≠ 64 := by omega
  simpa [JtagUart.fifoFF] using mt (hF.full p.1.wfifo).mp hne

include hr

/-- The byte that is pending goes into the queue, and one may be shown to the host. -/
theorem wfifo_step :
    contents p.1.wfifo ++ (if p.1.fifoWr then [p.1.wdata] else []) =
      (if (p.1.step x).rVal then [F.q (p.1.step x).wfifo] else []) ++
        contents (p.1.step x).wfifo := by
  have hroom := h.room
  have hmove := hF.contents_step (s := p.1.wfifo) (r := p.1.rdWfifo x)
    (w := if p.1.fifoWr then some p.1.wdata else none) (by
      cases hwr : p.1.fifoWr with
      | false => exact .inl rfl
      | true =>
          rw [hwr, if_pos rfl] at hroom
          exact .inr (by omega))
    (by simp [JtagUart.rdWfifo, JtagUart.wfifoEmpty])
  simp only [JtagUart.step, hr, if_true]
  rw [← hmove]
  cases p.1.fifoWr <;> rfl

/-- The host brings bytes as long as there is room. -/
theorem rfifo_step :
    contents p.1.rfifo ++ (if p.1.wrRfifo x then [x.tDat] else []) =
      (if p.1.fifoRd x then [F.q (p.1.step x).rfifo] else []) ++ contents (p.1.step x).rfifo ∧
      (contents (p.1.step x).rfifo).length ≤ 64 := by
  have hrroom := h.rroom
  have hlt : p.1.wrRfifo x = true → (contents p.1.rfifo).length < 64 := by
    intro hx
    have hnot : F.full p.1.rfifo = false := by
      simpa [JtagUart.wrRfifo, JtagUart.rfifoFull] using (Bool.and_eq_true_iff.mp hx).2
    have hne : (contents p.1.rfifo).length ≠ 64 := fun he => by
      simp [(hF.full p.1.rfifo).mpr he] at hnot
    exact Nat.lt_of_le_of_ne hrroom hne
  have hmove := hF.contents_step (s := p.1.rfifo) (r := p.1.fifoRd x)
    (w := if p.1.wrRfifo x then some x.tDat else none) (by
      cases hx : p.1.wrRfifo x with
      | false => exact .inl rfl
      | true => exact .inr (hlt hx))
    (by simp [JtagUart.fifoRd, JtagUart.fifoEF])
  have hstep : (p.1.step x).rfifo =
      F.step p.1.rfifo (if p.1.wrRfifo x then some x.tDat else none) (p.1.fifoRd x) := by
    simp [JtagUart.step, hr]
  rw [hstep]
  have hlen := congrArg List.length hmove
  cases hx : p.1.wrRfifo x with
  | false =>
      simp only [hx, Bool.false_eq_true, if_false, Option.toList_none, List.length_append,
        List.length_nil] at hmove hlen ⊢
      exact ⟨hmove, by omega⟩
  | true =>
      have := hlt hx
      simp only [hx, if_true, Option.toList_some, List.length_append, List.length_cons,
        List.length_nil] at hmove hlen ⊢
      exact ⟨hmove, by omega⟩

theorem wfifo_length :
    (contents (p.1.step x).wfifo).length + (if (p.1.step x).rVal then 1 else 0) =
      (contents p.1.wfifo).length + (if p.1.fifoWr then 1 else 0) := by
  have hlen := congrArg List.length (h.wfifo_step hF hr)
  simp only [List.length_append, apply_ite List.length, List.length_singleton,
    List.length_nil] at hlen
  omega

theorem rfifo_length :
    (contents (p.1.step x).rfifo).length + (if p.1.fifoRd x then 1 else 0) =
      (contents p.1.rfifo).length + (if p.1.wrRfifo x then 1 else 0) := by
  have hlen := congrArg List.length (h.rfifo_step hF hr).1
  simp only [List.length_append, apply_ite List.length, List.length_singleton,
    List.length_nil] at hlen
  omega

/-- Only a read takes a byte out of the receive queue. -/
theorem rfifo_stays (hrd : JtagUart.dataRead x = false) (hne : contents p.1.rfifo ≠ []) :
    contents (p.1.step x).rfifo ≠ [] := by
  obtain ⟨hrq, -⟩ := h.rfifo_step hF hr
  have hno : p.1.fifoRd x = false := by simp [JtagUart.fifoRd, hrd]
  simp only [hno, Bool.false_eq_true, if_false, List.nil_append] at hrq
  rw [← hrq]
  simp [hne]

/-- A cycle moves bytes and loses none, as long as there is room for one that is written. -/
theorem step (hn : n = if JtagUart.dataWrite x then 1 else 0) :
    Conveys contents space ((uartBus F).step p x) := by
  have hw := h.wfifo_step hF hr
  obtain ⟨hrq, hrlen⟩ := h.rfifo_step hF hr
  have hstay : contents p.1.rfifo ≠ [] →
      contents (p.1.step x).rfifo ≠ [] ∨ (p.1.step x).read0 = true := by
    intro hne
    cases hrd : JtagUart.dataRead x with
    | false => exact .inl (h.rfifo_stays hF hr hrd hne)
    | true => exact .inr (by simp [JtagUart.step, hr, hrd])
  have hlen := h.wfifo_length hF hr
  have hrlen' := h.rfifo_length hF hr
  have hone : ∀ b : Bool, (if b then 1 else 0) ≤ 1 := by decide
  have hfull : JtagUart.dataWrite x = true → p.1.fifoFF = false := fun hx =>
    h.not_full hF (by simp [hn, hx])
  have hwr : (p.1.step x).fifoWr = JtagUart.dataWrite x := by
    cases hx : JtagUart.dataWrite x with
    | false => simp [JtagUart.step, hr, hx]
    | true => simp [JtagUart.step, hr, hx, hfull hx]
  obtain ⟨hroom, hrroom, hsent, hgot, hfits, hdropped, -, -, hpaused⟩ := h
  change Conveys contents space (p.1.step x, p.2.record p.1 x)
  refine ⟨?_, hrlen, ?_, ?_, ?_, ?_, ?_, ?_, ?_⟩
  · rw [hwr, ← hn]
    change space + (contents (p.1.step x).wfifo).length + n ≤ 64
    omega
  · have hwdata : (p.1.step x).wdata = x.avWritedata.setWidth 8 := by simp [JtagUart.step, hr]
    rw [UartLog.record_written, UartLog.record_taken, hwr, hwdata, hsent]
    simp only [List.append_assoc] at hw ⊢
    rw [← List.append_assoc (contents p.1.wfifo), hw, List.append_assoc]
  · rw [UartLog.record_given, UartLog.record_read, hgot, List.append_assoc, hrq,
      List.append_assoc]
  · have hover : (p.1.step x).woverflow =
        if JtagUart.dataWrite x then p.1.fifoFF else p.1.woverflow := by simp [JtagUart.step, hr]
    rw [hover]
    split
    · exact hfull ‹_›
    · exact hfits
  · have hnone : (JtagUart.dataWrite x && p.1.fifoFF) = false := by
      cases hx : JtagUart.dataWrite x with
      | false => rfl
      | true => exact hfull hx
    rw [UartLog.record_dropped, hdropped, hnone]
    rfl
  -- the flags are those of the queues a cycle before
  · intro hae
    have hused : p.1.wfifoUsed.toNat ≤ 8 := by simpa [JtagUart.step, hr] using hae
    rw [JtagUart.toNat_wfifoUsed hF (by omega)] at hused
    have hpending := hone p.1.fifoWr
    change (contents (p.1.step x).wfifo).length ≤ 9
    omega
  · intro haf
    have hused : 64 - p.1.rfifoUsed.toNat ≤ 8 := by simpa [JtagUart.step, hr] using haf
    rw [JtagUart.toNat_rfifoUsed hF hrroom] at hused
    have hread := hone (p.1.fifoRd x)
    change 55 ≤ (contents (p.1.step x).rfifo).length
    omega
  · intro hpause
    have hnext : (p.1.step x).pauseIrq = if x.tPause && !p.1.fifoEF then true
        else if p.1.read0 then false else p.1.pauseIrq := by simp [JtagUart.step, hr]
    rw [hnext] at hpause
    split at hpause
    · rename_i hbrings
      have hne : contents p.1.rfifo ≠ [] := fun he => by
        simp [JtagUart.fifoEF, (hF.empty p.1.rfifo).mpr he] at hbrings
      exact hstay hne
    · split at hpause
      · exact absurd hpause (by decide)
      · exact hstay ((hpaused hpause).resolve_right ‹_›)

end Conveys

/-- A cycle in which no byte is written needs no room. -/
theorem Conveys.keep (hF : F.Queues 64 contents) (h : Conveys contents space p)
    (hr : x.rstN = true) (hw : JtagUart.dataWrite x = false) :
    Conveys contents space ((uartBus F).step p x) :=
  h.step (n := 0) hF hr (by simp [hw])

/-- The record only grows. -/
theorem log_mono (s : JtagUart F × UartLog) (inp : ℕ → UartPins) {n m : ℕ} (h : n ≤ m) :
    (run (uartBus F).step s inp n).2.written <+: (run (uartBus F).step s inp m).2.written ∧
      (run (uartBus F).step s inp n).2.read <+: (run (uartBus F).step s inp m).2.read := by
  induction m, h using Nat.le_induction with
  | base => exact ⟨List.prefix_rfl, List.prefix_rfl⟩
  | succ m _ ih =>
      have hw := UartLog.record_written (l := (run (uartBus F).step s inp m).2)
        (u := (run (uartBus F).step s inp m).1) (x := inp m)
      have hr := UartLog.record_read (l := (run (uartBus F).step s inp m).2)
        (u := (run (uartBus F).step s inp m).1) (x := inp m)
      exact ⟨ih.1.trans ⟨_, hw.symm⟩, ih.2.trans ⟨_, hr.symm⟩⟩

/-- What the processor has written and read, and the interrupts it has enabled. -/
structure Keeps (p q : JtagUart F × UartLog) : Prop where
  written : q.2.written = p.2.written
  read : q.2.read = p.2.read
  ienAE : q.1.ienAE = p.1.ienAE
  ienAF : q.1.ienAF = p.1.ienAF

theorem Keeps.step (hr : x.rstN = true) (hw : x.avWrite = false)
    (hd : JtagUart.dataRead x = false) : Keeps p ((uartBus F).step p x) := by
  change Keeps p (p.1.step x, p.2.record p.1 x)
  have hdata : JtagUart.dataWrite x = false := by simp [JtagUart.dataWrite, hw]
  have hcontrol : JtagUart.controlWrite x = false := by simp [JtagUart.controlWrite, hw]
  have hrd : p.1.fifoRd x = false := by simp [JtagUart.fifoRd, hd]
  constructor
  · simp [UartLog.record_written, hdata]
  · simp [UartLog.record_read, hrd]
  · simp [JtagUart.step, hr, hcontrol]
  · simp [JtagUart.step, hr, hcontrol]

section Accesses

variable {v : BitVec 32}

theorem idle_data (hx : (uartBus F).Idle x) :
    JtagUart.dataWrite x = false ∧ JtagUart.dataRead x = false := by
  simp [JtagUart.dataWrite, JtagUart.dataRead, hx.2.1, hx.2.2]

theorem readControl_data (hx : (uartBus F).Reads x true) :
    JtagUart.dataWrite x = false ∧ JtagUart.dataRead x = false := by
  simp [JtagUart.dataWrite, JtagUart.dataRead, hx.2.2.1, hx.2.2.2]

theorem writeControl_data (hx : (uartBus F).Writes x true v) :
    JtagUart.dataWrite x = false ∧ JtagUart.dataRead x = false := by
  simp [JtagUart.dataWrite, JtagUart.dataRead, hx.2.1, hx.2.2.2.1]

theorem idle_keeps (hx : (uartBus F).Idle x) : Keeps p ((uartBus F).step p x) :=
  .step hx.1 hx.2.2 (idle_data hx).2

theorem readControl_keeps (hx : (uartBus F).Reads x true) : Keeps p ((uartBus F).step p x) :=
  .step hx.1 hx.2.2.1 (readControl_data hx).2

theorem readControl_read0 (hx : (uartBus F).Reads x true) :
    ((uartBus F).step p x).1.read0 = false := by
  change (p.1.step x).read0 = false
  simp [JtagUart.step, hx.1, readControl_data hx]

theorem writeControl_step (hx : (uartBus F).Writes x true v) :
    let q := (uartBus F).step p x
    q.2.written = p.2.written ∧ q.2.read = p.2.read ∧ q.1.ienAE = v.getLsbD 1 ∧
      q.1.ienAF = v.getLsbD 0 := by
  obtain ⟨hr, hread, hw, ha, hv⟩ := hx
  have hdata : JtagUart.dataWrite x = false := by simp [JtagUart.dataWrite, ha]
  have hrd : p.1.fifoRd x = false := by simp [JtagUart.fifoRd, JtagUart.dataRead, hread]
  refine ⟨?_, ?_, ?_, ?_⟩
  · exact UartLog.record_written.trans (by simp [hdata])
  · exact UartLog.record_read.trans (by simp [hrd])
  · change (p.1.step x).ienAE = _
    simp [JtagUart.step, hr, JtagUart.controlWrite, hw, ha, hv]
  · change (p.1.step x).ienAF = _
    simp [JtagUart.step, hr, JtagUart.controlWrite, hw, ha, hv]

theorem writeData_step (hx : (uartBus F).Writes x false v) :
    let q := (uartBus F).step p x
    q.2.written = p.2.written ++ [v.setWidth 8] ∧ q.2.read = p.2.read ∧
      q.1.ienAE = p.1.ienAE ∧ q.1.ienAF = p.1.ienAF := by
  obtain ⟨hr, hread, hw, ha, hv⟩ := hx
  have hdata : JtagUart.dataWrite x = true := by simp [JtagUart.dataWrite, ha, hw]
  have hcontrol : JtagUart.controlWrite x = false := by simp [JtagUart.controlWrite, ha]
  have hrd : p.1.fifoRd x = false := by simp [JtagUart.fifoRd, JtagUart.dataRead, hread]
  refine ⟨?_, ?_, ?_, ?_⟩
  · exact UartLog.record_written.trans (by simp [hdata, hv])
  · exact UartLog.record_read.trans (by simp [hrd])
  · change (p.1.step x).ienAE = _
    simp [JtagUart.step, hr, hcontrol]
  · change (p.1.step x).ienAF = _
    simp [JtagUart.step, hr, hcontrol]

/-- A read of the data register takes the next byte, or says that there is none. -/
theorem readData_step (hF : F.Queues 64 contents) (hx : (uartBus F).Reads x false) :
    let q := (uartBus F).step p x
    q.2.written = p.2.written ∧ q.1.ienAE = p.1.ienAE ∧ q.1.ienAF = p.1.ienAF ∧
      q.1.read0 = true ∧
      (q.1.rvalid = false ∧ q.2.read = p.2.read ∧ contents p.1.rfifo = [] ∨
        q.1.rvalid = true ∧ q.2.read = p.2.read ++ [F.q q.1.rfifo]) := by
  obtain ⟨hr, hread, hw, ha⟩ := hx
  have hdata : JtagUart.dataWrite x = false := by simp [JtagUart.dataWrite, hw]
  have hcontrol : JtagUart.controlWrite x = false := by simp [JtagUart.controlWrite, hw]
  have hrd : JtagUart.dataRead x = true := by simp [JtagUart.dataRead, hread, ha]
  have hvalid : (p.1.step x).rvalid = !p.1.fifoEF := by simp [JtagUart.step, hr, hrd]
  refine ⟨?_, ?_, ?_, ?_, ?_⟩
  · exact UartLog.record_written.trans (by simp [hdata])
  · change (p.1.step x).ienAE = _
    simp [JtagUart.step, hr, hcontrol]
  · change (p.1.step x).ienAF = _
    simp [JtagUart.step, hr, hcontrol]
  · change (p.1.step x).read0 = _
    simp [JtagUart.step, hr, hrd]
  · cases he : p.1.fifoEF with
    | true =>
        refine .inl ⟨hvalid.trans (by simp [he]), ?_, (hF.empty _).mp he⟩
        exact UartLog.record_read.trans (by simp [JtagUart.fifoRd, he])
    | false =>
        refine .inr ⟨hvalid.trans (by simp [he]), ?_⟩
        exact UartLog.record_read.trans (by simp [JtagUart.fifoRd, hrd, he]; rfl)

end Accesses

end FirFilter.Hardware
