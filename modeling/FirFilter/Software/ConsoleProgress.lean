import FirFilter.Software.ConsoleStreams
/-!
# FirFilter.Software.ConsoleProgress

What the interrupt routine of the console gets done.

A turn that serves an interrupt moves a byte or disables the interrupt. So the routine
ends: `Ends.work` counts the bytes it can still move and the interrupts that are enabled,
and every turn makes it less, however fast the host is. And a call that waits is woken: its
interrupt is enabled, and since nothing can be moved only when there is nothing to wait
for, one run of the routine moves what the call waits for.

The flags behind the interrupts are registered, a cycle behind the queues. Outside the
routine no byte is on its way, so that a flag that is up stays up (`Settled`).
-/

namespace FirFilter.Software

open Clocked BusMaster Hardware RingBuffer

variable {F : Fifo (BitVec 8)} {contents : F.State → List (BitVec 8)} {inp : ℕ → UartPins}
  {e : Ends} {l : Calls} {sp sp' : JtagUartState} {p q : JtagUart F × UartLog}
  {n m space c d : ℕ} {t : Thread} {x : UartPins}

/-! ### A turn of the routine -/

theorem log_length (s : JtagUart F × UartLog) (inp : ℕ → UartPins) (h : n ≤ m) :
    (run (uartBus F).step s inp n).2.written.length ≤
        (run (uartBus F).step s inp m).2.written.length ∧
      (run (uartBus F).step s inp n).2.read.length ≤
        (run (uartBus F).step s inp m).2.read.length := by
  obtain ⟨hw, hr⟩ := log_mono (F := F) s inp h
  exact ⟨hw.length_le, hr.length_le⟩

theorem log_grows {ρ : Type} (prog : Uart ρ) :
    Triple (uartBus F) (fun p => c ≤ p.2.written.length ∧ d ≤ p.2.read.length) prog fun _ p =>
      c ≤ p.2.written.length ∧ d ≤ p.2.read.length := by
  intro s inp n r m h hrun
  obtain ⟨hw, hr⟩ := log_length (F := F) s inp hrun.le
  exact ⟨h.1.trans hw, h.2.trans hr⟩

theorem receive_irqEnable (fuel : ℕ) (sp : JtagUartState) (data : BitVec 32) :
    Triple (uartBus F) (fun _ => True) (sp.receive fuel data) fun r _ =>
      r.1.irqEnable = sp.irqEnable := by
  induction fuel generalizing sp data with
  | zero => exact Triple.pure fun _ _ => rfl
  | succ fuel ih =>
      rw [JtagUartState.receive]
      split
      · exact Triple.pure fun _ _ => rfl
      · refine Triple.any.bind fun w => ?_
        split
        · exact Triple.pure fun _ _ => rfl
        · exact ih (sp.store w) w

theorem transmit_irqEnable (space : ℕ) (sp : JtagUartState) :
    Triple (uartBus F) (fun _ => True) (sp.transmit space) fun r _ =>
      r.1.irqEnable = sp.irqEnable := by
  induction space generalizing sp with
  | zero => exact Triple.pure fun _ _ => rfl
  | succ space ih =>
      rw [JtagUartState.transmit]
      split
      · exact Triple.pure fun _ _ => rfl
      · exact Triple.any.bind fun _ => ih _

section Turn

variable (hF : F.Queues 64 contents)

include hF

/-- A byte that is in the queue is there for the next read. -/
theorem iordData_moves :
    Triple (uartBus F) (fun p => (Linked contents e space sp p ∧ contents p.1.rfifo ≠ []) ∧
        d ≤ p.2.read.length)
      iordData fun w p => w &&& rvalidMsk ≠ 0 ∧ d < p.2.read.length := by
  refine Triple.read ?_ ?_
  · rintro p x ⟨⟨h, hne⟩, hd⟩ hx
    refine ⟨⟨h.idle hF hx, ?_⟩, by rwa [(idle_keeps hx).read]⟩
    exact h.conveys.rfifo_stays (n := 0) hF hx.1 (idle_data hx).2 hne
  · rintro p x ⟨⟨h, hne⟩, hd⟩ hx
    obtain ⟨-, -, -, hread0, hcase⟩ := readData_step (p := p) hF hx
    rcases hcase with ⟨-, -, hempty⟩ | ⟨hvalid, hread⟩
    · exact absurd hempty hne
    · refine ⟨fun hzero => ?_, by rw [hread, List.length_append]; exact Nat.lt_succ_of_le hd⟩
      rw [and_rvalidMsk] at hzero
      have hbit := (JtagUart.data_rvalid hread0).symm.trans hzero
      simp [hvalid] at hbit

theorem receive_moves (fuel : ℕ) (data : BitVec 32) :
    Triple (uartBus F) (fun p => (Linked contents e space sp p ∧ contents p.1.rfifo ≠ []) ∧
        d ≤ p.2.read.length)
      (sp.receive (fuel + 1) data) fun r p => r.2 = data ∨ d < p.2.read.length := by
  rw [JtagUartState.receive]
  split
  · exact Triple.pure fun p _ => .inl rfl
  · refine (iordData_moves hF).bind fun w => Triple.assume fun hvalid => ?_
    rw [if_neg hvalid]
    exact (log_grows (c := 0) (d := d + 1) _).conseq (fun p hp => ⟨Nat.zero_le _, hp⟩)
      fun r p hp => .inr hp.2

/-- A byte is received, unless the ring is full. -/
theorem processRead_moves :
    Triple (uartBus F) (fun p => (Linked contents e space sp p ∧ contents p.1.rfifo ≠ []) ∧
        d ≤ p.2.read.length)
      sp.processRead fun sp' p => sp'.irqEnable = sp.irqEnable ∧ d < p.2.read.length ∨
        sp'.irqEnable = sp.irqEnable &&& ~~~reMsk := by
  refine (((receive_moves hF 2047 (1 <<< 16)).and (receive_irqEnable bufLen sp _)).conseq
    (fun p h => ⟨h, trivial⟩) fun _ _ h => h).bind ?_
  rintro ⟨sp', data⟩
  dsimp only
  split
  · refine Triple.pure fun p h => .inl ⟨h.2, h.1.resolve_left ?_⟩
    rintro rfl
    contradiction
  · intro s inp n r m h hrun
    obtain ⟨_, _, _, hrun⟩ := hrun.of_bind
    obtain ⟨_, _, _, hrun⟩ := hrun.of_bind
    cases hrun
    exact .inr (by simp only [h.2])

theorem transmit_moves :
    Triple (uartBus F) (fun p => Linked contents e (space + 1) sp p ∧ c ≤ p.2.written.length)
      (sp.transmit (space + 1)) fun r p => r.2 ≠ 0 ∨ c < p.2.written.length := by
  rw [JtagUartState.transmit]
  split
  · exact Triple.pure fun p _ => .inl (Nat.succ_ne_zero _)
  · refine Triple.bind (B := fun _ p => c + 1 ≤ p.2.written.length ∧ 0 ≤ p.2.read.length) ?_
      fun _ => (log_grows _).conseq (fun p hp => hp) fun r p hp => .inr hp.1
    refine Triple.write ?_ ?_
    · rintro p x ⟨h, hc⟩ hx
      exact ⟨h.idle hF hx, by rwa [(idle_keeps hx).written]⟩
    · rintro p x ⟨h, hc⟩ hx
      obtain ⟨hwritten, -⟩ := writeData_step (p := p) hx
      rw [hwritten, List.length_append]
      exact ⟨Nat.succ_le_succ hc, Nat.zero_le _⟩

/-- A byte is sent, unless the ring is empty. -/
theorem processWrite_moves {control : BitVec 32}
    (hspace : ((control &&& wspaceMsk) >>> 16).toNat = space + 1) :
    Triple (uartBus F) (fun p => Linked contents e (space + 1) sp p ∧ c ≤ p.2.written.length)
      (sp.processWrite control) fun sp' p =>
        sp'.irqEnable = sp.irqEnable ∧ c < p.2.written.length ∨
          sp'.irqEnable = sp.irqEnable &&& ~~~weMsk := by
  rw [JtagUartState.processWrite, hspace]
  refine (((transmit_moves hF).and (transmit_irqEnable (space + 1) sp)).conseq
    (fun p h => ⟨h, trivial⟩) fun _ _ h => h).bind ?_
  rintro ⟨sp', rest⟩
  dsimp only
  split
  · exact Triple.pure fun p h => .inl ⟨h.2, h.1.resolve_left (fun hne => hne ‹_›)⟩
  · intro s inp n r m h hrun
    obtain ⟨_, _, _, hrun⟩ := hrun.of_bind
    obtain ⟨_, _, _, hrun⟩ := hrun.of_bind
    cases hrun
    exact .inr (by simp only [h.2])

end Turn

/-- What serving an interrupt does, if it is `due`. -/
def Serves (due moved : Prop) (msk : BitVec 32) (sp sp' : JtagUartState) : Prop :=
  (¬ due → sp'.irqEnable = sp.irqEnable) ∧
    (due → sp'.irqEnable = sp.irqEnable ∧ moved ∨ sp'.irqEnable = sp.irqEnable &&& ~~~msk)

theorem Serves.mono {due moved moved' : Prop} {msk : BitVec 32} (h : Serves due moved msk sp sp')
    (hmoved : moved → moved') : Serves due moved' msk sp sp' :=
  ⟨h.1, fun hdue => (h.2 hdue).imp_left (And.imp_right hmoved)⟩

/-- The two bits of the control register that the routine looks at. -/
theorem and_riMsk_or_wiMsk {w : BitVec 32} :
    w &&& (riMsk ||| wiMsk) = 0 ↔ w &&& riMsk = 0 ∧ w &&& wiMsk = 0 := by
  rw [BitVec.and_or_distrib_left]
  exact BitVec.or_eq_zero_iff

section Routine

variable (hF : F.Queues 64 contents)

include hF

/-- The part of a turn that serves the interrupt for reading. -/
theorem readPart_serves {control : BitVec 32} :
    Triple (uartBus F) (fun p => (Linked contents e space sp p ∧
        (control &&& riMsk ≠ 0 → contents p.1.rfifo ≠ [])) ∧ d ≤ p.2.read.length)
      (if control &&& riMsk = 0 then pure sp else sp.processRead) fun sp' p =>
        Linked contents e space sp' p ∧
          Serves (control &&& riMsk ≠ 0) (d < p.2.read.length) reMsk sp sp' := by
  split
  · exact Triple.pure fun p h => ⟨h.1.1, fun _ => rfl, fun hne => absurd ‹_› hne⟩
  · intro s inp n sp' m hpre hrun
    obtain ⟨⟨h, hne⟩, hd⟩ := hpre
    have hmoves := processRead_moves hF s inp n sp' m ⟨⟨h, hne ‹_›⟩, hd⟩ hrun
    exact ⟨processRead_linked hF sp s inp n sp' m ⟨h, .inl (hne ‹_›)⟩ hrun,
      fun hnot => absurd ‹_› hnot, fun _ => hmoves⟩

/-- The part of a turn that serves the interrupt for writing. -/
theorem writePart_serves {control : BitVec 32}
    (hspace : control &&& wiMsk ≠ 0 → space ≠ 0)
    (hcontrol : ((control &&& wspaceMsk) >>> 16).toNat = space) :
    Triple (uartBus F) (fun p => Linked contents e space sp p ∧ c ≤ p.2.written.length)
      (if control &&& wiMsk = 0 then pure sp else sp.processWrite control) fun sp' p =>
        Serves (control &&& wiMsk ≠ 0) (c < p.2.written.length) weMsk sp sp' := by
  split
  · exact Triple.pure fun p h => ⟨fun _ => rfl, fun hne => absurd ‹_› hne⟩
  · obtain ⟨k, rfl⟩ := Nat.exists_eq_succ_of_ne_zero (hspace ‹_›)
    exact (processWrite_moves hF hcontrol).conseq (fun p h => h) fun sp' p hmoves =>
      ⟨fun hnot => absurd ‹_› hnot, fun _ => hmoves⟩

/-- What a turn of the routine can be: it reads the control register, and finds no
interrupt requested, or serves those that are. -/
theorem irqTurn_inv {r : Option JtagUartState}
    (h : Linked contents e 0 sp (run (uartBus F).step ({}, {}) inp n))
    (hrun : Runs (uartBus F) ({}, {}) inp sp.irqTurn n r m) :
    ∃ w j, Runs (uartBus F) ({}, {}) inp iordControl n w j ∧ j ≤ m ∧
      let q := run (uartBus F).step ({}, {}) inp j
      let q' := run (uartBus F).step ({}, {}) inp m
      Linked contents e 0 sp q ∧ q.1.read0 = false ∧ q.1.fifoWr = false ∧
        (r = none ∧ m = j ∧ q.1.ipenAE = false ∧ q.1.ipenAF = false ∨
          ∃ sp₁ sp', r = some sp' ∧ (q.1.ipenAE = true ∨ q.1.ipenAF = true) ∧
            Serves (q.1.ipenAF = true) (q.2.read.length < q'.2.read.length) reMsk sp sp₁ ∧
            Serves (q.1.ipenAE = true) (q.2.written.length < q'.2.written.length) weMsk sp₁ sp') := by
  obtain ⟨w, j, hctl, hrest⟩ := hrun.of_bind
  obtain ⟨hq, rfl, hread0, hwr⟩ := iordControl_linked hF _ _ _ _ _ h hctl
  refine ⟨_, j, hctl, hrest.le, hq, hread0, hwr, ?_⟩
  have hri := and_riMsk.trans (Eq.congr_left (JtagUart.control_ri hread0))
  have hwi := and_wiMsk.trans (Eq.congr_left (JtagUart.control_wi hread0))
  split at hrest
  · cases hrest
    obtain ⟨h1, h2⟩ := and_riMsk_or_wiMsk.mp ‹_›
    exact .inl ⟨rfl, rfl, hwi.mp h2, hri.mp h1⟩
  · have hsome := mt and_riMsk_or_wiMsk.mpr ‹_›
    obtain ⟨sp₁, k, hread, hrest⟩ := hrest.of_bind
    obtain ⟨sp', k', hwrite, hrest⟩ := hrest.of_bind
    cases hrest
    have hbrought := fun hne => hq.brought (by simpa using mt hri.mpr hne) hread0
    have hspace := hq.toNat_wspace hF hread0
    obtain ⟨hl, hserves⟩ := readPart_serves hF _ _ _ _ _
      ⟨⟨hq.wspace hF hread0 hwr, hbrought⟩, le_rfl⟩ hread
    obtain ⟨hlogw, -⟩ := log_length (F := F) ({}, {}) inp hread.le
    obtain ⟨-, hlogr⟩ := log_length (F := F) ({}, {}) inp hwrite.le
    have hserves' := writePart_serves hF (fun hne => ?_) rfl _ _ _ _ _
      ⟨hl, hlogw⟩ hwrite
    · rw [ne_eq, hri, Bool.not_eq_false] at hserves
      rw [ne_eq, hwi, Bool.not_eq_false] at hserves'
      refine .inr ⟨sp₁, sp', rfl, ?_, ?_, ?_⟩
      · rw [hri, hwi, not_and_or, Bool.not_eq_false, Bool.not_eq_false] at hsome
        exact hsome.symm
      · exact hserves.mono fun hlt => hlt.trans_le hlogr
      · exact hserves'
    · have hfull : (contents (run (uartBus F).step ({}, {}) inp j).1.wfifo).length ≤ 9 := by
        refine hq.conveys.almostEmpty ?_
        have hae := mt hwi.mpr hne
        rw [Bool.not_eq_false, JtagUart.ipenAE, Bool.and_eq_true] at hae
        exact hae.2
      omega

end Routine

/-! ### The routine ends -/

/-- What the routine can still do: send the bytes in the one ring, fill the other ring, and
disable the interrupts. -/
def Ends.work (e : Ends) (sp : JtagUartState) (p : JtagUart F × UartLog) : ℕ :=
  (e.produced - p.2.written.length) + (e.consumed + bufLen - 1 - p.2.read.length) +
    (sp.irqEnable.getLsbD 1).toNat + (sp.irqEnable.getLsbD 0).toNat

theorem Linked.work_le (h : Linked contents e space sp p) : e.work sp p ≤ 2 * bufLen := by
  have htx := h.tx.room
  have hrx := h.rx.le
  have h1 := Bool.toNat_le (sp.irqEnable.getLsbD 1)
  have h0 := Bool.toNat_le (sp.irqEnable.getLsbD 0)
  have hlen : bufLen = 2048 := rfl
  rw [Ends.work]
  omega

/-- `k` turns of the routine, one after the other. -/
inductive IrqTurns (F : Fifo (BitVec 8)) (inp : ℕ → UartPins) :
    ℕ → JtagUartState → ℕ → JtagUartState → ℕ → Prop
  | none (sp : JtagUartState) (n : ℕ) : IrqTurns F inp 0 sp n sp n
  | turn {k : ℕ} {sp sp' sp'' : JtagUartState} {n j m : ℕ}
      (h : Runs (uartBus F) ({}, {}) inp sp.irqTurn n (some sp') j)
      (hnext : IrqTurns F inp k sp' j sp'' m) : IrqTurns F inp (k + 1) sp n sp'' m

/-- An interrupt that is served stays as it is or is disabled, the other is left alone. -/
theorem Serves.bits {due moved : Prop} {msk : BitVec 32} (h : Serves due moved msk sp sp') :
    (∀ i < 32, msk.getLsbD i = false → sp'.irqEnable.getLsbD i = sp.irqEnable.getLsbD i) ∧
      (∀ i < 32, sp'.irqEnable.getLsbD i = true → sp.irqEnable.getLsbD i = true) ∧
      (due → moved ∨ ∀ i < 32, msk.getLsbD i = true → sp'.irqEnable.getLsbD i = false) := by
  have hcases : sp'.irqEnable = sp.irqEnable ∨ sp'.irqEnable = sp.irqEnable &&& ~~~msk := by
    by_cases hdue : due
    · exact (h.2 hdue).imp_left And.left
    · exact .inl (h.1 hdue)
  refine ⟨fun i hi hm => ?_, fun i hi hb => ?_, fun hdue => ?_⟩
  · rcases hcases with heq | heq
    · rw [heq]
    · rw [heq, getLsbD_andNot hi, hm, Bool.not_false, Bool.and_true]
  · rcases hcases with heq | heq
    · rwa [heq] at hb
    · rw [heq, getLsbD_andNot hi, Bool.and_eq_true] at hb
      exact hb.1
  · rcases h.2 hdue with ⟨-, hmoved⟩ | heq
    · exact .inl hmoved
    · refine .inr fun i hi hm => ?_
      rw [heq, getLsbD_andNot hi, hm, Bool.not_true, Bool.and_false]

section Routine

variable (hF : F.Queues 64 contents)

include hF

/-- A turn does some of the work. -/
theorem irqTurn_work (h : Linked contents e 0 sp (run (uartBus F).step ({}, {}) inp n))
    (hrun : Runs (uartBus F) ({}, {}) inp sp.irqTurn n (some sp') m) :
    e.work sp' (run (uartBus F).step ({}, {}) inp m) <
      e.work sp (run (uartBus F).step ({}, {}) inp n) := by
  have hend : Linked contents e 0 sp' (run (uartBus F).step ({}, {}) inp m) :=
    irqTurn_linked hF sp _ _ _ _ _ h hrun
  obtain ⟨w, j, hctl, hjm, hq, -, -, hcase⟩ := irqTurn_inv hF h hrun
  rcases hcase with ⟨hnone, -⟩ | ⟨sp₁, sp₂, hsome, hdue, hread, hwrite⟩
  · cases hnone
  · cases hsome
    obtain ⟨hwn, hrn⟩ := log_length (F := F) ({}, {}) inp hctl.le
    obtain ⟨hwj, hrj⟩ := log_length (F := F) ({}, {}) inp hjm
    have htx := hend.tx.le
    have hrx := hend.rx.room
    obtain ⟨hkeep1, hless0, hoff0⟩ := hread.bits
    obtain ⟨hkeep0, hless1, hoff1⟩ := hwrite.bits
    have hle : ∀ b b' : Bool, (b' = true → b = true) → b'.toNat ≤ b.toNat := by decide
    have h1 := hle _ _ fun hb => (hkeep1 1 (by decide) (by decide)) ▸ hless1 1 (by decide) hb
    have h0 := hle _ _ fun hb => hless0 0 (by decide) (hkeep0 0 (by decide) (by decide) ▸ hb)
    simp only [Ends.work]
    -- an interrupt that is requested is enabled, so that it can be disabled
    rcases hdue with hae | haf
    · have hon : sp.irqEnable.getLsbD 1 = true := by
        rw [← hq.ienAE]
        exact (Bool.and_eq_true_iff.mp hae).1
      rcases hoff1 hae with hmoved | hoff
      · omega
      · simp only [hon, hoff 1 (by decide) (by decide), Bool.toNat_true, Bool.toNat_false]
        omega
    · have hon : sp.irqEnable.getLsbD 0 = true := by
        rw [← hq.ienAF]
        exact (Bool.and_eq_true_iff.mp haf).1
      rcases hoff0 haf with hmoved | hoff
      · omega
      · have hoff' := (hkeep0 0 (by decide) (by decide)).trans (hoff 0 (by decide) (by decide))
        simp only [hon, hoff', Bool.toNat_true, Bool.toNat_false]
        omega

/-- **The routine ends**, however fast the host takes and brings bytes. -/
theorem IrqTurns.le {k : ℕ} (hturns : IrqTurns F inp k sp n sp' m)
    (h : Linked contents e 0 sp (run (uartBus F).step ({}, {}) inp n)) :
    k ≤ e.work sp (run (uartBus F).step ({}, {}) inp n) := by
  induction hturns with
  | none => exact Nat.zero_le _
  | turn hturn _ ih =>
      have hless := irqTurn_work hF h hturn
      have hnext := ih (irqTurn_linked hF _ _ _ _ _ _ h hturn)
      omega

end Routine

/-! ### Waiting -/

/-- No byte is on its way between the bus and the queues, and a flag that requests an
interrupt will stay up. -/
structure Settled (contents : F.State → List (BitVec 8)) (p : JtagUart F × UartLog) : Prop where
  fifoWr : p.1.fifoWr = false
  read0 : p.1.read0 = false
  low : p.1.ipenAE = true → (contents p.1.wfifo).length ≤ 8
  high : p.1.ipenAF = true → p.1.pauseIrq = true ∨ 56 ≤ (contents p.1.rfifo).length

namespace Settled

variable (hF : F.Queues 64 contents) (hc : Conveys contents 0 p) (hr : x.rstN = true)
  (hw : JtagUart.dataWrite x = false) (hd : JtagUart.dataRead x = false)

include hF hc hr

theorem wfifo_le (hwr : p.1.fifoWr = false) :
    (contents (p.1.step x).wfifo).length ≤ (contents p.1.wfifo).length := by
  have hlen := hc.wfifo_length (n := 0) hF hr
  rw [hwr, if_neg Bool.false_ne_true] at hlen
  omega

include hd in
theorem rfifo_le : (contents p.1.rfifo).length ≤ (contents (p.1.step x).rfifo).length := by
  have hno : p.1.fifoRd x = false := by simp [JtagUart.fifoRd, hd]
  have hlen := hc.rfifo_length (n := 0) hF hr
  rw [hno, if_neg Bool.false_ne_true] at hlen
  omega

theorem fifoAE_of_low (hlow : (contents p.1.wfifo).length ≤ 8) : (p.1.step x).fifoAE = true := by
  have hroom := hc.room
  rw [← JtagUart.toNat_wfifoUsed hF (by omega)] at hlow
  simpa [JtagUart.step, hr] using hlow

theorem fifoAF_of_high (hhigh : 56 ≤ (contents p.1.rfifo).length) :
    (p.1.step x).fifoAF = true := by
  rw [← JtagUart.toNat_rfifoUsed hF hc.rroom] at hhigh
  have hused : 64 - p.1.rfifoUsed.toNat ≤ 8 := by omega
  simpa [JtagUart.step, hr] using hused

/-- A requested interrupt stays requested. -/
theorem requests (h : Settled contents p) (hkeeps : Keeps p ((uartBus F).step p x)) :
    (p.1.ipenAE = true → ((uartBus F).step p x).1.ipenAE = true) ∧
      (p.1.ipenAF = true → ((uartBus F).step p x).1.ipenAF = true) := by
  constructor
  · intro hae
    rw [JtagUart.ipenAE, hkeeps.ienAE, Bool.and_eq_true]
    exact ⟨(Bool.and_eq_true_iff.mp hae).1, fifoAE_of_low hF hc hr (h.low hae)⟩
  · intro haf
    rw [JtagUart.ipenAF, hkeeps.ienAF, Bool.and_eq_true, Bool.or_eq_true]
    refine ⟨(Bool.and_eq_true_iff.mp haf).1, (h.high haf).imp (fun hpause => ?_) fun hhigh => ?_⟩
    · change (p.1.step x).pauseIrq = true
      simp [JtagUart.step, hr, h.read0, hpause]
    · exact fifoAF_of_high hF hc hr hhigh

include hw hd

/-- A cycle without an access to the data register settles the device. -/
theorem of_step (hwr : p.1.fifoWr = false) : Settled contents ((uartBus F).step p x) := by
  have hwle := wfifo_le hF hc hr hwr
  have hrle := rfifo_le hF hc hr hd
  have hroom := hc.room
  have hrroom := hc.rroom
  change Settled contents (p.1.step x, p.2.record p.1 x)
  refine ⟨by simp [JtagUart.step, hr, hw], by simp [JtagUart.step, hr, hd], fun hae => ?_,
    fun haf => ?_⟩
  · have hused : p.1.wfifoUsed.toNat ≤ 8 := by
      simpa [JtagUart.step, hr] using (Bool.and_eq_true_iff.mp hae).2
    rw [JtagUart.toNat_wfifoUsed hF (by omega)] at hused
    exact hwle.trans hused
  · rcases Bool.or_eq_true_iff.mp (Bool.and_eq_true_iff.mp haf).2 with hpause | hfull
    · exact .inl hpause
    · have hused : 64 - p.1.rfifoUsed.toNat ≤ 8 := by simpa [JtagUart.step, hr] using hfull
      rw [JtagUart.toNat_rfifoUsed hF hrroom] at hused
      exact .inr (le_trans (by omega) hrle)

end Settled

section Waiting

variable (hF : F.Queues 64 contents)

include hF

theorem iowrControl_settled (v : BitVec 32) :
    Triple (uartBus F) (fun p => Conveys contents 0 p ∧ Settled contents p) (iowrControl v)
      fun _ p => Settled contents p := by
  refine Triple.write ?_ ?_
  · rintro p x ⟨hc, hs⟩ hx
    obtain ⟨hw, hd⟩ := idle_data hx
    exact ⟨hc.keep hF hx.1 hw, .of_step hF hc hx.1 hw hd hs.fifoWr⟩
  · rintro p x ⟨hc, hs⟩ hx
    obtain ⟨hw, hd⟩ := writeControl_data hx
    exact .of_step hF hc hx.1 hw hd hs.fifoWr

/-- The control register shows the interrupts that were requested before. -/
theorem iordControl_requests (a b : Prop) :
    Triple (uartBus F) (fun p => (Linked contents e 0 sp p ∧ Settled contents p) ∧
        (a → p.1.ipenAE = true) ∧ (b → p.1.ipenAF = true))
      iordControl fun _ p => (a → p.1.ipenAE = true) ∧ (b → p.1.ipenAF = true) := by
  refine Triple.read ?_ ?_
  · rintro p x ⟨⟨h, hs⟩, ha, hb⟩ hx
    obtain ⟨hw, hd⟩ := idle_data hx
    obtain ⟨hae, haf⟩ := hs.requests hF h.conveys hx.1 (idle_keeps hx)
    exact ⟨⟨h.idle hF hx, .of_step hF h.conveys hx.1 hw hd hs.fifoWr⟩, fun h' => hae (ha h'),
      fun h' => haf (hb h')⟩
  · rintro p x ⟨⟨h, hs⟩, ha, hb⟩ hx
    obtain ⟨hae, haf⟩ := hs.requests hF h.conveys hx.1 (readControl_keeps hx)
    exact ⟨fun h' => hae (ha h'), fun h' => haf (hb h')⟩

/-- The routine leaves with a settled device. -/
theorem Irq.settled (hirq : Irq F inp sp n sp' m)
    (h : Linked contents e 0 sp (run (uartBus F).step ({}, {}) inp n)) :
    Settled contents (run (uartBus F).step ({}, {}) inp m) := by
  induction hirq with
  | stop hturn =>
      obtain ⟨w, j, -, -, -, hread0, hwr, hcase⟩ := irqTurn_inv hF h hturn
      rcases hcase with ⟨-, rfl, hae, haf⟩ | ⟨_, _, hsome, -⟩
      · exact ⟨hwr, hread0, fun hon => absurd (hae.symm.trans hon) Bool.false_ne_true,
          fun hon => absurd (haf.symm.trans hon) Bool.false_ne_true⟩
      · cases hsome
  | turn hturn _ ih => exact ih (irqTurn_linked hF _ _ _ _ _ _ h hturn)

/-- A requested interrupt is served, as far as there is anything to move. -/
theorem Irq.serves (hirq : Irq F inp sp n sp' m)
    (h : Linked contents e 0 sp (run (uartBus F).step ({}, {}) inp n))
    (hs : Settled contents (run (uartBus F).step ({}, {}) inp n)) :
    let p := run (uartBus F).step ({}, {}) inp n
    let q := run (uartBus F).step ({}, {}) inp m
    (p.1.ipenAE = true → e.kicked → p.2.written.length < e.produced →
        p.2.written.length < q.2.written.length) ∧
      (p.1.ipenAF = true → e.opened → p.2.read.length = e.consumed →
        p.2.read.length < q.2.read.length) := by
  intro p q
  have hseen : ∀ {w j}, Runs (uartBus F) ({}, {}) inp iordControl n w j →
      (p.1.ipenAE = true → (run (uartBus F).step ({}, {}) inp j).1.ipenAE = true) ∧
        (p.1.ipenAF = true → (run (uartBus F).step ({}, {}) inp j).1.ipenAF = true) :=
    fun hctl => iordControl_requests hF _ _ _ _ _ _ _ ⟨⟨h, hs⟩, id, id⟩ hctl
  cases hirq with
  | stop hturn =>
      obtain ⟨w, j, hctl, -, -, -, -, hcase⟩ := irqTurn_inv hF h hturn
      obtain ⟨hae, haf⟩ := hseen hctl
      rcases hcase with ⟨-, -, hnae, hnaf⟩ | ⟨_, _, hsome, -⟩
      · exact ⟨fun hon => absurd (hnae.symm.trans (hae hon)) Bool.false_ne_true,
          fun hon => absurd (hnaf.symm.trans (haf hon)) Bool.false_ne_true⟩
      · cases hsome
  | @turn _ sp₂ _ _ k _ hturn hnext =>
      have hend : Linked contents e 0 sp₂ (run (uartBus F).step ({}, {}) inp k) :=
        irqTurn_linked hF sp _ _ _ _ _ h hturn
      obtain ⟨w, j, hctl, hjk, -, -, -, hcase⟩ := irqTurn_inv hF h hturn
      obtain ⟨hae, haf⟩ := hseen hctl
      rcases hcase with ⟨hnone, -⟩ | ⟨sp₁, _, hsome, -, hread, hwrite⟩
      · cases hnone
      · cases hsome
        obtain ⟨hwn, hrn⟩ := log_length (F := F) ({}, {}) inp hctl.le
        obtain ⟨hwj, hrj⟩ := log_length (F := F) ({}, {}) inp hnext.le
        constructor
        · intro hon hkicked hlt
          refine lt_of_lt_of_le ?_ hwj
          rcases hwrite.bits.2.2 (hae hon) with hmoved | hoff
          · exact hwn.trans_lt hmoved
          -- it is disabled only when all has been sent
          · refine hlt.trans_le (not_lt.mp fun hmore => ?_)
            have hoff' := hoff 1 (by decide) (by decide)
            exact Bool.false_ne_true (hoff'.symm.trans (hend.sends hkicked hmore))
        · intro hon hopened heq
          refine lt_of_lt_of_le ?_ hrj
          rcases hread.bits.2.2 (haf hon) with hmoved | hoff
          · exact hrn.trans_lt hmoved
          -- it is disabled only when something has come
          · refine lt_of_le_of_ne (heq ▸ hend.rx.le) fun hsame => ?_
            have hoff' := (hwrite.bits.1 0 (by decide) (by decide)).trans
              (hoff 0 (by decide) (by decide))
            exact Bool.false_ne_true
              (hoff'.symm.trans (hend.fetches hopened (hsame.symm.trans heq)))

omit hF in
theorem WriteCall.step_access {c : WriteCall} {r : WriteCall × JtagUartState}
    (h : Runs (uartBus F) ({}, {}) inp (c.step sp) n r m) :
    m = n ∨ ∃ v, Runs (uartBus F) ({}, {}) inp (iowrControl v) n () m := by
  cases hpc : c.pc <;> simp only [WriteCall.step, hpc] at h
  case kick =>
    obtain ⟨⟨⟩, j, hkick, h⟩ := h.of_bind
    obtain ⟨-, rfl⟩ := runs_pure h
    exact .inr ⟨_, hkick⟩
  all_goals first | exact .inl (runs_pure h).2 | (split at h <;> exact .inl (runs_pure h).2)

omit hF in
theorem ReadCall.step_access {c : ReadCall} {r : ReadCall × JtagUartState}
    (h : Runs (uartBus F) ({}, {}) inp (c.step sp) n r m) :
    m = n ∨ ∃ v, Runs (uartBus F) ({}, {}) inp (iowrControl v) n () m := by
  cases hpc : c.pc <;> simp only [ReadCall.step, hpc] at h
  case kick =>
    obtain ⟨⟨⟩, j, hkick, h⟩ := h.of_bind
    obtain ⟨-, rfl⟩ := runs_pure h
    exact .inr ⟨_, hkick⟩
  all_goals first | exact .inl (runs_pure h).2 | (split at h <;> exact .inl (runs_pure h).2)

/-- Outside the interrupt routine the device is settled. -/
theorem Reaches.settled (h : Reaches F inp n t sp l) :
    Settled contents (run (uartBus F).step ({}, {}) inp n) := by
  have haccess : ∀ {n m v}, Conveys contents 0 (run (uartBus F).step ({}, {}) inp n) →
      Settled contents (run (uartBus F).step ({}, {}) inp n) →
      Runs (uartBus F) ({}, {}) inp (iowrControl v) n () m →
      Settled contents (run (uartBus F).step ({}, {}) inp m) :=
    fun hc hs hrun => iowrControl_settled hF _ _ _ _ _ _ ⟨hc, hs⟩ hrun
  induction h with
  | init h =>
      obtain ⟨⟨⟩, j, hwrite, h⟩ := h.of_bind
      obtain ⟨-, rfl⟩ := runs_pure h
      have hc : Conveys contents 0 (run (uartBus F).step ({}, {}) inp 0) := (reset_linked hF).conveys
      have hs : Settled contents (run (uartBus F).step ({}, {}) inp 0) :=
        ⟨rfl, rfl, fun h => absurd h Bool.false_ne_true, fun h => absurd h Bool.false_ne_true⟩
      exact haccess hc hs hwrite
  | wait h hidle ih =>
      obtain ⟨e, hl, -⟩ := (h.streams hF).1.linked
      obtain ⟨hw, hd⟩ := idle_data hidle
      exact .of_step hF hl.conveys hidle.1 hw hd ih.fifoWr
  | interrupt h hirq _ =>
      obtain ⟨e, hl, -⟩ := (h.streams hF).1.linked
      exact hirq.settled hF hl
  | write _ _ ih => exact ih
  | writeStep h hstep ih =>
      obtain ⟨e, hl, -⟩ := (h.streams hF).1.linked
      rcases WriteCall.step_access hstep with rfl | ⟨v, hwrite⟩
      · exact ih
      · exact haccess hl.conveys ih hwrite
  | writeReturn _ _ ih => exact ih
  | read _ _ ih => exact ih
  | readStep h hstep ih =>
      obtain ⟨e, hl, -⟩ := (h.streams hF).1.linked
      rcases ReadCall.step_access hstep with rfl | ⟨v, hwrite⟩
      · exact ih
      · exact haccess hl.conveys ih hwrite
  | readReturn _ _ ih => exact ih

end Waiting

/-! ### What the console does -/

/-- **The interrupt routine ends**: whenever it is entered, and however fast the host takes
and brings bytes, it makes a bounded number of turns. -/
theorem irq_ends (hF : F.Queues 64 contents) (h : Reaches F inp n t sp l) {k : ℕ}
    (hturns : IrqTurns F inp k sp n sp' m) : k ≤ 2 * bufLen := by
  obtain ⟨e, hl, -⟩ := (h.streams hF).1.linked
  exact (hturns.le hF hl).trans hl.work_le

theorem irq_ends_session : IrqTurns (plainFifo 64 0) session 1
    { irqEnable := 1, timeout := intMax } 3 received 6 ∧ 1 ≤ 2 * bufLen :=
  have hturns := .turn session_irqTurn (.none _ _)
  ⟨hturns, irq_ends (plainFifo_queues 64 0) session_read hturns⟩

/-- The call is in its loop that waits for the interrupt routine. -/
def Thread.Waits (t : Thread) (sp : JtagUartState) : Prop :=
  match t with
  | .main => False
  | .writing c => c.pc = .spin ∧ c.out = sp.txOut ∧ sp.hostInactive < sp.timeout
  | .reading c => c.pc = .spin ∧ c.inn = sp.rxIn ∧ sp.hostInactive < sp.timeout

/-- The interrupt that the call waits for is requested. -/
def Thread.requests (t : Thread) (u : JtagUart F) : Bool :=
  match t with
  | .main => false
  | .writing _ => u.ipenAE
  | .reading _ => u.ipenAF

theorem Thread.avIrq_of_requests {u : JtagUart F} (h : t.requests u = true) : u.avIrq = true := by
  cases t with
  | main => cases h
  | writing => exact Bool.or_eq_true_iff.mpr (.inl h)
  | reading => exact Bool.or_eq_true_iff.mpr (.inr h)

/-- The host does its part: it has taken all but a few bytes, or it has brought many, or it
pauses after some. -/
def Thread.Due (contents : F.State → List (BitVec 8)) (t : Thread) (u : JtagUart F)
    (x : UartPins) : Prop :=
  match t with
  | .main => False
  | .writing _ => (contents u.wfifo).length ≤ 8
  | .reading _ => 56 ≤ (contents u.rfifo).length ∨ x.tPause = true ∧ contents u.rfifo ≠ []

/-- A write waits only while the ring is full. -/
theorem Writing.waits {c : WriteCall} (h : Writing contents c l sp p) (hpc : c.pc = .spin)
    (hout : c.out = sp.txOut) :
    l.passed.length - c.ptr.length + 1 = p.2.written.length + bufLen := by
  have hknows := h.knows
  simp only [WriteCall.Knows, hpc] at hknows
  obtain ⟨-, before, hb, hfull⟩ := hknows
  have hle := h.linked.tx.le
  change p.2.written.length ≤ l.passed.length - c.ptr.length at hle
  have hround := hfull.2
  have hmod := (hfull.1.symm.trans hout).trans h.linked.tx.out_eq
  rw [← eq_of_mod_eq hmod hb (by omega)]
  exact hround

/-- A read waits only while the ring is empty. -/
theorem Reading.waits {c : ReadCall} (h : Reading contents c l sp p) (hpc : c.pc = .spin)
    (hinn : c.inn = sp.rxIn) :
    c.buffer = [] ∧ p.2.read.length = l.delivered.length + c.buffer.length := by
  have hknows := h.knows
  simp only [ReadCall.Knows, hpc] at hknows
  obtain ⟨-, hbuffer, hseen⟩ := hknows
  have hmod := (hseen.symm.trans hinn).trans h.linked.rx.inn_eq
  exact ⟨hbuffer, (eq_of_mod_eq hmod h.linked.rx.le h.linked.rx.room).symm⟩

/-- **A call that waits is woken.** As soon as the host has done its part the interrupt is
requested and the interrupt line is up, and one run of the interrupt routine ends the wait. -/
theorem console_wakes (hF : F.Queues 64 contents) (h : Reaches F inp n t sp l)
    (hwaits : t.Waits sp) :
    let p := run (uartBus F).step ({}, {}) inp n
    (∀ x, (uartBus F).Idle x → t.Due contents p.1 x →
      t.requests (p.1.step x) = true ∧ (p.1.step x).avIrq = true) ∧
      (t.requests p.1 = true → ∀ sp' m, Irq F inp sp n sp' m → ¬ t.Waits sp') := by
  intro p
  obtain ⟨hstreams, -⟩ := h.streams hF
  have hs := h.settled hF
  have hirq : ∀ {sp' m}, Irq F inp sp n sp' m →
      Streams contents t l sp' (run (uartBus F).step ({}, {}) inp m) :=
    fun hirq => ((h.interrupt hirq).streams hF).1
  have hwake : ∀ {u : JtagUart F}, t.requests u = true → t.requests u = true ∧ u.avIrq = true :=
    fun hreq => ⟨hreq, Thread.avIrq_of_requests hreq⟩
  cases t with
  | main => exact hwaits.elim
  | writing c =>
      obtain ⟨hpc, hout, -⟩ := hwaits
      have hl := hstreams.1.linked
      have hround : l.passed.length - c.ptr.length + 1 = p.2.written.length + bufLen :=
        hstreams.1.waits hpc hout
      have hlen : 2 ≤ bufLen := by decide
      have hlt : p.2.written.length < (c.ends l sp).produced := by
        change p.2.written.length < l.passed.length - c.ptr.length
        omega
      refine ⟨fun x hx hdue => ?_, fun hreq sp' m hrun hwaits => ?_⟩
      · have hon : (p.1.step x).ienAE = true :=
          (idle_keeps hx).ienAE.trans (hl.ienAE.trans (hl.sends (.inl hpc) hlt))
        refine hwake ?_
        rw [Thread.requests, JtagUart.ipenAE, Bool.and_eq_true]
        exact ⟨hon, Settled.fifoAE_of_low hF hl.conveys hx.1 hdue⟩
      · have hmoved := (hrun.serves hF hl hs).1 hreq (.inl hpc) hlt
        have hround' := (hirq hrun).1.waits hwaits.1 hwaits.2.1
        exact absurd (Nat.add_right_cancel (hround.symm.trans hround')) (Nat.ne_of_lt hmoved)
  | reading c =>
      obtain ⟨hpc, hinn, -⟩ := hwaits
      have hreading : Reading contents c l sp p := hstreams
      have hl := hreading.linked
      obtain ⟨hbuffer, heq⟩ := hreading.waits hpc hinn
      refine ⟨fun x hx hdue => ?_, fun hreq sp' m hrun hwaits => ?_⟩
      · have hon : (p.1.step x).ienAF = true :=
          (idle_keeps hx).ienAF.trans (hl.ienAF.trans (hl.fetches (.inl hbuffer) heq))
        refine hwake ?_
        rw [Thread.requests, JtagUart.ipenAF, Bool.and_eq_true, Bool.or_eq_true]
        refine ⟨hon, hdue.symm.imp (fun hpause => ?_) fun hhigh => ?_⟩
        · have hne : p.1.fifoEF = false := by
            simpa [JtagUart.fifoEF] using mt (hF.empty p.1.rfifo).mp hpause.2
          simp [JtagUart.step, hx.1, hpause.1, hne]
        · exact Settled.fifoAF_of_high hF hl.conveys hx.1 hhigh
      · have hmoved := (hrun.serves hF hl hs).2 hreq (.inl hbuffer) heq
        have hreading' : Reading contents c l sp' (run (uartBus F).step ({}, {}) inp m) := hirq hrun
        have heq' := (hreading'.waits hwaits.1 hwaits.2.1).2
        exact absurd (heq.trans heq'.symm) (Nat.ne_of_lt hmoved)

theorem console_wakes_session :
    let t : Thread := .reading { pc := .spin, asked := 1, space := 1 }
    let u := (run (uartBus (plainFifo 64 0)).step ({}, {}) session 3).1
    t.requests u = true ∧ ∀ sp' m, Irq (plainFifo 64 0) session
      { irqEnable := 1, timeout := intMax } 3 sp' m → ¬ t.Waits sp' := by
  intro t u
  have hrequests : t.requests u = true := by decide
  have hwaits : t.Waits { irqEnable := 1, timeout := intMax } := ⟨rfl, rfl, by decide⟩
  exact ⟨hrequests, (console_wakes (plainFifo_queues 64 0) session_read hwaits).2 hrequests⟩

end FirFilter.Software
