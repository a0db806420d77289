import FirFilter.Software.Console
/-!
# FirFilter.Software.ConsoleInterrupt

What the interrupt routine of the console keeps.

`Linked` ties the driver to the device: of the bytes to be sent, those behind `tx_out` have
been written to the data register and those up to `tx_in` are in the ring; of the bytes
read from the data register, those up to `rx_in` have gone into the ring. Each turn of the
interrupt routine keeps it, and with it the promise that an interrupt that is still needed
stays enabled: the one for writing is disabled only when the ring has nothing to send.

The one for reading is disabled when the data register says that more bytes are there. The
source takes this to mean that the ring is full. It need not be: a byte that the host
brings in the very cycle of a read that finds none shows in the same way. But the ring is
not empty then, so whoever reads next enables the interrupt again.
-/

namespace FirFilter.Software

open Clocked BusMaster Hardware RingBuffer

variable {F : Fifo (BitVec 8)} {contents : F.State → List (BitVec 8)}

/-- The program's side of the rings: the bytes `tx` of all writes, of which `produced` are
in the ring or past it, the array `txBuf` that only the program writes, and the number of
bytes that reads have taken. -/
structure Ends where
  tx : List (BitVec 8)
  produced : ℕ
  txBuf : ℕ → BitVec 8
  consumed : ℕ
  /-- The interrupt that sends what is in the ring is due. -/
  kicked : Prop
  /-- The interrupt that fetches more bytes is due. -/
  opened : Prop

/-- The driver and the device agree. -/
structure Linked (contents : F.State → List (BitVec 8)) (e : Ends) (space : ℕ)
    (sp : JtagUartState) (p : JtagUart F × UartLog) : Prop where
  conveys : Conveys contents space p
  tx : Holds bufLen e.tx sp.txBuf p.2.written.length e.produced sp.txOut sp.txIn
  sent : p.2.written <+: e.tx
  txBuf : sp.txBuf = e.txBuf
  rx : Holds bufLen p.2.read sp.rxBuf e.consumed p.2.read.length sp.rxOut sp.rxIn
  ienAE : p.1.ienAE = sp.irqEnable.getLsbD 1
  ienAF : p.1.ienAF = sp.irqEnable.getLsbD 0
  patient : sp.hostInactive < sp.timeout
  sends : e.kicked → p.2.written.length < e.produced → sp.irqEnable.getLsbD 1 = true
  fetches : e.opened → p.2.read.length = e.consumed → sp.irqEnable.getLsbD 0 = true

variable {e : Ends} {space : ℕ} {sp : JtagUartState} {p q : JtagUart F × UartLog}

theorem Linked.of_keeps (h : Linked contents e space sp p) (hq : Conveys contents space q)
    (hk : Keeps p q) : Linked contents e space sp q := by
  obtain ⟨-, htx, hsent, hbuf, hrx, hae, haf, hpatient, hsends, hfetches⟩ := h
  obtain ⟨hwritten, hread, hae', haf'⟩ := hk
  constructor
  all_goals first | rwa [hwritten] | rwa [hread] | rwa [hae'] | rwa [haf'] | assumption

theorem Linked.mono {n : ℕ} (h : Linked contents e space sp p) (hn : n ≤ space) :
    Linked contents e n sp p := by
  have hroom := h.conveys.room
  exact { h with conveys := { h.conveys with room := by omega } }

/-- There is something in the ring, or in the receive queue. -/
def Pending (contents : F.State → List (BitVec 8)) (consumed : ℕ) (p : JtagUart F × UartLog) :
    Prop := contents p.1.rfifo ≠ [] ∨ consumed < p.2.read.length

section Accesses

variable (hF : F.Queues 64 contents)

include hF

theorem Linked.idle {x : UartPins} (h : Linked contents e space sp p)
    (hx : (uartBus F).Idle x) : Linked contents e space sp ((uartBus F).step p x) :=
  h.of_keeps (h.conveys.keep hF hx.1 (idle_data hx).1) (idle_keeps hx)

theorem linked_stable : Stable (uartBus F) (Linked contents e space sp) :=
  fun _ _ h hx => h.idle hF hx

theorem pending_stable : Stable (uartBus F) fun p =>
    Linked contents e space sp p ∧ Pending contents e.consumed p := by
  rintro p x ⟨h, hpending⟩ hx
  refine ⟨h.idle hF hx, hpending.imp (fun hne => ?_) fun hlt => ?_⟩
  · exact h.conveys.rfifo_stays (n := 0) hF hx.1 (idle_data hx).2 hne
  · rwa [(idle_keeps hx).read]

/-- The interrupts are set to `v`, which has to enable those that are due. -/
theorem iowrControl_linked {v : BitVec 32} (kicked opened : Prop) :
    Triple (uartBus F) (fun p => Linked contents e space sp p ∧
        (kicked → p.2.written.length < e.produced → v.getLsbD 1 = true) ∧
        (opened → p.2.read.length = e.consumed → v.getLsbD 0 = true))
      (iowrControl v) fun _ =>
        Linked contents { e with kicked := kicked, opened := opened } space
          { sp with irqEnable := v } := by
  refine Triple.write ?_ ?_
  · rintro p x ⟨h, hsends, hfetches⟩ hx
    obtain ⟨hwritten, hread, -, -⟩ := idle_keeps (p := p) hx
    exact ⟨h.idle hF hx, by rwa [hwritten], by rwa [hread]⟩
  · rintro p x ⟨h, hsends, hfetches⟩ hx
    obtain ⟨hwritten, hread, hae, haf⟩ := writeControl_step (p := p) hx
    have hq := h.conveys.keep hF hx.1 (writeControl_data hx).1
    exact ⟨hq, by rw [hwritten]; exact h.tx, by rw [hwritten]; exact h.sent, h.txBuf,
      by rw [hread]; exact h.rx, hae, haf, h.patient, by rwa [hwritten], by rwa [hread]⟩

/-- The control register is that of the state after the read. -/
theorem iordControl_linked :
    Triple (uartBus F) (Linked contents e space sp) iordControl fun w p =>
      Linked contents e space sp p ∧ w = p.1.avReaddata ∧ p.1.read0 = false ∧
        p.1.fifoWr = false := by
  refine Triple.read (linked_stable hF) fun p x h hx => ⟨?_, rfl, readControl_read0 hx, ?_⟩
  · exact h.of_keeps (h.conveys.keep hF hx.1 (readControl_data hx).1) (readControl_keeps hx)
  · change (p.1.step x).fifoWr = false
    simp [JtagUart.step, hx.1, readControl_data hx]

end Accesses

/-! ### The bits that the routine looks at -/

theorem and_rvalidMsk {w : BitVec 32} : w &&& rvalidMsk = 0 ↔ w.getLsbD 15 = false :=
  and_eq_zero_iff (by decide) (by decide)

theorem and_riMsk {w : BitVec 32} : w &&& riMsk = 0 ↔ w.getLsbD 8 = false :=
  and_eq_zero_iff (by decide) (by decide)

theorem and_wiMsk {w : BitVec 32} : w &&& wiMsk = 0 ↔ w.getLsbD 9 = false :=
  and_eq_zero_iff (by decide) (by decide)

theorem setWidth_and_dataMsk {w : BitVec 32} : (w &&& dataMsk).setWidth 8 = w.setWidth 8 := by
  apply BitVec.eq_of_getLsbD_eq
  intro i hi
  have hm : ∀ i < 8, dataMsk.getLsbD i = true := by decide
  simp only [BitVec.getLsbD_setWidth, BitVec.getLsbD_and, hm i hi, Bool.and_true]

theorem and_wspaceMsk_shift {w : BitVec 32} : (w &&& wspaceMsk) >>> 16 = w >>> 16 := by
  apply BitVec.eq_of_getLsbD_eq
  intro i hi
  rw [BitVec.getLsbD_ushiftRight, BitVec.getLsbD_ushiftRight, BitVec.getLsbD_and]
  rcases Nat.lt_or_ge i 16 with hi | hi
  · have hm : ∀ i < 16, wspaceMsk.getLsbD (16 + i) = true := by decide
    rw [hm i hi, Bool.and_true]
  · rw [BitVec.getLsbD_of_ge w _ (by omega), Bool.false_and]

theorem setWidth_signExtend {b : BitVec 8} : (b.signExtend 32).setWidth 8 = b := by
  apply BitVec.eq_of_getLsbD_eq
  intro i hi
  have hlt : i < 32 := by omega
  rw [BitVec.getLsbD_setWidth, BitVec.getLsbD_signExtend, if_pos hi]
  simp [hi, hlt]

/-! ### A read interrupt -/

variable (hF : F.Queues 64 contents)

include hF

/-- The next byte is read, and there is a slot for it. -/
theorem iordData_linked {c : ℕ} (hnot : (sp.rxIn + 1) % bufLen ≠ sp.rxOut) :
    Triple (uartBus F) (fun p => (Linked contents e space sp p ∧ Pending contents e.consumed p) ∧
        c ≤ p.2.read.length)
      iordData fun w p =>
        w &&& rvalidMsk = 0 ∧ Linked contents e space sp p ∧ e.consumed < p.2.read.length ∨
        w &&& rvalidMsk ≠ 0 ∧ Linked contents e space (sp.store w) p ∧
          e.consumed < p.2.read.length ∧ c + 1 ≤ p.2.read.length := by
  refine Triple.read ?_ ?_
  · rintro p x ⟨h, hc⟩ hx
    exact ⟨pending_stable hF p x h hx, by rwa [(idle_keeps hx).read]⟩
  · rintro p x ⟨⟨h, hpending⟩, hc⟩ hx
    obtain ⟨hwritten, hae, haf, hread0, hcase⟩ := readData_step (p := p) hF hx
    have hq := h.conveys.keep hF hx.1 (by simp [JtagUart.dataWrite, hx.2.2.1])
    generalize (uartBus F).step p x = q at *
    have hw : (uartBus F).data q &&& rvalidMsk = 0 ↔ q.1.rvalid = false :=
      and_rvalidMsk.trans (by rw [← JtagUart.data_rvalid hread0]; rfl)
    have hle := h.rx.le
    rcases hcase with ⟨hvalid, hread, hempty⟩ | ⟨hvalid, hread⟩
    · refine .inl ⟨hw.mpr hvalid, h.of_keeps hq ⟨hwritten, hread, hae, haf⟩, ?_⟩
      rw [hread]
      exact hpending.resolve_left (fun hne => hne hempty)
    · have hlen : q.2.read.length = p.2.read.length + 1 := by simp [hread]
      have hroom : p.2.read.length + 1 < e.consumed + bufLen := by
        have hfull := mt h.rx.full_iff.mpr hnot
        have := h.rx.room
        omega
      have hbyte : ((uartBus F).data q &&& dataMsk).setWidth 8 = F.q q.1.rfifo :=
        setWidth_and_dataMsk.trans (JtagUart.data_byte hread0)
      refine .inr ⟨fun heq => by simp [hw.mp heq] at hvalid, ?_, by omega, by omega⟩
      refine ⟨hq, by rw [hwritten]; exact h.tx, by rw [hwritten]; exact h.sent, h.txBuf, ?_,
        hae.trans h.ienAE, haf.trans h.ienAF, h.patient, by rw [hwritten]; exact h.sends, ?_⟩
      · rw [hlen, hread, JtagUartState.store, hbyte]
        exact h.rx.push rfl hroom _
      · intro _ heq
        omega

/-- **The loop of a read interrupt.** It stops because there is no byte or no room, and the
ring is not empty then. -/
theorem receive_linked (fuel : ℕ) (sp : JtagUartState) (data : BitVec 32) :
    Triple (uartBus F) (fun p => (Linked contents e space sp p ∧ Pending contents e.consumed p) ∧
        e.consumed + bufLen - fuel ≤ p.2.read.length)
      (sp.receive fuel data) fun r p =>
        Linked contents e space r.1 p ∧ e.consumed < p.2.read.length ∧
          ((r.1.rxIn + 1) % bufLen = r.1.rxOut ∨ r.2 &&& rvalidMsk = 0) := by
  induction fuel generalizing sp data with
  -- the ring is full before the turns run out
  | zero =>
      refine Triple.pure fun p ⟨⟨h, _⟩, hfuel⟩ => ?_
      have := h.rx.room
      omega
  | succ fuel ih =>
      rw [JtagUartState.receive]
      split
      · refine Triple.pure fun p ⟨⟨h, _⟩, _⟩ => ⟨h, ?_, .inl ‹_›⟩
        have hfull := h.rx.full_iff.mp ‹_›
        have hlen : 2 ≤ bufLen := by decide
        omega
      · refine (iordData_linked hF ‹_›).bind fun w => ?_
        split
        · refine Triple.pure fun p hp => ?_
          rcases hp with ⟨_, h, hlt⟩ | ⟨hne, _⟩
          · exact ⟨h, hlt, .inr ‹_›⟩
          · exact absurd ‹_› hne
        · refine (ih _ w).conseq (fun p hp => ?_) fun _ _ h => h
          rcases hp with ⟨heq, _⟩ | ⟨_, h, hlt, hc⟩
          · exact absurd heq ‹_›
          · exact ⟨⟨h, .inr hlt⟩, by omega⟩

omit hF in
theorem getLsbD_andNot {w m : BitVec 32} {i : ℕ} (hi : i < 32) :
    (w &&& ~~~m).getLsbD i = (w.getLsbD i && !m.getLsbD i) := by
  simp [hi]

/-- The interrupt for reading is disabled only when the ring is not empty. -/
theorem processRead_linked (sp : JtagUartState) :
    Triple (uartBus F) (fun p => Linked contents e space sp p ∧ Pending contents e.consumed p)
      sp.processRead fun sp' => Linked contents e space sp' := by
  refine ((receive_linked hF bufLen sp (1 <<< 16)).conseq (fun p h => ⟨h, ?_⟩)
    fun _ _ h => h).bind ?_
  · have hle := h.1.rx.le
    omega
  · rintro ⟨sp', data⟩
    dsimp only
    split
    · exact Triple.pure fun p h => h.1
    · refine ((iowrControl_linked hF e.kicked e.opened).conseq (fun p h => ⟨h.1, ?_, ?_⟩)
        fun _ _ h => h).bind ?_
      · intro hk hlt
        rw [getLsbD_andNot (by decide), h.1.sends hk hlt]
        rfl
      · intro _ heq
        exact absurd heq (Nat.ne_of_gt h.2.1)
      · rintro -
        refine (iordControl_linked hF).bind fun _ => Triple.pure fun p h => h.1

/-! ### A write interrupt -/

/-- The next byte of the ring goes to the device. -/
theorem iowrData_linked (hne : sp.txOut ≠ sp.txIn) :
    Triple (uartBus F) (Linked contents e (space + 1) sp)
      (iowrData ((sp.txBuf sp.txOut).signExtend 32)) fun _ =>
        Linked contents e space { sp with txOut := (sp.txOut + 1) % bufLen } := by
  refine Triple.write (linked_stable hF) fun p x h hx => ?_
  obtain ⟨hwritten, hread, hae, haf⟩ := writeData_step (p := p) hx
  have hq := h.conveys.step (n := 1) hF hx.1
    (by simp [JtagUart.dataWrite, hx.2.2.1, hx.2.2.2.1])
  generalize (uartBus F).step p x = q at *
  rw [setWidth_signExtend] at hwritten
  have hlt : p.2.written.length < e.produced :=
    Nat.lt_of_le_of_ne h.tx.le fun heq => hne (h.tx.empty_iff.mpr heq)
  have hlen : q.2.written.length = p.2.written.length + 1 := by simp [hwritten]
  refine ⟨hq, ?_, ?_, h.txBuf, by rw [hread]; exact h.rx, hae.trans h.ienAE, haf.trans h.ienAF,
    h.patient, fun hk _ => h.sends hk hlt, by rw [hread]; exact h.fetches⟩
  · rw [hlen]
    exact h.tx.consume (n := 1) hlt
  · rw [hwritten]
    exact h.tx.concat_head h.sent rfl hlt

/-- **The loop of a write interrupt.** Either all the space is used, or the ring is empty. -/
theorem transmit_linked (space : ℕ) (sp : JtagUartState) :
    Triple (uartBus F) (Linked contents e space sp) (sp.transmit space) fun r p =>
      Linked contents e r.2 r.1 p ∧ (r.2 ≠ 0 → p.2.written.length = e.produced) := by
  induction space generalizing sp with
  | zero => exact Triple.pure fun p h => ⟨h, fun hne => absurd rfl hne⟩
  | succ space ih =>
      rw [JtagUartState.transmit]
      split
      · exact Triple.pure fun p h => ⟨h, fun _ => h.tx.empty_iff.mp ‹_›⟩
      · exact (iowrData_linked hF ‹_›).bind fun _ => ih _

/-- The interrupt for writing is disabled only when the ring is empty. -/
theorem processWrite_linked (control : BitVec 32) (sp : JtagUartState)
    (hspace : ((control &&& wspaceMsk) >>> 16).toNat = space) :
    Triple (uartBus F) (Linked contents e space sp) (sp.processWrite control) fun sp' =>
      Linked contents e 0 sp' := by
  rw [JtagUartState.processWrite, hspace]
  refine (transmit_linked hF space sp).bind ?_
  rintro ⟨sp', rest⟩
  dsimp only
  split
  · exact Triple.pure fun p h => h.1.mono (Nat.zero_le _)
  · refine ((iowrControl_linked hF e.kicked e.opened).conseq
        (fun p h => ⟨h.1.mono (Nat.zero_le _), ?_, ?_⟩) fun _ _ h => h).bind ?_
    · intro _ hlt
      exact absurd (h.2 ‹_›) (Nat.ne_of_lt hlt)
    · intro ho heq
      rw [getLsbD_andNot (by decide), h.1.fetches ho heq]
      rfl
    · rintro -
      exact (iordControl_linked hF).bind fun _ => Triple.pure fun p h => h.1

/-! ### The routine -/

omit hF in
/-- A read interrupt means that there is a byte. -/
theorem Linked.brought (h : Linked contents e space sp p) (haf : p.1.ipenAF = true)
    (hread0 : p.1.read0 = false) : contents p.1.rfifo ≠ [] := by
  rw [JtagUart.ipenAF, Bool.and_eq_true, Bool.or_eq_true] at haf
  rcases haf.2 with hpause | hfull
  · exact (h.conveys.paused hpause).resolve_right (by simp [hread0])
  · have hlen := h.conveys.almostFull hfull
    exact List.ne_nil_of_length_pos (by omega)

/-- The space that the control register tells. -/
theorem Linked.toNat_wspace (h : Linked contents e space sp p) (hread0 : p.1.read0 = false) :
    ((p.1.avReaddata &&& wspaceMsk) >>> 16).toNat = 64 - (contents p.1.wfifo).length := by
  have hroom := h.conveys.room
  have hused := JtagUart.toNat_wfifoUsed (u := p.1) hF (by omega)
  rw [and_wspaceMsk_shift, JtagUart.control_wspace hread0, BitVec.toNat_setWidth,
    BitVec.toNat_sub, hused]
  simp
  omega

/-- It is free. -/
theorem Linked.wspace (h : Linked contents e space sp p) (hread0 : p.1.read0 = false)
    (hwr : p.1.fifoWr = false) :
    Linked contents e ((p.1.avReaddata &&& wspaceMsk) >>> 16).toNat sp p := by
  have hroom := h.conveys.room
  refine { h with conveys := { h.conveys with room := ?_ } }
  rw [h.toNat_wspace hF hread0, hwr]
  simp
  omega

/-- A turn of the routine. -/
theorem irqTurn_linked (sp : JtagUartState) :
    Triple (uartBus F) (Linked contents e 0 sp) sp.irqTurn fun r =>
      Linked contents e 0 (r.getD sp) := by
  refine (iordControl_linked hF).bind fun control => ?_
  split
  · exact Triple.pure fun p h => h.1
  · have hread : Triple (uartBus F) (fun p =>
          Linked contents e ((control &&& wspaceMsk) >>> 16).toNat sp p ∧
            (control &&& riMsk ≠ 0 → Pending contents e.consumed p))
        (if control &&& riMsk = 0 then pure sp else sp.processRead)
        (Linked contents e ((control &&& wspaceMsk) >>> 16).toNat) := by
      split
      · exact Triple.pure fun p h => h.1
      · exact (processRead_linked hF sp).conseq (fun p h => ⟨h.1, h.2 ‹_›⟩) fun _ _ h => h
    refine (hread.conseq ?_ fun _ _ h => h).bind fun sp' => ?_
    · rintro p ⟨h, rfl, hread0, hwr⟩
      refine ⟨h.wspace hF hread0 hwr, fun hri => .inl (h.brought ?_ hread0)⟩
      rw [ne_eq, and_riMsk, JtagUart.control_ri hread0] at hri
      simpa using hri
    · refine Triple.bind (B := fun sp'' => Linked contents e 0 sp'') ?_ fun sp'' =>
        Triple.pure fun p h => h
      split
      · exact Triple.pure fun p h => h.mono (Nat.zero_le _)
      · exact processWrite_linked hF control sp' rfl

/-- **The interrupt routine** keeps the driver and the device linked, whatever the host does
meanwhile. -/
theorem Irq.linked {inp : ℕ → UartPins} {sp sp' : JtagUartState} {n m : ℕ}
    (hirq : Irq F inp sp n sp' m)
    (h : Linked contents e 0 sp (run (uartBus F).step ({}, {}) inp n)) :
    Linked contents e 0 sp' (run (uartBus F).step ({}, {}) inp m) := by
  induction hirq with
  | stop hturn => exact irqTurn_linked hF _ _ _ _ _ _ h hturn
  | turn hturn _ ih => exact ih (irqTurn_linked hF _ _ _ _ _ _ h hturn)

end FirFilter.Software
