import FirFilter.Software.ConsoleCalls
/-!
# FirFilter.Software.ConsoleStreams

What goes through the console, over every run.

`Streams` says where the bytes are wherever the program is: in `main` the driver and the
device are linked, and in a call they are linked to what the call has done so far. It holds
after the initialisation and is kept by whatever may come next, so that the host gets the
bytes of the writes in order, the reads get the bytes of the host in order, and no call
fails that has something to do.
-/

namespace FirFilter.Software

open Clocked BusMaster Hardware RingBuffer

variable {F : Fifo (BitVec 8)} {contents : F.State → List (BitVec 8)} {inp : ℕ → UartPins}
  {l : Calls} {sp sp' : JtagUartState} {p q : JtagUart F × UartLog} {n m : ℕ} {t : Thread}

/-! ### Between the calls -/

/-- The program's side of the rings between two calls. -/
def Calls.ends (l : Calls) (sp : JtagUartState) : Ends where
  tx := l.passed
  produced := l.passed.length
  txBuf := sp.txBuf
  consumed := l.delivered.length
  kicked := True
  opened := True

/-- Where the bytes are. -/
def Streams (contents : F.State → List (BitVec 8)) (t : Thread) (l : Calls) (sp : JtagUartState)
    (p : JtagUart F × UartLog) : Prop :=
  match t with
  | .main => Linked contents (l.ends sp) 0 sp p ∧ l.delivered <+: p.2.read
  | .writing c => Writing contents c l sp p ∧ l.delivered <+: p.2.read
  | .reading c => Reading contents c l sp p

/-- After a reset nothing is anywhere. -/
theorem reset_linked (hF : F.Queues 64 contents) :
    Linked contents ⟨[], 0, fun _ => 0, 0, False, False⟩ 0 {}
      (({}, {}) : JtagUart F × UartLog) where
  conveys := ⟨by simp [hF.aclr], by simp [hF.aclr], by simp [hF.aclr], by simp [hF.aclr], rfl,
    rfl, fun h => by simp at h, fun h => by simp at h, fun h => by simp at h⟩
  tx := .nil (by decide)
  sent := List.prefix_rfl
  txBuf := rfl
  rx := .nil (by decide)
  ienAE := rfl
  ienAF := rfl
  patient := by decide
  sends h := h.elim
  fetches h := h.elim

/-- The initialisation enables the interrupt for reading. -/
theorem jtagUartInit_linked (hF : F.Queues 64 contents) :
    Triple (uartBus F) (fun p => p = ({}, {})) jtagUartInit fun sp =>
      Linked contents (({} : Calls).ends sp) 0 sp := by
  have hwrite : Triple (uartBus F) (fun p => p = ({}, {})) (iowrControl reMsk) fun _ =>
      Linked contents ⟨[], 0, fun _ => 0, 0, True, True⟩ 0 { irqEnable := reMsk } := by
    intro p inp n _ m hp hrun
    have hreset : Linked contents _ 0 {} (run (uartBus F).step p inp n) := hp ▸ reset_linked hF
    exact iowrControl_linked hF True True p inp n () m
      ⟨hreset, fun _ hlt => absurd hlt (Nat.not_lt_zero _), fun _ _ => by decide⟩ hrun
  refine hwrite.bind fun _ => Triple.pure fun p h => { h with patient := by decide }

theorem Writing.call (h : Linked contents (l.ends sp) 0 sp p) (bytes : List (BitVec 8)) :
    Writing contents (.call bytes) { l with passed := l.passed ++ bytes } sp p := by
  have hproduced : (l.passed ++ bytes).length - bytes.length = l.passed.length := by simp
  refine ⟨{ h with tx := ?_, sent := ?_, sends := ?_ }, List.suffix_append _ _, le_rfl, ?_⟩
  · change Holds bufLen (l.passed ++ bytes) _ _ ((l.passed ++ bytes).length - bytes.length) _ _
    rw [hproduced]
    exact h.tx.extend
  · exact h.sent.trans (List.prefix_append _ _)
  · rintro (hk | hk | hk) <;> simp only [WriteCall.call] at hk <;> split at hk <;> cases hk
  · by_cases hpos : 0 < bytes.length
    · simp only [WriteCall.call, WriteCall.Knows, if_pos hpos]
      exact List.ne_nil_of_length_pos hpos
    · simp only [WriteCall.call, WriteCall.Knows, if_neg hpos]
      intro hne
      exact absurd (List.length_pos_of_ne_nil hne) hpos

theorem Writing.return {c : WriteCall} (h : Writing contents c l sp p) (hpc : c.pc = .ret) :
    c.ptr = [] ∧ Linked contents (l.ends sp) 0 sp p := by
  have hptr := h.knows
  simp only [WriteCall.Knows, hpc] at hptr
  have htx := h.linked.tx
  have hsends := h.linked.sends
  simp only [WriteCall.ends, hptr, List.length_nil, Nat.sub_zero] at htx hsends
  exact ⟨hptr, { h.linked with tx := htx, sends := fun _ => hsends (.inr (.inr hpc)) }⟩

theorem Reading.call (h : Linked contents (l.ends sp) 0 sp p) (hd : l.delivered <+: p.2.read)
    (space : ℕ) : Reading contents (.call space) l sp p := by
  refine ⟨{ h with fetches := fun _ => h.fetches trivial }, ?_, Nat.zero_add _, ?_⟩
  · simpa [ReadCall.call] using hd
  · by_cases hpos : 0 < space
    · simp only [ReadCall.call, ReadCall.Knows, if_pos hpos]
      exact hpos
    · simp only [ReadCall.call, ReadCall.Knows, if_neg hpos]
      exact .inr (by omega)

theorem Reading.return {c : ReadCall} (h : Reading contents c l sp p) (hpc : c.pc = .ret)
    (reads : List (ℕ × ℤ)) :
    Linked contents
      (Calls.ends { l with delivered := l.delivered ++ c.buffer, reads := reads } sp) 0 sp p := by
  have hrx := h.linked.rx
  have hfetches := h.linked.fetches
  simp only [ReadCall.ends, ← List.length_append] at hrx hfetches
  exact { h.linked with rx := hrx, fetches := fun _ => hfetches (.inr hpc) }

/-! ### The results -/

/-- Every write has taken all its bytes, and every read has got some, unless there were
none to write or to read; what the reads have returned is what they have got. -/
structure Calls.Served (l : Calls) : Prop where
  writes : ∀ w ∈ l.writes, w.2 = if w.1 = 0 then -eio else (w.1 : ℤ)
  reads : ∀ r ∈ l.reads, if r.1 = 0 then r.2 = -eio else 0 < r.2 ∧ r.2 ≤ r.1
  count : (l.reads.map fun r => r.2.toNat).sum = l.delivered.length

theorem WriteCall.result_of_done {c : WriteCall} (h : c.ptr = []) :
    c.result = if c.start.length = 0 then -eio else (c.start.length : ℤ) := by
  cases hs : c.start with
  | nil => simp [result, h, hs]
  | cons b bs => simp [result, h, hs]

theorem Reading.result {c : ReadCall} (h : Reading contents c l sp p) (hpc : c.pc = .ret) :
    (if c.asked = 0 then c.result = -eio else 0 < c.result ∧ c.result ≤ c.asked) ∧
      c.result.toNat = c.buffer.length := by
  have hknows := h.knows
  simp only [ReadCall.Knows, hpc] at hknows
  have hcount := h.count
  cases hb : c.buffer with
  | nil =>
      have hasked := hknows.resolve_left (fun hne => hne hb)
      simp [ReadCall.result, hb, hasked, eio]
  | cons b bs =>
      have hlen : c.buffer.length = bs.length + 1 := by simp [hb]
      have hne : c.asked ≠ 0 := by omega
      simp only [ReadCall.result, hb, hne, if_false]
      simp
      omega

/-! ### The runs -/

theorem Irq.le (h : Irq F inp sp n sp' m) : n ≤ m := by
  induction h with
  | stop hturn => exact hturn.le
  | turn hturn _ ih => exact hturn.le.trans ih

/-- What keeps the driver and the device linked leaves the program alone. -/
theorem Streams.of_linked (h : Streams contents t l sp p)
    (hl : ∀ e, Linked contents e 0 sp p → Linked contents e 0 sp' q)
    (hlog : p.2.written <+: q.2.written ∧ p.2.read <+: q.2.read) : Streams contents t l sp' q := by
  cases t with
  | main =>
      have hnext := hl _ h.1
      have hends : l.ends sp' = l.ends sp := by
        rw [Calls.ends, Calls.ends, show sp'.txBuf = sp.txBuf from hnext.txBuf]
      exact ⟨hends ▸ hnext, h.2.trans hlog.2⟩
  | writing c => exact ⟨h.1.of_linked (hl _ h.1.linked) hlog.1, h.2.trans hlog.2⟩
  | reading c => exact h.of_linked (hl _ h.linked) hlog.2

/-- Wherever the program is, the driver and the device are linked. -/
theorem Streams.linked (h : Streams contents t l sp p) :
    ∃ e, Linked contents e 0 sp p ∧ e.tx = l.passed ∧ l.delivered <+: p.2.read := by
  cases t with
  | main => exact ⟨_, h.1, rfl, h.2⟩
  | writing c => exact ⟨_, h.1.linked, rfl, h.2⟩
  | reading c => exact ⟨_, h.linked, rfl, (List.prefix_append _ _).trans h.got⟩

/-- **Wherever the program is**, whatever the host does and whenever the interrupt routine
runs, the bytes are where they should be and every call has been served. -/
theorem Reaches.streams (hF : F.Queues 64 contents) (h : Reaches F inp n t sp l) :
    Streams contents t l sp (run (uartBus F).step ({}, {}) inp n) ∧ l.Served := by
  induction h with
  | init h =>
      refine ⟨⟨jtagUartInit_linked hF _ _ _ _ _ rfl h, List.nil_prefix⟩, ?_, ?_, rfl⟩
      · simp
      · simp
  | @wait n _ _ _ _ hidle ih =>
      have hlog := log_mono (F := F) ({}, {}) inp (Nat.le_succ n)
      exact ⟨ih.1.of_linked (fun e hl => hl.idle hF hidle) hlog, ih.2⟩
  | interrupt _ hirq ih =>
      exact ⟨ih.1.of_linked (fun e hl => hirq.linked hF hl) (log_mono ({}, {}) inp hirq.le), ih.2⟩
  | write _ bytes ih =>
      exact ⟨⟨.call ih.1.1 bytes, ih.1.2⟩, ih.2.writes, ih.2.reads, ih.2.count⟩
  | writeStep _ hstep ih =>
      exact ⟨⟨ih.1.1.step hF hstep, ih.1.2.trans (log_mono ({}, {}) inp hstep.le).2⟩, ih.2⟩
  | writeReturn _ hpc ih =>
      obtain ⟨hptr, hlinked⟩ := ih.1.1.return hpc
      refine ⟨⟨hlinked, ih.1.2⟩, fun w hw => ?_, ih.2.reads, ih.2.count⟩
      rcases List.mem_append.mp hw with hw | hw
      · exact ih.2.writes w hw
      · obtain rfl := List.mem_singleton.mp hw
        exact WriteCall.result_of_done hptr
  | read _ space ih => exact ⟨.call ih.1.1 ih.1.2 space, ih.2⟩
  | readStep _ hstep ih => exact ⟨ih.1.step hF hstep, ih.2⟩
  | readReturn _ hpc ih =>
      obtain ⟨hresult, hlen⟩ := ih.1.result hpc
      refine ⟨⟨ih.1.return hpc _, ih.1.got⟩, ih.2.writes, fun r hr => ?_, ?_⟩
      · rcases List.mem_append.mp hr with hr | hr
        · exact ih.2.reads r hr
        · obtain rfl := List.mem_singleton.mp hr
          exact hresult
      · simp [ih.2.count, hlen]

/-! ### A session -/

/-- The pins of a write, and of a read. -/
def uartWrite (a : Bool) (v : BitVec 32) : UartPins :=
  { avAddress := a, avWrite := true, avWritedata := v }

def uartRead (a : Bool) : UartPins := { avAddress := a, avRead := true }

/-- While the program waits in a read the host brings a byte and pauses; the interrupt
routine fetches it. Then the program writes a byte, the interrupt routine sends it, and the
host takes it. -/
def session (i : ℕ) : UartPins :=
  [uartWrite true 1, { tEna := true, tDat := 0x41 }, { tPause := true },
    uartRead true, uartRead false, uartRead false, uartRead true, uartWrite true 1,
    uartWrite true 3, uartRead true, uartWrite false 0x42, uartWrite true 1, uartRead true,
    uartRead true, { rEna := true }].getD i {}

/-- The driver when the byte has come. -/
def received : JtagUartState :=
  { irqEnable := 1, timeout := intMax, rxIn := 1, rxBuf := Function.update (fun _ => 0) 0 0x41 }

/-- A program that the session drives runs on it. -/
theorem runs_session {ρ : Type} {prog : Uart ρ} {r : ρ} (pins : List UartPins)
    (hdrive : prog.drive (uartBus (plainFifo 64 0)) uartWrite uartRead
      (run (uartBus (plainFifo 64 0)).step ({}, {}) session n) = (pins, r))
    (hpins : ∀ i (hi : i < pins.length), session (n + i) = pins[i]) :
    Runs (uartBus (plainFifo 64 0)) ({}, {}) session prog n r (n + pins.length) := by
  have hw : ∀ a v, (uartBus (plainFifo 64 0)).Writes (uartWrite a v) a v :=
    fun _ _ => ⟨rfl, rfl, rfl, rfl, rfl⟩
  have hr : ∀ a, (uartBus (plainFifo 64 0)).Reads (uartRead a) a := fun _ => ⟨rfl, rfl, rfl, rfl⟩
  exact runs_of_drive hw hr hdrive hpins

/-- In cycle 3 the read waits. -/
theorem session_read : Reaches (plainFifo 64 0) session 3
    (.reading { pc := .spin, asked := 1, space := 1 })
    { irqEnable := 1, timeout := intMax } {} := by
  have hinit : Runs (uartBus (plainFifo 64 0)) ({}, {}) session jtagUartInit 0
      { irqEnable := 1, timeout := intMax } 1 := runs_session [uartWrite true 1] rfl (by decide)
  have hmain := ((Reaches.init hinit).wait ⟨rfl, rfl, rfl⟩).wait ⟨rfl, rfl, rfl⟩
  exact ((hmain.read 1).readStep (.done _ _)).readStep (.done _ _)

theorem session_irqTurn : Runs (uartBus (plainFifo 64 0)) ({}, {}) session
    (JtagUartState.irqTurn { irqEnable := 1, timeout := intMax }) 3 (some received) 6 :=
  runs_session [uartRead true, uartRead false, uartRead false] rfl (by decide)

end FirFilter.Software
