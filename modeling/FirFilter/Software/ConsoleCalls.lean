import FirFilter.Software.ConsoleInterrupt
/-!
# FirFilter.Software.ConsoleCalls

What the two calls of the console keep, one access at a time.

What a call has read before may be out of date when it acts on it, since the interrupt
routine moves `tx_out` and `rx_in` on. That is harmless because each index only moves away
from what the call relies on: there is at least as much room as there was, and at least as
much data. In the end of a wait the index cannot have come around to where it was either,
because the ring holds less than a round.
-/

namespace FirFilter.Software

open Clocked BusMaster Hardware RingBuffer

variable {F : Fifo (BitVec 8)} {contents : F.State → List (BitVec 8)} {inp : ℕ → UartPins}
  {l : Calls} {sp sp' : JtagUartState} {p q : JtagUart F × UartLog} {n m : ℕ}

/-- A step without a bus access takes no time. -/
theorem runs_pure {ρ : Type} {r r' : ρ}
    (h : Runs (uartBus F) ({}, {}) inp (pure r : Uart ρ) n r' m) : r' = r ∧ m = n := by
  cases h
  exact ⟨rfl, rfl⟩

/-! ### Writing -/

namespace WriteCall

variable {c c' : WriteCall} {produced sent sent' : ℕ}

/-- `memcpy` fills free slots. -/
structure Staged (c : WriteCall) (sp : JtagUartState) (produced sent : ℕ) : Prop where
  inn : c.inn = sp.txIn
  pos : 0 < c.n
  le : c.n ≤ c.ptr.length
  room : produced + c.n < sent + bufLen
  fits : c.inn + c.n ≤ bufLen
  slots : ∀ i < c.copied, c.ptr[i]? = some (sp.txBuf (c.inn + i))

/-- The ring was full when `before` bytes had left it. -/
def Full (c : WriteCall) (produced before : ℕ) : Prop :=
  c.out = before % bufLen ∧ produced + 1 = before + bufLen

/-- What the call knows when `sent` bytes have left the ring. -/
def Knows (c : WriteCall) (sp : JtagUartState) (produced sent : ℕ) : Prop :=
  match c.pc with
  | .loadIn => c.ptr ≠ []
  | .loadOut => c.ptr ≠ [] ∧ c.inn = sp.txIn
  | .copy => c.Staged sp produced sent ∧ c.copied ≤ c.n
  | .publish => c.Staged sp produced sent ∧ c.copied = c.n
  | .kick => c.ptr ≠ [] → ∃ before ≤ sent, c.Full produced before
  | .spin => c.ptr ≠ [] ∧ ∃ before ≤ sent, c.Full produced before
  | .recheck => c.ptr ≠ [] ∧ ∃ before < sent, c.Full produced before
  | .ret => c.ptr = []

/-- More bytes may leave. -/
theorem Knows.mono (h : c.Knows sp produced sent) (hin : sp'.txIn = sp.txIn)
    (hbuf : sp'.txBuf = sp.txBuf) (hle : sent ≤ sent') : c.Knows sp' produced sent' := by
  have hstaged : c.Staged sp produced sent → c.Staged sp' produced sent' := by
    intro hs
    have hroom := hs.room
    exact ⟨hs.inn.trans hin.symm, hs.pos, hs.le, by omega, hs.fits, by rw [hbuf]; exact hs.slots⟩
  cases hpc : c.pc <;> simp only [Knows, hpc] at h ⊢
  case loadIn => exact h
  case loadOut => exact ⟨h.1, h.2.trans hin.symm⟩
  case copy => exact ⟨hstaged h.1, h.2⟩
  case publish => exact ⟨hstaged h.1, h.2⟩
  case kick =>
    intro hne
    obtain ⟨before, hb, hfull⟩ := h hne
    exact ⟨before, hb.trans hle, hfull⟩
  case spin =>
    obtain ⟨hne, before, hb, hfull⟩ := h
    exact ⟨hne, before, hb.trans hle, hfull⟩
  case recheck =>
    obtain ⟨hne, before, hb, hfull⟩ := h
    exact ⟨hne, before, hb.trans_le hle, hfull⟩
  case ret => exact h

/-- The program's side of the rings during the call. -/
def ends (c : WriteCall) (l : Calls) (sp : JtagUartState) : Ends where
  tx := l.passed
  produced := l.passed.length - c.ptr.length
  txBuf := sp.txBuf
  consumed := l.delivered.length
  kicked := c.pc = .spin ∨ c.pc = .recheck ∨ c.pc = .ret
  opened := True

end WriteCall

/-- A write is under way. -/
structure Writing (contents : F.State → List (BitVec 8)) (c : WriteCall) (l : Calls)
    (sp : JtagUartState) (p : JtagUart F × UartLog) : Prop where
  linked : Linked contents (c.ends l sp) 0 sp p
  rest : c.ptr <:+ l.passed
  within : c.ptr.length ≤ c.start.length
  knows : c.Knows sp (l.passed.length - c.ptr.length) p.2.written.length

namespace Writing

variable {c c' : WriteCall}

/-- The interrupt routine and the host leave the call alone. -/
theorem of_linked (h : Writing contents c l sp p) (hl : Linked contents (c.ends l sp) 0 sp' q)
    (hle : p.2.written <+: q.2.written) : Writing contents c l sp' q := by
  have hbuf : sp'.txBuf = sp.txBuf := hl.txBuf
  have hin : sp'.txIn = sp.txIn := hl.tx.inn_eq.trans h.linked.tx.inn_eq.symm
  have hends : c.ends l sp' = c.ends l sp := by rw [WriteCall.ends, WriteCall.ends, hbuf]
  exact ⟨hends ▸ hl, h.rest, h.within, h.knows.mono hin hbuf hle.length_le⟩

theorem loadIn (h : Writing contents c l sp p) (hpc : c.pc = .loadIn) :
    Writing contents { c with pc := .loadOut, inn := sp.txIn } l sp p := by
  have hknows := h.knows
  simp only [WriteCall.Knows, hpc] at hknows
  exact ⟨{ h.linked with sends := by simp [WriteCall.ends] }, h.rest, h.within, hknows, rfl⟩

/-- The ring is full. -/
theorem loadOut_full (h : Writing contents c l sp p) (hpc : c.pc = .loadOut)
    (hn : WriteCall.space c.inn sp.txOut = 0) :
    Writing contents { c with
      pc := .kick, out := sp.txOut, n := WriteCall.space c.inn sp.txOut } l sp p := by
  have hknows := h.knows
  simp only [WriteCall.Knows, hpc] at hknows
  have htx := h.linked.tx
  refine ⟨{ h.linked with sends := by simp [WriteCall.ends] }, h.rest, h.within, fun _ => ?_⟩
  obtain ⟨-, -, hfull⟩ := fillable_spec htx.le htx.room
  rw [hknows.2, htx.inn_eq, htx.out_eq] at hn
  exact ⟨_, le_rfl, htx.out_eq, hfull hn⟩

/-- What `memcpy` will fill. -/
theorem loadOut_copy (h : Writing contents c l sp p) (hpc : c.pc = .loadOut)
    (hn : WriteCall.space c.inn sp.txOut ≠ 0) {k : ℕ}
    (hk : k = if c.ptr.length < WriteCall.space c.inn sp.txOut then c.ptr.length
      else WriteCall.space c.inn sp.txOut) :
    Writing contents { c with pc := .copy, out := sp.txOut, n := k, copied := 0 } l sp p := by
  have hknows := h.knows
  simp only [WriteCall.Knows, hpc] at hknows
  have htx := h.linked.tx
  have hpos : 0 < c.ptr.length := List.length_pos_of_ne_nil hknows.1
  obtain ⟨hroom, hfits, -⟩ := fillable_spec htx.le htx.room
  have hspace : fillable bufLen ((c.ends l sp).produced % bufLen)
      (p.2.written.length % bufLen) = WriteCall.space c.inn sp.txOut := by
    rw [← htx.inn_eq, ← htx.out_eq, hknows.2]
    rfl
  have hinn : c.inn = (c.ends l sp).produced % bufLen := hknows.2.trans htx.inn_eq
  rw [hspace] at hroom hfits
  change l.passed.length - c.ptr.length + _ < _ at hroom
  refine ⟨{ h.linked with sends := by simp [WriteCall.ends] }, h.rest, h.within, ?_,
    Nat.zero_le _⟩
  have hle : k ≤ WriteCall.space c.inn sp.txOut ∧ k ≤ c.ptr.length ∧ 0 < k := by
    split at hk <;> omega
  refine ⟨hknows.2, hle.2.2, hle.2.1, ?_, ?_, fun i hi => absurd hi (Nat.not_lt_zero i)⟩
  · change l.passed.length - c.ptr.length + k < _
    omega
  · change c.inn + k ≤ _
    omega

/-- One byte of `memcpy`. -/
theorem copy (h : Writing contents c l sp p) (hpc : c.pc = .copy) (hlt : c.copied < c.n) :
    Writing contents { c with copied := c.copied + 1 } l { sp with
      txBuf := Function.update sp.txBuf (c.inn + c.copied) (c.ptr.getD c.copied 0) } p := by
  have hknows := h.knows
  simp only [WriteCall.Knows, hpc] at hknows
  obtain ⟨hs, -⟩ := hknows
  have htx := h.linked.tx
  have hle := hs.le
  have hroom := hs.room
  have hfits := hs.fits
  have hinn : c.inn = (c.ends l sp).produced % bufLen := hs.inn.trans htx.inn_eq
  have hslot : ((c.ends l sp).produced + c.copied) % bufLen = c.inn + c.copied := by
    rw [hinn]
    exact add_mod_of_lt (by omega)
  have hbyte : c.ptr[c.copied]? = some (c.ptr.getD c.copied 0) := by
    have hlen : c.copied < c.ptr.length := by omega
    simp [List.getD_eq_getElem?_getD, List.getElem?_eq_getElem hlen]
  have hstore := htx.store (i := c.copied)
    (by change l.passed.length - c.ptr.length + _ < _; omega) (c.ptr.getD c.copied 0)
  rw [hslot] at hstore
  refine ⟨{ h.linked with
    tx := hstore
    txBuf := rfl
    sends := by simp [WriteCall.ends, hpc] }, h.rest, h.within, ?_⟩
  simp only [WriteCall.Knows, hpc]
  refine ⟨⟨hs.inn, hs.pos, hle, hroom, hfits, fun i hi => ?_⟩, hlt⟩
  rcases Nat.lt_succ_iff_lt_or_eq.mp hi with hi | rfl
  · have hne : c.inn + i ≠ c.inn + c.copied := by omega
    simp only [Function.update_of_ne hne]
    exact hs.slots i hi
  · simp only [Function.update_self]
    exact hbyte

/-- `memcpy` has copied them all. -/
theorem copied (h : Writing contents c l sp p) (hpc : c.pc = .copy) (hlt : ¬ c.copied < c.n) :
    Writing contents { c with pc := .publish } l sp p := by
  have hknows := h.knows
  simp only [WriteCall.Knows, hpc] at hknows
  obtain ⟨hs, hle⟩ := hknows
  have heq : c.copied = c.n := by omega
  exact ⟨{ h.linked with sends := by simp [WriteCall.ends] }, h.rest, h.within,
    ⟨hs.inn, hs.pos, hs.le, hs.room, hs.fits, hs.slots⟩, heq⟩

/-- The bytes become part of the ring. -/
theorem publish (h : Writing contents c l sp p) (hpc : c.pc = .publish) :
    Writing contents { c with
        pc := if 0 < (c.ptr.drop c.n).length then .loadIn else .kick
        ptr := c.ptr.drop c.n } l
      { sp with txIn := (c.inn + c.n) % bufLen } p := by
  have hknows := h.knows
  simp only [WriteCall.Knows, hpc] at hknows
  obtain ⟨hs, hcopied⟩ := hknows
  have htx := h.linked.tx
  have hle := hs.le
  have hpos := hs.pos
  have hfits := hs.fits
  obtain ⟨before, hbefore⟩ := h.rest
  have hlen : l.passed.length = before.length + c.ptr.length := by simp [← hbefore]
  have hproduced : (c.ends l sp).produced = before.length := by
    change l.passed.length - c.ptr.length = _
    omega
  have hinn : c.inn = before.length % bufLen := by
    rw [← hproduced]
    exact hs.inn.trans htx.inn_eq
  have hnext : l.passed.length - (c.ptr.drop c.n).length = before.length + c.n := by
    rw [List.length_drop]
    omega
  -- the slots that `memcpy` has filled are the next bytes of the stream
  have hproduce := htx.produce (n := c.n)
    (by have hroom := hs.room; change l.passed.length - c.ptr.length + _ < _; omega)
    (fun i hi => by
      have hslot : (before.length + i) % bufLen = c.inn + i := by
        rw [hinn]
        exact add_mod_of_lt (by omega)
      rw [hproduced, hslot]
      change l.passed[before.length + i]? = _
      rw [← hbefore, List.getElem?_append_right (Nat.le_add_right _ _), Nat.add_sub_cancel_left]
      exact hs.slots i (hcopied ▸ hi))
  rw [hproduced, ← hnext, ← hs.inn] at hproduce
  refine ⟨{ h.linked with tx := hproduce, sends := ?_ }, (List.drop_suffix _ _).trans h.rest, ?_, ?_⟩
  · rintro (hk | hk | hk) <;> split at hk <;> cases hk
  · have hwithin := h.within
    simp only [List.length_drop]
    omega
  · by_cases hmore : 0 < (c.ptr.drop c.n).length
    · simp only [WriteCall.Knows, if_pos hmore]
      exact List.ne_nil_of_length_pos hmore
    · simp only [WriteCall.Knows, if_neg hmore]
      intro hne
      exact absurd (List.length_pos_of_ne_nil hne) hmore

/-- The interrupt for writing is due from now on. -/
theorem kick (hF : F.Queues 64 contents)
    (h : Writing contents c l sp (run (uartBus F).step ({}, {}) inp n)) (hpc : c.pc = .kick)
    (hrun : Runs (uartBus F) ({}, {}) inp (iowrControl (sp.irqEnable ||| weMsk)) n () m) :
    Writing contents { c with pc := if 0 < c.ptr.length then .spin else .ret } l
      { sp with irqEnable := sp.irqEnable ||| weMsk } (run (uartBus F).step ({}, {}) inp m) := by
  have hknows := h.knows
  simp only [WriteCall.Knows, hpc] at hknows
  have hl := iowrControl_linked hF (e := c.ends l sp) True True
    ({}, {}) inp n () m ⟨h.linked, fun _ _ => ?_, fun _ heq => ?_⟩ hrun
  · have hlog := (log_mono (F := F) ({}, {}) inp hrun.le).1.length_le
    refine ⟨{ hl with sends := fun _ => hl.sends trivial }, h.rest, h.within, ?_⟩
    by_cases hmore : 0 < c.ptr.length
    · simp only [WriteCall.Knows, if_pos hmore]
      have hne : c.ptr ≠ [] := List.ne_nil_of_length_pos hmore
      obtain ⟨before, hb, hfull⟩ := hknows hne
      exact ⟨hne, before, hb.trans hlog, hfull⟩
    · simp only [WriteCall.Knows, if_neg hmore]
      exact List.eq_nil_of_length_eq_zero (by omega)
  · simp [weMsk]
  · have := h.linked.fetches trivial heq
    simp [weMsk, this]

/-- The wait ends only when bytes have left the ring, since the host is never given up. -/
theorem spin (h : Writing contents c l sp p) (hpc : c.pc = .spin)
    (hend : ¬ (c.out = sp.txOut ∧ sp.hostInactive < sp.timeout)) :
    Writing contents { c with pc := .recheck } l sp p := by
  have hknows := h.knows
  simp only [WriteCall.Knows, hpc] at hknows
  obtain ⟨hne, before, hb, hfull⟩ := hknows
  -- a timeout is no reason to end
  have hmoved : before ≠ p.2.written.length := by
    rintro rfl
    exact hend ⟨hfull.1.trans h.linked.tx.out_eq.symm, h.linked.patient⟩
  exact ⟨{ h.linked with sends := fun _ => h.linked.sends (.inl hpc) }, h.rest, h.within,
    hne, before, by omega, hfull⟩

/-- The index has not come around to where it was. -/
theorem recheck (h : Writing contents c l sp p) (hpc : c.pc = .recheck) :
    c.out ≠ sp.txOut ∧ Writing contents { c with pc := .loadIn } l sp p := by
  have hknows := h.knows
  simp only [WriteCall.Knows, hpc] at hknows
  obtain ⟨hne, before, hb, hfull⟩ := hknows
  refine ⟨fun heq => ?_, { h.linked with sends := by simp [WriteCall.ends] }, h.rest, h.within, hne⟩
  have hle := h.linked.tx.le
  change p.2.written.length ≤ l.passed.length - c.ptr.length at hle
  have hround := hfull.2
  have hmod : before % bufLen = p.2.written.length % bufLen :=
    hfull.1.symm.trans (heq.trans h.linked.tx.out_eq)
  have := eq_of_mod_eq hmod (by omega) (by omega)
  omega

/-- **A step of a write.** -/
theorem step (hF : F.Queues 64 contents)
    (h : Writing contents c l sp (run (uartBus F).step ({}, {}) inp n))
    (hrun : Runs (uartBus F) ({}, {}) inp (c.step sp) n (c', sp') m) :
    Writing contents c' l sp' (run (uartBus F).step ({}, {}) inp m) := by
  cases hpc : c.pc <;> simp only [WriteCall.step, hpc] at hrun
  case loadIn =>
    obtain ⟨hr, rfl⟩ := runs_pure hrun
    cases hr
    exact h.loadIn hpc
  case loadOut =>
    split at hrun
    · obtain ⟨hr, rfl⟩ := runs_pure hrun
      cases hr
      exact h.loadOut_full hpc ‹_›
    · obtain ⟨hr, rfl⟩ := runs_pure hrun
      cases hr
      exact h.loadOut_copy hpc ‹_› rfl
  case copy =>
    split at hrun
    · obtain ⟨hr, rfl⟩ := runs_pure hrun
      cases hr
      simpa only [hpc] using h.copy hpc ‹_›
    · obtain ⟨hr, rfl⟩ := runs_pure hrun
      cases hr
      exact h.copied hpc ‹_›
  case publish =>
    obtain ⟨hr, rfl⟩ := runs_pure hrun
    cases hr
    exact h.publish hpc
  case kick =>
    obtain ⟨⟨⟩, j, hkick, hrun⟩ := hrun.of_bind
    obtain ⟨hr, rfl⟩ := runs_pure hrun
    cases hr
    exact h.kick hF hpc hkick
  case spin =>
    split at hrun
    · obtain ⟨hr, rfl⟩ := runs_pure hrun
      cases hr
      exact h
    · obtain ⟨hr, rfl⟩ := runs_pure hrun
      cases hr
      exact h.spin hpc ‹_›
  case recheck =>
    obtain ⟨hr, rfl⟩ := runs_pure hrun
    cases hr
    obtain ⟨hne, hnext⟩ := h.recheck hpc
    rw [if_neg hne]
    exact hnext
  case ret =>
    obtain ⟨hr, rfl⟩ := runs_pure hrun
    cases hr
    exact h

end Writing

/-! ### Reading -/

namespace ReadCall

variable {c c' : ReadCall} {consumed : ℕ} {rx rx' : List (BitVec 8)}

/-- `memcpy` takes bytes that are in the ring. -/
structure Taking (c : ReadCall) (sp : JtagUartState) (consumed : ℕ) (rx : List (BitVec 8)) :
    Prop where
  out : c.out = sp.rxOut
  pos : 0 < c.n
  le : c.n ≤ c.space
  there : consumed + c.n ≤ rx.length
  fits : c.out + c.n ≤ bufLen
  bytes : c.copied <+: rx.drop consumed

/-- What the call knows when `rx` has gone into the ring. -/
def Knows (c : ReadCall) (sp : JtagUartState) (consumed : ℕ) (rx : List (BitVec 8)) : Prop :=
  match c.pc with
  | .loadIn => 0 < c.space
  | .loadOut => 0 < c.space ∧ ∃ seen ≤ rx.length, consumed ≤ seen ∧ c.inn = seen % bufLen
  | .copy => c.Taking sp consumed rx ∧ c.copied.length ≤ c.n
  | .publish => c.Taking sp consumed rx ∧ c.copied.length = c.n
  | .spin => 0 < c.space ∧ c.buffer = [] ∧ c.inn = consumed % bufLen
  | .recheck => 0 < c.space ∧ c.buffer = [] ∧ c.inn = consumed % bufLen ∧ consumed < rx.length
  | .kick => c.buffer ≠ []
  | .ret => c.buffer ≠ [] ∨ c.asked = 0

/-- More bytes may come. -/
theorem Knows.mono (h : c.Knows sp consumed rx) (hout : sp'.rxOut = sp.rxOut) (hrx : rx <+: rx') :
    c.Knows sp' consumed rx' := by
  have hlen := hrx.length_le
  have htaking : c.Taking sp consumed rx → c.Taking sp' consumed rx' := fun ht =>
    ⟨ht.out.trans hout.symm, ht.pos, ht.le, ht.there.trans hlen, ht.fits,
      ht.bytes.trans (hrx.drop _)⟩
  cases hpc : c.pc <;> simp only [Knows, hpc] at h ⊢
  case loadOut =>
    obtain ⟨hspace, seen, hle, hrest⟩ := h
    exact ⟨hspace, seen, hle.trans hlen, hrest⟩
  case copy => exact ⟨htaking h.1, h.2⟩
  case publish => exact ⟨htaking h.1, h.2⟩
  case recheck => exact ⟨h.1, h.2.1, h.2.2.1, h.2.2.2.trans_le hlen⟩
  all_goals exact h

/-- The program's side of the rings during the call. Once it has taken something, it will
enable the interrupt for reading. -/
def ends (c : ReadCall) (l : Calls) (sp : JtagUartState) : Ends where
  tx := l.passed
  produced := l.passed.length
  txBuf := sp.txBuf
  consumed := l.delivered.length + c.buffer.length
  kicked := True
  opened := c.buffer = [] ∨ c.pc = .ret

end ReadCall

/-- A read is under way. -/
structure Reading (contents : F.State → List (BitVec 8)) (c : ReadCall) (l : Calls)
    (sp : JtagUartState) (p : JtagUart F × UartLog) : Prop where
  linked : Linked contents (c.ends l sp) 0 sp p
  got : l.delivered ++ c.buffer <+: p.2.read
  count : c.buffer.length + c.space = c.asked
  knows : c.Knows sp (l.delivered.length + c.buffer.length) p.2.read

namespace Reading

variable {c c' : ReadCall}

/-- The interrupt routine and the host leave the call alone. -/
theorem of_linked (h : Reading contents c l sp p) (hl : Linked contents (c.ends l sp) 0 sp' q)
    (hle : p.2.read <+: q.2.read) : Reading contents c l sp' q := by
  have hout : sp'.rxOut = sp.rxOut := hl.rx.out_eq.trans h.linked.rx.out_eq.symm
  have hends : c.ends l sp' = c.ends l sp := by
    rw [ReadCall.ends, ReadCall.ends, show sp'.txBuf = sp.txBuf from hl.txBuf]
  exact ⟨hends ▸ hl, h.got.trans hle, h.count, h.knows.mono hout hle⟩

theorem loadIn (h : Reading contents c l sp p) (hpc : c.pc = .loadIn) :
    Reading contents { c with pc := .loadOut, inn := sp.rxIn } l sp p := by
  have hknows := h.knows
  simp only [ReadCall.Knows, hpc] at hknows
  refine ⟨{ h.linked with fetches := fun ho => h.linked.fetches (.inl ?_) }, h.got, h.count,
    hknows, p.2.read.length, le_rfl, h.linked.rx.le, h.linked.rx.inn_eq⟩
  exact ho.resolve_right (by simp)

/-- What is available, from the index seen. -/
theorem available_spec (h : Reading contents c l sp p) (hpc : c.pc = .loadOut) :
    let k := ReadCall.available c.inn sp.rxOut
    l.delivered.length + c.buffer.length + k ≤ p.2.read.length ∧ sp.rxOut + k ≤ bufLen ∧
      (k = 0 → c.inn = (l.delivered.length + c.buffer.length) % bufLen) := by
  have hknows := h.knows
  simp only [ReadCall.Knows, hpc] at hknows
  obtain ⟨-, seen, hseen, hle, hinn⟩ := hknows
  have hroom := h.linked.rx.room
  have hout : sp.rxOut = (l.delivered.length + c.buffer.length) % bufLen := h.linked.rx.out_eq
  change _ < l.delivered.length + c.buffer.length + _ at hroom
  obtain ⟨h1, h2, h3⟩ := readable_spec (N := bufLen) hle (by omega)
  rw [← hinn, ← hout] at h1 h2 h3
  exact ⟨h1.trans hseen, h2, fun hzero => hinn.trans (h3 hzero ▸ rfl)⟩

theorem loadOut_empty (h : Reading contents c l sp p) (hpc : c.pc = .loadOut)
    (hn : ReadCall.available c.inn sp.rxOut = 0) :
    Reading contents { c with
      pc := c.leave, out := sp.rxOut, n := ReadCall.available c.inn sp.rxOut } l sp p := by
  obtain ⟨-, -, hinn⟩ := h.available_spec hpc
  have hknows := h.knows
  simp only [ReadCall.Knows, hpc] at hknows
  refine ⟨{ h.linked with fetches := fun ho => h.linked.fetches (.inl ?_) }, h.got, h.count, ?_⟩
  · rcases ho with hb | hret
    · exact hb
    · simp only [ReadCall.leave] at hret
      split at hret <;> cases hret
  · by_cases hb : c.buffer = []
    · simp only [ReadCall.Knows, ReadCall.leave, hb, ne_eq, not_true_eq_false, if_false]
      exact ⟨hknows.1, trivial, by simpa [hb] using hinn hn⟩
    · simp only [ReadCall.Knows, ReadCall.leave, ne_eq, hb, not_false_eq_true, if_true]

theorem loadOut_copy (h : Reading contents c l sp p) (hpc : c.pc = .loadOut)
    (hn : ReadCall.available c.inn sp.rxOut ≠ 0) {k : ℕ}
    (hk : k = if c.space < ReadCall.available c.inn sp.rxOut then c.space
      else ReadCall.available c.inn sp.rxOut) :
    Reading contents { c with pc := .copy, out := sp.rxOut, n := k, copied := [] } l sp p := by
  obtain ⟨hthere, hfits, -⟩ := h.available_spec hpc
  have hknows := h.knows
  simp only [ReadCall.Knows, hpc] at hknows
  have hle : k ≤ ReadCall.available c.inn sp.rxOut ∧ k ≤ c.space ∧ 0 < k := by
    split at hk <;> omega
  refine ⟨{ h.linked with fetches := fun ho => h.linked.fetches (.inl ?_) }, h.got, h.count,
    ⟨rfl, hle.2.2, hle.2.1, ?_, ?_, List.nil_prefix⟩, Nat.zero_le _⟩
  · exact ho.resolve_right (by simp)
  · change l.delivered.length + c.buffer.length + k ≤ _
    omega
  · change sp.rxOut + k ≤ _
    omega

/-- One byte of `memcpy`. -/
theorem copy (h : Reading contents c l sp p) (hpc : c.pc = .copy) (hlt : c.copied.length < c.n) :
    Reading contents { c with
      copied := c.copied ++ [sp.rxBuf (c.out + c.copied.length)] } l sp p := by
  have hknows := h.knows
  simp only [ReadCall.Knows, hpc] at hknows
  obtain ⟨ht, -⟩ := hknows
  have hthere := ht.there
  have hfits := ht.fits
  have hout : c.out = (l.delivered.length + c.buffer.length) % bufLen :=
    ht.out.trans h.linked.rx.out_eq
  have hslot : (l.delivered.length + c.buffer.length + c.copied.length) % bufLen =
      c.out + c.copied.length := by
    rw [hout]
    exact add_mod_of_lt (by omega)
  have hbyte := h.linked.rx.slot (l.delivered.length + c.buffer.length + c.copied.length)
    (Nat.le_add_right _ _) (by omega)
  rw [hslot, ← List.getElem?_drop] at hbyte
  refine ⟨{ h.linked with }, h.got, h.count, ?_⟩
  simp only [ReadCall.Knows, hpc]
  exact ⟨⟨ht.out, ht.pos, ht.le, hthere, hfits, concat_prefix ht.bytes hbyte⟩,
    by rw [List.length_append]; exact hlt⟩

/-- `memcpy` has copied them all. -/
theorem copied (h : Reading contents c l sp p) (hpc : c.pc = .copy)
    (hlt : ¬ c.copied.length < c.n) : Reading contents { c with pc := .publish } l sp p := by
  have hknows := h.knows
  simp only [ReadCall.Knows, hpc] at hknows
  obtain ⟨ht, hle⟩ := hknows
  have heq : c.copied.length = c.n := by omega
  refine ⟨{ h.linked with fetches := fun ho => h.linked.fetches (.inl ?_) }, h.got, h.count,
    ⟨ht.out, ht.pos, ht.le, ht.there, ht.fits, ht.bytes⟩, heq⟩
  exact ho.resolve_right (by simp)

/-- The bytes are taken out of the ring. -/
theorem publish (h : Reading contents c l sp p) (hpc : c.pc = .publish) {c' : ReadCall}
    (hc : c' = { c with buffer := c.buffer ++ c.copied, space := c.space - c.n, copied := [] }) :
    Reading contents { c' with pc := if 0 < c'.space then .loadIn else c'.leave } l
      { sp with rxOut := (c.out + c.n) % bufLen } p := by
  have hknows := h.knows
  simp only [ReadCall.Knows, hpc] at hknows
  obtain ⟨ht, hcopied⟩ := hknows
  have hpos := ht.pos
  have hle := ht.le
  have hcount := h.count
  have hbuffer : c'.buffer ≠ [] := by
    have hne : c.copied ≠ [] := List.ne_nil_of_length_pos (by omega)
    simp [hc, hne]
  have hconsumed : l.delivered.length + c'.buffer.length =
      l.delivered.length + c.buffer.length + c.n := by
    simp [hc, hcopied, Nat.add_assoc]
  have hconsume := h.linked.rx.consume (n := c.n) ht.there
  change Holds _ _ _ (l.delivered.length + c.buffer.length + c.n) _ _ _ at hconsume
  rw [← hconsumed, ← ht.out] at hconsume
  have hpc' : ∀ pc, pc = (if 0 < c'.space then .loadIn else c'.leave) →
      pc = .loadIn ∧ 0 < c'.space ∨ pc = .kick := by
    rintro pc rfl
    split
    · exact .inl ⟨rfl, ‹_›⟩
    · exact .inr (by simp [ReadCall.leave, hbuffer])
  obtain ⟨pc, heq⟩ : ∃ pc, pc = (if 0 < c'.space then ReadPc.loadIn else c'.leave) := ⟨_, rfl⟩
  rw [← heq]
  refine ⟨{ h.linked with rx := hconsume, fetches := ?_ }, ?_, ?_, ?_⟩
  -- the interrupt for reading may be disabled until the call enables it
  · rintro (hb | hret) _
    · exact absurd hb hbuffer
    · rcases hpc' pc heq with ⟨rfl, -⟩ | rfl <;> cases hret
  · obtain ⟨t, hread⟩ := h.got
    have hdrop : p.2.read.drop (l.delivered.length + c.buffer.length) = t := by
      rw [← hread, ← List.length_append, List.drop_left]
    obtain ⟨t', ht'⟩ := hdrop ▸ ht.bytes
    exact ⟨t', by simp only [hc, ← hread, ← ht', List.append_assoc]⟩
  · simp only [hc, List.length_append]
    omega
  · rcases hpc' pc heq with ⟨rfl, hmore⟩ | rfl
    · exact hmore
    · exact hbuffer

/-- The wait ends only when bytes have come, since the host is never given up. -/
theorem spin (h : Reading contents c l sp p) (hpc : c.pc = .spin)
    (hend : ¬ (c.inn = sp.rxIn ∧ sp.hostInactive < sp.timeout)) :
    Reading contents { c with pc := .recheck } l sp p := by
  have hknows := h.knows
  simp only [ReadCall.Knows, hpc] at hknows
  obtain ⟨hspace, hbuffer, hinn⟩ := hknows
  have hmoved : l.delivered.length + c.buffer.length ≠ p.2.read.length := by
    intro heq
    exact hend ⟨(hinn.trans (heq ▸ rfl)).trans h.linked.rx.inn_eq.symm, h.linked.patient⟩
  have hle := h.linked.rx.le
  exact ⟨{ h.linked with fetches := fun _ => h.linked.fetches (.inl hbuffer) }, h.got, h.count,
    hspace, hbuffer, hinn, Nat.lt_of_le_of_ne hle hmoved⟩

/-- The index has not come around to where it was. -/
theorem recheck (h : Reading contents c l sp p) (hpc : c.pc = .recheck) :
    c.inn ≠ sp.rxIn ∧ Reading contents { c with pc := .loadIn } l sp p := by
  have hknows := h.knows
  simp only [ReadCall.Knows, hpc] at hknows
  obtain ⟨hspace, hbuffer, hinn, hlt⟩ := hknows
  refine ⟨fun heq => ?_, { h.linked with fetches := fun _ => h.linked.fetches (.inl hbuffer) },
    h.got, h.count, hspace⟩
  have hroom := h.linked.rx.room
  change _ < l.delivered.length + c.buffer.length + _ at hroom
  have hmod := (hinn.symm.trans heq).trans h.linked.rx.inn_eq
  exact absurd (eq_of_mod_eq hmod hlt.le hroom) (Nat.ne_of_lt hlt)

/-- The interrupt for reading is due from now on. -/
theorem kick (hF : F.Queues 64 contents)
    (h : Reading contents c l sp (run (uartBus F).step ({}, {}) inp n)) (hpc : c.pc = .kick)
    (hrun : Runs (uartBus F) ({}, {}) inp (iowrControl (sp.irqEnable ||| reMsk)) n () m) :
    Reading contents { c with pc := .ret } l { sp with irqEnable := sp.irqEnable ||| reMsk }
      (run (uartBus F).step ({}, {}) inp m) := by
  have hknows := h.knows
  simp only [ReadCall.Knows, hpc] at hknows
  have hl := iowrControl_linked hF (e := c.ends l sp) True True
    ({}, {}) inp n () m ⟨h.linked, fun _ hlt => ?_, fun _ _ => ?_⟩ hrun
  · have hlog := (log_mono (F := F) ({}, {}) inp hrun.le).2
    exact ⟨{ hl with fetches := fun _ => hl.fetches trivial }, h.got.trans hlog, h.count,
      .inl hknows⟩
  · have := h.linked.sends trivial hlt
    simp [reMsk, this]
  · simp [reMsk]

/-- **A step of a read.** -/
theorem step (hF : F.Queues 64 contents)
    (h : Reading contents c l sp (run (uartBus F).step ({}, {}) inp n))
    (hrun : Runs (uartBus F) ({}, {}) inp (c.step sp) n (c', sp') m) :
    Reading contents c' l sp' (run (uartBus F).step ({}, {}) inp m) := by
  cases hpc : c.pc <;> simp only [ReadCall.step, hpc] at hrun
  case loadIn =>
    obtain ⟨hr, rfl⟩ := runs_pure hrun
    cases hr
    exact h.loadIn hpc
  case loadOut =>
    split at hrun
    · obtain ⟨hr, rfl⟩ := runs_pure hrun
      cases hr
      exact h.loadOut_empty hpc ‹_›
    · obtain ⟨hr, rfl⟩ := runs_pure hrun
      cases hr
      exact h.loadOut_copy hpc ‹_› rfl
  case copy =>
    split at hrun
    · obtain ⟨hr, rfl⟩ := runs_pure hrun
      cases hr
      simpa only [hpc] using h.copy hpc ‹_›
    · obtain ⟨hr, rfl⟩ := runs_pure hrun
      cases hr
      exact h.copied hpc ‹_›
  case publish =>
    obtain ⟨hr, rfl⟩ := runs_pure hrun
    cases hr
    exact h.publish hpc rfl
  case spin =>
    split at hrun
    · obtain ⟨hr, rfl⟩ := runs_pure hrun
      cases hr
      exact h
    · obtain ⟨hr, rfl⟩ := runs_pure hrun
      cases hr
      exact h.spin hpc ‹_›
  case recheck =>
    obtain ⟨hr, rfl⟩ := runs_pure hrun
    cases hr
    obtain ⟨hne, hnext⟩ := h.recheck hpc
    rw [if_neg hne]
    exact hnext
  case kick =>
    obtain ⟨⟨⟩, j, hkick, hrun⟩ := hrun.of_bind
    obtain ⟨hr, rfl⟩ := runs_pure hrun
    cases hr
    exact h.kick hF hpc hkick
  case ret =>
    obtain ⟨hr, rfl⟩ := runs_pure hrun
    cases hr
    exact h

end Reading

end FirFilter.Software
