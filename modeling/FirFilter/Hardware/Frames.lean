import FirFilter.Hardware.Intake
import FirFilter.Lib.Ledger
/-!
# FirFilter.Hardware.Frames

Many frames in a row.

The source knows nothing of frames: it presents the beats of one endless stream, the
next one whenever the component has taken the last, and the padded images follow each
other in it without a gap. The component goes through `S0` between two frames and keeps
its delay line. Here the handshakes of a whole run are counted. The counts are those of
the frames that have ended plus the log of the current one (`beats_ledger`), so no beat
is lost or taken twice at the change of a frame, and the results of frame `k` come from
the beats of frame `k` alone.
-/

namespace FirFilter.Hardware

open Clocked Ledger

variable {g : Generics} {P : Parts g}

/-! ### Counting the handshakes of a run -/

/-- The beats accepted in the first `n` cycles. -/
def beatsTaken (s : Component P) (inp : ℕ → Pins g) (n : ℕ) : ℕ :=
  Nat.count (fun m => (run Component.step s inp m).accepts (inp m)) n

/-- The results transferred in the first `n` cycles. -/
def resultsSent (s : Component P) (inp : ℕ → Pins g) (n : ℕ) : ℕ :=
  Nat.count (fun m => (run Component.step s inp m).transfers (inp m)) n

theorem resultsSent_succ (s : Component P) (inp : ℕ → Pins g) (n : ℕ) :
    resultsSent s inp (n + 1) = resultsSent s inp n +
      if (run Component.step s inp n).transfers (inp n) then 1 else 0 := Nat.count_succ _ _

/-- The component is in `S0`. -/
def Component.Idle (s : Component P) : Prop := s.control.currentState = .S0

instance (s : Component P) : Decidable s.Idle := inferInstanceAs (Decidable (_ = _))

/-- A frame ends with cycle `n`. -/
def FrameEnds (s : Component P) (inp : ℕ → Pins g) (n : ℕ) : Prop :=
  ¬ (run Component.step s inp n).Idle ∧ (run Component.step s inp (n + 1)).Idle

instance (s : Component P) (inp : ℕ → Pins g) : DecidablePred (FrameEnds s inp) :=
  fun _ => inferInstanceAs (Decidable (_ ∧ _))

/-- The frames that have ended in the first `n` cycles. -/
def framesDone (s : Component P) (inp : ℕ → Pins g) (n : ℕ) : ℕ :=
  Nat.count (FrameEnds s inp) n

/-! ### The ledger -/

/-- A frame ends with the transfer of its last result. -/
theorem Transition.frameEnd_of_busy {c c' : Control} {x : Signals} (h : Transition g x c c')
    (hbusy : c.currentState ≠ .S0) (h0 : c'.currentState = .S0) :
    c.currentState = .S6 ∧ x.asoOutReady := by
  refine h.frameEnd_of_idle (by_contra fun ho => hbusy ?_) h0
  rwa [h.eq_of_not_offered ho] at h0

/-- The part of the log that belongs to a frame under way. -/
def FrameLog.underWay (q : Watched P) : FrameLog g := q.2.opened q.1.control.currentState

theorem underWay_of_idle {q : Watched P} (h : q.1.Idle) : FrameLog.underWay q = {} := if_pos h

theorem underWay_of_busy {q : Watched P} (h : ¬ q.1.Idle) : FrameLog.underWay q = q.2 := if_neg h

/-- The handshakes of a cycle extend the part under way. -/
theorem length_record (q : Watched P) (x : Pins g) :
    (q.2.record q.1 x).accepted.length =
        (FrameLog.underWay q).accepted.length + (if q.1.accepts x then 1 else 0) ∧
      (q.2.record q.1 x).sent.length =
        (FrameLog.underWay q).sent.length + (if q.1.transfers x then 1 else 0) := by
  constructor
  · cases h : q.1.accepts x <;> simp [FrameLog.record, FrameLog.underWay, h]
  · cases h : q.1.transfers x <;> simp [FrameLog.record, FrameLog.underWay, h]

/-- In `S0` neither stream moves. -/
theorem no_handshake_of_idle {s : Component P} (h : s.Idle) (x : Pins g) :
    s.accepts x = false ∧ s.transfers x = false := by
  have h0 : s.control.currentState = .S0 := h
  simp [Component.accepts, Component.asiInReady, Component.transfers, Component.outValid, h0,
    intAsiInReady, asoOutValid]

/-- **Step lemma.** What a cycle adds to the part under way, and what the end of a frame
takes off it. -/
theorem underWay_step {f : FrameSize g} {q : Watched P} {x : Pins g} (h : FrameInv f q)
    (hc : Configured f.width f.height q.1) (hr : x.reset = false) :
    let q' := watch Component.step FrameLog.record q x
    let ended := ¬ q.1.Idle ∧ q'.1.Idle
    (FrameLog.underWay q').accepted.length + (if ended then f.beats else 0) =
        (FrameLog.underWay q).accepted.length + (if q.1.accepts x then 1 else 0) ∧
      (FrameLog.underWay q').sent.length + (if ended then f.height * f.width else 0) =
        (FrameLog.underWay q).sent.length + (if q.1.transfers x then 1 else 0) := by
  intro q' ended
  obtain ⟨hm, ht⟩ := length_record q x
  by_cases hidle' : q'.1.Idle
  · rw [underWay_of_idle hidle']
    by_cases hidle : q.1.Idle
    · have hended : ¬ ended := fun he => he.1 hidle
      obtain ⟨ha, htr⟩ := no_handshake_of_idle hidle x
      simp [underWay_of_idle hidle, hended, ha, htr]
    · have hended : ended := ⟨hidle, hidle'⟩
      rw [if_pos hended, if_pos hended, ← hm, ← ht]
      -- the transfer of this cycle rules out an empty log
      obtain ⟨h6, hready⟩ := (Component.step_transition hr).frameEnd_of_busy hidle hidle'
      have htr : q.1.transfers x = true := by
        simpa [Component.transfers, Component.outValid, h6, asoOutValid, Component.signals]
          using hready
      obtain ⟨-, ⟨-, -, hnone⟩ | ⟨hbeats, hsent⟩⟩ := (h.step hc hr).progress.at_idle hidle'
      · rw [watch_snd, ht, if_pos htr] at hnone
        omega
      · exact ⟨by simpa using hbeats.symm, by simpa using hsent.symm⟩
  · have hended : ¬ ended := fun he => hidle' he.2
    rw [underWay_of_busy hidle', if_neg hended, if_neg hended]
    exact ⟨hm, ht⟩

section Run

variable {f : FrameSize g} {s : Component P} {inp : ℕ → Pins g} {n : ℕ}

/-- **The ledger.** The handshakes of a run are those of the frames that have ended and
those of the frame under way. -/
theorem handshake_ledger (h0 : s.control = {})
    (hc : ∀ m ≤ n, Configured f.width f.height (run Component.step s inp m)) :
    beatsTaken s inp n = framesDone s inp n * f.beats +
        (FrameLog.underWay (observe (s, {}) inp n)).accepted.length ∧
      resultsSent s inp n = framesDone s inp n * (f.height * f.width) +
        (FrameLog.underWay (observe (s, {}) inp n)).sent.length := by
  have hstate : ∀ m, (observe (s, {}) inp m).1 = run Component.step s inp m :=
    fun m => run_watch_fst _ _ _ inp m
  have hconf : ∀ m ≤ n, Configured f.width f.height (observe (s, {}) inp m).1 := fun m hm =>
    hstate m ▸ hc m hm
  have hstep := fun m (hm : m < n) =>
    underWay_step (x := inp m) (FrameInv.of_run (p := (s, {})) ⟨h0, rfl⟩ fun k hk =>
      hconf k (hk.trans hm.le)) (hconf m hm.le) ((hconf (m + 1) hm).no_reset f.width_pos)
  have hstart : FrameLog.underWay (observe (s, {}) inp 0) = {} := underWay_of_idle (by
    show s.control.currentState = .S0
    rw [h0])
  have hbeats := count_ledger (fun m => (run Component.step s inp m).accepts (inp m))
    (FrameEnds s inp) (fun m => (FrameLog.underWay (observe (s, {}) inp m)).accepted.length)
    f.beats (n := n) fun m hm => by
      simpa only [FrameEnds, ← hstate, observe, run_succ] using (hstep m hm).1
  have hsent := count_ledger (fun m => (run Component.step s inp m).transfers (inp m))
    (FrameEnds s inp) (fun m => (FrameLog.underWay (observe (s, {}) inp m)).sent.length)
    (f.height * f.width) (n := n) fun m hm => by
      simpa only [FrameEnds, ← hstate, observe, run_succ] using (hstep m hm).2
  rw [hstart] at hbeats hsent
  exact ⟨by simpa [beatsTaken, framesDone] using hbeats,
    by simpa [resultsSent, framesDone] using hsent⟩

/-- In `S0` the handshakes are those of whole frames. -/
theorem handshakes_of_idle (h0 : s.control = {})
    (hc : ∀ m ≤ n, Configured f.width f.height (run Component.step s inp m))
    (hidle : (run Component.step s inp n).Idle) :
    beatsTaken s inp n = framesDone s inp n * f.beats ∧
      resultsSent s inp n = framesDone s inp n * (f.height * f.width) := by
  have hunder : FrameLog.underWay (observe (s, {}) inp n) = {} := underWay_of_idle (by
    rwa [observe, run_watch_fst])
  have hledger := handshake_ledger h0 hc
  rwa [hunder] at hledger

/-- The part under way is never more than a frame. -/
theorem underWay_le (h0 : s.control = {})
    (hc : ∀ m ≤ n, Configured f.width f.height (run Component.step s inp m)) :
    (FrameLog.underWay (observe (s, {}) inp n)).accepted.length ≤ f.beats ∧
      (FrameLog.underWay (observe (s, {}) inp n)).sent.length ≤ f.height * f.width := by
  by_cases hidle : (observe (s, {}) inp n).1.Idle
  · simp [underWay_of_idle hidle]
  · have hinv : FrameInv f (observe (s, {}) inp n) := .of_run ⟨h0, rfl⟩ fun m hm => by
      rw [observe, run_watch_fst]
      exact hc m hm
    rw [underWay_of_busy hidle]
    exact ⟨hinv.progress.beats_missing.1, (hinv.progress.le_total hidle).2⟩

end Run

/-! ### The frame a cycle belongs to -/

/-- In `S0` the log starts afresh, whatever it holds. -/
theorem observe_reopen {p : Watched P} {inp : ℕ → Pins g} {n : ℕ} (h : (observe p inp n).1.Idle)
    (m : ℕ) : observe p inp (n + (m + 1)) =
      observe ((observe p inp n).1, {}) (fun k => inp (n + k)) (m + 1) := by
  unfold observe at h ⊢
  rw [run_add]
  generalize run (watch Component.step FrameLog.record) p inp n = q at h
  have h0 : q.1.control.currentState = .S0 := h
  induction m with
  | zero => simp [run_succ, watch, FrameLog.record, FrameLog.opened, h0]
  | succ m ih => rw [run_succ, ih, run_succ _ _ _ (m + 1)]

section Run

variable {f : FrameSize g} {s : Component P} {inp : ℕ → Pins g} {n : ℕ}

/-- A busy cycle belongs to a frame that began in `S0`. Since then no frame has ended and
the machine has not been in `S0` again. -/
theorem exists_frame_start (h0 : s.control = {})
    (hc : ∀ m ≤ n, Configured f.width f.height (run Component.step s inp m))
    (hbusy : ¬ (run Component.step s inp n).Idle) :
    ∃ b d, n = b + (d + 1) ∧ (run Component.step s inp b).control = {} ∧
      ∀ j ≤ d + 1, framesDone s inp (b + j) = framesDone s inp n ∧
        (j ≠ 0 → ¬ (run Component.step s inp (b + j)).Idle) := by
  have hstart : (run Component.step s inp 0).Idle := by
    show s.control.currentState = .S0
    rw [h0]
  obtain ⟨b, hb, hidle, hlast⟩ := exists_last
    (p := fun m => (run Component.step s inp m).Idle) hstart n
  have hlt : b < n := lt_of_le_of_ne hb fun heq => hbusy (heq ▸ hidle)
  obtain ⟨d, rfl⟩ := Nat.exists_eq_add_of_lt hlt
  refine ⟨b, d, rfl, ?_, fun j hj => ⟨?_, fun hne => hlast _ (by omega) (by omega)⟩⟩
  · have hinv : FrameInv f (observe (s, {}) inp b) := .of_run ⟨h0, rfl⟩ fun m hm => by
      rw [observe, run_watch_fst]
      exact hc m (hm.trans hb)
    rw [observe, ← run_watch_fst Component.step FrameLog.record (s, {})] at *
    exact (hinv.progress.at_idle hidle).1
  · refine (count_eq_of_forall_not (by omega) fun k hk hkn hends => ?_).symm
    exact hlast (k + 1) (by omega) (by omega) hends.2

/-- **The windows of a run.** Fed the beats of `s` one after the other, the component makes
transfer `r * w + c` of frame `k` while the register bank holds a window of the beats of
frame `k`. -/
theorem frames_window (hT : P.altshiftTaps.DelayLine g.maxImageWidth)
    (hB : P.registerBank.KeepsLast) (v : ℕ → BitVec g.pixelWidth) (h0 : s.control = {})
    (hc : ∀ m ≤ n, Configured f.width f.height (run Component.step s inp m))
    (hv : ∀ m < n, (run Component.step s inp m).accepts (inp m) →
      (inp m).asiInData = v (beatsTaken s inp m))
    (ht : (run Component.step s inp n).transfers (inp n)) :
    resultsSent s inp n < (framesDone s inp n + 1) * (f.height * f.width) ∧
      ∀ r c, c < f.width →
        resultsSent s inp n = framesDone s inp n * (f.height * f.width) + (r * f.width + c) →
        ∀ a b : Fin g.kernelSize, (run Component.step s inp n).process.window a b =
          v (framesDone s inp n * f.beats +
            (r * f.pitch + c + a.val * g.maxImageWidth + b.val)) := by
  have hbusy : ¬ (run Component.step s inp n).Idle := fun hidle => by
    rw [(no_handshake_of_idle hidle _).2] at ht
    cases ht
  obtain ⟨b, d, rfl, hb, hframe⟩ := exists_frame_start h0 hc hbusy
  -- the run from the frame start, and the log of the whole run
  have hrun : ∀ j, (observe (run Component.step s inp b, {}) (fun k => inp (b + k)) j).1 =
      run Component.step s inp (b + j) := fun j => by
    rw [observe, run_watch_fst, ← run_add]
  have hidle : (observe (s, {}) inp b).1.Idle := by
    rw [observe, run_watch_fst]
    show (run Component.step s inp b).control.currentState = .S0
    rw [hb]
  have hlog : ∀ j, observe (run Component.step s inp b, {}) (fun k => inp (b + k)) (j + 1) =
      observe (s, {}) inp (b + (j + 1)) := fun j => by
    rw [observe_reopen hidle]
    congr 2
    rw [observe, run_watch_fst]
  have hunder : ∀ j ≤ d, FrameLog.underWay (observe (s, {}) inp (b + (j + 1))) =
      (observe (s, {}) inp (b + (j + 1))).2 := fun j hj => underWay_of_busy (by
    rw [observe, run_watch_fst]
    exact (hframe (j + 1) (by omega)).2 (by omega))
  have hledger := fun j (hj : j ≤ d) => handshake_ledger h0 (n := b + (j + 1)) fun m hm =>
    hc m (by omega)
  have hfeeds : ∀ j < d + 1, Feeds (fun i => v (framesDone s inp (b + (d + 1)) * f.beats + i))
      (observe (run Component.step s inp b, {}) (fun k => inp (b + k)) j) (inp (b + j)) := by
    intro j hj ha
    rw [hrun] at ha
    cases j with
    | zero =>
        rw [observe, run_watch_fst] at hidle
        exact absurd ha (by rw [Nat.add_zero, (no_handshake_of_idle hidle _).1]; decide)
    | succ j =>
        rw [hv _ (by omega) ha, hlog, (hledger j (by omega)).1, hunder j (by omega),
          (hframe _ hj.le).1]
  obtain ⟨hwindow, -⟩ := transfers_window hT hB f _ (n := d + 1) ⟨hb, rfl⟩
    (fun m hm => by rw [hrun]; exact hc _ (by omega)) hfeeds
  rw [hrun, hlog] at hwindow
  obtain ⟨hlt, hwin⟩ := hwindow ht
  rw [(hledger d le_rfl).2, hunder d le_rfl]
  refine ⟨by rw [Nat.succ_mul]; omega, fun r c hcw hrc => hwin r c hcw (by omega)⟩

end Run

/-! ### Every number of frames -/

section Fair

variable {f : FrameSize g} {s : Component P} {inp : ℕ → Pins g}

theorem framesDone_add (m n : ℕ) : framesDone s inp (m + n) = framesDone s inp m +
    framesDone (run Component.step s inp m) (fun k => inp (m + k)) n := by
  have hends : ∀ k, FrameEnds s inp (m + k) ↔
      FrameEnds (run Component.step s inp m) (fun k => inp (m + k)) k := fun k => by
    rw [FrameEnds, FrameEnds, ← run_add, ← run_add, Nat.add_assoc]
  simp only [framesDone, Nat.count_add, hends]

theorem sent_le_resultsSent (s : Component P) (inp : ℕ → Pins g) (n : ℕ) :
    (observe (s, {}) inp n).2.sent.length ≤ resultsSent s inp n := by
  induction n with
  | zero => exact Nat.zero_le _
  | succ n ih =>
      have hrecord := (length_record (observe (s, {}) inp n) (inp n)).2
      have hopened : (FrameLog.underWay (observe (s, {}) inp n)).sent.length ≤
          (observe (s, {}) inp n).2.sent.length := by
        unfold FrameLog.underWay FrameLog.opened
        split
        · exact Nat.zero_le _
        · exact le_rfl
      show ((observe (s, {}) inp n).2.record (observe (s, {}) inp n).1 (inp n)).sent.length ≤ _
      rw [hrecord, resultsSent_succ, observe, run_watch_fst]
      exact Nat.add_le_add_right (hopened.trans ih) _

theorem beatsTaken_add (m n : ℕ) : beatsTaken s inp (m + n) = beatsTaken s inp m +
    beatsTaken (run Component.step s inp m) (fun k => inp (m + k)) n := by
  simp only [beatsTaken, Nat.count_add, run_add]

/-- As long as the machine is in `S0` nothing is counted. -/
theorem counts_of_idle {n : ℕ} (h : ∀ m ≤ n, (run Component.step s inp m).Idle) :
    beatsTaken s inp n = 0 ∧ resultsSent s inp n = 0 ∧ framesDone s inp n = 0 := by
  refine ⟨?_, ?_, ?_⟩ <;> refine Nat.count_iff_forall_not.mpr fun m hm hevent => ?_
  · rw [(no_handshake_of_idle (h m hm.le) _).1] at hevent
    cases hevent
  · rw [(no_handshake_of_idle (h m hm.le) _).2] at hevent
    cases hevent
  · exact hevent.1 (h m hm.le)

/-- From `S0` another frame ends when the handshakes keep coming. -/
theorem exists_frame_end (h0 : s.control = {})
    (hc : ∀ n, Configured f.width f.height (run Component.step s inp n))
    (hb : ∀ n, (run Component.step s inp n).regs.controlBit)
    (valid : ∀ n, ∃ m ≥ n, (inp m).asiInValid) (ready : ∀ n, ∃ m ≥ n, (inp m).asoOutReady) :
    ∃ n, (run Component.step s inp n).control = {} ∧ 0 < framesDone s inp n := by
  have hstate : ∀ m, (observe (s, {}) inp m).1 = run Component.step s inp m :=
    fun m => run_watch_fst _ _ _ inp m
  have hconf : ∀ m, Configured f.width f.height (observe (s, {}) inp m).1 := fun m =>
    hstate m ▸ hc m
  obtain ⟨n, hidle, hsent⟩ := frame_completes (p := (s, {})) ⟨h0, rfl⟩ hconf
    (fun m => by rw [hstate]; exact hb m) valid ready
  have hinv : FrameInv f (observe (s, {}) inp n) := .of_run ⟨h0, rfl⟩ fun m _ => hconf m
  refine ⟨n, by rw [← hstate]; exact (hinv.progress.at_idle hidle).1, ?_⟩
  -- the log of a complete frame is not empty, so a frame has ended
  by_contra hnone
  have hle := (sent_le_resultsSent s inp n).trans_eq
    (handshakes_of_idle h0 (fun m _ => hc m) (hstate n ▸ hidle)).2
  rw [hsent, Nat.eq_zero_of_not_pos hnone, Nat.zero_mul] at hle
  have := Nat.mul_pos (lt_of_lt_of_le Nat.zero_lt_two f.two_le_height) f.width_pos
  omega

/-- **Every frame gets its turn.** -/
theorem frames_complete (h0 : s.control = {})
    (hc : ∀ n, Configured f.width f.height (run Component.step s inp n))
    (hb : ∀ n, (run Component.step s inp n).regs.controlBit)
    (valid : ∀ n, ∃ m ≥ n, (inp m).asiInValid) (ready : ∀ n, ∃ m ≥ n, (inp m).asoOutReady)
    (k : ℕ) : ∃ n, (run Component.step s inp n).control = {} ∧ k ≤ framesDone s inp n := by
  induction k with
  | zero => exact ⟨0, h0, Nat.zero_le _⟩
  | succ k ih =>
      obtain ⟨n, hn, hk⟩ := ih
      obtain ⟨d, hd, hpos⟩ := exists_frame_end hn (fun m => by rw [← run_add]; exact hc _)
        (fun m => by rw [← run_add]; exact hb _) (recurs_add valid n) (recurs_add ready n)
      rw [← run_add] at hd
      exact ⟨n + d, hd, by rw [framesDone_add]; omega⟩

end Fair

/-- **The component streams frame after frame.** Idle with its counters at `0` and with any
contents of the memories, and fed the beats of one endless stream without regard to frames,
the component has at any time taken the beats and sent the results of the frames that have
ended and at most those of one more; in `S0` of no more. Result `r * w + c` of frame `k` is
sent while the register bank holds the values `v[k * beats + r * P + c + a * W + b]`, so no
frame sees a beat of another one. All this holds under every handshake pattern, and every
number of frames ends when the handshakes keep coming. -/
theorem frames_stream (hT : P.altshiftTaps.DelayLine g.maxImageWidth)
    (hB : P.registerBank.KeepsLast) (f : FrameSize g) (v : ℕ → BitVec g.pixelWidth)
    {s : Component P} (h0 : s.control = {}) {inp : ℕ → Pins g}
    (hc : ∀ n, Configured f.width f.height (run Component.step s inp n))
    (hv : ∀ n, (run Component.step s inp n).accepts (inp n) →
      (inp n).asiInData = v (beatsTaken s inp n)) :
    (∀ n, let q := run Component.step s inp n
      let k := framesDone s inp n
      (k * f.beats ≤ beatsTaken s inp n ∧ beatsTaken s inp n ≤ (k + 1) * f.beats) ∧
      (k * (f.height * f.width) ≤ resultsSent s inp n ∧
        resultsSent s inp n ≤ (k + 1) * (f.height * f.width)) ∧
      (q.Idle → beatsTaken s inp n = k * f.beats ∧
        resultsSent s inp n = k * (f.height * f.width)) ∧
      (q.transfers (inp n) → resultsSent s inp n < (k + 1) * (f.height * f.width) ∧
        ∀ r c, c < f.width →
          resultsSent s inp n = k * (f.height * f.width) + (r * f.width + c) →
          ∀ a b : Fin g.kernelSize, q.process.window a b =
            v (k * f.beats + (r * f.pitch + c + a.val * g.maxImageWidth + b.val)))) ∧
    ((∀ n, (run Component.step s inp n).regs.controlBit) → (∀ n, ∃ m ≥ n, (inp m).asiInValid) →
      (∀ n, ∃ m ≥ n, (inp m).asoOutReady) → ∀ k, ∃ n, k ≤ framesDone s inp n) := by
  refine ⟨fun n => ?_, fun hb valid ready k => ?_⟩
  · obtain ⟨hbeats, hsent⟩ := handshake_ledger h0 fun m (_ : m ≤ n) => hc m
    obtain ⟨hle, hle'⟩ := underWay_le h0 fun m (_ : m ≤ n) => hc m
    refine ⟨⟨?_, ?_⟩, ⟨?_, ?_⟩, handshakes_of_idle h0 fun m _ => hc m,
      frames_window hT hB v h0 (fun m _ => hc m) fun m _ => hv m⟩
    · rw [hbeats]
      exact Nat.le_add_right _ _
    · rw [hbeats, Nat.succ_mul]
      exact Nat.add_le_add_left hle _
    · rw [hsent]
      exact Nat.le_add_right _ _
    · rw [hsent, Nat.succ_mul]
      exact Nat.add_le_add_left hle' _
  · obtain ⟨n, -, hn⟩ := frames_complete h0 hc hb valid ready k
    exact ⟨n, hn⟩

/-- A source that sends the stream `v` can be attached to the component. -/
theorem exists_stream (s : Component P) (v : ℕ → BitVec g.pixelWidth) : ∃ inp : ℕ → Pins g,
    ∀ n, inp n = { eager g with asiInData := v (beatsTaken s inp n) } := by
  obtain ⟨inp, hinp⟩ := exists_feedback
    (watch Component.step fun (c : ℕ) s x => c + if s.accepts x then 1 else 0) (s, 0)
    fun q => { eager g with asiInData := v q.2 }
  refine ⟨inp, fun n => ?_⟩
  have hcount : (run (watch Component.step
      fun (c : ℕ) s x => c + if s.accepts x then 1 else 0) (s, 0) inp n).2 =
        beatsTaken s inp n := by
    induction n with
    | zero => rfl
    | succ n ih =>
        rw [run_succ, watch_snd, ih, run_watch_fst, beatsTaken, beatsTaken, Nat.count_succ]
  rw [hinp, hcount]

/-- Three frames of two columns and two rows, of a stream with beat `k` of the value `k`. -/
theorem frames_stream_three : ∃ inp : ℕ → Pins smallGenerics,
    let f : FrameSize smallGenerics := ⟨2, 2, by decide, by decide, by decide, by decide⟩
    let s := Component.programmed (Parts.plain smallGenerics) 2 2
    (∃ n, 3 ≤ framesDone s inp n) ∧
      ∀ n, (run Component.step s inp n).transfers (inp n) → ∀ r c, c < 2 →
        resultsSent s inp n = framesDone s inp n * 4 + (r * 2 + c) →
        ∀ a b, (run Component.step s inp n).process.window a b =
          BitVec.ofNat 8 (framesDone s inp n * f.beats +
            (r * f.pitch + c + a.val * 8 + b.val)) := by
  obtain ⟨inp, hinp⟩ := exists_stream (Component.programmed (Parts.plain smallGenerics) 2 2)
    fun k => BitVec.ofNat 8 k
  have hquiet : ∀ n, (inp n).Quiet := fun n => by rw [hinp]; exact eager_quiet smallGenerics
  have hpins : ∀ n, (inp n).asiInValid ∧ (inp n).asoOutReady := fun n => by
    rw [hinp]
    exact ⟨rfl, rfl⟩
  have hsizes := Component.sizes_run_of_quiet
    (Component.programmed (Parts.plain smallGenerics) 2 2) hquiet
  obtain ⟨hstream, hends⟩ := frames_stream (Parts.plain_delayLine smallGenerics)
    (Parts.plain_keepsLast smallGenerics) ⟨2, 2, by decide, by decide, by decide, by decide⟩
    (fun k => BitVec.ofNat 8 k) rfl hsizes
    fun n _ => congrArg Pins.asiInData (hinp n)
  exact ⟨inp, hends (Component.controlBit_run_of_quiet _ hquiet)
    (fun n => ⟨n, le_rfl, (hpins n).1⟩) (fun n => ⟨n, le_rfl, (hpins n).2⟩) 3,
    fun n ht => ((hstream n).2.2.2 ht).2⟩

end FirFilter.Hardware
