import FirFilter.Hardware.Frames
/-!
# FirFilter.Hardware.Timing

How long a frame takes.

A cycle in which the handshake the state waits for is offered moves the machine on, and
every other cycle is a stall that moves nothing. The position in the frame is therefore a
clock: `elapsed` reads off the control part how many moves the frame has made, and a whole
frame has always the same number of them, `FrameSize.cycles`. With the ledger of the frames
this accounts for every cycle of a run.
-/

namespace FirFilter.Hardware

open Clocked Ledger

variable {g : Generics} {P : Parts g}

instance (st : State) (x : Signals) : Decidable (Offered st x) :=
  match st with
  | .S0 => inferInstanceAs (Decidable (_ ∧ _))
  | .S1 | .S2 | .S4 => inferInstanceAs (Decidable (x.asiInValid = true))
  | .S3 | .S6 => inferInstanceAs (Decidable (x.asoOutReady = true))
  | .S5 | .S7 | .S8 => inferInstanceAs (Decidable True)

/-! ### The clock of a frame -/

namespace FrameSize

/-- The moves of a row above the last: the discards, the transfers and the beats between
them. -/
def rowCycles (f : FrameSize g) : ℕ := g.kernelSize + (2 * f.width - 1)

/-- The moves before the last row. -/
def lastRowStart (f : FrameSize g) : ℕ := 1 + g.shifterSize + (f.height - 1) * f.rowCycles

/-- The moves of a frame. The last row has a shift and a pause of ten cycles between two
transfers. -/
def cycles (f : FrameSize g) : ℕ := f.lastRowStart + g.kernelSize + 12 * (f.width - 1) + 1

theorem rowCycles_succ (f : FrameSize g) (c4 : ℕ) :
    (c4 + 1) * f.rowCycles + 1 = c4 * f.rowCycles + g.kernelSize + 2 * f.width := by
  have := f.width_pos
  unfold rowCycles
  rw [Nat.succ_mul]
  omega

end FrameSize

/-- The moves made since the frame began. -/
def elapsed (f : FrameSize g) (c : Control) : ℕ :=
  match c.currentState with
  | .S0 => 0
  | .S1 => 1 + c.cnt1
  | .S2 => 1 + g.shifterSize + c.cnt4 * f.rowCycles + c.cnt2
  | .S3 => 1 + g.shifterSize + c.cnt4 * f.rowCycles + g.kernelSize + 2 * c.cnt3
  | .S4 => 1 + g.shifterSize + c.cnt4 * f.rowCycles + g.kernelSize + 2 * c.cnt3 - 1
  | .S5 => f.lastRowStart + c.cnt5
  | .S6 => f.lastRowStart + g.kernelSize + 12 * c.cnt6
  | .S7 => f.lastRowStart + g.kernelSize + 12 * c.cnt6 - 11
  | .S8 => f.lastRowStart + g.kernelSize + 12 * c.cnt6 + c.cnt7 - 10

/-- **Step lemma.** Every move takes the clock on by one, and the last one of a frame sets
it back. -/
theorem Progress.elapsed_step {f : FrameSize g} {c c' : Control} {x : Signals} {n m t : ℕ}
    (hp : Progress f c n m t) (h : Transition g x c c') (hw : x.imageWidth = f.width)
    (hh : x.imageHeight = f.height) :
    elapsed f c' + (if c.currentState ≠ .S0 ∧ c'.currentState = .S0 then f.cycles else 0) =
      elapsed f c + (if Offered c.currentState x then 1 else 0) := by
  have hwpos := f.width_pos
  by_cases ho : Offered c.currentState x
  · rw [if_pos ho]
    cases h with
    | idle hs hv => rw [hs] at ho; exact absurd ho hv
    | await hs hv => rcases hs with hs | hs | hs <;> simp [Offered, hs, hv] at ho
    | stall hs hr => rcases hs with hs | hs <;> simp [Offered, hs, hr] at ho
    | start hs hb hv =>
        cases hp with
        | idle h => simp [elapsed]
        | _ => cases hs
    | fill hs hv hc | filled hs hv hc =>
        cases hp with
        | filling h1 hn hm ht =>
            simp [elapsed] at hc ⊢
            omega
        | _ => cases hs
    | discard hs hv hc | rowStart hs hv hc =>
        cases hp with
        | discarding h2 h4 hn hm ht =>
            simp [elapsed] at hc ⊢
            omega
        | _ => cases hs
    | send hs hr hc =>
        cases hp with
        | offering h3 h4 hn hm ht =>
            simp [elapsed]
            omega
        | _ => cases hs
    | rowEnd hs hr hc hl =>
        cases hp with
        | @offering c3 c4 _ _ _ h3 h4 hn hm ht =>
            have hrow := f.rowCycles_succ c4
            simp [elapsed] at hc ⊢
            omega
        | _ => cases hs
    | inputEnd hs hr hc hl =>
        cases hp with
        | @offering c3 c4 _ _ _ h3 h4 hn hm ht =>
            have hrow := f.rowCycles_succ c4
            simp [elapsed, FrameSize.lastRowStart] at hc hl ⊢
            rw [show f.height - 1 = c4 + 1 by omega]
            omega
        | _ => cases hs
    | next hs hv =>
        cases hp with
        | waiting h3 hpos h4 hn hm ht =>
            simp [elapsed]
            omega
        | _ => cases hs
    | flush hs hc | lastRowStart hs hc =>
        cases hp with
        | flushing h5 hn hm ht =>
            simp [elapsed] at hc ⊢
            omega
        | _ => cases hs
    | drain hs hr hc =>
        cases hp with
        | draining h6 hn hm ht =>
            simp [elapsed]
            omega
        | _ => cases hs
    | frameEnd hs hr hc =>
        cases hp with
        | draining h6 hn hm ht =>
            simp [elapsed, FrameSize.cycles] at hc ⊢
            omega
        | _ => cases hs
    | push hs =>
        cases hp with
        | pushing h6 hpos hn hm ht =>
            simp [elapsed]
            omega
        | _ => cases hs
    | pause hs hc | resume hs hc =>
        cases hp with
        | pausing h6 hpos h7 hn hm ht =>
            simp [elapsed] at hc ⊢
            omega
        | _ => cases hs
  · -- a stall
    rw [h.eq_of_not_offered ho, if_neg ho, if_neg fun hends => hends.1 hends.2]

/-- The clock stays below the moves of a frame. -/
theorem Progress.elapsed_lt {f : FrameSize g} {c : Control} {n m t : ℕ} (hp : Progress f c n m t) :
    elapsed f c < f.cycles := by
  have hrow : ∀ c4, c4 + 2 ≤ f.height → c4 * f.rowCycles + f.rowCycles ≤
      (f.height - 1) * f.rowCycles := fun c4 h4 => by
    rw [← Nat.succ_mul]
    exact Nat.mul_le_mul_right _ (by omega)
  have hwpos := f.width_pos
  unfold FrameSize.cycles FrameSize.lastRowStart
  cases hp with
  | idle h => simp [elapsed]
  | filling h1 hn hm ht =>
      simp [elapsed]
      omega
  | discarding h2 h4 hn hm ht | offering h3 h4 hn hm ht | waiting h3 hpos h4 hn hm ht =>
      have := hrow _ h4
      have : f.rowCycles = g.kernelSize + (2 * f.width - 1) := rfl
      simp only [elapsed]
      omega
  | flushing h5 hn hm ht | draining h6 hn hm ht | pushing h6 hpos hn hm ht
  | pausing h6 hpos h7 hn hm ht =>
      simp only [elapsed, FrameSize.lastRowStart]
      omega

/-! ### Every cycle of a run -/

/-- The handshake that cycle `n` waits for is offered. -/
def Moves (s : Component P) (inp : ℕ → Pins g) (n : ℕ) : Prop :=
  Offered (run Component.step s inp n).control.currentState
    ((run Component.step s inp n).signals (inp n))

instance (s : Component P) (inp : ℕ → Pins g) : DecidablePred (Moves s inp) :=
  fun _ => inferInstanceAs (Decidable (Offered _ _))

/-- The stalls of the first `n` cycles. -/
def stalls (s : Component P) (inp : ℕ → Pins g) (n : ℕ) : ℕ :=
  Nat.count (fun m => ¬ Moves s inp m) n

section Run

variable {f : FrameSize g} {s : Component P} {inp : ℕ → Pins g} {n : ℕ}

theorem exists_progress (h0 : s.control = {})
    (hc : ∀ m ≤ n, Configured f.width f.height (run Component.step s inp m)) :
    ∃ a b t, Progress f (run Component.step s inp n).control a b t := by
  have hinv : FrameInv f (observe (s, {}) inp n) := .of_run ⟨h0, rfl⟩ fun m hm => by
    rw [observe, run_watch_fst]
    exact hc m hm
  rw [← run_watch_fst Component.step FrameLog.record (s, {})]
  exact ⟨_, _, _, hinv.progress⟩

theorem elapsed_lt_of_run (h0 : s.control = {})
    (hc : ∀ m ≤ n, Configured f.width f.height (run Component.step s inp m)) :
    elapsed f (run Component.step s inp n).control < f.cycles := by
  obtain ⟨a, b, t, hp⟩ := exists_progress h0 hc
  exact hp.elapsed_lt

/-- **The time ledger.** -/
theorem time_ledger (h0 : s.control = {})
    (hc : ∀ m ≤ n, Configured f.width f.height (run Component.step s inp m)) :
    n = framesDone s inp n * f.cycles + elapsed f (run Component.step s inp n).control +
      stalls s inp n := by
  have hmoves := count_ledger (Moves s inp) (FrameEnds s inp)
    (fun m => elapsed f (run Component.step s inp m).control) f.cycles (n := n) fun m hm => by
      obtain ⟨a, b, t, hp⟩ := exists_progress h0 fun k (hk : k ≤ m) => hc k (hk.trans hm.le)
      have hr := (hc (m + 1) hm).no_reset f.width_pos
      have hstep := hp.elapsed_step (Component.step_transition hr) (hc m hm.le).1 (hc m hm.le).2
      exact hstep
  have hstart : elapsed f (run Component.step s inp 0).control = 0 := by
    rw [run_zero, h0]
    rfl
  rw [hstart, Nat.zero_add] at hmoves
  have htime := count_add_count_not (Moves s inp) n
  rw [hmoves] at htime
  unfold framesDone stalls
  omega

end Run

/-- **Where the time goes.** As long as the size registers hold the frame size, every cycle
of a run is accounted for: it is one of the moves of a frame that has ended, of the moves the
counters show for the current frame, or a stall. All frames have the same number of moves,
whatever the handshakes, so the frames that have ended are those for which the run had the
moves, and without stalls the component ends one in every `f.cycles` cycles. -/
theorem frame_timing (f : FrameSize g) {s : Component P} (h0 : s.control = {})
    {inp : ℕ → Pins g}
    (hc : ∀ n, Configured f.width f.height (run Component.step s inp n)) :
    f.cycles = g.maxImageWidth * g.kernelSize + (f.height - 1) *
      (g.kernelSize + (2 * f.width - 1)) + g.kernelSize + 12 * (f.width - 1) + 2 ∧
    ∀ n, n = framesDone s inp n * f.cycles + elapsed f (run Component.step s inp n).control +
        stalls s inp n ∧
      elapsed f (run Component.step s inp n).control < f.cycles ∧
      framesDone s inp n = (n - stalls s inp n) / f.cycles := by
  constructor
  · simp only [FrameSize.cycles, FrameSize.lastRowStart, FrameSize.rowCycles,
      Generics.shifterSize]
    omega
  · intro n
    have hledger := time_ledger h0 fun m (_ : m ≤ n) => hc m
    have hlt := elapsed_lt_of_run h0 fun m (_ : m ≤ n) => hc m
    refine ⟨hledger, hlt, ?_⟩
    have hmoves : n - stalls s inp n = framesDone s inp n * f.cycles +
        elapsed f (run Component.step s inp n).control := by omega
    rw [hmoves, Nat.mul_comm, Nat.mul_add_div (Nat.zero_lt_of_lt hlt), Nat.div_eq_of_lt hlt,
      Nat.add_zero]

/-- Three frames of two columns and two rows, `87` cycles each. -/
theorem frame_timing_three : framesDone
    (Component.programmed (Parts.plain smallGenerics) 2 2) (fun _ => eager smallGenerics) 261 =
      3 := by
  have hquiet : ∀ n : ℕ, (eager smallGenerics).Quiet := fun _ => eager_quiet smallGenerics
  have hstalls : stalls (Component.programmed (Parts.plain smallGenerics) 2 2)
      (fun _ => eager smallGenerics) 261 = 0 := by
    refine Nat.count_iff_forall_not.mpr fun m _ hstall => hstall ?_
    refine (offered_iff_awaited (Component.controlBit_run_of_quiet _ hquiet m) _).mpr ?_
    generalize (run Component.step _ _ m).control.currentState = st
    cases st <;> first | rfl | trivial
  have htiming := ((frame_timing ⟨2, 2, by decide, by decide, by decide, by decide⟩ rfl
    (Component.sizes_run_of_quiet (Component.programmed (Parts.plain smallGenerics) 2 2)
      hquiet)).2 261).2.2
  rw [htiming, hstalls]
  rfl

end FirFilter.Hardware
