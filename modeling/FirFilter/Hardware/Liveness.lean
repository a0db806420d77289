import FirFilter.Hardware.Frame
/-!
# FirFilter.Hardware.Liveness

A frame is not only streamed correctly but to its end: when the source keeps
offering beats and the sink keeps accepting them, however rarely, the machine
is back in `S0` with every result transferred.

The argument is a rank. Every cycle that is not a wait for a handshake shifts a
value in, transfers a result, or spends one cycle of the pause in `S8`, and a
shift outweighs a pause.
-/

namespace FirFilter.Hardware

open Clocked

variable {g : Generics} {P : Parts g}

/-- The values shifted in by the end of a frame. -/
def FrameSize.shifts (f : FrameSize g) : ℕ := f.beats + g.kernelSize + f.width

theorem Progress.le_total {f : FrameSize g} {c : Control} {n m t : ℕ} (h : Progress f c n m t)
    (h0 : c.currentState ≠ .S0) : n ≤ f.shifts ∧ t ≤ f.height * f.width := by
  have hh := f.two_le_height
  have hrows : f.height * f.width = (f.height - 1) * f.width + f.width := by
    rw [← Nat.add_one_mul, Nat.sub_add_cancel (by omega)]
  have hbeats : f.beats = g.shifterSize + (f.height - 1) * f.pitch := rfl
  have hshifts : f.shifts = f.beats + g.kernelSize + f.width := rfl
  -- rows counted by `cnt4` are above the last one
  have hrow : ∀ c4, c4 + 2 ≤ f.height → c4 * f.pitch ≤ (f.height - 1) * f.pitch ∧
      c4 * f.width ≤ (f.height - 1) * f.width := fun c4 h4 =>
    ⟨Nat.mul_le_mul_right _ (by omega), Nat.mul_le_mul_right _ (by omega)⟩
  cases h with
  | idle h => exact absurd rfl h0
  | filling h1 hn hm ht => exact ⟨by omega, by omega⟩
  | @discarding c2 c4 _ _ _ h2 h4 hn hm ht =>
      have := hrow c4 h4
      exact ⟨by omega, by omega⟩
  | @offering c3 c4 _ _ _ h3 h4 hn hm ht =>
      have := hrow c4 h4
      exact ⟨by omega, by omega⟩
  | @waiting c3 c4 _ _ _ h3 hp h4 hn hm ht =>
      have := hrow c4 h4
      exact ⟨by omega, by omega⟩
  | flushing h5 hn hm ht => exact ⟨by omega, by omega⟩
  | draining h6 hn hm ht => exact ⟨by omega, by omega⟩
  | pushing h6 hp hn hm ht => exact ⟨by omega, by omega⟩
  | pausing h6 hp h7 hn hm ht => exact ⟨by omega, by omega⟩

/-- The cycles the control state still owes beyond shifts and transfers. -/
def owed (c : Control) : ℕ :=
  match c.currentState with
  | .S0 => 1
  | .S8 => 10 - c.cnt7
  | _ => 0

/-- The rank of a position in a frame. -/
def rank (f : FrameSize g) (c : Control) (n t : ℕ) : ℕ :=
  12 * (f.shifts - n) + 12 * (f.height * f.width - t) + owed c

/-- The handshake the machine waits for in a state is offered in this cycle. -/
def Offered (st : State) (x : Signals) : Prop :=
  match st with
  | .S0 => x.controlBit ∧ x.asiInValid
  | .S1 | .S2 | .S4 => x.asiInValid
  | .S3 | .S6 => x.asoOutReady
  | .S5 | .S7 | .S8 => True

/-- Without its handshake the machine stays where it is. -/
theorem Transition.eq_of_not_offered {c c' : Control} {x : Signals} (h : Transition g x c c')
    (ho : ¬ Offered c.currentState x) : c' = c := by
  cases h with
  | idle => rfl
  | await => rfl
  | stall => rfl
  | start hs hb hv => exact absurd (by rw [hs]; exact ⟨hb, hv⟩) ho
  | fill hs hv hc | filled hs hv hc | discard hs hv hc | rowStart hs hv hc | next hs hv =>
      exact absurd (by rw [hs]; exact hv) ho
  | send hs hr hc | rowEnd hs hr hc hl | inputEnd hs hr hc hl | drain hs hr hc
  | frameEnd hs hr hc => exact absurd (by rw [hs]; exact hr) ho
  | flush hs | lastRowStart hs | push hs | pause hs | resume hs =>
      exact absurd (by rw [hs]; trivial) ho

/-- With its handshake the machine moves down the rank, until the frame is over. -/
theorem Progress.rank_lt {f : FrameSize g} {c c' : Control} {x : Signals} {n m t : ℕ}
    (hp : Progress f c n m t) (h : Transition g x c c') (hw : x.imageWidth = f.width)
    (hh : x.imageHeight = f.height) (ho : Offered c.currentState x)
    (hs : c.currentState = .S0 → n = 0 ∧ t = 0) (hs' : c'.currentState ≠ .S0) :
    rank f c' (tally c.currentState n (shiftEnable c.currentState x.asiInValid))
      (tally c.currentState t (x.asoOutReady && asoOutValid c.currentState)) <
    rank f c n t := by
  obtain ⟨hN, hT⟩ := (hp.step h hw hh).le_total hs'
  have hcnt7 : c.cnt7 ≤ 9 := by cases hp <;> simp_all
  have howed : owed c' ≤ 10 := by
    unfold owed; split <;> omega
  cases h with
  | idle h0 hv => rw [h0] at ho; exact absurd ho hv
  | start h0 hb hv =>
      obtain ⟨rfl, rfl⟩ := hs h0
      simp [rank, owed, tally, h0, shiftEnable, intAsiInReady, asoOutValid]
  | await h0 hv => rcases h0 with h0 | h0 | h0 <;> rw [h0] at ho <;> simp [Offered, hv] at ho
  | stall h0 hr => rcases h0 with h0 | h0 <;> rw [h0] at ho <;> simp [Offered, hr] at ho
  | fill h0 hv hc | filled h0 hv hc | discard h0 hv hc | rowStart h0 hv hc | next h0 hv =>
      simp [tally, h0, hv, shiftEnable, intAsiInReady, asoOutValid] at hN hT ⊢
      unfold rank at *
      simp [owed, h0]
      omega
  | send h0 hr hc | rowEnd h0 hr hc hl | inputEnd h0 hr hc hl | drain h0 hr hc =>
      simp [tally, h0, hr, shiftEnable, intAsiInReady, asoOutValid] at hN hT ⊢
      unfold rank at *
      simp [owed, h0]
      omega
  | frameEnd h0 hr hc => exact absurd rfl hs'
  | flush h0 hc | lastRowStart h0 hc | push h0 =>
      simp [tally, h0, shiftEnable, asoOutValid] at hN hT ⊢
      unfold rank at *
      simp [owed, h0]
      omega
  | pause h0 hc | resume h0 hc =>
      simp [tally, h0, shiftEnable, asoOutValid] at hN hT ⊢
      unfold rank at *
      simp [owed, h0]
      omega

/-- Without its handshake a cycle neither shifts nor transfers. -/
theorem quiet_of_not_offered {st : State} {x : Signals} (ho : ¬ Offered st x) :
    shiftEnable st x.asiInValid = false ∧ (x.asoOutReady && asoOutValid st) = false := by
  cases st <;> simp_all [Offered, shiftEnable, intAsiInReady, asoOutValid]

/-- Back to `S0` with a handshake means that the last result was transferred. -/
theorem Transition.frameEnd_of_idle {c c' : Control} {x : Signals} (h : Transition g x c c')
    (ho : Offered c.currentState x) (h0 : c'.currentState = .S0) :
    c.currentState = .S6 ∧ x.asoOutReady := by
  cases h with
  | idle hs hv => rw [hs] at ho; exact absurd ho hv
  | await hs hv => rcases hs with hs | hs | hs <;> rw [hs] at h0 <;> cases h0
  | stall hs hr => rcases hs with hs | hs <;> rw [hs] at h0 <;> cases h0
  | frameEnd hs hr hc => exact ⟨hs, hr⟩
  | fill hs | discard hs | flush hs | pause hs => rw [hs] at h0; cases h0
  | _ => cases h0

/-! ### The run to the end of the frame -/

/-- A complete frame: idle again, with every result transferred. -/
def FrameDone (f : FrameSize g) (p : Watched P) : Prop :=
  p.1.control.currentState = .S0 ∧ p.2.sent.length = f.height * f.width

/-- The position of a watched component in the frame. -/
def position (p : Watched P) : Control × ℕ × ℕ :=
  (p.1.control, p.2.shifted.length, p.2.sent.length)

/-- Before the end of the frame the log is fresh in `S0`. -/
theorem FrameInv.fresh {f : FrameSize g} {p : Watched P} (h : FrameInv f p)
    (hd : ¬ FrameDone f p) (h0 : p.1.control.currentState = .S0) :
    p.2.shifted.length = 0 ∧ p.2.sent.length = 0 := by
  rcases (h.progress.at_idle h0).2 with ⟨hn, -, ht⟩ | ⟨-, ht⟩
  · exact ⟨hn, ht⟩
  · exact absurd ⟨h0, ht⟩ hd

/-- A cycle without the handshake leaves the position as it is. -/
theorem position_of_not_offered {p : Watched P} {x : Pins g} (hr : x.reset = false)
    (ho : ¬ Offered p.1.control.currentState (p.1.signals x))
    (h0 : p.1.control.currentState = .S0 → p.2.shifted.length = 0 ∧ p.2.sent.length = 0) :
    position (watch Component.step FrameLog.record p x) = position p := by
  obtain ⟨hn, -, ht⟩ := p.2.record_tally p.1 x
  obtain ⟨hshift, hsent⟩ := quiet_of_not_offered ho
  have hcontrol := (Component.step_transition (s := p.1) hr).eq_of_not_offered ho
  have htally : ∀ k, (p.1.control.currentState = .S0 → k = 0) →
      tally p.1.control.currentState k false = k := by
    intro k hk
    unfold tally
    split
    · exact (hk ‹_›).symm
    · rfl
  unfold position
  rw [watch_fst, watch_snd, hcontrol, hn, ht]
  have e1 : p.1.shiftEnable x = false := hshift
  have e2 : p.1.transfers x = false := hsent
  rw [e1, e2, htally _ fun h => (h0 h).1, htally _ fun h => (h0 h).2]

/-- The pin a state waits for. -/
def awaited (st : State) (x : Pins g) : Prop :=
  match st with
  | .S0 | .S1 | .S2 | .S4 => x.asiInValid
  | .S3 | .S6 => x.asoOutReady
  | .S5 | .S7 | .S8 => True

theorem offered_iff_awaited {s : Component P} (hb : s.regs.controlBit) (x : Pins g) :
    Offered s.control.currentState (s.signals x) ↔ awaited s.control.currentState x := by
  cases h : s.control.currentState <;> simp [Offered, awaited, Component.signals, hb]

/-- A pin that keeps being driven is driven again, whatever state waits for it. -/
theorem exists_awaited {inp : ℕ → Pins g} (valid : ∀ n, ∃ m ≥ n, (inp m).asiInValid)
    (ready : ∀ n, ∃ m ≥ n, (inp m).asoOutReady) (st : State) (n : ℕ) :
    ∃ m ≥ n, awaited st (inp m) := by
  cases st with
  | S0 | S1 | S2 | S4 => exact valid n
  | S3 | S6 => exact ready n
  | S5 | S7 | S8 => exact ⟨n, le_rfl, trivial⟩

section Fair

variable {f : FrameSize g} {p : Watched P} {inp : ℕ → Pins g}

/-- From any cycle before the end of the frame there is a later one that is closer
to it. -/
theorem exists_closer (hp : FrameStart p)
    (hc : ∀ n, Configured f.width f.height (observe p inp n).1)
    (hb : ∀ n, (observe p inp n).1.regs.controlBit)
    (valid : ∀ n, ∃ m ≥ n, (inp m).asiInValid) (ready : ∀ n, ∃ m ≥ n, (inp m).asoOutReady)
    {n : ℕ} (hd : ¬ FrameDone f (observe p inp n)) :
    ∃ m ≥ n, FrameDone f (observe p inp m) ∨
      rank f (position (observe p inp m)).1 (position (observe p inp m)).2.1
          (position (observe p inp m)).2.2 <
        rank f (position (observe p inp n)).1 (position (observe p inp n)).2.1
          (position (observe p inp n)).2.2 := by
  have hinv : ∀ m, FrameInv f (observe p inp m) := fun m => .of_run hp fun k _ => hc k
  have hr : ∀ m, (inp m).reset = false := fun m => (hc (m + 1)).no_reset f.width_pos
  have hfresh := (hinv n).fresh hd
  -- wait for the handshake; the position does not move before it comes
  obtain ⟨m, hm, hpos, hev⟩ := exists_wait
    (P := fun q => position q = position (observe p inp n))
    (exists_awaited valid ready (observe p inp n).1.control.currentState) (n := n) rfl
    (by
      intro k hk hno hpos
      have hctl : (observe p inp k).1.control = (observe p inp n).1.control :=
        congrArg Prod.fst hpos
      have hlen := congrArg Prod.snd hpos
      refine (position_of_not_offered (hr k) ?_ ?_).trans hpos
      · rw [offered_iff_awaited (hb k), hctl]; exact hno
      · intro h0
        rw [hctl] at h0
        have := hfresh h0
        exact ⟨(congrArg Prod.fst hlen).trans this.1, (congrArg Prod.snd hlen).trans this.2⟩)
  have hctl : (observe p inp m).1.control = (observe p inp n).1.control := congrArg Prod.fst hpos
  have hlen := congrArg Prod.snd hpos
  have ho : Offered (observe p inp m).1.control.currentState
      ((observe p inp m).1.signals (inp m)) := by
    rw [offered_iff_awaited (hb m), hctl]; exact hev
  have htr := Component.step_transition (s := (observe p inp m).1) (hr m)
  obtain ⟨hn', -, ht'⟩ := (observe p inp m).2.record_tally (observe p inp m).1 (inp m)
  refine ⟨m + 1, by omega, ?_⟩
  by_cases h0 : (observe p inp (m + 1)).1.control.currentState = .S0
  · left
    obtain ⟨hs6, hready⟩ := htr.frameEnd_of_idle ho h0
    refine ⟨h0, ?_⟩
    rcases ((hinv (m + 1)).progress.at_idle h0).2 with ⟨-, -, ht⟩ | ⟨-, ht⟩
    · -- the transfer of this cycle is in the log
      exfalso
      have : (observe p inp (m + 1)).2.sent.length =
          (observe p inp m).2.sent.length + 1 := by
        refine ht'.trans ?_
        have hsent : (observe p inp m).1.transfers (inp m) = true := by
          simpa [Component.transfers, Component.outValid, hs6, asoOutValid,
            Component.signals] using hready
        rw [hs6, hsent]
        simp [tally]
      omega
    · exact ht
  · right
    rw [← hpos]
    have hlt := (hinv m).progress.rank_lt htr (hc m).1 (hc m).2 ho (fun hs => ?_) h0
    · rw [show (position (observe p inp (m + 1))).2.1 = _ from hn',
        show (position (observe p inp (m + 1))).2.2 = _ from ht']
      exact hlt
    · rw [hctl] at hs
      have := hfresh hs
      exact ⟨(congrArg Prod.fst hlen).trans this.1, (congrArg Prod.snd hlen).trans this.2⟩

/-- **Every frame completes** when beats keep being offered and results keep being
accepted. -/
theorem frame_completes (hp : FrameStart p)
    (hc : ∀ n, Configured f.width f.height (observe p inp n).1)
    (hb : ∀ n, (observe p inp n).1.regs.controlBit)
    (valid : ∀ n, ∃ m ≥ n, (inp m).asiInValid) (ready : ∀ n, ∃ m ≥ n, (inp m).asoOutReady) :
    ∃ n, FrameDone f (observe p inp n) := by
  obtain ⟨n, -, hn⟩ := exists_of_rank (f := observe p inp) (FrameDone f)
    (fun q => rank f (position q).1 (position q).2.1 (position q).2.2)
    (fun n hd => exists_closer hp hc hb valid ready hd) 0
  exact ⟨n, hn⟩

end Fair

end FirFilter.Hardware
