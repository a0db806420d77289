import FirFilter.Hardware.Stream
/-!
# FirFilter.Hardware.Intake

How many beats of the input stream a frame takes.

The decision to stop accepting input is the comparison `cnt4 = image_height - 2`
at the end of a row in `S3`. For two or more rows it is made after exactly
`(h + K - 1) * W` beats, whatever the handshakes do. For a single row the
comparison is with `-1`, so it never succeeds: the machine goes on to `S2` and
asks for beats the frame does not have.
-/

namespace FirFilter.Hardware

open Clocked

variable {g : Generics} {P : Parts g}

/-- The beats of a padded frame whose rows fill the taps. -/
def paddedBeats (g : Generics) (h : ℕ) : ℕ := (h + g.kernelSize - 1) * g.maxImageWidth

/-- The component does not ask for more than the padded frame: not more beats are
accepted, once all are accepted it is not ready until it is idle again, and it is
idle only before the frame or after all of it. -/
def IntakeLaw (w h : ℕ) (q : Watched P) : Prop :=
  q.2.accepted.length ≤ paddedBeats g h ∧
  (q.2.accepted.length = paddedBeats g h → q.1.asiInReady = false) ∧
  (q.1.control.currentState = .S0 →
    (q.2.accepted.length = 0 ∧ q.2.sent.length = 0) ∨
    (q.2.accepted.length = paddedBeats g h ∧ q.2.sent.length = h * w))

/-! ### Two or more rows -/

/-- While the machine is ready, beats of the frame are missing. -/
theorem Progress.beats_missing {f : FrameSize g} {c : Control} {n m t : ℕ}
    (h : Progress f c n m t) :
    m ≤ f.beats ∧ (intAsiInReady c.currentState = true → m < f.beats) := by
  have hpitch := f.pitch_add_one
  have hw := f.width_pos
  have hbeats : f.beats = g.shifterSize + (f.height - 1) * f.pitch := rfl
  have hrow : ∀ c4, c4 + 2 ≤ f.height →
      c4 * f.pitch + f.pitch ≤ (f.height - 1) * f.pitch := fun c4 h4 => by
    rw [← Nat.add_one_mul]
    exact Nat.mul_le_mul_right _ (by omega)
  cases h with
  | idle h => exact ⟨by omega, by simp [intAsiInReady]⟩
  | filling h1 hn hm ht => exact ⟨by omega, fun _ => by omega⟩
  | @discarding c2 c4 _ _ _ h2 h4 hn hm ht =>
      have := hrow c4 h4
      exact ⟨by omega, fun _ => by omega⟩
  | @offering c3 c4 _ _ _ h3 h4 hn hm ht =>
      have := hrow c4 h4
      exact ⟨by omega, by simp [intAsiInReady]⟩
  | @waiting c3 c4 _ _ _ h3 hp h4 hn hm ht =>
      have := hrow c4 h4
      exact ⟨by omega, fun _ => by omega⟩
  | flushing h5 hn hm ht | draining h6 hn hm ht | pushing h6 hp hn hm ht
  | pausing h6 hp h7 hn hm ht => exact ⟨by omega, by simp [intAsiInReady]⟩

theorem FrameSize.beats_eq_paddedBeats (f : FrameSize g)
    (hW : f.width + g.kernelSize = g.maxImageWidth + 1) : f.beats = paddedBeats g f.height := by
  have hh := f.two_le_height
  have hpitch : f.pitch = g.maxImageWidth := by
    have := f.pitch_add_one
    omega
  unfold FrameSize.beats paddedBeats Generics.shifterSize
  rw [hpitch, Nat.mul_comm g.maxImageWidth, ← Nat.add_mul]
  congr 1
  omega

theorem FrameInv.intakeLaw {f : FrameSize g} (hW : f.width + g.kernelSize = g.maxImageWidth + 1)
    {q : Watched P} (h : FrameInv f q) : IntakeLaw f.width f.height q := by
  obtain ⟨hle, hlt⟩ := h.progress.beats_missing
  rw [f.beats_eq_paddedBeats hW] at hle hlt
  refine ⟨hle, fun heq => ?_, fun h0 => ?_⟩
  · by_contra hr
    have := hlt (Bool.eq_true_of_not_eq_false hr)
    omega
  · rcases (h.progress.at_idle h0).2 with ⟨-, hm, ht⟩ | ⟨hm, ht⟩
    · exact .inl ⟨hm, ht⟩
    · exact .inr ⟨hm.trans (f.beats_eq_paddedBeats hW), ht⟩

/-! ### The fill phase, with every handshake offered -/

/-- One cycle with every handshake offered. -/
theorem eager_step {q : Watched P} {c' : Control}
    (h : Transition g (q.1.signals (eager g)) q.1.control c') :
    (watch Component.step FrameLog.record q (eager g)).1.control = c' ∧
      (watch Component.step FrameLog.record q (eager g)).2.accepted.length =
        tally q.1.control.currentState q.2.accepted.length q.1.asiInReady := by
  constructor
  · rw [watch_fst, Component.step_control rfl]
    exact h.edge_eq
  · exact (q.2.record_tally q.1 (eager g)).2.1

/-- A started component is ready for its first beat after one cycle, has taken one
more after each further cycle, and leaves `S1` when the shifter is full. -/
theorem eager_fill {p : Watched P} (hp : FrameStart p) (hb : p.1.regs.controlBit) {j : ℕ}
    (hj : j ≤ g.shifterSize) :
    (observe p (fun _ => eager g) (j + 1)).2.accepted.length = j ∧
      (observe p (fun _ => eager g) (j + 1)).1.control =
        if j = g.shifterSize then { currentState := .S2 }
        else { currentState := .S1, cnt1 := j } := by
  induction j with
  | zero =>
      have hctl : p.1.control = {} := hp.1
      obtain ⟨hc, ha⟩ := eager_step (q := p) (.start (by rw [hctl]) hb rfl)
      refine ⟨ha.trans ?_, hc.trans ?_⟩
      · simp [tally, hctl, Component.asiInReady, intAsiInReady]
      · rw [hctl, if_neg g.shifterSize_pos.ne]
  | succ j ih =>
      obtain ⟨ihlen, ihctl⟩ := ih (by omega)
      rw [if_neg (by omega)] at ihctl
      generalize hq : observe p (fun _ => eager g) (j + 1) = q at ihlen ihctl
      have hnext : observe p (fun _ => eager g) (j + 1 + 1) =
          watch Component.step FrameLog.record q (eager g) := by
        rw [← hq]; rfl
      have hlen : tally q.1.control.currentState q.2.accepted.length q.1.asiInReady = j + 1 := by
        simp [tally, ihctl, ihlen, Component.asiInReady, intAsiInReady]
      rw [hnext]
      by_cases hlast : j + 1 = g.shifterSize
      · obtain ⟨hc, ha⟩ := eager_step (q := q)
          (.filled (by rw [ihctl]) rfl (by rw [ihctl]; exact hlast))
        refine ⟨ha.trans hlen, hc.trans ?_⟩
        rw [if_pos hlast, ihctl]
      · obtain ⟨hc, ha⟩ := eager_step (q := q)
          (.fill (by rw [ihctl]) rfl (by rw [ihctl]; exact hlast))
        refine ⟨ha.trans hlen, hc.trans ?_⟩
        rw [if_neg hlast, ihctl]

/-- **A single row overruns its frame**: with all its beats accepted, the machine is
ready for one more. -/
theorem single_row_overruns {w : ℕ} (hw : w ≤ g.maxImageWidth) (P : Parts g) :
    ∃ (p : Watched P) (inp : ℕ → Pins g) (n : ℕ), FrameStart p ∧
      (∀ m, Configured w 1 (observe p inp m).1) ∧
      (observe p inp n).2.accepted.length = paddedBeats g 1 ∧
      (observe p inp n).1.asiInReady := by
  obtain ⟨hlen, hctl⟩ := eager_fill (p := (Component.programmed P w 1, {})) ⟨rfl, rfl⟩
    (Component.programmed_controlBit P w 1) (le_refl g.shifterSize)
  refine ⟨(Component.programmed P w 1, {}), fun _ => eager g, g.shifterSize + 1, ⟨rfl, rfl⟩,
    fun m => configured_of_quiet (configured_programmed hw ?_) (fun _ => eager_quiet g) m, ?_, ?_⟩
  · have := g.two_le_maxImageHeight
    omega
  · rw [hlen, paddedBeats, Generics.shifterSize, Nat.mul_comm]
    congr 1
    omega
  · unfold Component.asiInReady
    rw [hctl, if_pos rfl]
    rfl

/-- The component keeps to the beats of its frames exactly when the frames have two
or more rows. -/
theorem intakeLaw_iff {w h : ℕ} (P : Parts g) (hw : 1 ≤ w)
    (hW : w + g.kernelSize = g.maxImageWidth + 1) (hh : 1 ≤ h) (hH : h ≤ g.maxImageHeight) :
    (∀ (p : Watched P) (inp : ℕ → Pins g) (n : ℕ), FrameStart p →
      (∀ m ≤ n, Configured w h (observe p inp m).1) → IntakeLaw w h (observe p inp n)) ↔
    2 ≤ h := by
  constructor
  · intro hlaw
    by_contra hlt
    obtain rfl : h = 1 := by omega
    have hK := g.kernelSize_pos
    obtain ⟨p, inp, n, hp, hc, hlen, hready⟩ := single_row_overruns (w := w) (by omega) P
    rw [(hlaw p inp n hp fun m _ => hc m).2.1 hlen] at hready
    exact Bool.false_ne_true hready
  · intro h2 p inp n hp hc
    let f : FrameSize g := ⟨w, h, hw, hW.le, h2, hH⟩
    exact FrameInv.intakeLaw (f := f) hW (FrameInv.of_run hp hc)

/-- The shipped component, with padded rows of `1656` and `200` rows. -/
theorem intakeLaw_iff_shipped :
    (∀ (p : Watched (Parts.plain shipped)) (inp : ℕ → Pins shipped) (n : ℕ), FrameStart p →
      (∀ m ≤ n, Configured 1650 200 (observe p inp m).1) →
      IntakeLaw 1650 200 (observe p inp n)) ↔ 2 ≤ 200 :=
  intakeLaw_iff (Parts.plain shipped) (by decide) rfl (by decide) le_rfl

/-- The height `1` is admitted, and the shipped component asks for too much. -/
theorem single_row_breaks_intakeLaw :
    ¬ ∀ (h : ℕ), 1 ≤ h → h ≤ 200 →
      ∀ (p : Watched (Parts.plain shipped)) (inp : ℕ → Pins shipped) (n : ℕ), FrameStart p →
        (∀ m ≤ n, Configured 1650 h (observe p inp m).1) →
        IntakeLaw 1650 h (observe p inp n) := by
  intro hlaw
  obtain ⟨p, inp, n, hp, hc, hlen, hready⟩ :=
    single_row_overruns (g := shipped) (w := 1650) (by decide) (Parts.plain shipped)
  have hlow := (hlaw 1 le_rfl (by decide) p inp n hp fun m _ => hc m).2.1 hlen
  rw [hready] at hlow
  cases hlow

end FirFilter.Hardware
