import FirFilter.Hardware.Component
/-!
# FirFilter.Hardware.Frame

Progress through one frame: what the state and the counters say about the number
of pixels shifted in, of input beats accepted and of results transferred.

`FrameLog` is a monitor next to the component; it starts afresh whenever the
machine leaves `S0`. `Progress` is the table that reads the position in the
frame off the control part, one constructor for each state, and `FrameInv` adds
what the delay line and the register bank hold. Both are preserved by every
cycle in which the size registers keep their values (`FrameInv.step`), so they
hold in every state of a run (`FrameInv.of_run`), through any number of frames
and under any handshake pattern.
-/

namespace FirFilter.Hardware

open Clocked

variable {g : Generics} {P : Parts g}

/-! ### The monitor -/

/-- What happened in the current frame, oldest first. -/
structure FrameLog (g : Generics) where
  /-- The values shifted in, also those shifted in without input. -/
  shifted : List (BitVec g.pixelWidth) := []
  /-- The accepted beats of the input stream. -/
  accepted : List (BitVec g.pixelWidth) := []
  /-- The accepted transfers of the output stream. -/
  sent : List (BitVec 16) := []

/-- The log a cycle in state `st` continues: an empty one in `S0`. -/
def FrameLog.opened (l : FrameLog g) (st : State) : FrameLog g :=
  if st = .S0 then {} else l

/-- Record one cycle. -/
def FrameLog.record (l : FrameLog g) (s : Component P) (x : Pins g) : FrameLog g where
  shifted := (l.opened s.control.currentState).shifted ++
    if s.shiftEnable x then [x.asiInData] else []
  accepted := (l.opened s.control.currentState).accepted ++
    if s.accepts x then [x.asiInData] else []
  sent := (l.opened s.control.currentState).sent ++
    if s.transfers x then [s.asoOutData] else []

/-- A component with its monitor. -/
abbrev Watched (P : Parts g) := Component P × FrameLog g

/-- The monitored component in cycle `n`. -/
abbrev observe (p : Watched P) (inp : ℕ → Pins g) : ℕ → Watched P :=
  run (watch Component.step FrameLog.record) p inp

/-! ### Frame sizes -/

/-- An image size the component is meant for: the padded rows fit in the taps,
and there are at least two rows. -/
structure FrameSize (g : Generics) where
  width : ℕ
  height : ℕ
  width_pos : 1 ≤ width
  padded_le : width + g.kernelSize ≤ g.maxImageWidth + 1
  two_le_height : 2 ≤ height
  height_le : height ≤ g.maxImageHeight

namespace FrameSize

/-- The length of a padded row. -/
def pitch (f : FrameSize g) : ℕ := f.width + g.kernelSize - 1

theorem pitch_add_one (f : FrameSize g) : f.pitch + 1 = f.width + g.kernelSize := by
  have := f.width_pos
  unfold pitch
  omega

theorem pitch_le (f : FrameSize g) : f.pitch ≤ g.maxImageWidth := by
  have := f.pitch_add_one
  have := f.padded_le
  omega

theorem width_le (f : FrameSize g) : f.width ≤ g.maxImageWidth := by
  have := f.padded_le
  have := g.kernelSize_pos
  omega

end FrameSize

/-- The size registers hold the frame size. -/
def Configured (w h : ℕ) (s : Component P) : Prop :=
  s.regs.imageWidth = w ∧ s.regs.imageHeight = h

/-- A cycle that leaves a positive width in its register is not a reset. -/
theorem Configured.no_reset {w h : ℕ} (hw : 1 ≤ w) {s : Component P} {x : Pins g}
    (hc : Configured w h (s.step x)) : x.reset = false := by
  by_contra hr
  have hwidth := hc.1
  have : (s.step x).regs.imageWidth = 0 := by
    simp [Component.step, Bool.eq_true_of_not_eq_false hr, Component.clear, Registers.imageWidth]
  omega

/-- A run without bus writes keeps the programmed sizes. -/
theorem configured_of_quiet {w h : ℕ} {p : Watched P} (hc : Configured w h p.1)
    {inp : ℕ → Pins g} (hq : ∀ n, (inp n).Quiet) (n : ℕ) :
    Configured w h (observe p inp n).1 := by
  obtain ⟨hw, hh⟩ := Component.sizes_run_of_quiet p.1 hq n
  rw [observe, run_watch_fst]
  exact ⟨hw.trans hc.1, hh.trans hc.2⟩

theorem configured_programmed {w h : ℕ} (hw : w ≤ g.maxImageWidth) (hh : h ≤ g.maxImageHeight) :
    Configured w h (Component.programmed P w h) := by
  have := g.maxImageWidth_lt
  have := g.maxImageHeight_lt
  constructor
  · exact (BitVec.toNat_ofNat _ _).trans (Nat.mod_eq_of_lt (by omega))
  · exact (BitVec.toNat_ofNat _ _).trans (Nat.mod_eq_of_lt (by omega))

/-! ### The table -/

/-- The input beats of a frame, all accepted before `S5`. -/
def FrameSize.beats (f : FrameSize g) : ℕ := g.shifterSize + (f.height - 1) * f.pitch

/-- `Progress f c n m t`: in control state `c`, `n` values have been shifted in,
`m` input beats accepted and `t` results transferred in the current frame. The
counters a constructor does not mention are `0`. -/
inductive Progress (f : FrameSize g) : Control → ℕ → ℕ → ℕ → Prop
  /-- Idle, either with a fresh log or with the log of a complete frame. -/
  | idle {n m t : ℕ} (h : (n = 0 ∧ m = 0 ∧ t = 0) ∨ (m = f.beats ∧ t = f.height * f.width)) :
      Progress f { currentState := .S0 } n m t
  | filling {c1 n m t : ℕ} (h1 : c1 < g.shifterSize) (hn : n = c1) (hm : m = n) (ht : t = 0) :
      Progress f { currentState := .S1, cnt1 := c1 } n m t
  | discarding {c2 c4 n m t : ℕ} (h2 : c2 < g.kernelSize) (h4 : c4 + 2 ≤ f.height)
      (hn : n = g.shifterSize + c4 * f.pitch + c2) (hm : m = n) (ht : t = c4 * f.width) :
      Progress f { currentState := .S2, cnt2 := c2, cnt4 := c4 } n m t
  | offering {c3 c4 n m t : ℕ} (h3 : c3 < f.width) (h4 : c4 + 2 ≤ f.height)
      (hn : n = g.shifterSize + c4 * f.pitch + g.kernelSize + c3) (hm : m = n)
      (ht : t = c4 * f.width + c3) :
      Progress f { currentState := .S3, cnt3 := c3, cnt4 := c4 } n m t
  | waiting {c3 c4 n m t : ℕ} (h3 : c3 < f.width) (hpos : 1 ≤ c3) (h4 : c4 + 2 ≤ f.height)
      (hn : n + 1 = g.shifterSize + c4 * f.pitch + g.kernelSize + c3) (hm : m = n)
      (ht : t = c4 * f.width + c3) :
      Progress f { currentState := .S4, cnt3 := c3, cnt4 := c4 } n m t
  | flushing {c5 n m t : ℕ} (h5 : c5 < g.kernelSize) (hn : n = f.beats + c5) (hm : m = f.beats)
      (ht : t = (f.height - 1) * f.width) :
      Progress f { currentState := .S5, cnt5 := c5 } n m t
  | draining {c6 n m t : ℕ} (h6 : c6 < f.width) (hn : n = f.beats + g.kernelSize + c6)
      (hm : m = f.beats) (ht : t = (f.height - 1) * f.width + c6) :
      Progress f { currentState := .S6, cnt6 := c6 } n m t
  | pushing {c6 n m t : ℕ} (h6 : c6 < f.width) (hpos : 1 ≤ c6)
      (hn : n + 1 = f.beats + g.kernelSize + c6) (hm : m = f.beats)
      (ht : t = (f.height - 1) * f.width + c6) :
      Progress f { currentState := .S7, cnt6 := c6 } n m t
  | pausing {c6 c7 n m t : ℕ} (h6 : c6 < f.width) (hpos : 1 ≤ c6) (h7 : c7 ≤ 9)
      (hn : n = f.beats + g.kernelSize + c6) (hm : m = f.beats)
      (ht : t = (f.height - 1) * f.width + c6) :
      Progress f { currentState := .S8, cnt6 := c6, cnt7 := c7 } n m t

/-- The number of events after a cycle, from the number before it. -/
def tally (st : State) (k : ℕ) (event : Bool) : ℕ :=
  (if st = .S0 then 0 else k) + event.toNat

/-- A row of `width` results and `kernelSize` discarded ones takes one pitch. -/
theorem FrameSize.row_pitch (f : FrameSize g) (c4 : ℕ) :
    (c4 + 1) * f.pitch + 1 = c4 * f.pitch + g.kernelSize + f.width := by
  have := f.pitch_add_one
  rw [Nat.succ_mul]
  omega

/-- **Step lemma.** A transition takes one row of the table to the next. -/
theorem Progress.step {f : FrameSize g} {c c' : Control} {x : Signals} {n m t : ℕ}
    (hp : Progress f c n m t) (h : Transition g x c c') (hw : x.imageWidth = f.width)
    (hh : x.imageHeight = f.height) :
    Progress f c' (tally c.currentState n (shiftEnable c.currentState x.asiInValid))
      (tally c.currentState m (x.asiInValid && intAsiInReady c.currentState))
      (tally c.currentState t (x.asoOutReady && asoOutValid c.currentState)) := by
  have hpitch := f.pitch_add_one
  have hh2 := f.two_le_height
  have hwpos := f.width_pos
  cases h with
  | idle hs hv =>
      cases hp with
      | idle h => exact .idle (.inl (by simp [tally, shiftEnable, intAsiInReady, asoOutValid]))
      | _ => cases hs
  | start hs hb hv =>
      cases hp with
      | idle h =>
          simp only [tally, shiftEnable, intAsiInReady, asoOutValid, hv]
          simpa using Progress.filling g.shifterSize_pos rfl rfl rfl
      | _ => cases hs
  | await hs hv =>
      cases hp with
      | filling h1 hn hm ht =>
          simpa [tally, shiftEnable, asoOutValid, hv] using Progress.filling h1 hn hm ht
      | discarding h2 h4 hn hm ht =>
          simpa [tally, shiftEnable, asoOutValid, hv] using Progress.discarding h2 h4 hn hm ht
      | waiting h3 hp h4 hn hm ht =>
          simpa [tally, shiftEnable, asoOutValid, hv] using Progress.waiting h3 hp h4 hn hm ht
      | _ => simp at hs
  | fill hs hv hc =>
      cases hp with
      | filling h1 hn hm ht =>
          simp [tally, shiftEnable, intAsiInReady, asoOutValid, hv] at hc ⊢
          exact .filling (by omega) (by omega) (by omega) ht
      | _ => cases hs
  | filled hs hv hc =>
      cases hp with
      | filling h1 hn hm ht =>
          simp [tally, shiftEnable, intAsiInReady, asoOutValid, hv] at hc ⊢
          exact .discarding g.kernelSize_pos (by omega) (by omega) (by omega) (by omega)
      | _ => cases hs
  | discard hs hv hc =>
      cases hp with
      | discarding h2 h4 hn hm ht =>
          simp [tally, shiftEnable, intAsiInReady, asoOutValid, hv] at hc ⊢
          exact .discarding (by omega) h4 (by omega) (by omega) ht
      | _ => cases hs
  | rowStart hs hv hc =>
      cases hp with
      | discarding h2 h4 hn hm ht =>
          simp [tally, shiftEnable, intAsiInReady, asoOutValid, hv] at hc ⊢
          exact .offering hwpos h4 (by omega) (by omega) ht
      | _ => cases hs
  | stall hs hr =>
      cases hp with
      | offering h3 h4 hn hm ht =>
          simpa [tally, shiftEnable, intAsiInReady, hr] using Progress.offering h3 h4 hn hm ht
      | draining h6 hn hm ht =>
          simpa [tally, shiftEnable, intAsiInReady, hr] using Progress.draining h6 hn hm ht
      | _ => simp at hs
  | send hs hr hc =>
      cases hp with
      | offering h3 h4 hn hm ht =>
          simp [tally, shiftEnable, intAsiInReady, asoOutValid, hr, hw] at hc ⊢
          exact .waiting (by omega) (by omega) h4 (by omega) hm (by omega)
      | _ => cases hs
  | rowEnd hs hr hc hl =>
      cases hp with
      | @offering c3 c4 _ _ _ h3 h4 hn hm ht =>
          simp [tally, shiftEnable, intAsiInReady, asoOutValid, hr, hw, hh] at hc hl ⊢
          have hrow := f.row_pitch c4
          have hsent := Nat.add_one_mul c4 f.width
          exact .discarding g.kernelSize_pos (by omega) (by omega) hm (by omega)
      | _ => cases hs
  | inputEnd hs hr hc hl =>
      cases hp with
      | @offering c3 c4 _ _ _ h3 h4 hn hm ht =>
          simp [tally, shiftEnable, intAsiInReady, asoOutValid, hr, hw, hh] at hc hl ⊢
          have hrow := f.row_pitch c4
          have hsent := Nat.add_one_mul c4 f.width
          have hlast : f.height - 1 = c4 + 1 := by omega
          have hbeats : n = f.beats := by rw [FrameSize.beats, hlast]; omega
          exact .flushing g.kernelSize_pos (by omega) (by omega) (by rw [hlast]; omega)
      | _ => cases hs
  | next hs hv =>
      cases hp with
      | waiting h3 hp h4 hn hm ht =>
          simp [tally, shiftEnable, intAsiInReady, asoOutValid, hv]
          exact .offering h3 h4 hn (by omega) ht
      | _ => cases hs
  | flush hs hc =>
      cases hp with
      | flushing h5 hn hm ht =>
          simp [tally, shiftEnable, intAsiInReady, asoOutValid] at hc ⊢
          exact .flushing (by omega) (by omega) hm ht
      | _ => cases hs
  | lastRowStart hs hc =>
      cases hp with
      | flushing h5 hn hm ht =>
          simp [tally, shiftEnable, intAsiInReady, asoOutValid] at hc ⊢
          exact .draining hwpos (by omega) hm ht
      | _ => cases hs
  | drain hs hr hc =>
      cases hp with
      | draining h6 hn hm ht =>
          simp [tally, shiftEnable, intAsiInReady, asoOutValid, hr, hw] at hc ⊢
          exact .pushing (by omega) (by omega) (by omega) hm (by omega)
      | _ => cases hs
  | frameEnd hs hr hc =>
      cases hp with
      | draining h6 hn hm ht =>
          simp [tally, shiftEnable, intAsiInReady, asoOutValid, hr, hw] at hc ⊢
          have hrows : f.height * f.width = (f.height - 1) * f.width + f.width := by
            rw [← Nat.succ_mul]; congr 1; omega
          exact .idle (.inr ⟨hm, by omega⟩)
      | _ => cases hs
  | push hs =>
      cases hp with
      | pushing h6 hp hn hm ht =>
          simp [tally, shiftEnable, intAsiInReady, asoOutValid]
          exact .pausing h6 hp (by omega) hn hm ht
      | _ => cases hs
  | pause hs hc =>
      cases hp with
      | pausing h6 hp h7 hn hm ht =>
          simp [tally, shiftEnable, intAsiInReady, asoOutValid] at hc ⊢
          exact .pausing h6 hp (by omega) hn hm ht
      | _ => cases hs
  | resume hs hc =>
      cases hp with
      | pausing h6 hp h7 hn hm ht =>
          simp [tally, shiftEnable, intAsiInReady, asoOutValid]
          exact .draining h6 hn hm ht
      | _ => cases hs

/-! ### The whole state -/

theorem foldl_edge (p : Process P) (en : Bool) (v : BitVec g.pixelWidth)
    (xs : List (BitVec g.pixelWidth)) (base : Process P)
    (h : p = xs.foldl (shiftBoth P.altshiftTaps P.registerBank) base) :
    p.edge en v = (xs ++ if en then [v] else []).foldl
      (shiftBoth P.altshiftTaps P.registerBank) base := by
  cases en
  · simpa [Process.edge] using h
  · simp [Process.edge, List.foldl_append, h]

/-- Where a frame of size `f` stands: the table, the accepted beats are the first
values shifted in, and the memories have been fed exactly the logged values. -/
structure FrameInv (f : FrameSize g) (p : Watched P) : Prop where
  progress : Progress f p.1.control p.2.shifted.length p.2.accepted.length p.2.sent.length
  accepted_prefix : p.2.accepted <+: p.2.shifted
  history : ∃ base, p.1.process =
    p.2.shifted.foldl (shiftBoth P.altshiftTaps P.registerBank) base

/-- A frame start: idle with all counters `0` and an empty log. The memories and
the registers may hold anything. -/
def FrameStart (p : Watched P) : Prop := p.1.control = {} ∧ p.2 = {}

theorem FrameInv.of_start (f : FrameSize g) {p : Watched P} (h : FrameStart p) :
    FrameInv f p := by
  obtain ⟨s, l⟩ := p
  obtain ⟨hc, rfl⟩ : s.control = {} ∧ l = {} := h
  refine ⟨?_, List.nil_prefix, s.process, rfl⟩
  rw [hc]
  exact .idle (.inl ⟨rfl, rfl, rfl⟩)

/-- In `S0` every counter is `0`, and the log is empty or that of a complete frame. -/
theorem Progress.at_idle {f : FrameSize g} {c : Control} {n m t : ℕ} (h : Progress f c n m t)
    (h0 : c.currentState = .S0) :
    c = {} ∧ ((n = 0 ∧ m = 0 ∧ t = 0) ∨ (m = f.beats ∧ t = f.height * f.width)) := by
  cases h with
  | idle h => exact ⟨rfl, h⟩
  | _ => cases h0

/-- While beats are being accepted, nothing else is shifted in. -/
theorem Progress.accepted_eq {f : FrameSize g} {c : Control} {n m t : ℕ}
    (h : Progress f c n m t) (hr : intAsiInReady c.currentState) : m = n := by
  cases h <;> first | assumption | simp [intAsiInReady] at hr

theorem length_append_ite {α : Type} (l : List α) (b : Bool) (a : α) :
    (l ++ if b then [a] else []).length = l.length + b.toNat := by
  cases b <;> simp

/-- The monitor counts what `tally` counts. -/
theorem FrameLog.record_tally (l : FrameLog g) (s : Component P) (x : Pins g) :
    (l.record s x).shifted.length =
        tally s.control.currentState l.shifted.length (s.shiftEnable x) ∧
      (l.record s x).accepted.length =
        tally s.control.currentState l.accepted.length (s.accepts x) ∧
      (l.record s x).sent.length =
        tally s.control.currentState l.sent.length (s.transfers x) := by
  refine ⟨?_, ?_, ?_⟩ <;>
    · simp only [FrameLog.record, length_append_ite, tally, FrameLog.opened]
      split <;> rfl

/-- The invariant of the log a cycle continues. -/
theorem FrameInv.opened {f : FrameSize g} {p : Watched P} (h : FrameInv f p) :
    let l := p.2.opened p.1.control.currentState
    l.accepted <+: l.shifted ∧ ∃ base, p.1.process =
      l.shifted.foldl (shiftBoth P.altshiftTaps P.registerBank) base := by
  unfold FrameLog.opened
  split
  · exact ⟨List.nil_prefix, p.1.process, rfl⟩
  · exact ⟨h.accepted_prefix, h.history⟩

/-- An accepted beat is shifted in, right after the beats accepted before it. -/
theorem FrameInv.accepts_shift {f : FrameSize g} {p : Watched P} {x : Pins g}
    (h : FrameInv f p) (ha : p.1.accepts x) :
    p.1.shiftEnable x ∧ p.2.opened p.1.control.currentState = p.2 ∧
      p.2.accepted = p.2.shifted := by
  obtain ⟨hv, hr⟩ : x.asiInValid = true ∧ intAsiInReady p.1.control.currentState = true := by
    simpa [Component.accepts, Component.asiInReady] using ha
  refine ⟨?_, ?_, h.accepted_prefix.eq_of_length (h.progress.accepted_eq hr)⟩
  · cases hs : p.1.control.currentState <;>
      simp_all [Component.shiftEnable, shiftEnable, intAsiInReady]
  · unfold FrameLog.opened
    rw [if_neg]
    intro h0
    simp [h0, intAsiInReady] at hr

/-- **Step lemma.** -/
theorem FrameInv.step {f : FrameSize g} {p : Watched P} {x : Pins g} (h : FrameInv f p)
    (hc : Configured f.width f.height p.1) (hr : x.reset = false) :
    FrameInv f (watch Component.step FrameLog.record p x) := by
  obtain ⟨hpre, base, hbase⟩ := h.opened
  obtain ⟨hn, hm, ht⟩ := p.2.record_tally p.1 x
  refine ⟨?_, ?_, base, ?_⟩
  · rw [watch_snd, hn, hm, ht]
    exact h.progress.step (Component.step_transition hr) hc.1 hc.2
  · show (p.2.record p.1 x).accepted <+: (p.2.record p.1 x).shifted
    unfold FrameLog.record
    by_cases ha : p.1.accepts x
    · obtain ⟨hs, hopen, heq⟩ := h.accepts_shift ha
      simp [ha, hs, hopen, heq]
    · simp only [ha, Bool.false_eq_true, if_false, List.append_nil]
      exact hpre.trans (List.prefix_append _ _)
  · rw [watch_fst, Component.step_process hr]
    exact foldl_edge _ _ _ _ _ hbase

/-- **Run lemma.** As long as the size registers keep the frame size, the invariant
holds, for every input. -/
theorem FrameInv.of_run {f : FrameSize g} {p : Watched P} (h : FrameStart p)
    {inp : ℕ → Pins g} {n : ℕ}
    (hc : ∀ m ≤ n, Configured f.width f.height (observe p inp m).1) :
    FrameInv f (observe p inp n) := by
  refine run_induction (I := FrameInv f)
    (fun p x => Configured f.width f.height p.1 ∧
      Configured f.width f.height (p.1.step x)) (.of_start f h) ?_ ?_
  · intro p x hok hinv
    exact hinv.step hok.1 (hok.2.no_reset f.width_pos)
  · intro m hm
    exact ⟨hc m hm.le, hc (m + 1) hm⟩

end FirFilter.Hardware
