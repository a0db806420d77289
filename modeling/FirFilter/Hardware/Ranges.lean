import FirFilter.Hardware.Intake
/-!
# FirFilter.Hardware.Ranges

The declared ranges of the counters under register writes during a frame.

`cnt3`, `cnt4` and `cnt6` roll over on an exact match with a bound that software
can move at any time. A write that moves the bound to or below the count makes
the counter miss the match, and then nothing stops it at the end of its range.
`KeepsAhead` is the condition on a cycle that rules this out; `OnTrack` is what
every state of a run of such cycles satisfies.
-/

namespace FirFilter.Hardware

open Clocked

variable {g : Generics} {P : Parts g}

/-- The `integer range` declarations of `cnt1` to `cnt7`. -/
structure InRange (g : Generics) (c : Control) : Prop where
  cnt1 : c.cnt1 < g.maxImageWidth * g.kernelSize
  cnt2 : c.cnt2 < g.kernelSize
  cnt3 : c.cnt3 < g.maxImageWidth
  cnt4 : c.cnt4 + 2 ≤ g.maxImageHeight
  cnt5 : c.cnt5 < g.kernelSize
  cnt6 : c.cnt6 < g.maxImageWidth
  cnt7 : c.cnt7 ≤ 9

/-! ### Register writes -/

/-- A write to a size register writes a legal size. -/
structure LegalWrite (x : Pins g) : Prop where
  width : imageWidthStrobe x → 1 ≤ x.avsParamsWritedata.toNat ∧
    x.avsParamsWritedata.toNat ≤ g.maxImageWidth
  height : imageHeightStrobe x → 2 ≤ x.avsParamsWritedata.toNat ∧
    x.avsParamsWritedata.toNat ≤ g.maxImageHeight

/-- The bus sets control bit `0` in cycle `n` only after it has written both sizes. -/
def SizesFirst (inp : ℕ → Pins g) (n : ℕ) : Prop :=
  controlStrobe (inp n) → (inp n).avsParamsWritedata.getLsbD 0 →
    (∃ m < n, imageWidthStrobe (inp m)) ∧ ∃ m < n, imageHeightStrobe (inp m)

/-- A row counter after a cycle: one more if a result is sent, `0` after the last
result of the row. -/
def rowCount (cnt width : ℕ) (sends : Prop) [Decidable sends] : ℕ :=
  if sends then if cnt + 1 = width then 0 else cnt + 1 else cnt

/-- The results of a row above the last sent by the end of the cycle. -/
def sentInRow (s : Component P) (x : Pins g) : ℕ :=
  rowCount s.control.cnt3 s.regs.imageWidth (s.control.currentState = .S3 ∧ x.asoOutReady)

/-- The results of the last row sent by the end of the cycle. -/
def sentInLastRow (s : Component P) (x : Pins g) : ℕ :=
  rowCount s.control.cnt6 s.regs.imageWidth (s.control.currentState = .S6 ∧ x.asoOutReady)

/-- The rows finished by the end of the cycle, `0` after the last but one. -/
def finishedRows (s : Component P) (x : Pins g) : ℕ :=
  if s.control.currentState = .S3 ∧ x.asoOutReady ∧
      s.control.cnt3 + 1 = s.regs.imageWidth then
    if s.control.cnt4 + 2 = s.regs.imageHeight then 0 else s.control.cnt4 + 1
  else s.control.cnt4

/-- A size written in this cycle is ahead of the frame: the new width is above the
number of results of the row sent by then, and the new height leaves two rows more
than are finished by then. -/
structure KeepsAhead (s : Component P) (x : Pins g) : Prop where
  width : imageWidthStrobe x → sentInRow s x < x.avsParamsWritedata.toNat ∧
    sentInLastRow s x < x.avsParamsWritedata.toNat
  height : imageHeightStrobe x → finishedRows s x + 2 ≤ x.avsParamsWritedata.toNat

theorem rollover_width (cnt width : ℕ) (sends : Prop) [Decidable sends] :
    rollover sends ((width : ℤ) - 1) cnt = rowCount cnt width sends := by
  simp [rollover, rowCount, cast_eq_sub_one]

theorem step_cnt3 {s : Component P} {x : Pins g} (hr : x.reset = false) :
    (s.step x).control.cnt3 = sentInRow s x := by
  rw [Component.step_control hr]
  exact rollover_width _ _ _

theorem step_cnt6 {s : Component P} {x : Pins g} (hr : x.reset = false) :
    (s.step x).control.cnt6 = sentInLastRow s x := by
  rw [Component.step_control hr]
  exact rollover_width _ _ _

theorem step_cnt4 {s : Component P} {x : Pins g} (hr : x.reset = false) :
    (s.step x).control.cnt4 = finishedRows s x := by
  rw [Component.step_control hr]
  simp [Control.edge, processedRowsCounting, rollover, cast_eq_sub_one, cast_eq_sub_two,
    finishedRows, Component.signals]

theorem rollover_lt {enable : Prop} [Decidable enable] {bound : ℤ} {cnt top : ℕ}
    (h : cnt < top) (hb : bound = top - 1) : rollover enable bound cnt < top := by
  unfold rollover
  split
  · split <;> omega
  · exact h

/-! ### The invariant -/

/-- Every counter is below the bound it rolls over at, or `0`. -/
structure OnTrack (s : Component P) : Prop where
  cnt1 : s.control.cnt1 < g.shifterSize
  cnt2 : s.control.cnt2 < g.kernelSize
  cnt3 : s.control.cnt3 = 0 ∨ s.control.cnt3 < s.regs.imageWidth
  cnt4 : s.control.cnt4 = 0 ∨ s.control.cnt4 + 2 ≤ s.regs.imageHeight
  cnt5 : s.control.cnt5 < g.kernelSize
  cnt6 : s.control.cnt6 = 0 ∨ s.control.cnt6 < s.regs.imageWidth
  cnt7 : s.control.cnt7 ≤ 9
  width_le : s.regs.imageWidth ≤ g.maxImageWidth
  height_le : s.regs.imageHeight ≤ g.maxImageHeight
  /-- A started frame has legal sizes. -/
  sizes : s.control.currentState ≠ .S0 ∨ s.regs.controlBit →
    1 ≤ s.regs.imageWidth ∧ 2 ≤ s.regs.imageHeight

theorem OnTrack.inRange {s : Component P} (h : OnTrack s) : InRange g s.control where
  cnt1 := h.cnt1
  cnt2 := h.cnt2
  cnt3 := by
    have := g.maxImageWidth_pos
    rcases h.cnt3 with h3 | h3 <;> have := h.width_le <;> omega
  cnt4 := by
    have := g.two_le_maxImageHeight
    rcases h.cnt4 with h4 | h4 <;> have := h.height_le <;> omega
  cnt5 := h.cnt5
  cnt6 := by
    have := g.maxImageWidth_pos
    rcases h.cnt6 with h6 | h6 <;> have := h.width_le <;> omega
  cnt7 := h.cnt7

/-- The machine leaves `S0` only when it is started. -/
theorem Transition.started {c c' : Control} {x : Signals} (h : Transition g x c c')
    (hs : c'.currentState ≠ .S0) : c.currentState ≠ .S0 ∨ x.controlBit := by
  cases h with
  | start hs hb hv => exact .inr hb
  | _ => exact .inl (by simp_all)

theorem rowCount_lt {cnt width : ℕ} {sends : Prop} [Decidable sends]
    (h : cnt = 0 ∨ cnt < width) (hw : sends → 1 ≤ width) :
    rowCount cnt width sends = 0 ∨ rowCount cnt width sends < width := by
  unfold rowCount
  split
  · have := hw ‹_›
    split <;> omega
  · exact h

/-- **Step lemma.** A cycle whose size writes are legal and ahead of the frame, and
that starts the machine only with both sizes set, stays on track. -/
theorem OnTrack.step {s : Component P} {x : Pins g} (h : OnTrack s) (hr : x.reset = false)
    (hl : LegalWrite x) (hk : KeepsAhead s x)
    (hs : controlStrobe x → x.avsParamsWritedata.getLsbD 0 →
      1 ≤ s.regs.imageWidth ∧ 2 ≤ s.regs.imageHeight) : OnTrack (s.step x) := by
  have hctl := Component.step_control (s := s) hr
  have hwidth : (s.step x).regs.imageWidth =
      if imageWidthStrobe x then x.avsParamsWritedata.toNat else s.regs.imageWidth := by
    rw [Component.step_regs hr, Registers.edge_imageWidth]
  have hheight : (s.step x).regs.imageHeight =
      if imageHeightStrobe x then x.avsParamsWritedata.toNat else s.regs.imageHeight := by
    rw [Component.step_regs hr, Registers.edge_imageHeight]
  -- outside `S0` the sizes are legal, so the counters that move have a bound
  have hbusy : ∀ st, s.control.currentState = st → st ≠ .S0 →
      1 ≤ s.regs.imageWidth ∧ 2 ≤ s.regs.imageHeight := fun st hst hne =>
    h.sizes (.inl (hst ▸ hne))
  refine ⟨?_, ?_, ?_, ?_, ?_, ?_, ?_, ?_, ?_, ?_⟩
  · rw [hctl]; exact rollover_lt h.cnt1 (by simp [Generics.shifterSize])
  · rw [hctl]; exact rollover_lt h.cnt2 rfl
  · rw [step_cnt3 hr, hwidth]
    split
    · exact .inr (hk.width ‹_›).1
    · exact rowCount_lt h.cnt3 fun hsend => (hbusy _ hsend.1 (by decide)).1
  · rw [step_cnt4 hr, hheight]
    split
    · exact .inr (hk.height ‹_›)
    · have h4 := h.cnt4
      unfold finishedRows
      split
      · rename_i hsend
        have := (hbusy _ hsend.1 (by decide)).2
        split <;> omega
      · exact h4
  · rw [hctl]; exact rollover_lt h.cnt5 rfl
  · rw [step_cnt6 hr, hwidth]
    split
    · exact .inr (hk.width ‹_›).2
    · exact rowCount_lt h.cnt6 fun hsend => (hbusy _ hsend.1 (by decide)).1
  · rw [hctl]
    exact Nat.le_of_lt_succ (rollover_lt (Nat.lt_succ_of_le h.cnt7) rfl)
  · rw [hwidth]
    split
    · exact (hl.width ‹_›).2
    · exact h.width_le
  · rw [hheight]
    split
    · exact (hl.height ‹_›).2
    · exact h.height_le
  · intro hbusy'
    have hold : 1 ≤ s.regs.imageWidth ∧ 2 ≤ s.regs.imageHeight := by
      rcases hbusy' with hst | hbit
      · exact h.sizes ((Component.step_transition hr).started hst)
      · rw [Component.step_regs hr] at hbit
        by_cases hstrobe : controlStrobe x
        · refine hs hstrobe ?_
          simpa [Registers.controlBit, Registers.edge, Registers.writeControlReg, hstrobe]
            using hbit
        · refine h.sizes (.inr ?_)
          simpa [Registers.controlBit, Registers.edge, Registers.writeControlReg, hstrobe]
            using hbit
    rw [hwidth, hheight]
    constructor
    · split
      · exact (hl.width ‹_›).1
      · exact hold.1
    · split
      · exact (hl.height ‹_›).1
      · exact hold.2

/-! ### Runs -/

section Run

variable {s : Component P} {inp : ℕ → Pins g}

/-- A register that `strobe` loads holds a value of at least `m` once it has been written,
when no smaller one is ever written. -/
theorem le_of_written {strobe : Pins g → Bool} {reg : Registers g → ℕ} {m : ℕ}
    (hedge : ∀ r st x,
      reg (r.edge st x) = if strobe x then x.avsParamsWritedata.toNat else reg r)
    (hr : ∀ n, (inp n).reset = false)
    (hl : ∀ n, strobe (inp n) → m ≤ (inp n).avsParamsWritedata.toNat)
    {n : ℕ} (hw : ∃ k < n, strobe (inp k)) : m ≤ reg (run Component.step s inp n).regs := by
  refine run_of_set (I := fun t : Component P => m ≤ reg t.regs) (E := fun x => strobe x)
    (fun k hstrobe => ?_) (fun k hold => ?_) hw
  · rw [run_succ, Component.step_regs (hr k), hedge, if_pos hstrobe]
    exact hl k hstrobe
  · rw [run_succ, Component.step_regs (hr k), hedge]
    split
    · exact hl k ‹_›
    · exact hold

theorem onTrack_of_isReset (h : s.IsReset) : OnTrack s := by
  obtain ⟨hregs, hctl⟩ := h
  have hw : s.regs.imageWidth = 0 := by simp [hregs, Registers.imageWidth]
  have hh : s.regs.imageHeight = 0 := by simp [hregs, Registers.imageHeight]
  refine ⟨?_, ?_, .inl ?_, .inl ?_, ?_, .inl ?_, ?_, by omega, by omega, fun hb => ?_⟩
  all_goals try rw [hctl]
  · exact g.shifterSize_pos
  · exact g.kernelSize_pos
  · exact g.kernelSize_pos
  · exact Nat.zero_le 9
  · simp [hctl, hregs, Registers.controlBit] at hb

/-- **Run lemma.** -/
theorem onTrack_run (h0 : s.IsReset) (hr : ∀ n, (inp n).reset = false)
    (hl : ∀ n, LegalWrite (inp n)) (hs : ∀ n, SizesFirst inp n) {n : ℕ}
    (hk : ∀ m < n, KeepsAhead (run Component.step s inp m) (inp m)) :
    OnTrack (run Component.step s inp n) := by
  induction n with
  | zero => exact onTrack_of_isReset h0
  | succ n ih =>
      refine (ih fun m hm => hk m (by omega)).step (hr n) (hl n) (hk n (by omega)) ?_
      intro hstrobe hbit
      obtain ⟨hw, hh⟩ := hs n hstrobe hbit
      exact ⟨le_of_written Registers.edge_imageWidth hr (fun k h => ((hl k).width h).1) hw,
        le_of_written Registers.edge_imageHeight hr (fun k h => ((hl k).height h).1) hh⟩

end Run

/-! ### A write that falls behind

Once a bound is at or below its counter, the exact match is missed. Without further
writes the machine then never leaves the row, the rows or the last row, and each of
its cycles moves down `overrunRank`, which ends at a counter out of range. -/

/-- A counter in use has missed the bound it rolls over at. -/
def Behind (w h : ℕ) (c : Control) : Prop :=
  match c.currentState with
  | .S2 => h ≤ c.cnt4 + 1
  | .S3 | .S4 => w ≤ c.cnt3 ∨ h ≤ c.cnt4 + 1
  | .S6 | .S7 | .S8 => w ≤ c.cnt6
  | .S0 | .S1 | .S5 => False

/-- What is left of the ranges for a machine that is behind. -/
def overrunRank (g : Generics) (c : Control) : ℕ :=
  match c.currentState with
  | .S2 => (g.maxImageHeight - c.cnt4) * (2 * g.maxImageWidth + g.kernelSize + 1) +
      2 * g.maxImageWidth + (g.kernelSize - c.cnt2)
  | .S3 => (g.maxImageHeight - c.cnt4) * (2 * g.maxImageWidth + g.kernelSize + 1) +
      2 * (g.maxImageWidth - c.cnt3)
  | .S4 => (g.maxImageHeight - c.cnt4) * (2 * g.maxImageWidth + g.kernelSize + 1) +
      2 * (g.maxImageWidth - c.cnt3) + 1
  | .S6 => 12 * (g.maxImageWidth - c.cnt6)
  | .S7 => 12 * (g.maxImageWidth - c.cnt6) + 11
  | .S8 => 12 * (g.maxImageWidth - c.cnt6) + (10 - c.cnt7)
  | .S0 | .S1 | .S5 => 0

/-- With every handshake offered, a machine that is behind stays behind and uses up
its ranges. -/
theorem Behind.transition {c c' : Control} {x : Signals} (hb : Behind x.imageWidth x.imageHeight c)
    (h : Transition g x c c') (hv : x.asiInValid) (hr : x.asoOutReady) (hin : InRange g c) :
    Behind x.imageWidth x.imageHeight c' ∧ overrunRank g c' < overrunRank g c := by
  have h2 := hin.cnt2
  have h3 := hin.cnt3
  have h4 := hin.cnt4
  have h6 := hin.cnt6
  have h7 := hin.cnt7
  cases h with
  | idle hs | start hs | fill hs | filled hs | flush hs | lastRowStart hs =>
      simp [Behind, hs] at hb
  | await hs hno => rw [hv] at hno; cases hno
  | stall hs hno => rw [hr] at hno; cases hno
  | discard hs hv hc =>
      simp only [Behind, overrunRank, hs] at hb ⊢
      exact ⟨hb, by omega⟩
  | rowStart hs hv hc =>
      simp only [Behind, overrunRank, hs] at hb ⊢
      exact ⟨.inr hb, by omega⟩
  | send hs hr hc =>
      simp only [Behind, overrunRank, hs] at hb ⊢
      exact ⟨by omega, by omega⟩
  | rowEnd hs hr hc hl =>
      simp only [Behind, overrunRank, hs] at hb ⊢
      refine ⟨by omega, ?_⟩
      -- one row fewer outweighs a whole row of cycles
      have hrow : g.maxImageHeight - c.cnt4 = g.maxImageHeight - (c.cnt4 + 1) + 1 := by omega
      rw [hrow, Nat.add_one_mul (g.maxImageHeight - (c.cnt4 + 1))]
      omega
  | inputEnd hs hr hc hl =>
      simp only [Behind, hs] at hb
      omega
  | next hs hv =>
      simp only [Behind, overrunRank, hs] at hb ⊢
      exact ⟨hb, by omega⟩
  | drain hs hr hc =>
      simp only [Behind, overrunRank, hs] at hb ⊢
      exact ⟨by omega, by omega⟩
  | frameEnd hs hr hc =>
      simp only [Behind, hs] at hb
      omega
  | push hs =>
      simp only [Behind, overrunRank, hs] at hb ⊢
      exact ⟨hb, by omega⟩
  | pause hs hc =>
      simp only [Behind, overrunRank, hs] at hb ⊢
      exact ⟨hb, by omega⟩
  | resume hs hc =>
      simp only [Behind, overrunRank, hs] at hb ⊢
      exact ⟨hb, by omega⟩

/-- A machine that is behind runs a counter out of its range. -/
theorem Behind.overruns {s : Component P}
    (hb : Behind s.regs.imageWidth s.regs.imageHeight s.control) :
    ∃ n, ¬ InRange g (run Component.step s (fun _ => eager g) n).control := by
  by_contra hno
  have hin := not_exists_not.mp hno
  have hconf : ∀ n, (run Component.step s (fun _ => eager g) n).regs.imageWidth =
      s.regs.imageWidth ∧ (run Component.step s (fun _ => eager g) n).regs.imageHeight =
      s.regs.imageHeight := fun n =>
    Component.sizes_run_of_quiet s (fun _ => eager_quiet g) n
  have htr : ∀ n, Transition g ((run Component.step s (fun _ => eager g) n).signals (eager g))
      (run Component.step s (fun _ => eager g) n).control
      (run Component.step s (fun _ => eager g) (n + 1)).control := fun n =>
    Component.step_transition rfl
  have hbehind : ∀ n, Behind s.regs.imageWidth s.regs.imageHeight
      (run Component.step s (fun _ => eager g) n).control := by
    intro n
    induction n with
    | zero => exact hb
    | succ n ih =>
        have := Behind.transition
          (x := (run Component.step s (fun _ => eager g) n).signals (eager g))
          (by simpa [Component.signals, hconf n] using ih) (htr n) rfl rfl (hin n)
        simpa [Component.signals, hconf n] using this.1
  -- the rank would go down forever
  obtain ⟨n, -, hn⟩ := exists_of_rank (f := run Component.step s fun _ => eager g)
    (fun _ => False) (fun s => overrunRank g s.control) (fun n _ => ⟨n + 1, by omega, .inr
      (Behind.transition (by simpa [Component.signals, hconf n] using hbehind n) (htr n) rfl rfl
        (hin n)).2⟩) 0
  exact hn

/-- The counters that compare with a size are `0` outside their phase. -/
structure Owned (c : Control) : Prop where
  cnt3 : c.cnt3 = 0 ∨ c.currentState = .S3 ∨ c.currentState = .S4
  cnt4 : c.cnt4 = 0 ∨ c.currentState = .S2 ∨ c.currentState = .S3 ∨ c.currentState = .S4
  cnt6 : c.cnt6 = 0 ∨ c.currentState = .S6 ∨ c.currentState = .S7 ∨ c.currentState = .S8

theorem Owned.transition {c c' : Control} {x : Signals} (ho : Owned c)
    (h : Transition g x c c') : Owned c' := by
  obtain ⟨h3, h4, h6⟩ := ho
  cases h with
  | idle | await | stall => exact ⟨h3, h4, h6⟩
  | start hs | fill hs | filled hs | discard hs | rowStart hs | send hs | rowEnd hs | inputEnd hs
  | next hs | flush hs | lastRowStart hs | drain hs | frameEnd hs | push hs | pause hs
  | resume hs =>
      simp only [hs, reduceCtorEq, or_false, or_true, or_self] at h3 h4 h6
      exact ⟨by simp_all, by simp_all, by simp_all⟩

theorem owned_run {s : Component P} (h0 : s.IsReset) {inp : ℕ → Pins g}
    (hr : ∀ n, (inp n).reset = false) (n : ℕ) :
    Owned (run Component.step s inp n).control := by
  induction n with
  | zero =>
      rw [run_zero, h0.2]
      exact ⟨.inl rfl, .inl rfl, .inl rfl⟩
  | succ n ih => exact ih.transition (Component.step_transition (hr n))

/-- Without a frame under way every legal size is ahead. -/
theorem LegalWrite.keepsAhead_of_idle {s : Component P} {x : Pins g} (hl : LegalWrite x)
    (ho : Owned s.control) (hidle : s.control.currentState = .S0) : KeepsAhead s x := by
  obtain ⟨h3, h4, h6⟩ := ho
  simp only [hidle, reduceCtorEq, or_false] at h3 h4 h6
  have hrow : sentInRow s x = 0 := by simp [sentInRow, rowCount, hidle, h3]
  have hlast : sentInLastRow s x = 0 := by simp [sentInLastRow, rowCount, hidle, h6]
  have hrows : finishedRows s x = 0 := by simp [finishedRows, hidle, h4]
  refine ⟨fun hstrobe => ?_, fun hstrobe => ?_⟩
  · rw [hrow, hlast]
    exact ⟨(hl.width hstrobe).1, (hl.width hstrobe).1⟩
  · rw [hrows]
    exact (hl.height hstrobe).1

/-- A legal size that is not ahead of the frame leaves the machine behind. -/
theorem behind_of_not_keepsAhead {s : Component P} {x : Pins g} (hr : x.reset = false)
    (hl : LegalWrite x) (ho : Owned (s.step x).control) (hk : ¬ KeepsAhead s x) :
    Behind (s.step x).regs.imageWidth (s.step x).regs.imageHeight (s.step x).control := by
  have h3 := step_cnt3 (s := s) hr
  have h4 := step_cnt4 (s := s) hr
  have h6 := step_cnt6 (s := s) hr
  rw [Component.step_regs hr, Registers.edge_imageWidth, Registers.edge_imageHeight]
  generalize (s.step x).control = c' at ho h3 h4 h6 ⊢
  by_cases hw : imageWidthStrobe x ∧ (x.avsParamsWritedata.toNat ≤ c'.cnt3 ∨
      x.avsParamsWritedata.toNat ≤ c'.cnt6)
  · obtain ⟨hstrobe, hle⟩ := hw
    have hpos := (hl.width hstrobe).1
    rw [if_pos hstrobe]
    rcases hle with hle | hle
    · rcases ho.cnt3 with h | h | h
      · omega
      · simp only [Behind, h]; exact .inl hle
      · simp only [Behind, h]; exact .inl hle
    · rcases ho.cnt6 with h | h | h | h
      · omega
      · simpa only [Behind, h] using hle
      · simpa only [Behind, h] using hle
      · simpa only [Behind, h] using hle
  · have hh : imageHeightStrobe x ∧ x.avsParamsWritedata.toNat ≤ c'.cnt4 + 1 := by
      by_contra hno
      refine hk ⟨fun hstrobe => ?_, fun hstrobe => ?_⟩
      · rw [← h3, ← h6]
        exact ⟨not_le.mp fun h => hw ⟨hstrobe, .inl h⟩, not_le.mp fun h => hw ⟨hstrobe, .inr h⟩⟩
      · rw [← h4]
        have := not_le.mp fun h => hno ⟨hstrobe, h⟩
        omega
    obtain ⟨hstrobe, hle⟩ := hh
    have hpos := (hl.height hstrobe).1
    rw [if_pos hstrobe]
    rcases ho.cnt4 with h | h | h | h
    · omega
    · simpa only [Behind, h] using hle
    · simp only [Behind, h]; exact .inr hle
    · simp only [Behind, h]; exact .inr hle

/-- A size that is not ahead of the frame takes a counter out of its range, if
nothing more is written and the streams keep moving. -/
theorem overruns_of_not_keepsAhead {s : Component P} (h0 : s.IsReset) {inp : ℕ → Pins g}
    (hr : ∀ n, (inp n).reset = false) (hl : ∀ n, LegalWrite (inp n)) {n : ℕ}
    (hk : ¬ KeepsAhead (run Component.step s inp n) (inp n)) :
    ∃ k, ¬ InRange g (run Component.step (run Component.step s inp (n + 1))
      (fun _ => eager g) k).control :=
  (behind_of_not_keepsAhead (hr n) (hl n) (owned_run h0 hr (n + 1)) hk).overruns

/-- **Legal writes and the counter ranges.** From reset, with legal sizes that are set
before the component is started, the counters stay in their declared ranges as long
as every size written is ahead of the frame. One that is not takes a counter out of
its range, if nothing more is written and the streams keep moving. In `S0` every size is
ahead. -/
theorem counters_in_range {s : Component P} (h0 : s.IsReset) {inp : ℕ → Pins g}
    (hr : ∀ n, (inp n).reset = false) (hl : ∀ n, LegalWrite (inp n))
    (hs : ∀ n, SizesFirst inp n) :
    ((∀ n, KeepsAhead (run Component.step s inp n) (inp n)) →
      ∀ n, InRange g (run Component.step s inp n).control) ∧
    (∀ n, ¬ KeepsAhead (run Component.step s inp n) (inp n) →
      ∃ k, ¬ InRange g (run Component.step (run Component.step s inp (n + 1))
        (fun _ => eager g) k).control) ∧
    ∀ n, (run Component.step s inp n).control.currentState = .S0 →
      KeepsAhead (run Component.step s inp n) (inp n) :=
  ⟨fun hk _ => (onTrack_run h0 hr hl hs fun m _ => hk m).inRange,
    fun _ => overruns_of_not_keepsAhead h0 hr hl,
    fun n => (hl n).keepsAhead_of_idle (owned_run h0 hr n)⟩

/-! ### A run that leaves the ranges

The shipped component, programmed for two columns and reduced to one while the
first row is under way. -/

/-- From the start of a row's discards, with every handshake offered. -/
theorem eager_discard {s : Component P} (hs : s.control = { currentState := .S2 }) {j : ℕ}
    (hj : j ≤ g.kernelSize) :
    (run Component.step s (fun _ => eager g) j).control =
      if j = g.kernelSize then { currentState := .S3 }
      else { currentState := .S2, cnt2 := j } := by
  induction j with
  | zero => rw [run_zero, hs, if_neg g.kernelSize_pos.ne]
  | succ j ih =>
      have hc := ih (by omega)
      rw [if_neg (by omega)] at hc
      rw [run_succ, Component.step_control rfl]
      by_cases hlast : j + 1 = g.kernelSize
      · rw [if_pos hlast, (Transition.rowStart (by rw [hc]) rfl (by rw [hc]; exact hlast)).edge_eq,
          hc]
      · rw [if_neg hlast, (Transition.discard (by rw [hc]) rfl (by rw [hc]; exact hlast)).edge_eq,
          hc]

/-- The cycle of the late write: three writes, the start, the fill phase, the
discards and the first result. -/
def lateCycle : ℕ := 3 + (1656 * 7 + 1 + 7 + 1)

/-- Sizes 2 and 2, start, every handshake offered, and a new width after the first
result of the first row. -/
def lateWrite (width : BitVec 32) (n : ℕ) : Pins shipped :=
  if n = 0 then { avsParamsWrite := true, avsParamsAddress := 2, avsParamsWritedata := 2 }
  else if n = 1 then { avsParamsWrite := true, avsParamsAddress := 3, avsParamsWritedata := 2 }
  else if n = 2 then { avsParamsWrite := true, avsParamsAddress := 0, avsParamsWritedata := 1 }
  else if n = lateCycle then
    { eager shipped with avsParamsWrite := true, avsParamsAddress := 2, avsParamsWritedata := width }
  else eager shipped

/-- The shipped component after reset. -/
def shippedReset : Component (Parts.plain shipped) where
  regs := {}
  control := {}
  process := (fun _ => 0, fun _ _ => 0)

section LateWrite

variable (width : BitVec 32)

theorem lateWrite_of_ne {n : ℕ} (hn : 3 ≤ n) (hlate : n ≠ lateCycle) :
    lateWrite width n = eager shipped := by
  simp only [lateWrite, hlate, show n ≠ 0 by omega, show n ≠ 1 by omega, show n ≠ 2 by omega,
    if_false]

theorem lateWrite_at : lateWrite width lateCycle =
    { eager shipped with
      avsParamsWrite := true, avsParamsAddress := 2, avsParamsWritedata := width } := by
  have h0 : lateCycle ≠ 0 ∧ lateCycle ≠ 1 ∧ lateCycle ≠ 2 := by decide
  simp only [lateWrite, h0, if_false, if_true]

/-- After the three writes the component is idle, started and programmed. -/
theorem lateWrite_programmed :
    (run Component.step shippedReset (lateWrite width) 3).control = {} ∧
      (run Component.step shippedReset (lateWrite width) 3).regs.controlBit = true ∧
      (run Component.step shippedReset (lateWrite width) 3).regs.imageWidth = 2 := by
  have hrun : run Component.step shippedReset (lateWrite width) 3 =
      run Component.step shippedReset (lateWrite 0) 3 :=
    run_congr _ _ fun m hm => by
      simp only [lateWrite, show m ≠ lateCycle by unfold lateCycle; omega, if_false]
  rw [hrun]
  exact ⟨rfl, rfl, rfl⟩

/-- At the late cycle one of the two results of the first row has been sent. -/
theorem lateWrite_position :
    (run Component.step shippedReset (lateWrite width) lateCycle).control =
      { currentState := .S4, cnt3 := 1 } := by
  have hrun : run Component.step shippedReset (lateWrite width) lateCycle =
      run Component.step (run Component.step shippedReset (lateWrite width) 3)
        (fun _ => eager shipped) (1656 * 7 + 1 + 7 + 1) := by
    rw [lateCycle, run_add]
    exact run_congr _ _ fun k hk =>
      lateWrite_of_ne width (Nat.le_add_right 3 k) (by unfold lateCycle; omega)
  rw [hrun]
  obtain ⟨hctl, hbit, hwidth⟩ := lateWrite_programmed width
  generalize run Component.step shippedReset (lateWrite width) 3 = s at hctl hbit hwidth ⊢
  have hsize : shipped.shifterSize = 1656 * 7 := rfl
  have hfill := (eager_fill (p := (s, {})) ⟨hctl, rfl⟩ hbit (le_refl (shipped.shifterSize))).2
  rw [observe, run_watch_fst, if_pos rfl, hsize] at hfill
  have hrow := eager_discard hfill (j := 7) le_rfl
  rw [if_pos rfl, ← run_add] at hrow
  have hw : (run Component.step s (fun _ => eager shipped)
      (1656 * 7 + 1 + 7)).regs.imageWidth = 2 :=
    (Component.sizes_run_of_quiet s (fun _ => eager_quiet shipped) _).1.trans hwidth
  rw [run_succ, Component.step_control rfl]
  generalize run Component.step s (fun _ => eager shipped) (1656 * 7 + 1 + 7) = s' at hrow hw ⊢
  refine (Transition.send (by rw [hrow]) rfl ?_).edge_eq.trans (by rw [hrow])
  rw [hrow, Component.signals, hw]
  show 0 + 1 ≠ 2
  decide

theorem lateWrite_no_reset (n : ℕ) : (lateWrite width n).reset = false := by
  unfold lateWrite
  repeat' split
  all_goals rfl

theorem lateWrite_legal (hw : 1 ≤ width.toNat ∧ width.toNat ≤ 1656) (n : ℕ) :
    LegalWrite (lateWrite width n) := by
  unfold lateWrite
  repeat' split
  · exact ⟨by decide, by decide⟩
  · exact ⟨by decide, by decide⟩
  · exact ⟨by decide, by decide⟩
  · exact ⟨fun _ => hw, nofun⟩
  · exact ⟨by decide, by decide⟩

theorem lateWrite_sizesFirst (n : ℕ) : SizesFirst (lateWrite width) n := by
  intro hstrobe _
  have hn : 2 ≤ n := by
    by_contra hlt
    obtain rfl | rfl : n = 0 ∨ n = 1 := by omega
    · exact absurd hstrobe Bool.false_ne_true
    · exact absurd hstrobe Bool.false_ne_true
  exact ⟨⟨0, by omega, rfl⟩, 1, by omega, rfl⟩

theorem lateWrite_keepsAhead_iff : KeepsAhead
    (run Component.step shippedReset (lateWrite width) lateCycle) (lateWrite width lateCycle) ↔
      1 < width.toNat := by
  have hsent : ∀ x : Pins shipped, sentInRow
      (run Component.step shippedReset (lateWrite width) lateCycle) x = 1 ∧
      sentInLastRow (run Component.step shippedReset (lateWrite width) lateCycle) x = 0 := by
    intro x
    rw [sentInRow, sentInLastRow, lateWrite_position]
    exact ⟨rfl, rfl⟩
  rw [lateWrite_at]
  constructor
  · intro hk
    have hlt := (hk.width rfl).1
    rwa [(hsent _).1] at hlt
  · intro hw
    refine ⟨fun _ => ?_, nofun⟩
    rw [(hsent _).1, (hsent _).2]
    exact ⟨hw, Nat.lt_of_lt_of_le Nat.zero_lt_one hw.le⟩

end LateWrite

/-- A late write of the same width does no harm. -/
theorem counters_in_range_same_width :
    InRange shipped (run Component.step shippedReset (lateWrite 2) (lateCycle + 1)).control := by
  refine (counters_in_range ⟨rfl, rfl⟩ (lateWrite_no_reset 2)
    (lateWrite_legal 2 (by decide)) (lateWrite_sizesFirst 2)).1 (fun m => ?_) (lateCycle + 1)
  by_cases hm : 3 ≤ m
  · by_cases hlate : m = lateCycle
    · rw [hlate]
      exact (lateWrite_keepsAhead_iff 2).mpr (by decide)
    · rw [lateWrite_of_ne 2 hm hlate]
      exact ⟨nofun, nofun⟩
  · obtain rfl | rfl | rfl : m = 0 ∨ m = 1 ∨ m = 2 := by omega
    · exact ⟨fun _ => by decide, nofun⟩
    · exact ⟨nofun, fun _ => by decide⟩
    · exact ⟨nofun, nofun⟩

/-- Legal sizes alone do not keep the counters in range: the width `1` after the first
result of a row of two falls behind. -/
theorem legal_writes_overrun :
    ¬ ∀ (s : Component (Parts.plain shipped)) (inp : ℕ → Pins shipped), s.IsReset →
      (∀ n, (inp n).reset = false) → (∀ n, LegalWrite (inp n)) → (∀ n, SizesFirst inp n) →
      ∀ n, InRange shipped (run Component.step s inp n).control := by
  intro hall
  have h0 : shippedReset.IsReset := ⟨rfl, rfl⟩
  have hreset := lateWrite_no_reset 1
  have hlegal := lateWrite_legal 1 (by decide)
  have hlate : ¬ KeepsAhead (run Component.step shippedReset (lateWrite 1) lateCycle)
      (lateWrite 1 lateCycle) := fun h =>
    absurd ((lateWrite_keepsAhead_iff 1).mp h) (by decide)
  obtain ⟨k, hk⟩ := overruns_of_not_keepsAhead h0 hreset hlegal hlate
  have hlast := hall _ _ h0 hreset hlegal (lateWrite_sizesFirst 1) (lateCycle + 1 + k)
  have hafter : ∀ m, lateWrite 1 (lateCycle + 1 + m) = eager shipped := fun m => by
    have h3 : 3 ≤ lateCycle := by decide
    exact lateWrite_of_ne 1 (by omega) (by omega)
  rw [run_add, run_congr _ _ fun m _ => hafter m] at hlast
  exact hk hlast

end FirFilter.Hardware
