import FirFilter.Hardware.Entity
import Mathlib.Tactic.Cases
/-!
# FirFilter.Hardware.StateMachine

The control part of `FIR_Filter_2D_custom`: the combinational process
`state_machine`, the register `current_state` and the seven counter processes.

Each process is a definition of its own under its label in the source, because
each repeats its own copy of the guards; that the copies stay in step is
something to prove. It is proved once, by `Control.edge_transition`: one clock
edge is exactly one of the transitions listed in `Transition`, each of which
gives the whole next state. Every invariant of the control part is then a case
analysis over `Transition`, and no later proof unfolds a process.

Comparisons such as `cnt4 = image_height - 2` are VHDL `integer` comparisons,
so a height of `1` compares `cnt4` with `-1`. They are stated over `ℤ`.
-/

namespace FirFilter.Hardware

/-- The states of `current_state`: `S0` idle, `S1` fill the shifter, `S2` discard
invalid results at a row change, `S3`/`S4` offer a result and wait for the next
pixel, `S5` discard before the last row, `S6`/`S7` offer a result of the last row
and shift without input, `S8` pause for the output DMA. -/
inductive State
  | S0 | S1 | S2 | S3 | S4 | S5 | S6 | S7 | S8
  deriving DecidableEq, Repr

/-- `current_state` and the counters. -/
structure Control where
  currentState : State := .S0
  cnt1 : ℕ := 0
  cnt2 : ℕ := 0
  cnt3 : ℕ := 0
  cnt4 : ℕ := 0
  cnt5 : ℕ := 0
  cnt6 : ℕ := 0
  cnt7 : ℕ := 0
  deriving DecidableEq, Repr

/-- The signals the control part reads: `control_reg(0)`, `image_width`,
`image_height`, `aso_out_ready` and `asi_in_valid`. -/
structure Signals where
  controlBit : Bool
  imageWidth : ℕ
  imageHeight : ℕ
  asoOutReady : Bool
  asiInValid : Bool

/-! ### The combinational outputs -/

/-- `int_asi_in_ready`, as the process `state_machine` drives it. -/
def intAsiInReady : State → Bool
  | .S1 | .S2 | .S4 => true
  | .S0 | .S3 | .S5 | .S6 | .S7 | .S8 => false

/-- `aso_out_valid`, as the process `state_machine` drives it. -/
def asoOutValid : State → Bool
  | .S3 | .S6 => true
  | .S0 | .S1 | .S2 | .S4 | .S5 | .S7 | .S8 => false

/-- `shift_enable`: always in `S5` and `S7`, never in `S6` and `S8`, and with
every accepted beat elsewhere. -/
def shiftEnable (currentState : State) (asiInValid : Bool) : Bool :=
  if currentState = .S5 ∨ currentState = .S7 then true
  else if currentState = .S6 ∨ currentState = .S8 then false
  else asiInValid && intAsiInReady currentState

/-- `next_state`. -/
def nextState (g : Generics) (c : Control) (x : Signals) : State :=
  match c.currentState with
  | .S0 => if x.controlBit ∧ x.asiInValid then .S1 else .S0
  | .S1 =>
      if (c.cnt1 : ℤ) = g.maxImageWidth * g.kernelSize - 1 ∧ x.asiInValid then .S2 else .S1
  | .S2 => if (c.cnt2 : ℤ) = g.kernelSize - 1 ∧ x.asiInValid then .S3 else .S2
  | .S3 =>
      if (c.cnt3 : ℤ) = x.imageWidth - 1 ∧ x.asoOutReady then
        if (c.cnt4 : ℤ) = x.imageHeight - 2 then .S5 else .S2
      else if x.asoOutReady then .S4 else .S3
  | .S4 => if x.asiInValid then .S3 else .S4
  | .S5 => if (c.cnt5 : ℤ) = g.kernelSize - 1 then .S6 else .S5
  | .S6 =>
      if (c.cnt6 : ℤ) = x.imageWidth - 1 ∧ x.asoOutReady then .S0
      else if x.asoOutReady then .S7 else .S6
  | .S7 => .S8
  | .S8 => if c.cnt7 = 9 then .S6 else .S8

/-! ### The counter processes -/

/-- The body the counter processes share: count when enabled, and roll over at
`bound`. -/
def rollover (enable : Prop) [Decidable enable] (bound : ℤ) (cnt : ℕ) : ℕ :=
  if enable then if (cnt : ℤ) = bound then 0 else cnt + 1 else cnt

@[simp] theorem rollover_off {enable : Prop} [Decidable enable] (h : ¬ enable) (bound : ℤ)
    (cnt : ℕ) : rollover enable bound cnt = cnt := by
  simp [rollover, h]

/-- Process `shifted_pixels_counting`. -/
def shiftedPixelsCounting (g : Generics) (c : Control) (x : Signals) : ℕ :=
  rollover (c.currentState = .S1 ∧ shiftEnable c.currentState x.asiInValid)
    (g.maxImageWidth * g.kernelSize - 1) c.cnt1

/-- Process `invalid_results_counting_S2`. -/
def invalidResultsCountingS2 (g : Generics) (c : Control) (x : Signals) : ℕ :=
  rollover (c.currentState = .S2 ∧ shiftEnable c.currentState x.asiInValid)
    (g.kernelSize - 1) c.cnt2

/-- Process `valid_results_counting_S3`. -/
def validResultsCountingS3 (c : Control) (x : Signals) : ℕ :=
  rollover (c.currentState = .S3 ∧ x.asoOutReady) (x.imageWidth - 1) c.cnt3

/-- Process `processed_rows_counting`. -/
def processedRowsCounting (c : Control) (x : Signals) : ℕ :=
  rollover (c.currentState = .S3 ∧ x.asoOutReady ∧ (c.cnt3 : ℤ) = x.imageWidth - 1)
    (x.imageHeight - 2) c.cnt4

/-- Process `invalid_results_counting_S5`. -/
def invalidResultsCountingS5 (g : Generics) (c : Control) (x : Signals) : ℕ :=
  rollover (c.currentState = .S5 ∧ shiftEnable c.currentState x.asiInValid)
    (g.kernelSize - 1) c.cnt5

/-- Process `valid_results_counting_S6`. -/
def validResultsCountingS6 (c : Control) (x : Signals) : ℕ :=
  rollover (c.currentState = .S6 ∧ x.asoOutReady) (x.imageWidth - 1) c.cnt6

/-- Process `state_duration_S8`. -/
def stateDurationS8 (c : Control) : ℕ :=
  rollover (c.currentState = .S8) 9 c.cnt7

/-- One clock edge without reset: all the processes at once. -/
def Control.edge (g : Generics) (c : Control) (x : Signals) : Control where
  currentState := nextState g c x
  cnt1 := shiftedPixelsCounting g c x
  cnt2 := invalidResultsCountingS2 g c x
  cnt3 := validResultsCountingS3 c x
  cnt4 := processedRowsCounting c x
  cnt5 := invalidResultsCountingS5 g c x
  cnt6 := validResultsCountingS6 c x
  cnt7 := stateDurationS8 c

/-! ### What one edge can do -/

/-- The transitions of the control part, one constructor for each way through
`state_machine`, with everything the edge does to the counters. -/
inductive Transition (g : Generics) (x : Signals) (c : Control) : Control → Prop
  | idle (hs : c.currentState = .S0) (hv : ¬ (x.controlBit ∧ x.asiInValid)) :
      Transition g x c c
  | start (hs : c.currentState = .S0) (hb : x.controlBit) (hv : x.asiInValid) :
      Transition g x c { c with currentState := .S1 }
  | await (hs : c.currentState = .S1 ∨ c.currentState = .S2 ∨ c.currentState = .S4)
      (hv : x.asiInValid = false) : Transition g x c c
  | fill (hs : c.currentState = .S1) (hv : x.asiInValid) (hc : c.cnt1 + 1 ≠ g.shifterSize) :
      Transition g x c { c with cnt1 := c.cnt1 + 1 }
  | filled (hs : c.currentState = .S1) (hv : x.asiInValid) (hc : c.cnt1 + 1 = g.shifterSize) :
      Transition g x c { c with currentState := .S2, cnt1 := 0 }
  | discard (hs : c.currentState = .S2) (hv : x.asiInValid) (hc : c.cnt2 + 1 ≠ g.kernelSize) :
      Transition g x c { c with cnt2 := c.cnt2 + 1 }
  | rowStart (hs : c.currentState = .S2) (hv : x.asiInValid) (hc : c.cnt2 + 1 = g.kernelSize) :
      Transition g x c { c with currentState := .S3, cnt2 := 0 }
  | stall (hs : c.currentState = .S3 ∨ c.currentState = .S6) (hr : x.asoOutReady = false) :
      Transition g x c c
  | send (hs : c.currentState = .S3) (hr : x.asoOutReady) (hc : c.cnt3 + 1 ≠ x.imageWidth) :
      Transition g x c { c with currentState := .S4, cnt3 := c.cnt3 + 1 }
  | rowEnd (hs : c.currentState = .S3) (hr : x.asoOutReady) (hc : c.cnt3 + 1 = x.imageWidth)
      (hh : c.cnt4 + 2 ≠ x.imageHeight) :
      Transition g x c { c with currentState := .S2, cnt3 := 0, cnt4 := c.cnt4 + 1 }
  | inputEnd (hs : c.currentState = .S3) (hr : x.asoOutReady) (hc : c.cnt3 + 1 = x.imageWidth)
      (hh : c.cnt4 + 2 = x.imageHeight) :
      Transition g x c { c with currentState := .S5, cnt3 := 0, cnt4 := 0 }
  | next (hs : c.currentState = .S4) (hv : x.asiInValid) :
      Transition g x c { c with currentState := .S3 }
  | flush (hs : c.currentState = .S5) (hc : c.cnt5 + 1 ≠ g.kernelSize) :
      Transition g x c { c with cnt5 := c.cnt5 + 1 }
  | lastRowStart (hs : c.currentState = .S5) (hc : c.cnt5 + 1 = g.kernelSize) :
      Transition g x c { c with currentState := .S6, cnt5 := 0 }
  | drain (hs : c.currentState = .S6) (hr : x.asoOutReady) (hc : c.cnt6 + 1 ≠ x.imageWidth) :
      Transition g x c { c with currentState := .S7, cnt6 := c.cnt6 + 1 }
  | frameEnd (hs : c.currentState = .S6) (hr : x.asoOutReady) (hc : c.cnt6 + 1 = x.imageWidth) :
      Transition g x c { c with currentState := .S0, cnt6 := 0 }
  | push (hs : c.currentState = .S7) : Transition g x c { c with currentState := .S8 }
  | pause (hs : c.currentState = .S8) (hc : c.cnt7 ≠ 9) :
      Transition g x c { c with cnt7 := c.cnt7 + 1 }
  | resume (hs : c.currentState = .S8) (hc : c.cnt7 = 9) :
      Transition g x c { c with currentState := .S6, cnt7 := 0 }

/-! The guards compare a counter with an integer expression that may be negative;
in the naturals the decrement moves to the other side. -/

theorem cast_eq_sub_one (a b : ℕ) : (a : ℤ) = b - 1 ↔ a + 1 = b := by omega

theorem cast_eq_sub_two (a b : ℕ) : (a : ℤ) = b - 2 ↔ a + 2 = b := by omega

theorem cast_eq_mul_sub_one (a b c : ℕ) : (a : ℤ) = b * c - 1 ↔ a + 1 = b * c := by
  rw [← cast_eq_sub_one, Int.natCast_mul]

theorem cast_eq_nine (a : ℕ) : (a : ℤ) = 9 ↔ a = 9 := by omega

/-- A transition is what the processes compute. -/
theorem Transition.edge_eq {g : Generics} {x : Signals} {c c' : Control}
    (h : Transition g x c c') : c.edge g x = c' := by
  obtain ⟨st, c1, c2, c3, c4, c5, c6, c7⟩ := c
  cases h with
  | await hs hv =>
      rcases hs with rfl | rfl | rfl <;>
        simp [Control.edge, nextState, hv, shiftedPixelsCounting, invalidResultsCountingS2,
          validResultsCountingS3, processedRowsCounting, invalidResultsCountingS5,
          validResultsCountingS6, stateDurationS8, shiftEnable]
  | stall hs hr =>
      rcases hs with rfl | rfl <;>
        simp [Control.edge, nextState, hr, shiftedPixelsCounting, invalidResultsCountingS2,
          validResultsCountingS3, processedRowsCounting, invalidResultsCountingS5,
          validResultsCountingS6, stateDurationS8]
  | _ =>
      simp_all [Control.edge, nextState, shiftedPixelsCounting, invalidResultsCountingS2,
        validResultsCountingS3, processedRowsCounting, invalidResultsCountingS5,
        validResultsCountingS6, stateDurationS8, rollover, shiftEnable, intAsiInReady,
        cast_eq_sub_one, cast_eq_sub_two, cast_eq_mul_sub_one, cast_eq_nine,
        Generics.shifterSize]

/-- Some transition applies in every state. -/
theorem exists_transition (g : Generics) (x : Signals) (c : Control) :
    ∃ c', Transition g x c c' := by
  cases hs : c.currentState with
  | S0 =>
      by_cases hv : x.controlBit ∧ x.asiInValid
      · exact ⟨_, .start hs hv.1 hv.2⟩
      · exact ⟨_, .idle hs hv⟩
  | S1 =>
      by_cases hv : x.asiInValid
      · by_cases hc : c.cnt1 + 1 = g.shifterSize
        · exact ⟨_, .filled hs hv hc⟩
        · exact ⟨_, .fill hs hv hc⟩
      · exact ⟨_, .await (.inl hs) (by simpa using hv)⟩
  | S2 =>
      by_cases hv : x.asiInValid
      · by_cases hc : c.cnt2 + 1 = g.kernelSize
        · exact ⟨_, .rowStart hs hv hc⟩
        · exact ⟨_, .discard hs hv hc⟩
      · exact ⟨_, .await (.inr (.inl hs)) (by simpa using hv)⟩
  | S3 =>
      by_cases hr : x.asoOutReady
      · by_cases hc : c.cnt3 + 1 = x.imageWidth
        · by_cases hh : c.cnt4 + 2 = x.imageHeight
          · exact ⟨_, .inputEnd hs hr hc hh⟩
          · exact ⟨_, .rowEnd hs hr hc hh⟩
        · exact ⟨_, .send hs hr hc⟩
      · exact ⟨_, .stall (.inl hs) (by simpa using hr)⟩
  | S4 =>
      by_cases hv : x.asiInValid
      · exact ⟨_, .next hs hv⟩
      · exact ⟨_, .await (.inr (.inr hs)) (by simpa using hv)⟩
  | S5 =>
      by_cases hc : c.cnt5 + 1 = g.kernelSize
      · exact ⟨_, .lastRowStart hs hc⟩
      · exact ⟨_, .flush hs hc⟩
  | S6 =>
      by_cases hr : x.asoOutReady
      · by_cases hc : c.cnt6 + 1 = x.imageWidth
        · exact ⟨_, .frameEnd hs hr hc⟩
        · exact ⟨_, .drain hs hr hc⟩
      · exact ⟨_, .stall (.inr hs) (by simpa using hr)⟩
  | S7 => exact ⟨_, .push hs⟩
  | S8 =>
      by_cases hc : c.cnt7 = 9
      · exact ⟨_, .resume hs hc⟩
      · exact ⟨_, .pause hs hc⟩

/-- **Inversion.** One clock edge is one of the listed transitions. -/
theorem Control.edge_transition (g : Generics) (c : Control) (x : Signals) :
    Transition g x c (c.edge g x) := by
  obtain ⟨c', h⟩ := exists_transition g x c
  rw [h.edge_eq]
  exact h

end FirFilter.Hardware
