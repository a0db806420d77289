import FirFilter.Hardware.Ranges
/-!
# FirFilter.Hardware.Counters

The counters as the position in the frame.

`Position` reads the number of values shifted in and of results transferred off the
state and the counters, and `OwnedByPhase` says which counters the current phase may
use; the others are `0`. Both follow from a row of the `Progress` table, so they hold
in every state of every run with constant sizes.
-/

namespace FirFilter.Hardware

open Clocked

variable {g : Generics} {P : Parts g}

/-- In control state `c`, `n` values have been shifted in and `t` results transferred in
the current frame. -/
def Position (f : FrameSize g) (c : Control) (n t : ℕ) : Prop :=
  match c.currentState with
  | .S0 => c = {}
  | .S1 => n = c.cnt1 ∧ t = 0
  | .S2 =>
      n = g.maxImageWidth * g.kernelSize + c.cnt4 * f.pitch + c.cnt2 ∧ t = c.cnt4 * f.width
  | .S3 =>
      n = g.maxImageWidth * g.kernelSize + c.cnt4 * f.pitch + g.kernelSize + c.cnt3 ∧
        t = c.cnt4 * f.width + c.cnt3
  | .S4 =>
      n + 1 = g.maxImageWidth * g.kernelSize + c.cnt4 * f.pitch + g.kernelSize + c.cnt3 ∧
        1 ≤ c.cnt3 ∧ t = c.cnt4 * f.width + c.cnt3
  | .S5 =>
      n = g.maxImageWidth * g.kernelSize + (f.height - 1) * f.pitch + c.cnt5 ∧
        t = (f.height - 1) * f.width
  | .S6 | .S8 =>
      n = g.maxImageWidth * g.kernelSize + (f.height - 1) * f.pitch + g.kernelSize + c.cnt6 ∧
        t = (f.height - 1) * f.width + c.cnt6
  | .S7 =>
      n + 1 = g.maxImageWidth * g.kernelSize + (f.height - 1) * f.pitch + g.kernelSize + c.cnt6 ∧
        t = (f.height - 1) * f.width + c.cnt6

/-- Every counter is `0` outside its phase. -/
structure OwnedByPhase (c : Control) : Prop extends Owned c where
  cnt1 : c.cnt1 = 0 ∨ c.currentState = .S1
  cnt2 : c.cnt2 = 0 ∨ c.currentState = .S2
  cnt5 : c.cnt5 = 0 ∨ c.currentState = .S5
  cnt7 : c.cnt7 = 0 ∨ c.currentState = .S8

namespace Progress

variable {f : FrameSize g} {c : Control} {n m t : ℕ}

theorem position (h : Progress f c n m t) : Position f c n t := by
  cases h with
  | idle h => rfl
  | filling h1 hn hm ht => exact ⟨hn, ht⟩
  | discarding h2 h4 hn hm ht => exact ⟨hn, ht⟩
  | offering h3 h4 hn hm ht => exact ⟨hn, ht⟩
  | waiting h3 hpos h4 hn hm ht => exact ⟨hn, hpos, ht⟩
  | flushing h5 hn hm ht => exact ⟨hn, ht⟩
  | draining h6 hn hm ht => exact ⟨hn, ht⟩
  | pushing h6 hpos hn hm ht => exact ⟨hn, ht⟩
  | pausing h6 hpos h7 hn hm ht => exact ⟨hn, ht⟩

theorem ownedByPhase (h : Progress f c n m t) : OwnedByPhase c := by
  cases h <;> refine ⟨⟨?_, ?_, ?_⟩, ?_, ?_, ?_, ?_⟩ <;> simp

theorem cnt3_lt (h : Progress f c n m t) : c.cnt3 < f.width := by
  cases h with
  | offering h3 | waiting h3 => exact h3
  | _ => exact f.width_pos

theorem cnt4_le (h : Progress f c n m t) : c.cnt4 + 2 ≤ f.height := by
  cases h with
  | discarding h2 h4 | offering h3 h4 | waiting h3 hpos h4 => exact h4
  | _ => exact f.two_le_height

theorem cnt6_lt (h : Progress f c n m t) : c.cnt6 < f.width := by
  cases h with
  | draining h6 | pushing h6 | pausing h6 => exact h6
  | _ => exact f.width_pos

theorem inRange (h : Progress f c n m t) : InRange g c where
  cnt1 := by
    cases h with
    | filling h1 => exact h1
    | _ => exact g.shifterSize_pos
  cnt2 := by
    cases h with
    | discarding h2 => exact h2
    | _ => exact g.kernelSize_pos
  cnt3 := h.cnt3_lt.trans_le f.width_le
  cnt4 := h.cnt4_le.trans f.height_le
  cnt5 := by
    cases h with
    | flushing h5 => exact h5
    | _ => exact g.kernelSize_pos
  cnt6 := h.cnt6_lt.trans_le f.width_le
  cnt7 := by
    cases h with
    | pausing h6 hpos h7 => exact h7
    | _ => exact Nat.zero_le 9

end Progress

/-- **The counters encode the progress of the frame.** From any idle state with the
counters at `0`, and as long as the size registers hold the frame size, the state and
the counters of every state reached give the number of values shifted in and of results
transferred, whatever the handshakes; only the counters of the current phase are in use,
and all stay in their ranges. -/
theorem counters_encode_progress (f : FrameSize g) {p : Watched P} (h : FrameStart p)
    {inp : ℕ → Pins g} {n : ℕ}
    (hc : ∀ m ≤ n, Configured f.width f.height (observe p inp m).1) :
    Position f (observe p inp n).1.control (observe p inp n).2.shifted.length
        (observe p inp n).2.sent.length ∧
      OwnedByPhase (observe p inp n).1.control ∧
      (observe p inp n).1.control.cnt3 < f.width ∧
      (observe p inp n).1.control.cnt6 < f.width ∧
      (observe p inp n).1.control.cnt4 ≤ f.height - 2 ∧
      InRange g (observe p inp n).1.control := by
  have hp := (FrameInv.of_run h hc).progress
  exact ⟨hp.position, hp.ownedByPhase, hp.cnt3_lt, hp.cnt6_lt, Nat.le_sub_of_add_le hp.cnt4_le,
    hp.inRange⟩

/-- On the way through a frame of two columns and two rows. -/
theorem counters_encode_progress_two_by_two :
    let q := observe (Component.programmed (Parts.plain smallGenerics) 2 2, {})
      (fun _ => eager smallGenerics) 66
    Position (g := smallGenerics) ⟨2, 2, by decide, by decide, by decide, by decide⟩ q.1.control
      q.2.shifted.length q.2.sent.length :=
  (counters_encode_progress _ ⟨rfl, rfl⟩ fun m _ =>
    configured_of_quiet (configured_programmed (by decide) (by decide))
      (fun _ => eager_quiet smallGenerics) m).1

end FirFilter.Hardware
