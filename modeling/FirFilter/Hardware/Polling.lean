import FirFilter.Hardware.RegisterFile
import FirFilter.Hardware.Timing
/-!
# FirFilter.Hardware.Polling

What software can conclude from the status register, and how it stops the component.

The status is all ones outside `S0` and `0` in it, and `S0` is reached at the end of a
frame only. The control bit is looked at in `S0` only, so clearing it does not abort a
frame: the one under way is finished whether the bit is set or not (`exists_idle`), and
then the component stays idle. The argument for the first is the time ledger: a frame that
never ended would have more moves than a frame has.
-/

namespace FirFilter.Hardware

open Clocked Ledger

variable {g : Generics} {P : Parts g}

section Run

variable {f : FrameSize g} {s : Component P} {inp : ℕ → Pins g}

/-! ### Idle and busy cycles -/

/-- An idle cycle after a busy one has a frame end in between. -/
theorem framesDone_lt_of_busy {i j : ℕ} (hij : i ≤ j) (hi : ¬ (run Component.step s inp i).Idle)
    (hj : (run Component.step s inp j).Idle) : framesDone s inp i < framesDone s inp j := by
  induction j, hij using Nat.le_induction with
  | base => exact absurd hj hi
  | succ j hij ih =>
      have hcount : framesDone s inp (j + 1) =
          framesDone s inp j + if FrameEnds s inp j then 1 else 0 := Nat.count_succ _ _
      by_cases hbusy : (run Component.step s inp j).Idle
      · exact (ih hbusy).trans_le (Nat.count_monotone _ (Nat.le_succ j))
      · have hmono : framesDone s inp i ≤ framesDone s inp j := Nat.count_monotone _ hij
        rw [hcount, if_pos ⟨hbusy, hj⟩]
        exact Nat.lt_succ_of_le hmono

/-- The value of a status read shows the state it was made in. -/
theorem status_read (hK : AddressesFit g) {n : ℕ} (hr : (inp n).reset = false)
    (haddr : (inp n).avsParamsAddress.toNat = 1) :
    (run Component.step s inp (n + 1)).regs.avsParamsReaddata =
      if (run Component.step s inp n).Idle then 0 else BitVec.allOnes g.dataBusWidth := by
  rw [run_succ, Component.step_regs hr]
  show (run Component.step s inp n).regs.readOutMux _ (inp n) = _
  rw [Registers.readOutMux_eq hK, if_pos haddr]
  rfl

/-! ### A frame that has begun -/

/-- In a busy state the control bit plays no part. -/
theorem offered_iff_of_busy {c : Component P} (hbusy : ¬ c.Idle) (x : Pins g) :
    Offered c.control.currentState (c.signals x) ↔ awaited c.control.currentState x := by
  cases h : c.control.currentState with
  | S0 => exact absurd h hbusy
  | _ => rfl

/-- A busy component moves again when the handshakes keep coming. -/
theorem exists_move (hr : ∀ n, (inp n).reset = false)
    (valid : ∀ n, ∃ m ≥ n, (inp m).asiInValid) (ready : ∀ n, ∃ m ≥ n, (inp m).asoOutReady) {n : ℕ}
    (hbusy : ¬ (run Component.step s inp n).Idle) : ∃ m ≥ n, Moves s inp m := by
  have hstays : ∀ {k}, (run Component.step s inp k).control = (run Component.step s inp n).control →
      ¬ (run Component.step s inp k).Idle := fun hctl => by
    unfold Component.Idle
    rwa [hctl]
  obtain ⟨m, hm, hctl, hev⟩ := exists_wait
    (P := fun q : Component P => q.control = (run Component.step s inp n).control)
    (exists_awaited valid ready (run Component.step s inp n).control.currentState) (n := n) rfl
    (by
      intro k _ hno hctl
      refine ((Component.step_transition (hr k)).eq_of_not_offered ?_).trans hctl
      rwa [offered_iff_of_busy (hstays hctl), hctl])
  refine ⟨m, hm, (offered_iff_of_busy (hstays hctl) _).mpr ?_⟩
  rwa [hctl]

/-- Any number of moves is made by a component that stays busy. -/
theorem exists_moves (hr : ∀ n, (inp n).reset = false)
    (valid : ∀ n, ∃ m ≥ n, (inp m).asiInValid) (ready : ∀ n, ∃ m ≥ n, (inp m).asoOutReady) {n : ℕ}
    (hbusy : ∀ m ≥ n, ¬ (run Component.step s inp m).Idle) (k : ℕ) :
    ∃ m ≥ n, k ≤ Nat.count (Moves s inp) m := by
  induction k with
  | zero => exact ⟨n, le_rfl, Nat.zero_le _⟩
  | succ k ih =>
      obtain ⟨m, hm, hk⟩ := ih
      obtain ⟨j, hj, hmove⟩ := exists_move hr valid ready (hbusy m hm)
      have hmono := Nat.count_monotone (Moves s inp) hj
      exact ⟨j + 1, by omega, by rw [Nat.count_succ, if_pos hmove]; omega⟩

/-- **A frame that has begun ends**, whatever becomes of the control bit. -/
theorem exists_idle (h0 : s.control = {})
    (hc : ∀ n, Configured f.width f.height (run Component.step s inp n))
    (valid : ∀ n, ∃ m ≥ n, (inp m).asiInValid) (ready : ∀ n, ∃ m ≥ n, (inp m).asoOutReady)
    (n : ℕ) : ∃ m ≥ n, (run Component.step s inp m).Idle := by
  by_contra hno
  have hbusy : ∀ m ≥ n, ¬ (run Component.step s inp m).Idle := fun m hm h => hno ⟨m, hm, h⟩
  obtain ⟨m, hm, hmoves⟩ := exists_moves (fun m => (hc (m + 1)).no_reset f.width_pos) valid ready
    hbusy ((framesDone s inp n + 1) * f.cycles)
  -- no frame has ended since, and the moves are those of more than one frame
  have hsame : framesDone s inp m = framesDone s inp n :=
    count_eq_of_forall_not hm fun k hk _ hends => hbusy (k + 1) (by omega) hends.2
  have hledger := time_ledger h0 fun k (_ : k ≤ m) => hc k
  have hlt := elapsed_lt_of_run h0 fun k (_ : k ≤ m) => hc k
  have htime := count_add_count_not (Moves s inp) m
  rw [Nat.succ_mul] at hmoves
  rw [hsame] at hledger
  unfold stalls at hledger
  omega

/-! ### Stopping -/

/-- An idle component whose control bit is clear stays idle. -/
theorem idle_of_stopped (hr : ∀ n, (inp n).reset = false) {n : ℕ}
    (hstop : ∀ m ≥ n, (run Component.step s inp m).regs.controlBit = false)
    (hidle : (run Component.step s inp n).Idle) {m : ℕ} (hm : n ≤ m) :
    (run Component.step s inp m).Idle := by
  induction m, hm using Nat.le_induction with
  | base => exact hidle
  | succ m hm ih =>
      have hno : ¬ Offered (run Component.step s inp m).control.currentState
          ((run Component.step s inp m).signals (inp m)) := by
        have h0 : (run Component.step s inp m).control.currentState = .S0 := ih
        simp [h0, Offered, Component.signals, hstop m hm]
      unfold Component.Idle
      rw [run_succ, (Component.step_transition (hr m)).eq_of_not_offered hno]
      exact ih

/-- The frames that are done when a component that is stopped in cycle `n` comes to rest:
the one under way is finished. -/
def framesAtRest (s : Component P) (inp : ℕ → Pins g) (n : ℕ) : ℕ :=
  framesDone s inp n + if (run Component.step s inp n).Idle then 0 else 1

/-- A stopped component is either in the frame it was stopped in or at rest. -/
theorem stopped_cases (hr : ∀ n, (inp n).reset = false) {n : ℕ}
    (hstop : ∀ m ≥ n, (run Component.step s inp m).regs.controlBit = false) {m : ℕ} (hm : n ≤ m) :
    (run Component.step s inp m).Idle ∧ framesDone s inp m = framesAtRest s inp n ∨
      ¬ (run Component.step s inp m).Idle ∧ framesDone s inp m + 1 = framesAtRest s inp n := by
  induction m, hm using Nat.le_induction with
  | base =>
      unfold framesAtRest
      by_cases h : (run Component.step s inp n).Idle
      · exact .inl ⟨h, by rw [if_pos h, Nat.add_zero]⟩
      · exact .inr ⟨h, by rw [if_neg h]⟩
  | succ m hm ih =>
      have hcount : framesDone s inp (m + 1) =
          framesDone s inp m + if FrameEnds s inp m then 1 else 0 := Nat.count_succ _ _
      rcases ih with ⟨hidle, hdone⟩ | ⟨hbusy, hdone⟩
      · have hnext := idle_of_stopped hr (fun k hk => hstop k (hm.trans hk)) hidle (Nat.le_succ m)
        refine .inl ⟨hnext, ?_⟩
        rw [hcount, if_neg fun hends => hends.1 hidle]
        exact hdone
      · by_cases hnext : (run Component.step s inp (m + 1)).Idle
        · exact .inl ⟨hnext, by rw [hcount, if_pos ⟨hbusy, hnext⟩]; exact hdone⟩
        · refine .inr ⟨hnext, ?_⟩
          rw [hcount, if_neg fun hends => hnext hends.2]
          exact hdone

end Run

/-- **Polling and stopping.** While the sizes stay as they are, under any bus accesses and
handshakes: a status read of `0` after one that was not `0` means that a frame has ended in
between, and that all beats and results of all frames begun so far have been transferred.
If the control bit is clear from some cycle on, the frame under way is not cut short and no
other is begun: the component never transfers more than the frames begun by then, and when
the handshakes keep coming it comes to rest with exactly these. -/
theorem polling_and_stopping (hK : AddressesFit g) (f : FrameSize g) {s : Component P}
    (h0 : s.control = {}) {inp : ℕ → Pins g}
    (hc : ∀ n, Configured f.width f.height (run Component.step s inp n)) :
    (∀ i j, i < j → (inp i).avsParamsAddress.toNat = 1 → (inp j).avsParamsAddress.toNat = 1 →
      (run Component.step s inp (i + 1)).regs.avsParamsReaddata ≠ 0 →
      (run Component.step s inp (j + 1)).regs.avsParamsReaddata = 0 →
      framesDone s inp i < framesDone s inp j ∧
        beatsTaken s inp j = framesDone s inp j * f.beats ∧
        resultsSent s inp j = framesDone s inp j * (f.height * f.width)) ∧
    ∀ n, (∀ m ≥ n, (run Component.step s inp m).regs.controlBit = false) →
      (∀ m ≥ n, beatsTaken s inp m ≤ framesAtRest s inp n * f.beats ∧
        resultsSent s inp m ≤ framesAtRest s inp n * (f.height * f.width)) ∧
      ((∀ n, ∃ m ≥ n, (inp m).asiInValid) → (∀ n, ∃ m ≥ n, (inp m).asoOutReady) →
        ∃ r ≥ n, ∀ m ≥ r, (run Component.step s inp m).Idle ∧
          beatsTaken s inp m = framesAtRest s inp n * f.beats ∧
          resultsSent s inp m = framesAtRest s inp n * (f.height * f.width)) := by
  have hr : ∀ n, (inp n).reset = false := fun n => (hc (n + 1)).no_reset f.width_pos
  refine ⟨fun i j hij hi hj hbusy hidle => ?_, fun n hstop =>
    ⟨fun m hm => ?_, fun valid ready => ?_⟩⟩
  · rw [status_read hK (hr i) hi] at hbusy
    rw [status_read hK (hr j) hj] at hidle
    have hbits : BitVec.allOnes g.dataBusWidth ≠ 0 := fun h => hbusy (by rw [h, ite_self])
    have hij' : ¬ (run Component.step s inp i).Idle := fun h => hbusy (if_pos h)
    have hj' : (run Component.step s inp j).Idle := by
      by_contra h
      exact hbits ((if_neg h).symm.trans hidle)
    exact ⟨framesDone_lt_of_busy hij.le hij' hj', handshakes_of_idle h0 (fun m _ => hc m) hj'⟩
  · obtain ⟨hbeats, hsent⟩ := handshake_ledger h0 fun k (_ : k ≤ m) => hc k
    obtain ⟨hle, hle'⟩ := underWay_le h0 fun k (_ : k ≤ m) => hc k
    rcases stopped_cases hr hstop hm with ⟨hidle, hdone⟩ | ⟨hbusy, hdone⟩
    · obtain ⟨hb, hs⟩ := handshakes_of_idle h0 (fun k (_ : k ≤ m) => hc k) hidle
      rw [hb, hs, hdone]
      exact ⟨le_rfl, le_rfl⟩
    · rw [hbeats, hsent, ← hdone, Nat.succ_mul, Nat.succ_mul]
      exact ⟨Nat.add_le_add_left hle _, Nat.add_le_add_left hle' _⟩
  · obtain ⟨r, hrn, hidle⟩ := exists_idle h0 hc valid ready n
    refine ⟨r, hrn, fun m hm => ?_⟩
    have hrest := idle_of_stopped hr (fun k hk => hstop k (hrn.trans hk)) hidle hm
    obtain ⟨hb, hs⟩ := handshakes_of_idle h0 (fun k (_ : k ≤ m) => hc k) hrest
    rcases stopped_cases hr hstop (hrn.trans hm) with ⟨-, hdone⟩ | ⟨hbusy, -⟩
    · exact ⟨hrest, by rw [hb, hdone], by rw [hs, hdone]⟩
    · exact absurd hrest hbusy

/-! ### A frame that is stopped -/

/-- Without writes to the size registers the sizes stay as they are. -/
theorem configured_of_no_strobe {w h : ℕ} {s : Component P} (hc : Configured w h s)
    {inp : ℕ → Pins g} (hr : ∀ n, (inp n).reset = false)
    (hw : ∀ n, imageWidthStrobe (inp n) = false) (hh : ∀ n, imageHeightStrobe (inp n) = false)
    (n : ℕ) : Configured w h (run Component.step s inp n) := by
  induction n with
  | zero => exact hc
  | succ n ih =>
      rw [run_succ, Configured, Component.step_regs (hr n), Registers.edge_imageWidth,
        Registers.edge_imageHeight, hw n, hh n]
      exact ih

/-- Every handshake offered, and the control bit cleared in the tenth cycle. -/
def stopInTen (n : ℕ) : Pins smallGenerics :=
  if n = 10 then { eager smallGenerics with avsParamsWrite := true } else eager smallGenerics

theorem stopInTen_later (k : ℕ) : stopInTen (11 + k) = eager smallGenerics := if_neg (by omega)

/-- Its four results are sent, and no more. -/
theorem polling_and_stopping_ten : ∃ r, ∀ m ≥ r,
    resultsSent (Component.programmed (Parts.plain smallGenerics) 2 2) stopInTen m = 4 := by
  have hpins : ∀ n, stopInTen n = eager smallGenerics ∨
      stopInTen n = { eager smallGenerics with avsParamsWrite := true } := fun n =>
    (ite_eq_or_eq (n = 10) _ _).symm
  have hconf : ∀ n, Configured 2 2 (run Component.step
      (Component.programmed (Parts.plain smallGenerics) 2 2) stopInTen n) := configured_of_no_strobe
    (configured_programmed (by decide) (by decide))
    (fun n => by rcases hpins n with h | h <;> rw [h] <;> rfl)
    (fun n => by rcases hpins n with h | h <;> rw [h] <;> rfl)
    (fun n => by rcases hpins n with h | h <;> rw [h] <;> rfl)
  have hrest :
      framesAtRest (Component.programmed (Parts.plain smallGenerics) 2 2) stopInTen 11 = 1 :=
    by decide +kernel
  obtain ⟨r, -, hr⟩ := ((polling_and_stopping (by decide)
    ⟨2, 2, by decide, by decide, by decide, by decide⟩ rfl hconf).2 11 (fun m hm => by
      obtain ⟨k, rfl⟩ := Nat.exists_eq_add_of_le hm
      have hquiet : ∀ k, (stopInTen (11 + k)).Quiet := fun k => by
        rw [stopInTen_later]
        exact eager_quiet _
      rw [run_add, Component.controlBit_run_of_quiet _ hquiet]
      decide +kernel)).2
    (fun n => ⟨n + 11, by omega, by rw [Nat.add_comm, stopInTen_later]; rfl⟩)
    (fun n => ⟨n + 11, by omega, by rw [Nat.add_comm, stopInTen_later]; rfl⟩)
  exact ⟨r, fun m hm => (hr m hm).2.2.trans (congrArg (· * 4) hrest)⟩

end FirFilter.Hardware
