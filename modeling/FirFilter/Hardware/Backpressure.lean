import FirFilter.Hardware.Component
/-!
# FirFilter.Hardware.Backpressure

The output stream under backpressure. While a result is offered and not accepted
nothing that the result depends on moves, in `S3` as well as in `S6`, whatever
the input stream and the bus do; the only way to change the offered value is to
rewrite the low bits of a coefficient. When the sink accepts, the result is
transferred, and it is not offered a second time: `aso_out_valid` stays low until
another value has been shifted in.
-/

namespace FirFilter.Hardware

open Clocked

variable {g : Generics} {P : Parts g}

/-- The bus access of this cycle writes a coefficient register and alters the bits
the datapath reads. -/
def AltersCoeff (s : Component P) (x : Pins g) : Prop :=
  x.avsParamsWrite = true ∧ ∃ i : Fin (g.kernelSize * g.kernelSize),
    x.avsParamsAddress = coeffsAddr g i ∧
      x.avsParamsWritedata.extractLsb' 0 g.coeffWidth ≠ s.regs.coeffsShrink i

/-- The sink does not accept. -/
def Stalls (x : Pins g) : Prop := x.reset = false ∧ x.asoOutReady = false

/-- The data of the output transfers in the first `n` cycles of a run. -/
def sentDuring (s : Component P) (inp : ℕ → Pins g) (n : ℕ) : List (BitVec 16) :=
  ((List.range n).filter fun m => (run Component.step s inp m).transfers (inp m)).map
    fun m => (run Component.step s inp m).asoOutData

section Cycle

variable {s : Component P} {x : Pins g}

theorem coeffsShrink_step (hr : x.reset = false) (ha : ¬ AltersCoeff s x) :
    (s.step x).regs.coeffsShrink = s.regs.coeffsShrink := by
  funext i
  rw [Component.step_regs hr, Registers.edge_coeffsShrink]
  split
  · rename_i hw
    obtain ⟨hstrobe, hi⟩ := hw
    rw [hi] at hstrobe
    obtain ⟨hwrite, haddr⟩ : x.avsParamsWrite = true ∧ x.avsParamsAddress = coeffsAddr g i := by
      simpa [coeffsStrobe] using hstrobe
    by_contra hne
    exact ha ⟨hwrite, i, haddr, hne⟩
  · rfl

theorem outValid_iff : s.outValid ↔
    s.control.currentState = .S3 ∨ s.control.currentState = .S6 := by
  unfold Component.outValid
  cases s.control.currentState <;> simp [asoOutValid]

/-- A result is offered only in states that neither accept input nor shift. -/
theorem not_shift_of_outValid (hv : s.outValid) :
    s.accepts x = false ∧ s.shiftEnable x = false := by
  rcases outValid_iff.mp hv with h | h <;>
    simp [Component.accepts, Component.asiInReady, Component.shiftEnable, shiftEnable, h,
      intAsiInReady]

/-- **One stalled cycle.** -/
theorem step_of_stalls (hv : s.outValid) (hx : Stalls x) :
    (s.step x).control = s.control ∧ (s.step x).process = s.process := by
  constructor
  · rw [Component.step_control hx.1]
    exact (Transition.stall (outValid_iff.mp hv) hx.2).edge_eq
  · rw [Component.step_process hx.1, (not_shift_of_outValid hv).2]
    rfl

theorem outValid_of_control {s' : Component P} (h : s'.control = s.control) :
    s'.outValid = s.outValid := by
  unfold Component.outValid
  rw [h]

/-- The offered value depends on the bank and on the low bits of the coefficients. -/
theorem asoOutData_congr {s' : Component P} (hp : s'.process = s.process)
    (hc : s'.regs.coeffsShrink = s.regs.coeffsShrink) : s'.asoOutData = s.asoOutData := by
  unfold Component.asoOutData Component.rawResult
  rw [hp, hc]

end Cycle

/-! ### After the transfer -/

/-- No result is pending: one has to be shifted in first. -/
def Spent (st : State) : Prop := st ≠ .S3 ∧ st ≠ .S6 ∧ st ≠ .S8

theorem Spent.not_valid {st : State} (h : Spent st) : asoOutValid st = false := by
  cases st <;> simp_all [Spent, asoOutValid]

theorem Transition.spent_of_transfer {c c' : Control} {x : Signals} (h : Transition g x c c')
    (hv : asoOutValid c.currentState) (hr : x.asoOutReady) : Spent c'.currentState := by
  cases h with
  | stall hs hstall => rw [hr] at hstall; cases hstall
  | send | rowEnd | inputEnd | drain | frameEnd => exact ⟨nofun, nofun, nofun⟩
  | await hs => rcases hs with hs | hs | hs <;> rw [hs] at hv <;> cases hv
  | idle hs | start hs | fill hs | filled hs | discard hs | rowStart hs | next hs | flush hs
  | lastRowStart hs | push hs | pause hs | resume hs => rw [hs] at hv; cases hv

theorem Transition.spent_of_no_shift {c c' : Control} {x : Signals} (h : Transition g x c c')
    (hs : Spent c.currentState) (hn : shiftEnable c.currentState x.asiInValid = false) :
    Spent c'.currentState := by
  cases h with
  | idle | await => exact hs
  | start | rowEnd | inputEnd | drain | frameEnd | send | filled => exact ⟨nofun, nofun, nofun⟩
  | stall h0 => rcases h0 with h0 | h0 <;> simp [Spent, h0] at hs
  | fill h0 hv | discard h0 hv | rowStart h0 hv | next h0 hv =>
      simp [shiftEnable, h0, hv, intAsiInReady] at hn
  | flush h0 | lastRowStart h0 | push h0 => simp [shiftEnable, h0] at hn
  | pause h0 | resume h0 => exact absurd h0 hs.2.2

/-! ### A stall of any length -/

section Run

variable {s : Component P} {inp : ℕ → Pins g} {n : ℕ}

/-- Through a stall the machine and its memories stay as they are, and the offered
value too unless a coefficient is rewritten. -/
theorem stall_run (hv : s.outValid) (hx : ∀ m < n, Stalls (inp m)) :
    (run Component.step s inp n).control = s.control ∧
      (run Component.step s inp n).process = s.process ∧
      ((∀ m < n, ¬ AltersCoeff (run Component.step s inp m) (inp m)) →
        (run Component.step s inp n).asoOutData = s.asoOutData) := by
  induction n with
  | zero => exact ⟨rfl, rfl, fun _ => rfl⟩
  | succ n ih =>
      obtain ⟨hctl, hproc, hdata⟩ := ih fun m hm => hx m (by omega)
      have hvn : (run Component.step s inp n).outValid := by rwa [outValid_of_control hctl]
      obtain ⟨hctl', hproc'⟩ := step_of_stalls hvn (hx n (by omega))
      refine ⟨hctl'.trans hctl, hproc'.trans hproc, fun ha => ?_⟩
      rw [run_succ, asoOutData_congr hproc'
        (coeffsShrink_step (hx n (by omega)).1 (ha n (by omega)))]
      exact hdata fun m hm => ha m (by omega)

theorem sentDuring_succ : sentDuring s inp (n + 1) =
    sentDuring s inp n ++ if (run Component.step s inp n).transfers (inp n) then
      [(run Component.step s inp n).asoOutData] else [] := by
  unfold sentDuring
  rw [List.range_succ, List.filter_append, List.map_append, List.filter_singleton]
  split <;> simp_all

/-- Nothing is transferred during a stall. -/
theorem sentDuring_stall (hx : ∀ m < n, Stalls (inp m)) : sentDuring s inp n = [] := by
  induction n with
  | zero => rfl
  | succ n ih =>
      rw [sentDuring_succ, ih fun m hm => hx m (by omega)]
      simp [Component.transfers, (hx n (by omega)).2]

/-- After a transfer nothing is offered until a value has been shifted in. -/
theorem not_offered_after_transfer (hv : s.outValid) (hr : (inp 0).reset = false)
    (hready : (inp 0).asoOutReady)
    (hquiet : ∀ m, 0 < m → m ≤ n → (inp m).reset = false ∧
      (run Component.step s inp m).shiftEnable (inp m) = false) :
    (run Component.step s inp (n + 1)).outValid = false := by
  suffices h : Spent (run Component.step s inp (n + 1)).control.currentState from h.not_valid
  induction n with
  | zero => exact (Component.step_transition hr).spent_of_transfer hv hready
  | succ n ih =>
      obtain ⟨hr', hs'⟩ := hquiet (n + 1) (by omega) le_rfl
      exact (Component.step_transition hr').spent_of_no_shift
        (ih fun m h0 hm => hquiet m h0 (by omega)) hs'

end Run

/-- **The output stream is backpressure-safe.** While a result is offered and not
accepted, it stays offered, no beat is accepted, and the memories, the counters and
the state do not change; the value changes only with the low bits of a coefficient.
So however long the sink stalls, the first cycle in which it accepts transfers the
offered result, that is the only transfer, and nothing is offered again before
another value has been shifted in. -/
theorem backpressure_safe (s : Component P) (hv : s.outValid) :
    (∀ x : Pins g, Stalls x →
      (s.step x).outValid ∧ s.accepts x = false ∧ (s.step x).process = s.process ∧
        (s.step x).control = s.control ∧
        (¬ AltersCoeff s x → (s.step x).asoOutData = s.asoOutData)) ∧
    ∀ (inp : ℕ → Pins g) (n : ℕ), (∀ m < n, Stalls (inp m)) →
      (inp n).reset = false → (inp n).asoOutReady →
      sentDuring s inp (n + 1) = [(run Component.step s inp n).asoOutData] ∧
      (run Component.step s inp n).process = s.process ∧
      (run Component.step s inp n).control = s.control ∧
      ((∀ m < n, ¬ AltersCoeff (run Component.step s inp m) (inp m)) →
        (run Component.step s inp n).asoOutData = s.asoOutData) ∧
      ∀ k, (∀ m, n < m → m ≤ n + k → (inp m).reset = false ∧
          (run Component.step s inp m).shiftEnable (inp m) = false) →
        (run Component.step s inp (n + 1 + k)).outValid = false := by
  constructor
  · intro x hx
    obtain ⟨hctl, hproc⟩ := step_of_stalls hv hx
    refine ⟨?_, (not_shift_of_outValid hv).1, hproc, hctl, fun ha => ?_⟩
    · rwa [outValid_of_control hctl]
    · exact asoOutData_congr hproc (coeffsShrink_step hx.1 ha)
  · intro inp n hx hr hready
    obtain ⟨hctl, hproc, hdata⟩ := stall_run hv hx
    have hvn : (run Component.step s inp n).outValid := by rwa [outValid_of_control hctl]
    refine ⟨?_, hproc, hctl, hdata, fun k hk => ?_⟩
    · have htr : (run Component.step s inp n).transfers (inp n) = true := by
        simp [Component.transfers, hready, hvn]
      rw [sentDuring_succ, sentDuring_stall hx, htr]
      rfl
    · rw [show n + 1 + k = n + (k + 1) by omega, run_add]
      refine not_offered_after_transfer hvn hr hready fun m h0 hm => ?_
      rw [← run_add]
      exact hk (n + m) (by omega) (by omega)

/-- A result on offer in `S3`, while the width is rewritten. -/
theorem backpressure_safe_rewrite :
    let s : Component (Parts.plain shipped) :=
      { Component.programmed (Parts.plain shipped) 2 3 with control := { currentState := .S3 } }
    (s.step { avsParamsWrite := true, avsParamsAddress := 2, avsParamsWritedata := 1 }).outValid :=
  ((backpressure_safe _ rfl).1 _ ⟨rfl, rfl⟩).1

end FirFilter.Hardware
