import FirFilter.Lib.Clocked
import FirFilter.Lib.Tally
import Mathlib.Algebra.GroupWithZero.Nat
import Mathlib.Tactic.FinCases
/-!
# FirFilter.Hardware.PerformanceCounter

The performance counter that `main.c` measures itself with.

Four sections count cycles and starts. A write to register `4n + 1` starts section `n` and
one to `4n` stops it. Section `0` is the global one: no section counts while it is stopped,
and bit `0` of what is written to register `0` resets them all. `global_enable` looks
through to the write of the same cycle and `time_counter_enable` does not, so the write that
starts the measurement is itself counted as a start, but its cycle not as time.

`section_counts` says what the counters hold in terms of the writes alone.
-/

namespace FirFilter.Hardware

open Clocked Tally

/-- The pins of the slave. `resetN` is active low. -/
structure CounterPins where
  resetN : Bool := true
  address : BitVec 4 := 0
  begintransfer : Bool := false
  write : Bool := false
  writedata : BitVec 32 := 0
  deriving DecidableEq

/-- The registers of one section. -/
structure Section where
  timeCounter : BitVec 64 := 0
  eventCounter : BitVec 64 := 0
  timeCounterEnable : Bool := false
  deriving DecidableEq

/-- Literals name the sections. -/
instance sections_neZero : NeZero 4 := ⟨by decide⟩

/-- The words of a section: the time in two halves, and the low 32 bits of the starts. -/
def Section.word (s : Section) (k : ℕ) : BitVec 32 :=
  if k = 0 then s.timeCounter.extractLsb' 0 32
  else if k = 1 then s.timeCounter.extractLsb' 32 32
  else s.eventCounter.setWidth 32

structure PerformanceCounter where
  sections : Fin 4 → Section := fun _ => {}
  readdata : BitVec 32 := 0
  deriving DecidableEq

/-! ### Strobes -/

/-- Register `k` of section `n`. -/
def counterAddr (n : Fin 4) (k : ℕ) : BitVec 4 := BitVec.ofNat 4 (4 * n.val + k)

def writeStrobe (x : CounterPins) : Bool := x.write && x.begintransfer

/-- `stop_strobe_n`. -/
def stopStrobe (n : Fin 4) (x : CounterPins) : Bool := x.address == counterAddr n 0 && writeStrobe x

/-- `go_strobe_n`. -/
def goStrobe (n : Fin 4) (x : CounterPins) : Bool := x.address == counterAddr n 1 && writeStrobe x

def globalReset (x : CounterPins) : Bool := stopStrobe 0 x && x.writedata.getLsbD 0

namespace PerformanceCounter

def globalEnable (c : PerformanceCounter) (x : CounterPins) : Bool :=
  (c.sections 0).timeCounterEnable || goStrobe 0 x

/-! ### The processes -/

/-- The three processes of a section. -/
def sectionEdge (c : PerformanceCounter) (x : CounterPins) (n : Fin 4) : Section where
  timeCounter :=
    let s := c.sections n
    if (s.timeCounterEnable && c.globalEnable x) || globalReset x then
      if globalReset x then 0 else s.timeCounter + 1
    else s.timeCounter
  eventCounter :=
    let s := c.sections n
    if (goStrobe n x && c.globalEnable x) || globalReset x then
      if globalReset x then 0 else s.eventCounter + 1
    else s.eventCounter
  timeCounterEnable :=
    if stopStrobe n x || globalReset x then false
    else if goStrobe n x then true
    else (c.sections n).timeCounterEnable

/-- `{32 {b}} & w`. -/
def mask (b : Bool) (w : BitVec 32) : BitVec 32 := BitVec.fill 32 b &&& w

/-- The terms of `read_mux_out` for section `n`. -/
def readSection (c : PerformanceCounter) (x : CounterPins) (n : Fin 4) : BitVec 32 :=
  mask (x.address == counterAddr n 0) ((c.sections n).timeCounter.extractLsb' 0 32) |||
  mask (x.address == counterAddr n 1) ((c.sections n).timeCounter.extractLsb' 32 32) |||
  mask (x.address == counterAddr n 2) ((c.sections n).eventCounter.setWidth 32)

/-- `read_mux_out`. -/
def readMuxOut (c : PerformanceCounter) (x : CounterPins) : BitVec 32 :=
  c.readSection x 0 ||| c.readSection x 1 ||| c.readSection x 2 ||| c.readSection x 3

/-- One clock edge. -/
def step (c : PerformanceCounter) (x : CounterPins) : PerformanceCounter :=
  if x.resetN then { sections := c.sectionEdge x, readdata := c.readMuxOut x } else {}

end PerformanceCounter

/-! ### What a cycle does -/

/-- The cycle clears every section. -/
def Clears (x : CounterPins) : Prop := x.resetN = false ∨ globalReset x = true

instance (x : CounterPins) : Decidable (Clears x) := inferInstanceAs (Decidable (_ ∨ _))

/-- The registers have addresses of their own. -/
theorem counterAddr_inj {n n' : Fin 4} {k k' : ℕ} (hk : k < 4) (hk' : k' < 4) :
    counterAddr n k = counterAddr n' k' ↔ n = n' ∧ k = k' := by
  rw [counterAddr, counterAddr, BitVec.toNat_eq, BitVec.toNat_ofNat, BitVec.toNat_ofNat]
  omega

/-- Every address is that of a register. -/
theorem exists_counterAddr (a : BitVec 4) : ∃ n k, k < 4 ∧ a = counterAddr n k := by
  have ha := a.isLt
  refine ⟨⟨a.toNat / 4, by omega⟩, a.toNat % 4, Nat.mod_lt _ (by decide), ?_⟩
  rw [counterAddr, BitVec.toNat_eq, BitVec.toNat_ofNat]
  simp only []
  omega

theorem not_stop_of_go {n : Fin 4} {x : CounterPins} (h : goStrobe n x = true) :
    ¬ stopStrobe n x = true := by
  simp only [goStrobe, stopStrobe, Bool.and_eq_true, beq_iff_eq] at h ⊢
  rw [h.1, counterAddr_inj (by decide) (by decide)]
  simp

namespace PerformanceCounter

variable {c : PerformanceCounter} {x : CounterPins}

/-- A clear leaves every section as after power-up. -/
theorem step_clears (h : Clears x) (n : Fin 4) : (c.step x).sections n = {} := by
  rcases h with h | h
  · simp [step, h]
  · unfold step
    split <;> simp [sectionEdge, h]

/-- Every other cycle counts in the sections that run, and switches the one the bus
addresses. -/
theorem step_counts (h : ¬ Clears x) (n : Fin 4) :
    (c.step x).sections n =
      { timeCounter := (c.sections n).timeCounter +
          if (c.sections n).timeCounterEnable ∧ c.globalEnable x then 1 else 0
        eventCounter := (c.sections n).eventCounter +
          if goStrobe n x ∧ c.globalEnable x then 1 else 0
        timeCounterEnable :=
          goStrobe n x || (c.sections n).timeCounterEnable && !stopStrobe n x } := by
  simp only [Clears, not_or, Bool.not_eq_false, Bool.not_eq_true] at h
  rw [step, if_pos h.1]
  simp only [sectionEdge, h.2, Bool.or_false, Section.mk.injEq, Bool.and_eq_true]
  refine ⟨?_, ?_, ?_⟩
  · split <;> simp
  · split <;> simp
  · have := @not_stop_of_go n x
    cases hgo : goStrobe n x <;> cases hstop : stopStrobe n x <;> simp_all

/-! ### What software reads -/

@[simp] theorem mask_true (w : BitVec 32) : mask true w = w := BitVec.allOnes_and

@[simp] theorem mask_false (w : BitVec 32) : mask false w = 0 := BitVec.zero_and

/-- The read multiplexer selects register `k` of section `n` at its address. -/
theorem readMuxOut_of_address {n : Fin 4} {k : ℕ} (hk : k < 3)
    (hx : x.address = counterAddr n k) : c.readMuxOut x = (c.sections n).word k := by
  have hsection : ∀ m, c.readSection x m = if n = m then (c.sections n).word k else 0 := by
    intro m
    have hbeq : ∀ i < 3, (x.address == counterAddr m i) = decide (n = m ∧ k = i) := by
      intro i hi
      rw [hx, Bool.eq_iff_iff, beq_iff_eq, decide_eq_true_iff,
        counterAddr_inj (by omega) (by omega)]
    rw [readSection, hbeq 0 (by decide), hbeq 1 (by decide), hbeq 2 (by decide)]
    by_cases hn : n = m
    · subst hn
      obtain rfl | rfl | rfl : k = 0 ∨ k = 1 ∨ k = 2 := by omega
      all_goals simp [Section.word]
    · simp [hn]
  rw [readMuxOut, hsection, hsection, hsection, hsection]
  fin_cases n <;> simp

end PerformanceCounter

/-! ### What the counters count -/

variable (inp : ℕ → CounterPins) (r : ℕ)

/-- Section `n` is started in cycle `k`, and not stopped since. -/
def Started (n : Fin 4) (k : ℕ) : Prop :=
  Opened (fun m => goStrobe n (inp m)) (fun m => stopStrobe n (inp m)) r k

/-- The measurement is on in cycle `k`. -/
def Measuring (k : ℕ) : Prop := Started inp r 0 k ∨ goStrobe 0 (inp k)

/-- Cycle `k` is time of section `n`. -/
def Timed (n : Fin 4) (k : ℕ) : Prop := Started inp r n k ∧ Measuring inp r k

/-- In cycle `k` section `n` is started, and that counts. -/
def Counted (n : Fin 4) (k : ℕ) : Prop := goStrobe n (inp k) ∧ Measuring inp r k

variable {inp r}

theorem started_succ {n : Fin 4} {N : ℕ} (hr : r < N) : Started inp r n (N + 1) ↔
    goStrobe n (inp N) ∨ Started inp r n N ∧ ¬ stopStrobe n (inp N) :=
  opened_succ (n := N) hr fun h => not_stop_of_go h

/-- A 64-bit counter of the cycles in which `p` holds. -/
theorem ofNat_tallied_succ {p : ℕ → Prop} {q : Prop} {dec : Decidable q} {N : ℕ} (hr : r < N)
    (h : q ↔ p N) : BitVec.ofNat 64 (tallied p r (N + 1)) =
      BitVec.ofNat 64 (tallied p r N) + if q then 1 else 0 := by
  rw [tallied_succ hr, BitVec.ofNat_add]
  by_cases hq : q
  · rw [if_pos hq, if_pos (h.mp hq)]
    rfl
  · rw [if_neg hq, if_neg fun hp => hq (h.mpr hp)]
    rfl

open Classical in
/-- **Run lemma.** What the sections hold since the last clear, in cycle `r`. -/
theorem section_counts {c : PerformanceCounter} {N : ℕ} (hclear : Clears (inp r)) (hr : r < N)
    (hlast : ∀ k, r < k → k < N → ¬ Clears (inp k)) (n : Fin 4) :
    (run PerformanceCounter.step c inp N).sections n =
      { timeCounter := BitVec.ofNat 64 (tallied (Timed inp r n) r N)
        eventCounter := BitVec.ofNat 64 (tallied (Counted inp r n) r N)
        timeCounterEnable := decide (Started inp r n N) } := by
  induction N, hr using Nat.le_induction generalizing n with
  | base =>
      rw [run_succ, PerformanceCounter.step_clears hclear]
      simp [tallied_start, Started, not_opened_succ]
  | succ N hr ih =>
      have hN : ¬ Clears (inp N) := hlast N hr (Nat.lt_succ_self N)
      have hsec := fun n => ih (fun k h1 h2 => hlast k h1 (Nat.lt_succ_of_lt h2)) n
      have henable : (run PerformanceCounter.step c inp N).globalEnable (inp N) ↔
          Measuring inp r N := by
        simp [PerformanceCounter.globalEnable, hsec, Measuring]
      rw [run_succ, PerformanceCounter.step_counts hN, hsec n]
      simp only [Section.mk.injEq, decide_eq_true_iff, henable]
      refine ⟨(ofNat_tallied_succ hr Iff.rfl).symm, (ofNat_tallied_succ hr Iff.rfl).symm, ?_⟩
      rw [Bool.eq_iff_iff]
      simp [started_succ hr]

end FirFilter.Hardware
