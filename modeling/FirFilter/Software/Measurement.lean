import FirFilter.Hardware.PerformanceCounter
import FirFilter.Lib.BusMaster
import Mathlib.Data.List.GetD
/-!
# FirFilter.Software.Measurement

How `main.c` measures itself: the driver of the performance counter, the report, and the
accesses of one turn of the main loop.

The report stops the measurement before it reads anything, so the two halves of a time
belong together and every section is reported as of the same cycle, however long the reads
take. What it reports of `main.c` is not what the comments there say: the end of the
filtering is a second `PERF_BEGIN`, so section `2` runs on until the report stops it, and
counts two starts.
-/

namespace FirFilter.Software

open Clocked Tally BusMaster Hardware

/-- The slave of the performance counter. `readdata` is registered: it has the word in the
cycle after the read. -/
def counterBus : Device PerformanceCounter CounterPins (BitVec 4) (BitVec 32) where
  step := PerformanceCounter.step
  data c := c.readdata
  Idle x := x.resetN = true ∧ writeStrobe x = false
  Writes x a v := x.resetN = true ∧ writeStrobe x = true ∧ x.address = a ∧ x.writedata = v
  Reads x a := x.resetN = true ∧ writeStrobe x = false ∧ x.address = a

/-- A program on the bus of the performance counter. -/
abbrev Perf := Program (BitVec 4) (BitVec 32)

/-! ### The driver -/

/-- `PERF_BEGIN`. -/
def perfBegin (n : Fin 4) : Perf Unit := writeWord (counterAddr n 1) 0

/-- `PERF_END`. -/
def perfEnd (n : Fin 4) : Perf Unit := writeWord (counterAddr n 0) 0

/-- `PERF_RESET`. -/
def perfReset : Perf Unit := writeWord (counterAddr 0 0) 1

/-- `PERF_START_MEASURING`. -/
def perfStartMeasuring : Perf Unit := perfBegin 0

/-- `PERF_STOP_MEASURING`. -/
def perfStopMeasuring : Perf Unit := perfEnd 0

def perfGetSectionTime (n : Fin 4) : Perf (BitVec 64) := do
  perfStopMeasuring
  let lo ← readWord (counterAddr n 0)
  let hi ← readWord (counterAddr n 1)
  return hi.setWidth 64 <<< 32 ||| lo.setWidth 64

def perfGetTotalTime : Perf (BitVec 64) := perfGetSectionTime 0

def perfGetNumStarts (n : Fin 4) : Perf (BitVec 32) := readWord (counterAddr n 2)

/-- The numbers that `perf_print_formatted_report` prints, before they are scaled: the
clocks in all, and the clocks and the occurrences of each section. -/
structure Report where
  totalClocks : BitVec 64
  sections : List (BitVec 64 × BitVec 32)
  deriving DecidableEq

/-- The loop of `perf_print_formatted_report`. -/
def reportSections : List (Fin 4) → Perf (List (BitVec 64 × BitVec 32))
  | [] => return []
  | n :: ns => do
      let sectionClocks ← perfGetSectionTime n
      let starts ← perfGetNumStarts n
      let rest ← reportSections ns
      return (sectionClocks, starts) :: rest

/-- The sections from `1` to `num_sections`. -/
def reported (numSections : Fin 4) : List (Fin 4) :=
  (List.finRange 4).filter fun n => 1 ≤ n ∧ n ≤ numSections

/-- `perf_print_formatted_report`, for the sections that the slave has: with more than three
the loop reads past its registers. -/
def perfPrintFormattedReport (numSections : Fin 4) : Perf Report := do
  perfStopMeasuring
  let totalClocks ← perfGetTotalTime
  let sections ← reportSections (reported numSections)
  return ⟨totalClocks, sections⟩

/-- What one turn of the loop of `main.c` does to the performance counter. -/
def mainMeasurements : Perf Report := do
  perfReset
  perfStartMeasuring
  perfBegin 1 -- testing image padding
  perfEnd 1 -- end testing image padding
  perfBegin 2 -- testing image filtering
  perfBegin 2 -- end testing image filtering
  perfPrintFormattedReport 2

/-! ### Reading a counter that stands still -/

/-- The measurement is stopped, and the counters of the sections are those of `v`. -/
structure Frozen (v : Fin 4 → Section) (c : PerformanceCounter) : Prop where
  stopped : (c.sections 0).timeCounterEnable = false
  time (n : Fin 4) : (c.sections n).timeCounter = (v n).timeCounter
  events (n : Fin 4) : (c.sections n).eventCounter = (v n).eventCounter

variable {v : Fin 4 → Section}

/-- Nothing counts until the next start. -/
theorem Frozen.step {c : PerformanceCounter} {x : CounterPins} (h : Frozen v c)
    (hx : ¬ Clears x) (hgo : goStrobe 0 x = false) : Frozen v (c.step x) := by
  have hoff : c.globalEnable x = false := by simp [PerformanceCounter.globalEnable, h.stopped, hgo]
  constructor
  · simp [PerformanceCounter.step_counts hx, hgo, h.stopped]
  · simp [PerformanceCounter.step_counts hx, hoff, h.time]
  · simp [PerformanceCounter.step_counts hx, hoff, h.events]

theorem not_clears_of_no_strobe {x : CounterPins} (hr : x.resetN = true)
    (hw : writeStrobe x = false) : ¬ Clears x := by
  simp [Clears, hr, globalReset, stopStrobe, hw]

theorem Frozen.no_strobe {c : PerformanceCounter} {x : CounterPins} (h : Frozen v c)
    (hr : x.resetN = true) (hw : writeStrobe x = false) : Frozen v (c.step x) :=
  h.step (not_clears_of_no_strobe hr hw) (by simp [goStrobe, hw])

theorem frozen_stable : Stable counterBus (Frozen v) := fun _ _ h hidle =>
  h.no_strobe hidle.1 hidle.2

/-- `PERF_STOP_MEASURING` stops section `0` and clears nothing. -/
theorem stop_strobes {x : CounterPins} (h : counterBus.Writes x (counterAddr 0 0) 0) :
    stopStrobe 0 x = true ∧ goStrobe 0 x = false ∧ ¬ Clears x := by
  obtain ⟨hr, hw, ha, hv⟩ := h
  have hstop : stopStrobe 0 x = true := by simp [stopStrobe, ha, hw]
  refine ⟨hstop, ?_, ?_⟩
  · by_contra hgo
    exact not_stop_of_go (by simpa using hgo) hstop
  · simp [Clears, hr, globalReset, hv]

theorem stop_frozen : Triple counterBus (Frozen v) perfStopMeasuring fun _ => Frozen v :=
  Triple.write frozen_stable fun _ _ h hx =>
    h.step (stop_strobes hx).2.2 (stop_strobes hx).2.1

theorem read_frozen (n : Fin 4) {k : ℕ} (hk : k < 3) :
    Triple counterBus (Frozen v) (readWord (counterAddr n k))
      fun w c => w = (v n).word k ∧ Frozen v c := by
  refine Triple.read frozen_stable fun c x h hx => ⟨?_, h.no_strobe hx.1 hx.2.1⟩
  have hdata : (c.step x).readdata = c.readMuxOut x := by simp [PerformanceCounter.step, hx.1]
  show (c.step x).readdata = _
  rw [hdata, PerformanceCounter.readMuxOut_of_address hk hx.2.2]
  simp [Section.word, h.time, h.events]

/-- The two halves of a time. -/
theorem time_of_halves (t : BitVec 64) :
    (t.extractLsb' 32 32).setWidth 64 <<< 32 ||| (t.extractLsb' 0 32).setWidth 64 = t := by
  ext i hi
  simp
  grind

/-- A stop between two reads does not tear the time apart. -/
theorem sectionTime_frozen (n : Fin 4) : Triple counterBus (Frozen v) (perfGetSectionTime n)
    fun t c => t = (v n).timeCounter ∧ Frozen v c := by
  refine stop_frozen.bind fun _ => ?_
  refine (read_frozen n (by decide)).bind fun lo => Triple.assume fun hlo => ?_
  refine (read_frozen n (by decide)).bind fun hi => Triple.assume fun hhi => ?_
  refine Triple.pure fun c hv => ⟨?_, hv⟩
  rw [hlo, hhi]
  exact time_of_halves _

/-- The report of sections that hold `v`. -/
def reportOf (v : Fin 4 → Section) (ns : List (Fin 4)) : List (BitVec 64 × BitVec 32) :=
  ns.map fun n => ((v n).timeCounter, (v n).eventCounter.setWidth 32)

/-- The loop of the report, by induction on the sections left. -/
theorem reportSections_frozen (ns : List (Fin 4)) : Triple counterBus (Frozen v)
    (reportSections ns) fun rows c => rows = reportOf v ns ∧ Frozen v c := by
  induction ns with
  | nil => exact Triple.pure fun _ h => ⟨rfl, h⟩
  | cons n ns ih =>
      refine (sectionTime_frozen n).bind fun t => Triple.assume fun ht => ?_
      refine (read_frozen n (by decide)).bind fun w => Triple.assume fun hw => ?_
      refine ih.bind fun rest => Triple.assume fun hrest => ?_
      refine Triple.pure fun c hv => ⟨?_, hv⟩
      rw [ht, hw, hrest]
      rfl

/-- The report is of the cycle of its first stop. -/
theorem report_of_stop {s : PerformanceCounter} {inp : ℕ → CounterPins} {N : Fin 4} {n m : ℕ}
    {rep : Report} (hrun : Runs counterBus s inp (perfPrintFormattedReport N) n rep m) :
    ∃ stop, IdleUntil counterBus inp n stop ∧
      counterBus.Writes (inp stop) (counterAddr 0 0) 0 ∧ stop < m ∧
      let v := (run PerformanceCounter.step s inp (stop + 1)).sections
      rep = ⟨(v 0).timeCounter, reportOf v (reported N)⟩ := by
  obtain ⟨stop, hidle, hw, hrun⟩ := hrun.of_write
  refine ⟨stop, hidle, hw, Nat.lt_of_succ_le hrun.le, ?_⟩
  intro v
  obtain ⟨hstop, hgo, hclear⟩ := stop_strobes hw
  have hv : Frozen v (run counterBus.step s inp (stop + 1)) := by
    refine ⟨?_, fun _ => rfl, fun _ => rfl⟩
    change ((PerformanceCounter.step _ _).sections 0).timeCounterEnable = false
    simp [PerformanceCounter.step_counts hclear, hgo, hstop]
  obtain ⟨total, j, h1, hrun⟩ := hrun.of_bind
  obtain ⟨htotal, hv⟩ := sectionTime_frozen 0 s inp _ total j hv h1
  obtain ⟨rows, i, h2, hrun⟩ := hrun.of_bind
  obtain ⟨hrows, -⟩ := reportSections_frozen _ s inp j rows i hv h2
  cases hrun
  rw [htotal, hrows]

/-! ### What is reported -/

/-- **The report.** With the last clear in cycle `r`, the report is that of the cycle `stop`
in which it stops the measurement, its first access: in all, the cycles measured up to
then, and for each section its cycles and starts. -/
theorem report_exact {s : PerformanceCounter} {inp : ℕ → CounterPins} {N : Fin 4} {r n m : ℕ}
    {rep : Report} (hclear : Clears (inp r)) (hr : r < n)
    (hlast : ∀ k, r < k → k < n → ¬ Clears (inp k))
    (hrun : Runs counterBus s inp (perfPrintFormattedReport N) n rep m) :
    ∃ stop, n ≤ stop ∧ stop < m ∧ stopStrobe 0 (inp stop) = true ∧
      (∀ k, n ≤ k → k < stop → writeStrobe (inp k) = false) ∧
      rep.totalClocks = BitVec.ofNat 64 (tallied (Timed inp r 0) r (stop + 1)) ∧
      rep.sections = (reported N).map fun n =>
        (BitVec.ofNat 64 (tallied (Timed inp r n) r (stop + 1)),
          BitVec.ofNat 32 (tallied (Counted inp r n) r (stop + 1))) := by
  obtain ⟨stop, ⟨hle, hidle⟩, hw, hm, hrep⟩ := report_of_stop hrun
  obtain ⟨hstop, -, hnone⟩ := stop_strobes hw
  refine ⟨stop, hle, hm, hstop, fun k h1 h2 => (hidle k h1 h2).2, ?_⟩
  have hnoClear : ∀ k, r < k → k < stop + 1 → ¬ Clears (inp k) := by
    intro k h1 h2
    rcases Nat.lt_or_ge k n with hk | hk
    · exact hlast k h1 hk
    · rcases Nat.lt_succ_iff_lt_or_eq.mp h2 with hlt | rfl
      · exact not_clears_of_no_strobe (hidle k hk hlt).1 (hidle k hk hlt).2
      · exact hnone
  have hsections := fun i =>
    section_counts (c := s) hclear (Nat.lt_succ_of_lt (hr.trans_le hle)) hnoClear i
  simp only [hrep, reportOf, hsections]
  refine ⟨trivial, List.map_congr_left fun i _ => ?_⟩
  rw [BitVec.setWidth_ofNat_of_le (by decide)]

/-- The pins of a write, and of a read. -/
def writeCycle (a : BitVec 4) (v : BitVec 32) : CounterPins :=
  { address := a, begintransfer := true, write := true, writedata := v }

def readCycle (a : BitVec 4) : CounterPins := { address := a }

section

variable {ρ : Type} (p : Perf ρ)

/-- A reset, and the program without a pause. -/
def backToBack (n : ℕ) : CounterPins :=
  let wr := writeCycle (counterAddr 0 0) 1
  if n = 0 then wr
  else (p.drive counterBus writeCycle readCycle (PerformanceCounter.step {} wr)).1.getD (n - 1) {}

theorem writeCycle_writes (a : BitVec 4) (v : BitVec 32) :
    counterBus.Writes (writeCycle a v) a v := ⟨rfl, rfl, rfl, rfl⟩

theorem readCycle_reads (a : BitVec 4) : counterBus.Reads (readCycle a) a := ⟨rfl, rfl, rfl⟩

theorem backToBack_runs : ∃ m r, Runs counterBus {} (backToBack p) p 1 r m ∧
    r = (p.drive counterBus writeCycle readCycle
      (PerformanceCounter.step {} (writeCycle (counterAddr 0 0) 1))).2 := by
  refine ⟨_, _, runs_drive writeCycle_writes readCycle_reads p 1 fun i hi => ?_, rfl⟩
  rw [backToBack, if_neg (by omega), Nat.add_sub_cancel_left]
  exact List.getD_eq_getElem _ _ hi

end

/-- In the turn of `main.c` without a pause the report begins in cycle `7`, with one start of
section `1` and two of section `2` since the reset in cycle `1`. -/
theorem report_exact_turn : ∃ stop rep, 7 ≤ stop ∧
    rep = (⟨5, [(1, 1), (2, 2)]⟩ : Report) ∧
    rep.totalClocks = BitVec.ofNat 64 (tallied (Timed (backToBack mainMeasurements) 1 0) 1
      (stop + 1)) ∧
    rep.sections = (reported 2).map fun n =>
      (BitVec.ofNat 64 (tallied (Timed (backToBack mainMeasurements) 1 n) 1 (stop + 1)),
        BitVec.ofNat 32 (tallied (Counted (backToBack mainMeasurements) 1 n) 1 (stop + 1))) := by
  let pins := [writeCycle 0 0, writeCycle 0 0, readCycle 0, readCycle 1, writeCycle 0 0,
    readCycle 4, readCycle 5, readCycle 6, writeCycle 0 0, readCycle 8, readCycle 9, readCycle 10]
  have hdrive : (perfPrintFormattedReport 2).drive counterBus writeCycle readCycle
      (run counterBus.step {} (backToBack mainMeasurements) 7) =
        (pins, ⟨5, [(1, 1), (2, 2)]⟩) := rfl
  have hrun := runs_of_drive writeCycle_writes readCycle_reads hdrive (by decide)
  have hlast : ∀ k < 7, 1 < k → ¬ Clears (backToBack mainMeasurements k) := by decide
  obtain ⟨stop, hle, -, -, -, htotal, hsections⟩ := report_exact (r := 1) (by decide) (by decide)
    (fun k h1 h2 => hlast k h2 h1) hrun
  exact ⟨stop, _, hle, rfl, htotal, hsections⟩

/-! ### The turn of the main loop -/

section Strobes

variable {inp : ℕ → CounterPins} {r i j : ℕ} {accesses : List (ℕ × Fin 4 × ℕ)}

/-- The writes after cycle `r` and before cycle `j` are those of the list, each at its
cycle, section and register, and none of them clears. -/
structure Writes (inp : ℕ → CounterPins) (r j : ℕ) (accesses : List (ℕ × Fin 4 × ℕ)) : Prop where
  strobe_iff : ∀ m, r < m → m < j → ∀ n k, k < 4 →
    (writeStrobe (inp m) = true ∧ (inp m).address = counterAddr n k ↔ (m, n, k) ∈ accesses)
  noClear : ∀ m, r < m → m < j → ¬ Clears (inp m)
  range : ∀ a ∈ accesses, r < a.1 ∧ a.1 < j ∧ a.2.2 < 4

theorem Writes.nil : Writes inp r (r + 1) [] :=
  ⟨fun m h1 h2 => absurd h1 (by omega), fun m h1 h2 => absurd h1 (by omega), by simp⟩

/-- The next write of a program. -/
theorem Writes.append (h : Writes inp r i accesses) (hr : r < i)
    (hidle : IdleUntil counterBus inp i j)
    {n : Fin 4} {k : ℕ} (hk : k < 4) (hw : counterBus.Writes (inp j) (counterAddr n k) 0) :
    Writes inp r (j + 1) (accesses ++ [(j, n, k)]) := by
  obtain ⟨hle, hquiet⟩ := hidle
  obtain ⟨hreset, hstrobe, haddr, hdata⟩ := hw
  constructor
  · intro m h1 h2 n' k' hk'
    have hnew : (m, n', k') ∈ [(j, n, k)] ↔ m = j ∧ n' = n ∧ k' = k := by simp
    rw [List.mem_append, hnew]
    rcases Nat.lt_or_ge m i with hm | hm
    · rw [h.strobe_iff m h1 hm n' k' hk']
      have : m ≠ j := by omega
      simp [this]
    · have hold : (m, n', k') ∉ accesses := fun hmem => absurd (h.range _ hmem).2.1 (by simpa)
      rcases Nat.lt_succ_iff_lt_or_eq.mp h2 with hlt | rfl
      · have hno := (hquiet m hm hlt).2
        simp [hno, hold, hlt.ne]
      · simp [hstrobe, haddr, hold, counterAddr_inj hk hk', eq_comm]
  · intro m h1 h2
    rcases Nat.lt_or_ge m i with hm | hm
    · exact h.noClear m h1 hm
    · rcases Nat.lt_succ_iff_lt_or_eq.mp h2 with hlt | rfl
      · exact not_clears_of_no_strobe (hquiet m hm hlt).1 (hquiet m hm hlt).2
      · simp [Clears, hreset, globalReset, hdata]
  · intro a ha
    rcases List.mem_append.mp ha with hold | hnew
    · have := h.range a hold
      omega
    · obtain rfl : a = (j, n, k) := by simpa using hnew
      exact ⟨hr.trans_le hle, Nat.lt_succ_self j, hk⟩

theorem Writes.go_iff (h : Writes inp r j accesses) (n : Fin 4) {m : ℕ} (h1 : r < m) (h2 : m < j) :
    goStrobe n (inp m) = true ↔ (m, n, 1) ∈ accesses := by
  rw [← h.strobe_iff m h1 h2 n 1 (by decide), goStrobe, Bool.and_eq_true, beq_iff_eq, and_comm]

theorem Writes.stop_iff (h : Writes inp r j accesses) (n : Fin 4) {m : ℕ} (h1 : r < m)
    (h2 : m < j) : stopStrobe n (inp m) = true ↔ (m, n, 0) ∈ accesses := by
  rw [← h.strobe_iff m h1 h2 n 0 (by decide), stopStrobe, Bool.and_eq_true, beq_iff_eq, and_comm]

theorem Writes.strobe_iff_mem (h : Writes inp r j accesses) {m : ℕ} (h1 : r < m) (h2 : m < j) :
    writeStrobe (inp m) = true ↔ m ∈ accesses.map Prod.fst := by
  constructor
  · intro hs
    obtain ⟨n, k, hk, ha⟩ := exists_counterAddr (inp m).address
    exact List.mem_map.mpr ⟨_, (h.strobe_iff m h1 h2 n k hk).mp ⟨hs, ha⟩, rfl⟩
  · intro hm
    obtain ⟨⟨_, n, k⟩, ha, rfl⟩ := List.mem_map.mp hm
    exact ((h.strobe_iff _ h1 h2 n k (h.range _ ha).2.2).mpr ha).1

end Strobes

/-- The cycles of the writes of a turn of the main loop, up to the stop of the report. -/
structure Turn where
  reset : ℕ
  start : ℕ
  begin1 : ℕ
  end1 : ℕ
  begin2 : ℕ
  again : ℕ
  stop : ℕ

namespace Turn

/-- The writes after the reset. -/
def accesses (t : Turn) : List (ℕ × Fin 4 × ℕ) :=
  [(t.start, 0, 1), (t.begin1, 1, 1), (t.end1, 1, 0), (t.begin2, 2, 1), (t.again, 2, 1),
    (t.stop, 0, 0)]

structure InOrder (t : Turn) : Prop where
  reset_lt : t.reset < t.start
  start_lt : t.start < t.begin1
  begin1_lt : t.begin1 < t.end1
  end1_lt : t.end1 < t.begin2
  begin2_lt : t.begin2 < t.again
  again_lt : t.again < t.stop

section

variable {t : Turn} {inp : ℕ → CounterPins} (ho : t.InOrder)
  (hw : Writes inp t.reset (t.stop + 1) t.accesses)

include ho hw

/-! When the sections run. -/

theorem started0 {k : ℕ} (hk : k ≤ t.stop + 1) :
    Started inp t.reset 0 k ↔ t.start < k ∧ k ≤ t.stop := by
  obtain ⟨h1, h2, h3, h4, h5, h6⟩ := ho
  exact opened_iff_of_on_off h1 (by omega) (fun m h1 h2 => by simp [hw.go_iff 0 h1 h2, accesses])
    (fun m h1 h2 => by simp [hw.stop_iff 0 h1 h2, accesses]) hk

theorem started1 {k : ℕ} (hk : k ≤ t.stop + 1) :
    Started inp t.reset 1 k ↔ t.begin1 < k ∧ k ≤ t.end1 := by
  obtain ⟨h1, h2, h3, h4, h5, h6⟩ := ho
  exact opened_iff_of_on_off (by omega) h3 (fun m h1 h2 => by simp [hw.go_iff 1 h1 h2, accesses])
    (fun m h1 h2 => by simp [hw.stop_iff 1 h1 h2, accesses]) hk

/-- Nothing ends the filtering. -/
theorem started2 {k : ℕ} (hk : k ≤ t.stop + 1) : Started inp t.reset 2 k ↔ t.begin2 < k := by
  obtain ⟨h1, h2, h3, h4, h5, h6⟩ := ho
  refine opened_iff_of_first (by omega)
    ((hw.go_iff 2 (by omega) (by omega)).mpr (by simp [accesses])) (fun m h1 h2 hgo => ?_)
    (fun m h1 h2 hstop => ?_) hk
  · have : m = t.begin2 ∨ m = t.again := by simpa [accesses] using (hw.go_iff 2 h1 h2).mp hgo
    omega
  · simpa [accesses] using (hw.stop_iff 2 (by omega) h2).mp hstop

theorem measuring {k : ℕ} (h1 : t.reset < k) (h2 : k < t.stop + 1) :
    Measuring inp t.reset k ↔ t.start ≤ k := by
  rw [Measuring, started0 ho hw h2.le, hw.go_iff 0 h1 h2]
  simp [accesses]
  omega

/-! What they count. -/

theorem timed0 : tallied (Timed inp t.reset 0) t.reset (t.stop + 1) = t.stop - t.start := by
  refine tallied_of_interval ho.reset_lt.le (Nat.lt_succ_self _) fun k h1 h2 => ?_
  rw [Timed, measuring ho hw h1 h2, started0 ho hw h2.le]
  omega

theorem timed1 : tallied (Timed inp t.reset 1) t.reset (t.stop + 1) = t.end1 - t.begin1 := by
  obtain ⟨h1, h2, h3, h4, h5, h6⟩ := id ho
  refine tallied_of_interval (by omega) (by omega) fun k hk1 hk2 => ?_
  rw [Timed, measuring ho hw hk1 hk2, started1 ho hw hk2.le]
  omega

theorem timed2 : tallied (Timed inp t.reset 2) t.reset (t.stop + 1) = t.stop - t.begin2 := by
  obtain ⟨h1, h2, h3, h4, h5, h6⟩ := id ho
  refine tallied_of_interval (by omega) (Nat.lt_succ_self _) fun k hk1 hk2 => ?_
  rw [Timed, measuring ho hw hk1 hk2, started2 ho hw hk2.le]
  omega

theorem counted1 : tallied (Counted inp t.reset 1) t.reset (t.stop + 1) = 1 := by
  obtain ⟨h1, h2, h3, h4, h5, h6⟩ := id ho
  refine tallied_eq_card {t.begin1} (by simp; omega) fun k hk1 hk2 => ?_
  rw [Counted, measuring ho hw hk1 hk2, hw.go_iff 1 hk1 hk2]
  simp [accesses]
  omega

theorem counted2 : tallied (Counted inp t.reset 2) t.reset (t.stop + 1) = 2 := by
  obtain ⟨h1, h2, h3, h4, h5, h6⟩ := id ho
  rw [tallied_eq_card {t.begin2, t.again} (by simp; omega) fun k hk1 hk2 => ?_,
    Finset.card_pair h5.ne]
  rw [Counted, measuring ho hw hk1 hk2, hw.go_iff 2 hk1 hk2]
  simp [accesses]
  omega

end

end Turn

/-- `PERF_RESET` clears. -/
theorem clears_of_reset {x : CounterPins} (h : counterBus.Writes x (counterAddr 0 0) 1) :
    Clears x := by
  obtain ⟨hr, hs, ha, hd⟩ := h
  simp [Clears, globalReset, stopStrobe, hs, ha, hd]

/-- The seven writes of a turn, from an inversion of the program. -/
theorem exists_turn {s : PerformanceCounter} {inp : ℕ → CounterPins} {n m : ℕ} {rep : Report}
    (hrun : Runs counterBus s inp mainMeasurements n rep m) :
    ∃ t : Turn, t.InOrder ∧ n ≤ t.reset ∧ t.stop < m ∧
      (∀ k, n ≤ k → k < t.reset → writeStrobe (inp k) = false) ∧
      counterBus.Writes (inp t.reset) (counterAddr 0 0) 1 ∧
      (∀ a ∈ t.accesses, counterBus.Writes (inp a.1) (counterAddr a.2.1 a.2.2) 0) ∧
      Writes inp t.reset (t.stop + 1) t.accesses ∧
      let v := (run PerformanceCounter.step s inp (t.stop + 1)).sections
      rep = ⟨(v 0).timeCounter, reportOf v (reported 2)⟩ := by
  obtain ⟨reset, ⟨h0, hquiet⟩, hw0, hrun⟩ := hrun.of_write
  obtain ⟨start, i1, hw1, hrun⟩ := hrun.of_write
  obtain ⟨begin1, i2, hw2, hrun⟩ := hrun.of_write
  obtain ⟨end1, i3, hw3, hrun⟩ := hrun.of_write
  obtain ⟨begin2, i4, hw4, hrun⟩ := hrun.of_write
  obtain ⟨again, i5, hw5, hrun⟩ := hrun.of_write
  obtain ⟨stop, i6, hw6, hm, hrep⟩ := report_of_stop hrun
  obtain ⟨h1, h2, h3, h4, h5⟩ : reset < start ∧ start < begin1 ∧ begin1 < end1 ∧
      end1 < begin2 ∧ begin2 < again := ⟨i1.1, i2.1, i3.1, i4.1, i5.1⟩
  refine ⟨⟨reset, start, begin1, end1, begin2, again, stop⟩, ⟨h1, h2, h3, h4, h5, i6.1⟩, h0, hm,
    fun k h1 h2 => (hquiet k h1 h2).2, hw0, ?_, ?_, hrep⟩
  · simp only [Turn.accesses, List.forall_mem_cons]
    exact ⟨hw1, hw2, hw3, hw4, hw5, hw6, nofun⟩
  · have w1 := Writes.nil.append (Nat.lt_succ_self reset) i1 (by decide) hw1
    have w2 := w1.append (by omega) i2 (by decide) hw2
    have w3 := w2.append (by omega) i3 (by decide) hw3
    have w4 := w3.append (by omega) i4 (by decide) hw4
    have w5 := w4.append (by omega) i5 (by decide) hw5
    exact w5.append (by omega) i6 (by decide) hw6

/-- **What `main.c` reports.** Whatever the counter held before and however long the steps
take, a turn of the main loop makes seven writes up to the stop of the report: the reset,
which clears, and six that write `0`: the start, one begin and one end for the padding, two
begins for the filtering, and the stop. In all, the report counts the cycles from the start to
the stop. It counts the padding from its begin to its end and once, and the filtering from its
first begin to the stop of the report and twice. -/
theorem main_report {s : PerformanceCounter} {inp : ℕ → CounterPins} {n m : ℕ} {rep : Report}
    (hrun : Runs counterBus s inp mainMeasurements n rep m) :
    ∃ t : Turn, n ≤ t.reset ∧ t.InOrder ∧ t.stop < m ∧
      (∀ k, n ≤ k → k ≤ t.stop → (writeStrobe (inp k) = true ↔
        k = t.reset ∨ k ∈ t.accesses.map Prod.fst)) ∧
      counterBus.Writes (inp t.reset) (counterAddr 0 0) 1 ∧ Clears (inp t.reset) ∧
      (∀ a ∈ t.accesses, counterBus.Writes (inp a.1) (counterAddr a.2.1 a.2.2) 0) ∧
      rep = { totalClocks := BitVec.ofNat 64 (t.stop - t.start)
              sections := [(BitVec.ofNat 64 (t.end1 - t.begin1), 1),
                (BitVec.ofNat 64 (t.stop - t.begin2), 2)] } := by
  obtain ⟨t, ho, hn, hm, hbefore, hreset, hwrites, hw, hrep⟩ := exists_turn hrun
  have hclear := clears_of_reset hreset
  have hstop : t.reset < t.stop + 1 := by
    obtain ⟨h1, h2, h3, h4, h5, h6⟩ := ho
    omega
  refine ⟨t, hn, ho, hm, fun k h1 h2 => ?_, hreset, hclear, hwrites, ?_⟩
  · rcases Nat.lt_trichotomy k t.reset with hlt | rfl | hlt
    · have hnone : k ∉ t.accesses.map Prod.fst := fun hk => by
        obtain ⟨a, ha, rfl⟩ := List.mem_map.mp hk
        exact absurd (hw.range a ha).1 (Nat.not_lt_of_lt hlt)
      simp [hbefore k h1 hlt, hlt.ne, hnone]
    · simp [hreset.2.1]
    · rw [hw.strobe_iff_mem hlt (Nat.lt_succ_of_le h2)]
      simp [hlt.ne']
  · have hsections := fun i => section_counts (c := s) hclear hstop hw.noClear i
    simp only [hrep, reportOf, hsections]
    rw [show reported 2 = [1, 2] by decide, List.map_cons, List.map_singleton,
      Turn.timed0 ho hw, Turn.timed1 ho hw, Turn.timed2 ho hw, Turn.counted1 ho hw,
      Turn.counted2 ho hw]
    rfl

/-- Without a pause between the accesses. -/
theorem main_report_back_to_back : ∃ t : Turn, t.InOrder ∧
    ((5, [(1, 1), (2, 2)]) : BitVec 64 × List (BitVec 64 × BitVec 32)) =
      (BitVec.ofNat 64 (t.stop - t.start), [(BitVec.ofNat 64 (t.end1 - t.begin1), 1),
        (BitVec.ofNat 64 (t.stop - t.begin2), 2)]) := by
  obtain ⟨m, r, hrun, hr⟩ := backToBack_runs mainMeasurements
  obtain ⟨t, -, ho, -, -, -, -, -, hrep⟩ := main_report hrun
  have hvalue : r = ⟨5, [(1, 1), (2, 2)]⟩ := hr.trans (by decide)
  obtain ⟨htotal, hsections⟩ := Report.mk.inj (hvalue.symm.trans hrep)
  exact ⟨t, ho, Prod.ext htotal hsections⟩

end FirFilter.Software
