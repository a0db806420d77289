import Mathlib.Data.Nat.Find
import Mathlib.Data.List.Basic
/-!
# FirFilter.Lib.Clocked

**Synchronous machines** driven by an unbounded input sequence.

A clocked machine is a plain function `step : σ → ι → σ`: the state after a
clock edge, from the state before it and the values on the input pins during
the cycle. `run step s inp n` is the state in cycle `n`. Nothing here depends
on what the machine does; the module packages the four arguments every
verification of a clocked design repeats:

* **invariants** — `run_induction` lifts a step lemma to every cycle of a run,
  under a side condition that is only required of the cycles already passed;
* **simulation** — `run_simulation` does the same for a relation between two machines;
* **monitors** — `watch` runs a history recorder next to the machine without
  disturbing it (`run_watch_fst`), so that "the number of transfers so far" is
  an ordinary state component that an invariant can mention;
* **progress** — `exists_wait` and `exists_of_rank`: a machine that keeps still
  until an event that recurs forever, and moves down a rank when it happens,
  reaches its goal.
-/

namespace FirFilter.Clocked

variable {σ ι μ : Type*}

/-! ### Runs -/

/-- The state in cycle `n` of the run from `s` under the input sequence `inp`. -/
def run (step : σ → ι → σ) (s : σ) (inp : ℕ → ι) : ℕ → σ
  | 0 => s
  | n + 1 => step (run step s inp n) (inp n)

@[simp] theorem run_zero (step : σ → ι → σ) (s : σ) (inp : ℕ → ι) :
    run step s inp 0 = s := rfl

theorem run_succ (step : σ → ι → σ) (s : σ) (inp : ℕ → ι) (n : ℕ) :
    run step s inp (n + 1) = step (run step s inp n) (inp n) := rfl

/-- A run of `m + n` cycles is a run of `m` cycles followed by one of `n` on the
remaining inputs. -/
theorem run_add (step : σ → ι → σ) (s : σ) (inp : ℕ → ι) (m n : ℕ) :
    run step s inp (m + n) = run step (run step s inp m) (fun k => inp (m + k)) n := by
  induction n with
  | zero => rfl
  | succ n ih => rw [← Nat.add_assoc, run_succ, run_succ, ih]

/-- A run depends only on the inputs of the cycles passed. -/
theorem run_congr (step : σ → ι → σ) (s : σ) {inp inp' : ℕ → ι} {n : ℕ}
    (h : ∀ m < n, inp m = inp' m) : run step s inp n = run step s inp' n := by
  induction n with
  | zero => rfl
  | succ n ih =>
      rw [run_succ, run_succ, ih fun m hm => h m (Nat.lt_succ_of_lt hm),
        h n (Nat.lt_succ_self n)]

/-- **Invariant rule.** `I` holds initially and each cycle that satisfies `ok`
preserves it, so it holds as long as every cycle passed was `ok`. -/
theorem run_induction {step : σ → ι → σ} {s : σ} {inp : ℕ → ι} {I : σ → Prop}
    (ok : σ → ι → Prop) (init : I s)
    (pres : ∀ s i, ok s i → I s → I (step s i)) {n : ℕ}
    (hok : ∀ m < n, ok (run step s inp m) (inp m)) : I (run step s inp n) := by
  induction n with
  | zero => exact init
  | succ n ih =>
      exact pres _ _ (hok n (Nat.lt_succ_self n)) (ih fun m hm => hok m (Nat.lt_succ_of_lt hm))

/-- **Latch rule.** What an event of a cycle passed has set, and every cycle keeps, holds. -/
theorem run_of_set {step : σ → ι → σ} {s : σ} {inp : ℕ → ι} {I : σ → Prop} {E : ι → Prop}
    (hset : ∀ n, E (inp n) → I (run step s inp (n + 1)))
    (hkeep : ∀ n, I (run step s inp n) → I (run step s inp (n + 1))) {n : ℕ}
    (h : ∃ m < n, E (inp m)) : I (run step s inp n) := by
  obtain ⟨m, hm, he⟩ := h
  induction n with
  | zero => exact absurd hm (Nat.not_lt_zero m)
  | succ n ih =>
      rcases Nat.lt_succ_iff_lt_or_eq.mp hm with hlt | rfl
      · exact hkeep n (ih hlt)
      · exact hset m he

/-- Inputs that are computed from the state they meet, as by a source that counts the
handshakes. -/
theorem exists_feedback (step : σ → ι → σ) (s : σ) (drive : σ → ι) :
    ∃ inp : ℕ → ι, ∀ n, inp n = drive (run step s inp n) := by
  let loop : ℕ → σ := run (fun t (_ : Unit) => step t (drive t)) s fun _ => ()
  have hrun : ∀ n, run step s (fun n => drive (loop n)) n = loop n := by
    intro n
    induction n with
    | zero => rfl
    | succ n ih => rw [run_succ, ih]; rfl
  exact ⟨fun n => drive (loop n), fun n => by rw [hrun]⟩

/-! ### Simulation -/

/-- **Simulation rule.** A relation that every cycle preserves, on the inputs that
`obs` shows the second machine, relates two runs. -/
theorem run_simulation {τ κ : Type*} {step : σ → ι → σ} {step' : τ → κ → τ} {obs : ι → κ}
    {R : σ → τ → Prop} {s : σ} {t : τ} (init : R s t)
    (pres : ∀ s t i, R s t → R (step s i) (step' t (obs i))) (inp : ℕ → ι) (n : ℕ) :
    R (run step s inp n) (run step' t (fun k => obs (inp k)) n) := by
  induction n with
  | zero => exact init
  | succ n ih => exact pres _ _ _ ih

/-! ### Monitors -/

/-- Run the recorder `record` next to the machine. It sees the state and the
pins of each cycle, and the machine does not see it. -/
def watch (step : σ → ι → σ) (record : μ → σ → ι → μ) (p : σ × μ) (i : ι) : σ × μ :=
  (step p.1 i, record p.2 p.1 i)

@[simp] theorem watch_fst (step : σ → ι → σ) (record : μ → σ → ι → μ) (p : σ × μ) (i : ι) :
    (watch step record p i).1 = step p.1 i := rfl

@[simp] theorem watch_snd (step : σ → ι → σ) (record : μ → σ → ι → μ) (p : σ × μ) (i : ι) :
    (watch step record p i).2 = record p.2 p.1 i := rfl

/-- Watching a machine does not change its run. -/
theorem run_watch_fst (step : σ → ι → σ) (record : μ → σ → ι → μ) (p : σ × μ)
    (inp : ℕ → ι) (n : ℕ) :
    (run (watch step record) p inp n).1 = run step p.1 inp n := by
  induction n with
  | zero => rfl
  | succ n ih => rw [run_succ, watch_fst, ih, run_succ]

/-! ### Progress -/

/-- A machine that keeps `P` until the event `ev`, under inputs where the event
keeps being offered, gets to the event with `P` still true. -/
theorem exists_wait {step : σ → ι → σ} {s : σ} {inp : ℕ → ι} {P : σ → Prop} {ev : ι → Prop}
    (fair : ∀ n, ∃ m ≥ n, ev (inp m)) {n : ℕ} (hP : P (run step s inp n))
    (keep : ∀ m ≥ n, ¬ ev (inp m) → P (run step s inp m) → P (run step s inp (m + 1))) :
    ∃ m ≥ n, P (run step s inp m) ∧ ev (inp m) := by
  classical
  have hex : ∃ d, ev (inp (n + d)) := by
    obtain ⟨m, hm, he⟩ := fair n
    exact ⟨m - n, by rwa [Nat.add_sub_of_le hm]⟩
  -- wait for the first offer: `P` is kept through all the cycles before it
  have stays : ∀ d ≤ Nat.find hex, P (run step s inp (n + d)) := by
    intro d
    induction d with
    | zero => intro _; exact hP
    | succ d ih =>
        intro hd
        have hno : ¬ ev (inp (n + d)) := Nat.find_min hex (Nat.lt_of_succ_le hd)
        exact keep (n + d) (Nat.le_add_right n d) hno (ih (Nat.le_of_succ_le hd))
  exact ⟨n + Nat.find hex, Nat.le_add_right _ _, stays _ le_rfl, Nat.find_spec hex⟩

/-- **Ranking rule.** If from every cycle before the goal there is a later one
where the goal holds or the rank is smaller, the goal is reached. -/
theorem exists_of_rank {f : ℕ → σ} (goal : σ → Prop) (rank : σ → ℕ)
    (prog : ∀ n, ¬ goal (f n) → ∃ m ≥ n, goal (f m) ∨ rank (f m) < rank (f n)) (n : ℕ) :
    ∃ m ≥ n, goal (f m) := by
  induction hr : rank (f n) using Nat.strong_induction_on generalizing n with
  | _ r ih =>
      by_cases hg : goal (f n)
      · exact ⟨n, le_rfl, hg⟩
      · obtain ⟨m, hm, hgm | hlt⟩ := prog n hg
        · exact ⟨m, hm, hgm⟩
        · obtain ⟨k, hk, hgk⟩ := ih (rank (f m)) (hr ▸ hlt) m rfl
          exact ⟨k, le_trans hm hk, hgk⟩

end FirFilter.Clocked
