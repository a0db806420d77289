import Mathlib.Data.Nat.Count
/-!
# FirFilter.Lib.Ledger

**Conservation laws** of a run that falls into episodes.

A machine that works in episodes (frames, packets, transactions) is usually verified
one episode at a time. These are the rules that put the episodes together again. An
event is a predicate on cycles and `Nat.count` is how often it has happened.

* **ledger** — `count_ledger`: if a stock grows by one with every event and drops by
  a fixed amount at every closing, then the events so far are those of the closed
  episodes and the stock;
* **opening** — `exists_last`: every cycle belongs to an episode that began at some
  cycle before it, and nothing closed in between (`count_eq_of_forall_not`);
* **time** — `count_add_count_not`: every cycle is either a move or a stall.
-/

namespace FirFilter.Ledger

/-- **Ledger rule.** -/
theorem count_ledger (event closes : ℕ → Prop) [DecidablePred event] [DecidablePred closes]
    (stock : ℕ → ℕ) (amount : ℕ) {n : ℕ}
    (step : ∀ m < n, stock (m + 1) + (if closes m then amount else 0) =
      stock m + if event m then 1 else 0) :
    stock 0 + Nat.count event n = Nat.count closes n * amount + stock n := by
  induction n with
  | zero => simp
  | succ n ih =>
      have hn := step n (Nat.lt_succ_self n)
      have hclosed : Nat.count closes (n + 1) * amount =
          Nat.count closes n * amount + if closes n then amount else 0 := by
        rw [Nat.count_succ, Nat.add_mul]
        split <;> simp
      rw [hclosed, Nat.count_succ]
      have := ih fun m hm => step m (Nat.lt_succ_of_lt hm)
      omega

/-- The last cycle up to `n` in which `p` held. -/
theorem exists_last {p : ℕ → Prop} (h0 : p 0) (n : ℕ) :
    ∃ m ≤ n, p m ∧ ∀ k, m < k → k ≤ n → ¬ p k := by
  induction n with
  | zero => exact ⟨0, le_rfl, h0, fun k h1 h2 => absurd h1 (by omega)⟩
  | succ n ih =>
      by_cases hp : p (n + 1)
      · exact ⟨n + 1, le_rfl, hp, fun k h1 h2 => absurd h1 (by omega)⟩
      · obtain ⟨m, hm, hpm, hlast⟩ := ih
        refine ⟨m, Nat.le_succ_of_le hm, hpm, fun k h1 h2 => ?_⟩
        rcases Nat.le_succ_iff.mp h2 with hk | rfl
        · exact hlast k h1 hk
        · exact hp

variable {event : ℕ → Prop} [DecidablePred event]

/-- What recurs for ever recurs after any number of cycles. -/
theorem recurs_add {p : ℕ → Prop} (h : ∀ n, ∃ m ≥ n, p m) (a n : ℕ) : ∃ m ≥ n, p (a + m) := by
  obtain ⟨m, hm, hp⟩ := h (a + n)
  exact ⟨m - a, by omega, by rwa [Nat.add_sub_of_le (by omega)]⟩

/-- Without an event in between the count is the same. -/
theorem count_eq_of_forall_not {m n : ℕ} (hmn : m ≤ n)
    (h : ∀ k, m ≤ k → k < n → ¬ event k) : Nat.count event n = Nat.count event m := by
  obtain ⟨d, rfl⟩ := Nat.exists_eq_add_of_le hmn
  have hnone : Nat.count (fun k => event (m + k)) d = 0 := Nat.count_iff_forall_not.mpr
    fun k hk => h (m + k) (Nat.le_add_right _ _) (Nat.add_lt_add_left hk m)
  rw [Nat.count_add, hnone, Nat.add_zero]

/-- Counting up passes every number, with an event. -/
theorem exists_count_eq {t n : ℕ} (h : t < Nat.count event n) :
    ∃ m < n, Nat.count event m = t ∧ event m := by
  induction n with
  | zero => simp at h
  | succ n ih =>
      rcases Nat.lt_or_ge t (Nat.count event n) with hlt | hge
      · obtain ⟨m, hm, hcount⟩ := ih hlt
        exact ⟨m, Nat.lt_succ_of_lt hm, hcount⟩
      · have hn : event n := Nat.count_lt_count_succ_iff.mp (hge.trans_lt h)
        rw [Nat.count_succ, if_pos hn] at h
        exact ⟨n, Nat.lt_succ_self n, by omega, hn⟩

/-- A cycle is a move or a stall. -/
theorem count_add_count_not (event : ℕ → Prop) [DecidablePred event] (n : ℕ) :
    Nat.count event n + Nat.count (fun m => ¬ event m) n = n := by
  induction n with
  | zero => simp
  | succ n ih =>
      rw [Nat.count_succ, Nat.count_succ]
      by_cases h : event n
      · rw [if_pos h, if_neg (not_not.mpr h)]
        omega
      · rw [if_neg h, if_pos h]
        omega

end FirFilter.Ledger
