import Mathlib.Order.Interval.Finset.Nat
/-!
# FirFilter.Lib.Tally

What a clocked counter that is switched on and off is for.

Cycles are numbers, and events are predicates on them. `Opened on off r k` says that the
last event before cycle `k`, of those after cycle `r`, has switched on; `tallied p r n` is
the number of cycles between `r` and `n` in which `p` holds. Both come with the recurrence
that a circuit computes, and with their values where the events are known.
-/

namespace FirFilter.Tally

variable {on off p : ℕ → Prop} {r n k : ℕ}

/-! ### Switches -/

/-- Switched on after cycle `r`, and not off again before cycle `k`. -/
def Opened (on off : ℕ → Prop) (r k : ℕ) : Prop :=
  ∃ m, r < m ∧ m < k ∧ on m ∧ ∀ j, m < j → j < k → ¬ off j

theorem not_opened_succ : ¬ Opened on off r (r + 1) := by
  rintro ⟨m, h1, h2, -⟩
  omega

/-- What a switch does in a cycle. -/
theorem opened_succ (hr : r < n) (hexcl : on n → ¬ off n) :
    Opened on off r (n + 1) ↔ on n ∨ Opened on off r n ∧ ¬ off n := by
  constructor
  · rintro ⟨m, h1, h2, hon, hoff⟩
    rcases Nat.lt_succ_iff_lt_or_eq.mp h2 with hlt | rfl
    · exact .inr ⟨⟨m, h1, hlt, hon, fun j h3 h4 => hoff j h3 (Nat.lt_succ_of_lt h4)⟩,
        hoff n hlt (Nat.lt_succ_self n)⟩
    · exact .inl hon
  · rintro (hon | ⟨⟨m, h1, h2, hon, hoff⟩, hn⟩)
    · exact ⟨n, hr, Nat.lt_succ_self n, hon, fun j h3 h4 => absurd h3 (by omega)⟩
    · refine ⟨m, h1, Nat.lt_succ_of_lt h2, hon, fun j h3 h4 => ?_⟩
      rcases Nat.lt_succ_iff_lt_or_eq.mp h4 with hlt | rfl
      · exact hoff j h3 hlt
      · exact hn

/-- A switch that is never switched off after it was first switched on, at `a`. -/
theorem opened_iff_of_first {a : ℕ} (hr : r < a) (hon : on a)
    (hfirst : ∀ m, r < m → m < n → on m → a ≤ m) (hoff : ∀ m, a < m → m < n → ¬ off m)
    (hk : k ≤ n) : Opened on off r k ↔ a < k := by
  constructor
  · rintro ⟨m, h1, h2, h, -⟩
    exact (hfirst m h1 (h2.trans_le hk) h).trans_lt h2
  · intro hak
    exact ⟨a, hr, hak, hon, fun j h1 h2 => hoff j h1 (h2.trans_le hk)⟩

/-- A switch with one event on, at `a`, and one event off, at `b`. -/
theorem opened_iff_of_on_off {a b : ℕ} (hr : r < a) (hab : a < b)
    (hon : ∀ m, r < m → m < n → (on m ↔ m = a))
    (hoff : ∀ m, r < m → m < n → (off m ↔ m = b)) (hk : k ≤ n) :
    Opened on off r k ↔ a < k ∧ k ≤ b := by
  constructor
  · rintro ⟨m, h1, h2, h, hnone⟩
    obtain rfl := (hon m h1 (h2.trans_le hk)).mp h
    refine ⟨h2, Nat.le_of_not_lt fun hbk => hnone b hab hbk ?_⟩
    exact (hoff b (hr.trans hab) (hbk.trans_le hk)).mpr rfl
  · rintro ⟨hak, hkb⟩
    refine ⟨a, hr, hak, (hon a hr (hak.trans_le hk)).mpr rfl, fun j h1 h2 h => ?_⟩
    have := (hoff j (hr.trans h1) (h2.trans_le hk)).mp h
    omega

/-! ### Counting cycles -/

open Classical in
/-- The cycles after `r` and before `n` in which `p` holds. -/
noncomputable def tallied (p : ℕ → Prop) (r n : ℕ) : ℕ := ((Finset.Ioo r n).filter p).card

theorem tallied_start : tallied p r (r + 1) = 0 := by
  have hnone : Finset.Ioo r (r + 1) = ∅ := by
    refine Finset.eq_empty_of_forall_notMem ?_
    intro m hm
    have hrange := Finset.mem_Ioo.mp hm
    omega
  rw [tallied, hnone, Finset.filter_empty, Finset.card_empty]

open Classical in
/-- What a counter does in a cycle. -/
theorem tallied_succ (hr : r < n) : tallied p r (n + 1) = tallied p r n + if p n then 1 else 0 := by
  have hset : Finset.Ioo r (n + 1) = insert n (Finset.Ioo r n) := by
    ext m
    simp
    omega
  rw [tallied, hset, Finset.filter_insert]
  split
  · rw [Finset.card_insert_of_notMem (by simp)]
    rfl
  · rfl

/-- Counting cycles that are known. -/
theorem tallied_eq_card (t : Finset ℕ) (ht : ∀ m ∈ t, r < m ∧ m < n)
    (h : ∀ m, r < m → m < n → (p m ↔ m ∈ t)) : tallied p r n = t.card := by
  classical
  have hset : (Finset.Ioo r n).filter p = t := by
    ext m
    rw [Finset.mem_filter, Finset.mem_Ioo]
    constructor
    · rintro ⟨⟨h1, h2⟩, hp⟩
      exact (h m h1 h2).mp hp
    · intro hm
      obtain ⟨h1, h2⟩ := ht m hm
      exact ⟨⟨h1, h2⟩, (h m h1 h2).mpr hm⟩
  rw [tallied, ← hset]

/-- A predicate that holds after `a` and up to `b`. -/
theorem tallied_of_interval {a b : ℕ} (ha : r ≤ a) (hb : b < n)
    (h : ∀ m, r < m → m < n → (p m ↔ a < m ∧ m ≤ b)) : tallied p r n = b - a := by
  rw [← Nat.card_Ioc a b]
  refine tallied_eq_card _ (fun m hm => ?_) fun m h1 h2 => (h m h1 h2).trans Finset.mem_Ioc.symm
  obtain ⟨h1, h2⟩ := Finset.mem_Ioc.mp hm
  exact ⟨ha.trans_lt h1, h2.trans_lt hb⟩

end FirFilter.Tally
