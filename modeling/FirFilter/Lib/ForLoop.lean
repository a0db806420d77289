import Mathlib.Algebra.Order.Ring.Nat
import Mathlib.Data.List.Basic
import Mathlib.Order.Basic
/-!
# FirFilter.Lib.ForLoop

Counting loops over a 32-bit unsigned counter, in state-passing style.

`forLoop lo hi body` is `for (i = lo; i < hi; i++) body`. The number of rounds is
fixed when the loop starts, which is what the C loop does as long as its body
does not assign to the counter or the bound; `forLoop_eq` is the usual unrolling.

Two rules come with it. `forLoop_induction` is the invariant rule. `Emits` is
for a state that carries a log: a piece of code emits a fixed list of entries,
whatever the state, and `Emits.forLoop` gives the entries of a loop from those
of its body.
-/

namespace FirFilter

variable {σ ε : Type*}

/-! ### Unsigned arithmetic without a wrap -/

theorem toNat_add_of_lt {a b : UInt32} (h : a.toNat + b.toNat < 2 ^ 32) :
    (a + b).toNat = a.toNat + b.toNat := by
  rw [UInt32.toNat_add, Nat.mod_eq_of_lt h]

theorem toNat_mul_of_lt {a b : UInt32} (h : a.toNat * b.toNat < 2 ^ 32) :
    (a * b).toNat = a.toNat * b.toNat := by
  rw [UInt32.toNat_mul, Nat.mod_eq_of_lt h]

theorem toNat_sub_of_le {a b : UInt32} (h : b.toNat ≤ a.toNat) :
    (a - b).toNat = a.toNat - b.toNat := by
  have := a.toNat_lt
  have := b.toNat_lt
  rw [UInt32.toNat_sub]
  omega

theorem toNat_ofNat_of_lt {n : ℕ} (h : n < 2 ^ 32) : (UInt32.ofNat n).toNat = n :=
  UInt32.toNat_ofNat_of_lt' h

/-- Counting up below a bound does not wrap. -/
theorem toNat_succ_of_lt {i hi : UInt32} (h : i.toNat < hi.toNat) :
    (i + 1).toNat = i.toNat + 1 := by
  have := hi.toNat_lt
  exact toNat_add_of_lt (by rw [UInt32.toNat_one]; omega)

/-! ### The loop -/

/-- `n` rounds of `body`, counting up from `i`. -/
def iterate (body : UInt32 → σ → σ) : ℕ → UInt32 → σ → σ
  | 0, _, s => s
  | n + 1, i, s => iterate body n (i + 1) (body i s)

/-- `for (i = lo; i < hi; i++) body` -/
@[irreducible] def forLoop (lo hi : UInt32) (body : UInt32 → σ → σ) (s : σ) : σ :=
  iterate body (hi.toNat - lo.toNat) lo s

theorem forLoop_eq (lo hi : UInt32) (body : UInt32 → σ → σ) (s : σ) :
    forLoop lo hi body s = if lo < hi then forLoop (lo + 1) hi body (body lo s) else s := by
  unfold forLoop
  by_cases h : lo.toNat < hi.toNat
  · have hn : hi.toNat - lo.toNat = hi.toNat - (lo + 1).toNat + 1 := by
      rw [toNat_succ_of_lt h]; omega
    rw [if_pos (UInt32.lt_iff_toNat_lt.mpr h), hn, iterate]
  · rw [if_neg (mt UInt32.lt_iff_toNat_lt.mp h), Nat.sub_eq_zero_of_le (Nat.le_of_not_lt h),
      iterate]

theorem forLoop_of_le {lo hi : UInt32} (h : hi.toNat ≤ lo.toNat) (body : UInt32 → σ → σ) (s : σ) :
    forLoop lo hi body s = s := by
  rw [forLoop, Nat.sub_eq_zero_of_le h, iterate]

theorem iterate_induction {P : ℕ → σ → Prop} {body : UInt32 → σ → σ} {hi : UInt32}
    (step : ∀ i s, i.toNat < hi.toNat → P i.toNat s → P (i.toNat + 1) (body i s)) :
    ∀ (n : ℕ) (i : UInt32) (s : σ), i.toNat + n = hi.toNat → P i.toNat s →
      P hi.toNat (iterate body n i s)
  | 0, i, s, hn, hP => by
      rw [Nat.add_zero] at hn
      rwa [← hn]
  | n + 1, i, s, hn, hP => by
      have hlt : i.toNat < hi.toNat := by omega
      have hs := toNat_succ_of_lt hlt
      exact iterate_induction step n (i + 1) (body i s) (by omega) (hs ▸ step i s hlt hP)

/-- **Invariant rule.** `P lo` holds before the loop and every round takes `P i` to
`P (i + 1)`, so `P hi` holds after it. -/
theorem forLoop_induction (P : ℕ → σ → Prop) {lo hi : UInt32} {body : UInt32 → σ → σ} {s : σ}
    (hle : lo.toNat ≤ hi.toNat) (init : P lo.toNat s)
    (step : ∀ i s, lo.toNat ≤ i.toNat → i.toNat < hi.toNat → P i.toNat s →
      P (i.toNat + 1) (body i s)) :
    P hi.toNat (forLoop lo hi body s) := by
  rw [forLoop]
  refine (iterate_induction (P := fun n s => lo.toNat ≤ n ∧ P n s) ?_ (hi.toNat - lo.toNat) lo s
    (by omega) ⟨Nat.le_refl _, init⟩).2
  intro i s hlt hP
  exact ⟨Nat.le_succ_of_le hP.1, step i s hP.1 hlt hP.2⟩

/-- The invariant rule for a loop from `0`. -/
theorem forLoop_induction_zero (P : ℕ → σ → Prop) {hi : UInt32} {body : UInt32 → σ → σ} {s : σ}
    (init : P 0 s) (step : ∀ i s, i.toNat < hi.toNat → P i.toNat s → P (i.toNat + 1) (body i s)) :
    P hi.toNat (forLoop 0 hi body s) :=
  forLoop_induction P (Nat.zero_le _) init fun i s _ => step i s

/-- A property that every round preserves. -/
theorem forLoop_preserves (P : σ → Prop) {lo hi : UInt32} {body : UInt32 → σ → σ} {s : σ}
    (init : P s) (step : ∀ i s, P s → P (body i s)) : P (forLoop lo hi body s) := by
  by_cases hle : lo.toNat ≤ hi.toNat
  · exact forLoop_induction (fun _ => P) hle init fun i s _ _ => step i s
  · rwa [forLoop_of_le (by omega)]

/-- Two loops whose rounds keep a relation. -/
theorem forLoop_simulation {τ : Type*} {R : σ → τ → Prop} {lo hi : UInt32}
    {body : UInt32 → σ → σ} {body' : UInt32 → τ → τ} {s : σ} {t : τ} (init : R s t)
    (step : ∀ i s t, R s t → R (body i s) (body' i t)) :
    R (forLoop lo hi body s) (forLoop lo hi body' t) := by
  unfold forLoop
  generalize hi.toNat - lo.toNat = n
  induction n generalizing lo s t with
  | zero => exact init
  | succ n ih => exact ih (step lo s t init)

/-! ### Logs -/

/-- In states that satisfy `ok`, and it stays so, `f` adds the entries `es` to the
log, the newest first. -/
def Emits (log : σ → List ε) (ok : σ → Prop) (f : σ → σ) (es : List ε) : Prop :=
  ∀ s, ok s → ok (f s) ∧ log (f s) = es ++ log s

/-- The entries of a loop whose round `i` emits `es i`. -/
def forTrace (lo hi : UInt32) (es : UInt32 → List ε) : List ε :=
  forLoop lo hi (fun i l => es i ++ l) []

namespace Emits

variable {log : σ → List ε} {ok : σ → Prop}

theorem comp {f f' : σ → σ} {es es' : List ε} (h' : Emits log ok f' es')
    (h : Emits log ok f es) : Emits log ok (fun s => f' (f s)) (es' ++ es) := by
  intro s hs
  obtain ⟨hok, hlog⟩ := h s hs
  obtain ⟨hok', hlog'⟩ := h' (f s) hok
  exact ⟨hok', by rw [hlog', hlog, List.append_assoc]⟩

theorem iterate {body : UInt32 → σ → σ} {es : UInt32 → List ε}
    (h : ∀ i, Emits log ok (body i) (es i)) :
    ∀ (n : ℕ) (i : UInt32) (l : List ε) (s : σ), ok s →
      ok (iterate body n i s) ∧
        ∃ es', log (FirFilter.iterate body n i s) = es' ++ log s ∧
          FirFilter.iterate (fun i l => es i ++ l) n i l = es' ++ l
  | 0, _, _, _, hs => ⟨hs, [], rfl, rfl⟩
  | n + 1, i, l, s, hs => by
      obtain ⟨hok, hlog⟩ := h i s hs
      obtain ⟨hok', es', hlog', htr⟩ := iterate h n (i + 1) (es i ++ l) (body i s) hok
      refine ⟨hok', es' ++ es i, ?_, ?_⟩
      · rw [FirFilter.iterate, hlog', hlog, List.append_assoc]
      · rw [FirFilter.iterate, htr, List.append_assoc]

/-- **Log rule.** -/
theorem forLoop {body : UInt32 → σ → σ} {es : UInt32 → List ε}
    (h : ∀ i, Emits log ok (body i) (es i)) (lo hi : UInt32) :
    Emits log ok (forLoop lo hi body) (forTrace lo hi es) := by
  intro s hs
  obtain ⟨hok, es', hlog, htr⟩ := iterate h (hi.toNat - lo.toNat) lo [] s hs
  unfold forTrace
  rw [FirFilter.forLoop, FirFilter.forLoop, htr, List.append_nil]
  exact ⟨hok, hlog⟩

end Emits

theorem mem_iterate (hi : UInt32) {es : UInt32 → List ε} {e : ε} :
    ∀ (n : ℕ) (i : UInt32) (l : List ε), i.toNat + n = hi.toNat →
      (e ∈ iterate (fun i l => es i ++ l) n i l ↔
        e ∈ l ∨ ∃ j, i.toNat ≤ j.toNat ∧ j.toNat < hi.toNat ∧ e ∈ es j)
  | 0, i, l, hn => by
      constructor
      · exact .inl
      · rintro (h | ⟨j, hij, hj, -⟩)
        · exact h
        · omega
  | n + 1, i, l, hn => by
      have hlt : i.toNat < hi.toNat := by omega
      have hs := toNat_succ_of_lt hlt
      rw [iterate, mem_iterate hi n (i + 1) (es i ++ l) (by omega), List.mem_append, hs]
      constructor
      · rintro ((h | h) | ⟨j, hij, hj, he⟩)
        · exact .inr ⟨i, Nat.le_refl _, hlt, h⟩
        · exact .inl h
        · exact .inr ⟨j, by omega, hj, he⟩
      · rintro (h | ⟨j, hij, hj, he⟩)
        · exact .inl (.inr h)
        · rcases Nat.eq_or_lt_of_le hij with heq | hlt
          · obtain rfl := UInt32.toNat_inj.mp heq
            exact .inl (.inl he)
          · exact .inr ⟨j, hlt, hj, he⟩

/-- The entries of a loop are those of its rounds. -/
theorem mem_forTrace {lo hi : UInt32} {es : UInt32 → List ε} {e : ε} :
    e ∈ forTrace lo hi es ↔ ∃ i, lo.toNat ≤ i.toNat ∧ i.toNat < hi.toNat ∧ e ∈ es i := by
  unfold forTrace
  by_cases hle : lo.toNat ≤ hi.toNat
  · unfold forLoop
    rw [mem_iterate hi _ _ _ (by omega)]
    simp
  · rw [forLoop_of_le (by omega)]
    constructor
    · exact nofun
    · rintro ⟨i, hlo, hlt, -⟩
      omega

end FirFilter
