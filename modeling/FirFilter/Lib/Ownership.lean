import FirFilter.Lib.ForLoop
import Mathlib.Logic.Function.Basic
/-!
# FirFilter.Lib.Ownership

Who frees what: the accounts of `malloc` and `free`.

Every pointer variable owns the block that was allocated to it last, until that block is
freed through it. `malloc` to a pointer that owns a block forgets the block, which is then
lost. `free` through a pointer that owns none is undefined behaviour in C; the account
counts it. Blocks allocated less blocks freed are the live ones.
-/

namespace FirFilter.Ownership

/-- The account of the pointers `α`. Sizes are in bytes. -/
structure Account (α : Type*) where
  owned : α → Option ℕ
  allocated : ℕ
  allocatedBytes : ℕ
  freed : ℕ
  freedBytes : ℕ
  badFrees : ℕ

variable {α : Type*}

/-- The pointers of the first `i` rounds of a loop. -/
def Passed (f : UInt32 → α) (i : ℕ) (a : α) : Prop := ∃ j : UInt32, j.toNat < i ∧ a = f j

theorem passed_succ {f : UInt32 → α} {a : α} (i : UInt32) :
    Passed f (i.toNat + 1) a ↔ a = f i ∨ Passed f i.toNat a := by
  constructor
  · rintro ⟨j, hj, rfl⟩
    rcases Nat.lt_succ_iff_lt_or_eq.mp hj with hlt | heq
    · exact .inr ⟨j, hlt, rfl⟩
    · exact .inl (congrArg f (UInt32.toNat_inj.mp heq))
  · rintro (rfl | ⟨j, hj, rfl⟩)
    · exact ⟨i, Nat.lt_succ_self _, rfl⟩
    · exact ⟨j, Nat.lt_succ_of_lt hj, rfl⟩

theorem not_passed {f : UInt32 → α} (hf : Function.Injective f) (i : UInt32) :
    ¬ Passed f i.toNat (f i) := by
  rintro ⟨j, hj, heq⟩
  rw [hf heq] at hj
  exact absurd hj (Nat.lt_irrefl _)

variable [DecidableEq α]

namespace Account

/-- Nothing has been allocated. -/
def empty (α : Type*) : Account α := ⟨fun _ => none, 0, 0, 0, 0, 0⟩

def malloc (p : Account α) (a : α) (bytes : ℕ) : Account α :=
  { p with
    owned := Function.update p.owned a (some bytes)
    allocated := p.allocated + 1
    allocatedBytes := p.allocatedBytes + bytes }

def free (p : Account α) (a : α) : Account α :=
  match p.owned a with
  | some bytes =>
      { p with
        owned := Function.update p.owned a none
        freed := p.freed + 1
        freedBytes := p.freedBytes + bytes }
  | none => { p with badFrees := p.badFrees + 1 }

/-- `k` blocks of `n` bytes in all are live, and no `free` was bad. -/
structure Live (p : Account α) (k n : ℕ) : Prop where
  blocks : p.allocated = p.freed + k
  bytes : p.allocatedBytes = p.freedBytes + n
  badFrees : p.badFrees = 0

variable {p : Account α} {a b : α} {k n size : ℕ}

@[simp] theorem owned_malloc_self : (p.malloc a size).owned a = some size :=
  Function.update_self _ _ _

@[simp] theorem owned_malloc_of_ne (h : b ≠ a) : (p.malloc a size).owned b = p.owned b :=
  Function.update_of_ne h _ _

omit [DecidableEq α] in
theorem Live.of_eq {k' n' : ℕ} (h : p.Live k n) (hk : k = k') (hn : n = n') : p.Live k' n' :=
  hk ▸ hn ▸ h

theorem Live.malloc (h : p.Live k n) (a : α) (size : ℕ) :
    (p.malloc a size).Live (k + 1) (n + size) :=
  ⟨by simp only [Account.malloc]; rw [h.blocks, Nat.add_assoc],
    by simp only [Account.malloc]; rw [h.bytes, Nat.add_assoc], h.badFrees⟩

@[simp] theorem owned_free_self : (p.free a).owned a = none := by
  unfold free
  split
  · exact Function.update_self _ _ _
  · assumption

@[simp] theorem owned_free_of_ne (h : b ≠ a) : (p.free a).owned b = p.owned b := by
  unfold free
  split
  · exact Function.update_of_ne h _ _
  · rfl

theorem owned_free (p : Account α) (a b : α) :
    (p.free a).owned b = if b = a then none else p.owned b := by
  split
  · rename_i h
    rw [h, owned_free_self]
  · exact owned_free_of_ne ‹_›

/-- A `free` through the owner. -/
theorem Live.free (h : p.Live (k + 1) (n + size)) (ho : p.owned a = some size) :
    (p.free a).Live k n := by
  obtain ⟨hblocks, hbytes, hbad⟩ := h
  simp only [Account.free, ho]
  exact ⟨by simp only []; omega, by simp only []; omega, hbad⟩

/-! ### Loops -/

section Loops

variable {f : UInt32 → α} (hf : Function.Injective f)

include hf

/-- **Allocation loop.** -/
theorem forLoop_malloc (h : p.Live k n) (hi : UInt32) (size : ℕ) :
    let q := forLoop 0 hi (fun i p => p.malloc (f i) size) p
    q.Live (k + hi.toNat) (n + hi.toNat * size) ∧
      (∀ a, Passed f hi.toNat a → q.owned a = some size) ∧
      ∀ a, ¬ Passed f hi.toNat a → q.owned a = p.owned a := by
  refine forLoop_induction_zero (fun i (q : Account α) => q.Live (k + i) (n + i * size) ∧
    (∀ a, Passed f i a → q.owned a = some size) ∧
    ∀ a, ¬ Passed f i a → q.owned a = p.owned a) ?_ ?_
  · refine ⟨by simpa using h, fun a ⟨j, hj, _⟩ => absurd hj (Nat.not_lt_zero _), fun a _ => rfl⟩
  · rintro i q _ ⟨hlive, hin, hout⟩
    refine ⟨?_, fun a ha => ?_, fun a ha => ?_⟩
    · rw [Nat.succ_mul, ← Nat.add_assoc, ← Nat.add_assoc]
      exact hlive.malloc (f i) size
    · rcases (passed_succ i).mp ha with rfl | hpast
      · exact owned_malloc_self
      · have hne : a ≠ f i := fun heq => not_passed hf i (heq ▸ hpast)
        rw [owned_malloc_of_ne hne, hin a hpast]
    · rw [passed_succ, not_or] at ha
      rw [owned_malloc_of_ne ha.1, hout a ha.2]

/-- **Release loop.** -/
theorem forLoop_free {hi : UInt32} (h : p.Live (k + hi.toNat) (n + hi.toNat * size))
    (ho : ∀ a, Passed f hi.toNat a → p.owned a = some size) :
    let q := forLoop 0 hi (fun i p => p.free (f i)) p
    q.Live k n ∧ (∀ a, Passed f hi.toNat a → q.owned a = none) ∧
      ∀ a, ¬ Passed f hi.toNat a → q.owned a = p.owned a := by
  intro q
  let Released (i : ℕ) (q : Account α) : Prop :=
    q.Live (k + (hi.toNat - i)) (n + (hi.toNat - i) * size) ∧
      (∀ a, Passed f i a → q.owned a = none) ∧ ∀ a, ¬ Passed f i a → q.owned a = p.owned a
  suffices hinv : Released hi.toNat q by simpa [Released] using hinv
  refine forLoop_induction_zero Released ?_ ?_
  · exact ⟨by simpa using h, fun a ⟨j, hj, _⟩ => absurd hj (Nat.not_lt_zero _), fun a _ => rfl⟩
  · rintro i q hi' ⟨hlive, hin, hout⟩
    have howner : q.owned (f i) = some size := by
      rw [hout _ (not_passed hf i)]
      exact ho _ ⟨i, hi', rfl⟩
    refine ⟨?_, fun a ha => ?_, fun a ha => ?_⟩
    · have hleft : hi.toNat - i.toNat = hi.toNat - (i.toNat + 1) + 1 := by omega
      rw [hleft, Nat.succ_mul, ← Nat.add_assoc, ← Nat.add_assoc] at hlive
      exact hlive.free howner
    · rcases (passed_succ i).mp ha with rfl | hpast
      · exact owned_free_self
      · have hne : a ≠ f i := fun heq => not_passed hf i (heq ▸ hpast)
        rw [owned_free_of_ne hne, hin a hpast]
    · rw [passed_succ, not_or] at ha
      rw [owned_free_of_ne ha.1, hout a ha.2]

end Loops

end Account

end FirFilter.Ownership
