import FirFilter.Lib.Clocked
import Mathlib.Logic.Function.Basic
/-!
# FirFilter.Lib.WordMemory

A memory that is written one word at a time and can be cleared: what a register file
is for.

The memory is a machine whose state is the function from addresses to words.
`contents` is its state after the operations of a sequence, and `lastWritten_contents`
says in terms of the sequence what that is: the word written last, or the cleared
word when nothing was written since.
-/

namespace FirFilter.WordMemory

open Clocked

variable {α β : Type*}

/-- What one cycle does to the memory. -/
inductive Op (α β : Type*)
  | clear
  | write (a : α) (v : β)
  | keep

/-- The operation determines the word at `a`. -/
def Op.Touches (a : α) : Op α β → Prop
  | .clear => True
  | .write b _ => b = a
  | .keep => False

/-! ### The word written last -/

/-- `v` is the last word written to `a` by the first `n` operations, and `z` if there is
none since the last `clear`. -/
inductive LastWritten (z : β) (ops : ℕ → Op α β) (n : ℕ) (a : α) : β → Prop
  | written {m : ℕ} {v : β} (hm : m < n) (hw : ops m = .write a v)
      (hlast : ∀ k, m < k → k < n → ¬ (ops k).Touches a) : LastWritten z ops n a v
  | cleared {m : ℕ} (hm : m < n) (hc : ops m = .clear)
      (hlast : ∀ k, m < k → k < n → ¬ (ops k).Touches a) : LastWritten z ops n a z
  | untouched (h : ∀ k < n, ¬ (ops k).Touches a) : LastWritten z ops n a z

/-- An operation that does not touch the word keeps it the last one written. -/
theorem LastWritten.succ {z v : β} {ops : ℕ → Op α β} {n : ℕ} {a : α}
    (h : LastWritten z ops n a v) (hn : ¬ (ops n).Touches a) :
    LastWritten z ops (n + 1) a v := by
  have hext : ∀ m, (∀ k, m < k → k < n → ¬ (ops k).Touches a) →
      ∀ k, m < k → k < n + 1 → ¬ (ops k).Touches a := by
    intro m hlast k hm hk
    rcases Nat.lt_succ_iff_lt_or_eq.mp hk with hlt | rfl
    · exact hlast k hm hlt
    · exact hn
  cases h with
  | written hm hw hlast => exact .written (Nat.lt_succ_of_lt hm) hw (hext _ hlast)
  | cleared hm hc hlast => exact .cleared (Nat.lt_succ_of_lt hm) hc (hext _ hlast)
  | untouched h =>
      refine .untouched fun k hk => ?_
      rcases Nat.lt_succ_iff_lt_or_eq.mp hk with hlt | rfl
      · exact h k hlt
      · exact hn

/-! ### The memory -/

variable [DecidableEq α] {z : β} {mem : α → β} {a : α}

/-- One cycle of the memory, `z` the cleared word. -/
def apply (z : β) (mem : α → β) : Op α β → α → β
  | .clear => fun _ => z
  | .write a v => Function.update mem a v
  | .keep => mem

/-- The memory after `n` operations on cleared words. -/
def contents (z : β) (ops : ℕ → Op α β) (n : ℕ) : α → β := run (apply z) (fun _ => z) ops n

theorem apply_of_not_touches {op : Op α β} (h : ¬ op.Touches a) : apply z mem op a = mem a := by
  cases op with
  | clear => exact absurd trivial h
  | write b v => exact Function.update_of_ne (fun hab => h hab.symm) _ _
  | keep => rfl

/-- **The memory holds the words written last.** -/
theorem lastWritten_contents (z : β) (ops : ℕ → Op α β) (n : ℕ) (a : α) :
    LastWritten z ops n a (contents z ops n a) := by
  induction n with
  | zero => exact .untouched fun k hk => absurd hk (Nat.not_lt_zero k)
  | succ n ih =>
      have hnone : ∀ k, n < k → k < n + 1 → ¬ (ops k).Touches a := fun k h1 h2 => by omega
      show LastWritten z ops (n + 1) a (apply z (contents z ops n) (ops n) a)
      by_cases htouch : (ops n).Touches a
      · cases hop : ops n with
        | clear => exact .cleared (Nat.lt_succ_self n) hop hnone
        | write b v =>
            obtain rfl : b = a := by rwa [hop] at htouch
            rw [apply, Function.update_self]
            exact .written (Nat.lt_succ_self n) hop hnone
        | keep => rw [hop] at htouch; exact htouch.elim
      · rw [apply_of_not_touches htouch]
        exact ih.succ htouch

end FirFilter.WordMemory
