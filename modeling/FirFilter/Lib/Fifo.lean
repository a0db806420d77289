import Mathlib.Data.List.Basic
/-!
# FirFilter.Lib.Fifo

The interface of a clocked queue, and what it means to be one.

A word that is read is not shown before the read but registered by it. The queue checks
nothing: a write when it is full and a read when it is empty are the user's mistakes, and
`Fifo.Queues` says nothing about them.
-/

namespace FirFilter

variable {α : Type}

/-- A clocked queue, with a request to write a word and one to read the next. -/
structure Fifo (α : Type) where
  State : Type
  /-- Asynchronous clear. -/
  aclr : State
  /-- One clock edge. -/
  step : State → Option α → Bool → State
  /-- The word read last. -/
  q : State → α
  empty : State → Bool
  full : State → Bool
  /-- The number of words, which wraps around when the queue is full. -/
  usedw : State → ℕ

/-- The queue holds `contents`, at most `depth` words. -/
structure Fifo.Queues (F : Fifo α) (depth : ℕ) (contents : F.State → List α) : Prop where
  aclr : contents F.aclr = []
  empty (s : F.State) : F.empty s = true ↔ contents s = []
  full (s : F.State) : F.full s = true ↔ (contents s).length = depth
  usedw (s : F.State) : F.usedw s = (contents s).length % depth
  idle (s : F.State) : contents (F.step s none false) = contents s
  write (s : F.State) (x : α) (h : (contents s).length < depth) :
    contents (F.step s (some x) false) = contents s ++ [x]
  read (s : F.State) (w : Option α) (x : α) (xs : List α) (h : contents s = x :: xs)
    (hw : w = none ∨ (contents s).length < depth) :
    contents (F.step s w true) = xs ++ w.toList ∧ F.q (F.step s w true) = x

namespace Fifo.Queues

variable {F : Fifo α} {depth : ℕ} {contents : F.State → List α} (h : F.Queues depth contents)
  {s : F.State} {w : Option α}

include h

theorem contents_step (hw : w = none ∨ (contents s).length < depth) {r : Bool}
    (hr : r = true → F.empty s = false) :
    contents s ++ w.toList =
      (if r then [F.q (F.step s w r)] else []) ++ contents (F.step s w r) := by
  cases r with
  | false =>
      cases w with
      | none => simp [h.idle]
      | some x => simp [h.write s x (by simpa using hw)]
  | true =>
      cases hs : contents s with
      | nil => simp [(h.empty s).mpr hs] at hr
      | cons x xs =>
          obtain ⟨hcontents, hq⟩ := h.read s w x xs hs hw
          simp [hcontents, hq]

/-- The number of words, with `full` as its highest bit. -/
theorem used (hle : (contents s).length ≤ depth) :
    (if F.full s then depth else 0) + F.usedw s = (contents s).length := by
  rw [h.usedw]
  by_cases hfull : (contents s).length = depth
  · simp [(h.full s).mpr hfull, hfull]
  · have hne : F.full s = false := by simpa using mt (h.full s).mp hfull
    simp [hne, Nat.mod_eq_of_lt (Nat.lt_of_le_of_ne hle hfull)]

end Fifo.Queues

/-! ### A plain queue -/

/-- The words, and the one read last. -/
def plainFifo (depth : ℕ) (zero : α) : Fifo α where
  State := List α × α
  aclr := ([], zero)
  step s w r := if r then (s.1.tail ++ w.toList, s.1.headD s.2) else (s.1 ++ w.toList, s.2)
  q s := s.2
  empty s := s.1.isEmpty
  full s := s.1.length == depth
  usedw s := s.1.length % depth

theorem plainFifo_queues (depth : ℕ) (zero : α) :
    (plainFifo depth zero).Queues depth fun s => s.1 where
  aclr := rfl
  empty s := by simp [plainFifo]
  full s := by simp [plainFifo]
  usedw s := rfl
  idle s := by simp [plainFifo]
  write s x h := by simp [plainFifo]
  read s w x xs h hw := by simp [plainFifo, h]

end FirFilter
