import Mathlib.Data.List.Induction
import Mathlib.Data.Fin.Rev
import Mathlib.Tactic.Ring
/-!
# FirFilter.Lib.DelayLine

**Tapped delay lines and column banks**, the two memories of a sliding-window
filter, specified by their history.

Neither memory has a fixed implementation here. `ShiftTaps` and `ColumnBank`
are interfaces with an arbitrary state type; `ShiftTaps.DelayLine` and
`ColumnBank.KeepsLast` say what the contents are in terms of the values shifted
in so far, starting from *any* state. `window_of_history` composes the two: a
bank that captures the taps of a delay line at every shift holds a rectangular
window of the shifted sequence.

`shiftRegister` and `columnRegister` are executable instances of both
interfaces, so the two laws are satisfiable.
-/

namespace FirFilter

variable {α : Type}

/-! ### Interfaces -/

/-- A shift register with `n` taps that only moves on enabled edges. -/
structure ShiftTaps (α : Type) (n : ℕ) where
  State : Type
  powerUp : State
  /-- Asynchronous clear. -/
  aclr : State → State
  /-- One enabled edge. -/
  shift : State → α → State
  taps : State → Fin n → α

/-- Tap `i` shows the value shifted in `(i + 1) * distance` enabled shifts ago. -/
def ShiftTaps.DelayLine {n : ℕ} (T : ShiftTaps α n) (distance : ℕ) : Prop :=
  ∀ (s : T.State) (xs : List α) (i : Fin n), (i.val + 1) * distance ≤ xs.length →
    xs[xs.length - (i.val + 1) * distance]? = some (T.taps (xs.foldl T.shift s) i)

/-- A bank of `n` columns of `n` values; `output` is indexed by the age of the
column (`0` is the latest) and by the tap it was captured from. -/
structure ColumnBank (α : Type) (n : ℕ) where
  State : Type
  powerUp : State
  /-- Reset. -/
  reset : State → State
  /-- One enabled edge. -/
  loadAndShift : State → (Fin n → α) → State
  output : State → Fin n → Fin n → α

/-- The bank shows the columns of the last `n` loads. -/
def ColumnBank.KeepsLast {n : ℕ} (B : ColumnBank α n) : Prop :=
  ∀ (s : B.State) (cols : List (Fin n → α)) (age : Fin n), age.val < cols.length →
    cols[cols.length - 1 - age.val]? = some (B.output (cols.foldl B.loadAndShift s) age)

/-! ### A bank behind a delay line -/

section Window

variable {n : ℕ} (T : ShiftTaps α n) (B : ColumnBank α n)

/-- One enabled edge of the pair: the bank captures the taps as they are before
the edge. -/
def shiftBoth (p : T.State × B.State) (x : α) : T.State × B.State :=
  (T.shift p.1 x, B.loadAndShift p.2 (T.taps p.1))

/-- The tap columns the bank captures while `xs` is shifted in. -/
def capturedColumns : T.State → List α → List (Fin n → α)
  | _, [] => []
  | t, x :: xs => T.taps t :: capturedColumns (T.shift t x) xs

@[simp] theorem capturedColumns_length (t : T.State) (xs : List α) :
    (capturedColumns T t xs).length = xs.length := by
  induction xs generalizing t with
  | nil => rfl
  | cons x xs ih => simp [capturedColumns, ih]

theorem capturedColumns_getElem? (t : T.State) (xs : List α) {j : ℕ} (hj : j < xs.length) :
    (capturedColumns T t xs)[j]? = some (T.taps ((xs.take j).foldl T.shift t)) := by
  induction xs generalizing t j with
  | nil => simp at hj
  | cons x xs ih =>
      cases j with
      | zero => rfl
      | succ j => simpa [capturedColumns] using ih (T.shift t x) (by simpa using hj)

theorem foldl_shiftBoth (p : T.State × B.State) (xs : List α) :
    xs.foldl (shiftBoth T B) p =
      (xs.foldl T.shift p.1, (capturedColumns T p.1 xs).foldl B.loadAndShift p.2) := by
  induction xs generalizing p with
  | nil => rfl
  | cons x xs ih => rw [List.foldl_cons, ih]; rfl

variable {T B}

/-- The value at a given age and tap, counted back from the end of the history. -/
theorem output_of_history {distance : ℕ} (hT : T.DelayLine distance) (hB : B.KeepsLast)
    (p : T.State × B.State) (xs : List α) (age tap : Fin n)
    (h : 1 + age.val + (tap.val + 1) * distance ≤ xs.length) :
    xs[xs.length - 1 - age.val - (tap.val + 1) * distance]? =
      some (B.output (xs.foldl (shiftBoth T B) p).2 age tap) := by
  have hage : age.val < (capturedColumns T p.1 xs).length := by
    rw [capturedColumns_length]; omega
  have hcol := hB p.2 (capturedColumns T p.1 xs) age hage
  rw [capturedColumns_length,
    capturedColumns_getElem? T p.1 xs (by rw [capturedColumns_length] at hage; omega)] at hcol
  -- the column was captured when `j` values had been shifted in
  generalize hj : xs.length - 1 - age.val = j at hcol ⊢
  have hlen : (xs.take j).length = j := by rw [List.length_take]; omega
  have htap := hT p.1 (xs.take j) tap (by rw [hlen]; omega)
  have hlt : j - (tap.val + 1) * distance < j := by
    rcases Nat.eq_zero_or_pos distance with hd | hd
    · -- at distance `0` the law itself fails on the empty history
      have := hT p.1 [] tap (by simp [hd])
      simp at this
    · have : 0 < (tap.val + 1) * distance := Nat.mul_pos (Nat.succ_pos _) hd
      omega
  rw [hlen, List.getElem?_take_of_lt hlt] at htap
  rw [foldl_shiftBoth, htap, Option.some.inj hcol]

/-- **Window lemma.** Once `n * distance + n` values have been shifted in, the
bank holds the `n × n` window with rows `distance` apart whose last value came
`n * distance + 1` values before the end of the history. -/
theorem window_of_history {distance : ℕ} (hT : T.DelayLine distance) (hB : B.KeepsLast)
    (p : T.State × B.State) (xs : List α) (base : ℕ)
    (hbase : xs.length = base + n * distance + n) (a b : Fin n) :
    xs[base + a.val * distance + b.val]? =
      some (B.output (xs.foldl (shiftBoth T B) p).2 b.rev a.rev) := by
  have ha : (a.rev.val + 1) * distance + a.val * distance = n * distance := by
    rw [← Nat.add_mul, Fin.val_rev]
    congr 1
    omega
  have hb : b.rev.val + b.val + 1 = n := by rw [Fin.val_rev]; omega
  have hidx : base + a.val * distance + b.val =
      xs.length - 1 - b.rev.val - (a.rev.val + 1) * distance := by omega
  rw [hidx]
  exact output_of_history hT hB p xs b.rev a.rev (by omega)

end Window

/-! ### Executable instances

Both memories as an unbounded row of cells, cell `0` the latest. -/

/-- Push a value into a row of cells. -/
def pushCell {β : Type} (cells : ℕ → β) (x : β) (k : ℕ) : β :=
  if k = 0 then x else cells (k - 1)

theorem foldl_pushCell {β : Type} (cells : ℕ → β) (xs : List β) {k : ℕ} (hk : k < xs.length) :
    xs[xs.length - 1 - k]? = some (xs.foldl pushCell cells k) := by
  induction xs using List.reverseRecOn generalizing k with
  | nil => simp at hk
  | append_singleton xs x ih =>
      rw [List.foldl_append, List.foldl_cons, List.foldl_nil]
      cases k with
      | zero => simp [pushCell]
      | succ k =>
          have hk' : k < xs.length := by simpa using hk
          have hidx : (xs ++ [x]).length - 1 - (k + 1) = xs.length - 1 - k := by
            rw [List.length_append, List.length_singleton]; omega
          rw [hidx, List.getElem?_append_left (by omega), ih hk']
          rfl

/-- A plain shift register. -/
def shiftRegister (n distance : ℕ) (zero : α) : ShiftTaps α n where
  State := ℕ → α
  powerUp := fun _ => zero
  aclr := fun _ _ => zero
  shift := pushCell
  taps := fun cells i => cells ((i.val + 1) * distance - 1)

/-- The plain shift register is a delay line. -/
theorem shiftRegister_delayLine {n distance : ℕ} (zero : α) (hd : 0 < distance) :
    (shiftRegister n distance zero).DelayLine distance := by
  intro s xs i hi
  have hpos : 0 < (i.val + 1) * distance := Nat.mul_pos (Nat.succ_pos _) hd
  have h := foldl_pushCell s xs (k := (i.val + 1) * distance - 1) (by omega)
  rwa [show xs.length - 1 - ((i.val + 1) * distance - 1) =
    xs.length - (i.val + 1) * distance by omega] at h

/-- A plain bank of columns. -/
def columnRegister (n : ℕ) (zero : α) : ColumnBank α n where
  State := ℕ → Fin n → α
  powerUp := fun _ _ => zero
  reset := fun _ _ _ => zero
  loadAndShift := pushCell
  output := fun cells age => cells age.val

/-- The plain bank keeps the last columns. -/
theorem columnRegister_keepsLast (n : ℕ) (zero : α) : (columnRegister n zero).KeepsLast :=
  fun s cols _ hage => foldl_pushCell s cols hage

end FirFilter
