import FirFilter.Lib.Clocked
/-!
# FirFilter.Lib.BusMaster

Programs that access a device over a bus.

A `Program` is what software does to a device: it writes words, reads words and goes on
with what it has read. `Runs` places a program in a run of the device: each access takes a
cycle, in the order of the program, and before each one any number of idle cycles may pass.
`Triple` is partial correctness over all such runs, with one rule for each constructor; an
assertion has to be `Stable` where the program may wait.
-/

namespace FirFilter.BusMaster

open Clocked

/-- Accesses to words `β` at addresses `α`, and a result. -/
inductive Program (α β : Type*) (ρ : Type)
  | done (r : ρ)
  | write (a : α) (v : β) (next : Program α β ρ)
  | read (a : α) (next : β → Program α β ρ)

/-- A clocked device on a bus: which cycles access it, and the word it returns for a read
in the cycle after it. -/
structure Device (σ ι α β : Type*) where
  step : σ → ι → σ
  data : σ → β
  Idle : ι → Prop
  Writes : ι → α → β → Prop
  Reads : ι → α → Prop

variable {σ ι α : Type*} {β ρ τ : Type}

namespace Program

protected def bind : Program α β ρ → (ρ → Program α β τ) → Program α β τ
  | done r, f => f r
  | write a v next, f => write a v (next.bind f)
  | read a next, f => read a fun w => (next w).bind f

instance : Monad (Program α β) where
  pure := done
  bind := Program.bind

end Program

/-- Write `v` to `a`. -/
def writeWord (a : α) (v : β) : Program α β Unit := .write a v (.done ())

/-- Read the word at `a`. -/
def readWord (a : α) : Program α β β := .read a .done

/-! ### Runs -/

section Runs

variable (d : Device σ ι α β) (s : σ) (inp : ℕ → ι)

/-- Nobody accesses the device from cycle `n` to cycle `j`. -/
def IdleUntil (n j : ℕ) : Prop := n ≤ j ∧ ∀ i, n ≤ i → i < j → d.Idle (inp i)

/-- On the run of the device from `s`, the program runs from cycle `n` to cycle `m` with
the result given. -/
inductive Runs : Program α β ρ → ℕ → ρ → ℕ → Prop
  | done (r : ρ) (n : ℕ) : Runs (.done r) n r n
  | write {a : α} {v : β} {next : Program α β ρ} {n j m : ℕ} {r : ρ}
      (hidle : IdleUntil d inp n j) (hw : d.Writes (inp j) a v)
      (hnext : Runs next (j + 1) r m) : Runs (.write a v next) n r m
  | read {a : α} {next : β → Program α β ρ} {n j m : ℕ} {r : ρ}
      (hidle : IdleUntil d inp n j) (hr : d.Reads (inp j) a)
      (hnext : Runs (next (d.data (run d.step s inp (j + 1)))) (j + 1) r m) :
      Runs (.read a next) n r m

end Runs

variable {d : Device σ ι α β} {s : σ} {inp : ℕ → ι}

theorem Runs.le {p : Program α β ρ} {n m : ℕ} {r : ρ} (h : Runs d s inp p n r m) : n ≤ m := by
  induction h with
  | done => exact le_rfl
  | write hidle _ _ ih => exact le_trans hidle.1 (Nat.le_of_succ_le ih)
  | read hidle _ _ ih => exact le_trans hidle.1 (Nat.le_of_succ_le ih)

/-- A sequence runs one part after the other. -/
theorem Runs.of_bind {p : Program α β ρ} {f : ρ → Program α β τ} {n m : ℕ} {t : τ}
    (h : Runs d s inp (p >>= f) n t m) :
    ∃ r j, Runs d s inp p n r j ∧ Runs d s inp (f r) j t m := by
  change Runs d s inp (p.bind f) n t m at h
  induction p generalizing n with
  | done r => exact ⟨r, n, .done r n, h⟩
  | write a v next ih =>
      cases h with
      | write hidle hw hnext =>
          obtain ⟨r, j, h1, h2⟩ := ih hnext
          exact ⟨r, j, .write hidle hw h1, h2⟩
  | read a next ih =>
      cases h with
      | read hidle hr hnext =>
          obtain ⟨r, j, h1, h2⟩ := ih _ hnext
          exact ⟨r, j, .read hidle hr h1, h2⟩

/-- The cycle of a write that a program begins with. -/
theorem Runs.of_write {a : α} {v : β} {f : Unit → Program α β τ} {n m : ℕ} {t : τ}
    (h : Runs d s inp (writeWord a v >>= f) n t m) :
    ∃ j, IdleUntil d inp n j ∧ d.Writes (inp j) a v ∧ Runs d s inp (f ()) (j + 1) t m := by
  change Runs d s inp (.write a v (f ())) n t m at h
  cases h with
  | write hidle hw hnext => exact ⟨_, hidle, hw, hnext⟩

/-! ### Driving a program -/

/-- The cycles and the result of a program that waits for nothing, on a device whose pins
for a write and for a read are given. -/
def Program.drive (d : Device σ ι α β) (wr : α → β → ι) (rd : α → ι) :
    Program α β ρ → σ → List ι × ρ
  | .done r, _ => ([], r)
  | .write a v next, s =>
      let (xs, r) := next.drive d wr rd (d.step s (wr a v))
      (wr a v :: xs, r)
  | .read a next, s =>
      let (xs, r) := (next (d.data (d.step s (rd a)))).drive d wr rd (d.step s (rd a))
      (rd a :: xs, r)

/-- Every program runs on the cycles it drives. -/
theorem runs_drive {wr : α → β → ι} {rd : α → ι} (hwr : ∀ a v, d.Writes (wr a v) a v)
    (hrd : ∀ a, d.Reads (rd a) a) (p : Program α β ρ) (n : ℕ)
    (hinp : ∀ i (hi : i < (p.drive d wr rd (run d.step s inp n)).1.length),
      inp (n + i) = (p.drive d wr rd (run d.step s inp n)).1[i]) :
    Runs d s inp p n (p.drive d wr rd (run d.step s inp n)).2
      (n + (p.drive d wr rd (run d.step s inp n)).1.length) := by
  have hnow : ∀ n, IdleUntil d inp n n := fun n =>
    ⟨le_rfl, fun i h1 h2 => absurd h1 (Nat.not_le_of_lt h2)⟩
  induction p generalizing n with
  | done r => exact .done r n
  | write a v next ih =>
      have hn : inp n = wr a v := hinp 0 (Nat.succ_pos _)
      have hrun : run d.step s inp (n + 1) = d.step (run d.step s inp n) (wr a v) := by
        rw [run_succ, hn]
      have hnext := ih (n + 1) fun i hi => by
        rw [Nat.add_right_comm, Nat.add_assoc, hinp (i + 1) (by simpa [Program.drive, ← hrun])]
        simp [Program.drive, ← hrun]
      rw [hrun] at hnext
      refine .write (hnow n) (hn ▸ hwr a v) ?_
      simpa [Program.drive, Nat.add_assoc, Nat.add_comm 1] using hnext
  | read a next ih =>
      have hn : inp n = rd a := hinp 0 (Nat.succ_pos _)
      have hrun : run d.step s inp (n + 1) = d.step (run d.step s inp n) (rd a) := by
        rw [run_succ, hn]
      have hnext := ih _ (n + 1) fun i hi => by
        rw [Nat.add_right_comm, Nat.add_assoc, hinp (i + 1) (by simpa [Program.drive, ← hrun])]
        simp [Program.drive, ← hrun]
      rw [hrun] at hnext
      refine .read (hnow n) (hn ▸ hrd a) ?_
      rw [hrun]
      simpa [Program.drive, Nat.add_assoc, Nat.add_comm 1] using hnext

/-- A program that drives the pins of some cycles runs in them. -/
theorem runs_of_drive {wr : α → β → ι} {rd : α → ι} (hwr : ∀ a v, d.Writes (wr a v) a v)
    (hrd : ∀ a, d.Reads (rd a) a) {p : Program α β ρ} {n : ℕ} {pins : List ι} {r : ρ}
    (hdrive : p.drive d wr rd (run d.step s inp n) = (pins, r))
    (hpins : ∀ i (hi : i < pins.length), inp (n + i) = pins[i]) :
    Runs d s inp p n r (n + pins.length) := by
  have hrun := runs_drive hwr hrd p n (by rw [hdrive]; exact hpins)
  rwa [hdrive] at hrun

/-! ### Assertions -/

/-- An idle cycle keeps the assertion. -/
def Stable (d : Device σ ι α β) (A : σ → Prop) : Prop := ∀ s x, A s → d.Idle x → A (d.step s x)

/-- Started where `A` holds, a run of the program ends where `Q` holds of its result. -/
def Triple (d : Device σ ι α β) (A : σ → Prop) (p : Program α β ρ) (Q : ρ → σ → Prop) : Prop :=
  ∀ s inp n r m, A (run d.step s inp n) → Runs d s inp p n r m → Q r (run d.step s inp m)

variable {A : σ → Prop}

theorem Stable.wait (h : Stable d A) {n j : ℕ} (hn : A (run d.step s inp n))
    (hidle : IdleUntil d inp n j) : A (run d.step s inp j) := by
  obtain ⟨hle, hcycle⟩ := hidle
  induction j, hle using Nat.le_induction with
  | base => exact hn
  | succ j hle ih =>
      rw [run_succ]
      exact h _ _ (ih fun i h1 h2 => hcycle i h1 (Nat.lt_succ_of_lt h2))
        (hcycle j hle (Nat.lt_succ_self j))

namespace Triple

theorem pure {r : ρ} {Q : ρ → σ → Prop} (h : ∀ s, A s → Q r s) :
    Triple d A (Pure.pure r) Q := by
  intro s inp n r' m hA hrun
  cases hrun
  exact h _ hA

theorem bind {p : Program α β ρ} {f : ρ → Program α β τ} {B : ρ → σ → Prop} {Q : τ → σ → Prop}
    (hp : Triple d A p B) (hf : ∀ r, Triple d (B r) (f r) Q) : Triple d A (p >>= f) Q := by
  intro s inp n t m hA hrun
  obtain ⟨r, j, h1, h2⟩ := hrun.of_bind
  exact hf r s inp j t m (hp s inp n r j hA h1) h2

theorem conseq {A' : σ → Prop} {p : Program α β ρ} {Q Q' : ρ → σ → Prop} (h : Triple d A p Q)
    (hA : ∀ s, A' s → A s) (hQ : ∀ r s, Q r s → Q' r s) : Triple d A' p Q' :=
  fun s inp n r m hpre hrun => hQ _ _ (h s inp n r m (hA _ hpre) hrun)

theorem and {A' : σ → Prop} {p : Program α β ρ} {Q Q' : ρ → σ → Prop} (h : Triple d A p Q)
    (h' : Triple d A' p Q') : Triple d (fun s => A s ∧ A' s) p fun r s => Q r s ∧ Q' r s :=
  fun s inp n r m hA hrun => ⟨h s inp n r m hA.1 hrun, h' s inp n r m hA.2 hrun⟩

theorem any {p : Program α β ρ} : Triple d A p fun _ _ => True :=
  fun _ _ _ _ _ _ _ => trivial

/-- What holds of the values read so far is assumed. -/
theorem assume {φ : Prop} {p : Program α β ρ} {Q : ρ → σ → Prop} (h : φ → Triple d A p Q) :
    Triple d (fun s => φ ∧ A s) p Q := fun s inp n r m hA hrun => h hA.1 s inp n r m hA.2 hrun

theorem write {a : α} {v : β} {Q : Unit → σ → Prop} (hstable : Stable d A)
    (h : ∀ s x, A s → d.Writes x a v → Q () (d.step s x)) : Triple d A (writeWord a v) Q := by
  intro s inp n r m hA hrun
  cases hrun with
  | @write _ _ _ _ j _ _ hidle hw hnext =>
      cases hnext
      exact h _ _ (hstable.wait hA hidle) hw

theorem read {a : α} {Q : β → σ → Prop} (hstable : Stable d A)
    (h : ∀ s x, A s → d.Reads x a → Q (d.data (d.step s x)) (d.step s x)) :
    Triple d A (readWord a) Q := by
  intro s inp n r m hA hrun
  cases hrun with
  | @read _ _ _ j _ _ hidle hr hnext =>
      cases hnext
      exact h _ _ (hstable.wait hA hidle) hr

end Triple

end FirFilter.BusMaster
