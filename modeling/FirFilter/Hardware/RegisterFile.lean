import FirFilter.Hardware.Component
import FirFilter.Lib.WordMemory
/-!
# FirFilter.Hardware.RegisterFile

The Avalon-MM slave as a memory.

Software sees one word at each of the addresses `0`, `2`, `3` and `4` to
`4 + KERNEL_SIZE * KERNEL_SIZE - 1`, and the status at address `1`. `word` is that view
of the registers, `word_edge` the effect of a cycle on it, and `Represents` relates it to
a `WordMemory` on the same bus. An address without a coefficient selects slot `0` all the
same (`coeffs_index`); the strobe compares the address itself with that of the slot
selected, so slot `0` is not written by mistake.
-/

namespace FirFilter.Hardware

open Clocked WordMemory

variable {g : Generics}

/-- The coefficients have addresses of their own. -/
def AddressesFit (g : Generics) : Prop :=
  4 + g.kernelSize * g.kernelSize ≤ 2 ^ g.addressBusWidth

instance (g : Generics) : Decidable (AddressesFit g) := inferInstanceAs (Decidable (_ ≤ _))

/-- The addresses that hold a word. -/
def Stored (a : BitVec g.addressBusWidth) : Prop :=
  a.toNat = 0 ∨ a.toNat = 2 ∨ a.toNat = 3 ∨
    4 ≤ a.toNat ∧ a.toNat < 4 + g.kernelSize * g.kernelSize

instance (a : BitVec g.addressBusWidth) : Decidable (Stored a) :=
  inferInstanceAs (Decidable (_ ∨ _ ∨ _ ∨ _))

/-- What a cycle of the bus does to a memory. -/
def busOp (x : Pins g) : Op (BitVec g.addressBusWidth) (BitVec g.dataBusWidth) :=
  if x.reset then .clear
  else if x.avsParamsWrite then .write x.avsParamsAddress x.avsParamsWritedata
  else .keep

/-! ### Addresses -/

/-- An address that fits in the bus is its number. -/
theorem AddressesFit.eq_iff (hK : AddressesFit g) (a : BitVec g.addressBusWidth) {k : ℕ}
    (hk : k < 4 + g.kernelSize * g.kernelSize) :
    a = BitVec.ofNat g.addressBusWidth k ↔ a.toNat = k := by
  rw [BitVec.toNat_eq, BitVec.toNat_ofNat, Nat.mod_eq_of_lt (hk.trans_le hK)]

/-- The addresses before the coefficients. -/
theorem AddressesFit.eq_fixed_iff (hK : AddressesFit g) (a : BitVec g.addressBusWidth) {k : ℕ}
    (hk : k < 4) : a = BitVec.ofNat g.addressBusWidth k ↔ a.toNat = k :=
  hK.eq_iff a (Nat.lt_add_right _ hk)

theorem AddressesFit.toNat_coeffsAddr (hK : AddressesFit g)
    (i : Fin (g.kernelSize * g.kernelSize)) : (coeffsAddr g i).toNat = 4 + i.val :=
  (hK.eq_iff _ (Nat.add_lt_add_left i.isLt 4)).mp rfl

section Strobes

variable (hK : AddressesFit g) (x : Pins g)

include hK

theorem strobe_iff {k : ℕ} (hk : k < 4) :
    (x.avsParamsWrite && x.avsParamsAddress == BitVec.ofNat g.addressBusWidth k) = true ↔
      x.avsParamsWrite ∧ x.avsParamsAddress.toNat = k := by
  rw [Bool.and_eq_true, beq_iff_eq, hK.eq_fixed_iff _ hk]

theorem controlStrobe_iff :
    controlStrobe x ↔ x.avsParamsWrite ∧ x.avsParamsAddress.toNat = 0 :=
  strobe_iff hK x (by decide)

theorem imageWidthStrobe_iff :
    imageWidthStrobe x ↔ x.avsParamsWrite ∧ x.avsParamsAddress.toNat = 2 :=
  strobe_iff hK x (by decide)

theorem imageHeightStrobe_iff :
    imageHeightStrobe x ↔ x.avsParamsWrite ∧ x.avsParamsAddress.toNat = 3 :=
  strobe_iff hK x (by decide)

/-- The slot selected is at the address presented exactly when that is the address of a
coefficient. -/
theorem address_eq_coeffsAddr_iff : x.avsParamsAddress = coeffsAddr g (coeffsIndex x) ↔
    4 ≤ x.avsParamsAddress.toNat ∧
      x.avsParamsAddress.toNat < 4 + g.kernelSize * g.kernelSize := by
  have hlt := coeffsIndex_lt x
  rw [coeffsAddr, hK.eq_iff _ (Nat.add_lt_add_left hlt 4)]
  unfold coeffsIndex addressIndex
  split <;> omega

theorem coeffsStrobe_iff {i : ℕ} (hi : i < g.kernelSize * g.kernelSize) :
    coeffsStrobe x (coeffsIndex x) ∧ coeffsIndex x = i ↔
      x.avsParamsWrite ∧ x.avsParamsAddress.toNat = 4 + i := by
  rw [coeffsStrobe, Bool.and_eq_true, beq_iff_eq, address_eq_coeffsAddr_iff hK, and_assoc]
  refine and_congr_right fun _ => ?_
  unfold coeffsIndex addressIndex
  split <;> omega

end Strobes

/-! ### The words -/

namespace Registers

/-- The word software sees at address `a`, and `0` where there is none. -/
def word (r : Registers g) (a : BitVec g.addressBusWidth) : BitVec g.dataBusWidth :=
  if a.toNat = 0 then r.controlReg
  else if a.toNat = 2 then r.imageWidthReg
  else if a.toNat = 3 then r.imageHeightReg
  else if 4 ≤ a.toNat ∧ a.toNat < 4 + g.kernelSize * g.kernelSize then r.coeffSlot (a.toNat - 4)
  else 0

theorem word_of_not_stored (r : Registers g) {a : BitVec g.addressBusWidth} (h : ¬ Stored a) :
    r.word a = 0 := by
  simp only [Stored, not_or] at h
  rw [word, if_neg h.1, if_neg h.2.1, if_neg h.2.2.1, if_neg h.2.2.2]

section

variable (hK : AddressesFit g) (r : Registers g)

include hK

/-- **One cycle.** The word written, and every other word as before. -/
theorem word_edge (st : State) (x : Pins g) {a : BitVec g.addressBusWidth} (ha : Stored a) :
    (r.edge st x).word a =
      if x.avsParamsWrite ∧ x.avsParamsAddress = a then x.avsParamsWritedata else r.word a := by
  have heq : x.avsParamsAddress = a ↔ x.avsParamsAddress.toNat = a.toNat := BitVec.toNat_eq
  simp only [heq]
  rcases ha with h | h | h | h
  · simp only [word, h, if_true, ← controlStrobe_iff hK]
    rfl
  · simp only [word, h, if_true, ← imageWidthStrobe_iff hK]
    rfl
  · simp only [word, h, if_true, ← imageHeightStrobe_iff hK]
    rfl
  · have hi : a.toNat - 4 < g.kernelSize * g.kernelSize := by omega
    have hslot : a.toNat = 4 + (a.toNat - 4) := by omega
    have hslice := r.edge_coeffsSlice st x hi (le_refl g.dataBusWidth)
    simp only [coeffsStrobe_iff hK x hi, ← hslot] at hslice
    have hword : ∀ r : Registers g, r.word a = r.coeffSlot (a.toNat - 4) := fun r => by
      rw [word, if_neg (by omega), if_neg (by omega), if_neg (by omega), if_pos h]
    rw [hword, hword, coeffSlot, hslice, BitVec.extractLsb'_eq_self]
    rfl

/-- What a bus access reads. -/
theorem readOutMux_eq (st : State) (x : Pins g) : r.readOutMux st x =
    if x.avsParamsAddress.toNat = 1 then statusReg g st else r.word x.avsParamsAddress := by
  have h0 : x.avsParamsAddress = controlAddr g ↔ x.avsParamsAddress.toNat = 0 :=
    hK.eq_fixed_iff _ (by decide)
  have h1 : x.avsParamsAddress = statusAddr g ↔ x.avsParamsAddress.toNat = 1 :=
    hK.eq_fixed_iff _ (by decide)
  have h2 : x.avsParamsAddress = imageWidthAddr g ↔ x.avsParamsAddress.toNat = 2 :=
    hK.eq_fixed_iff _ (by decide)
  have h3 : x.avsParamsAddress = imageHeightAddr g ↔ x.avsParamsAddress.toNat = 3 :=
    hK.eq_fixed_iff _ (by decide)
  simp only [readOutMux, word, h0, h1, h2, h3, address_eq_coeffsAddr_iff hK]
  by_cases hc : 4 ≤ x.avsParamsAddress.toNat ∧
      x.avsParamsAddress.toNat < 4 + g.kernelSize * g.kernelSize
  · have hindex : coeffsIndex x = x.avsParamsAddress.toNat - 4 := if_pos hc
    rw [hindex]
    split_ifs <;> first | rfl | omega
  · split_ifs <;> first | rfl | omega

/-- A coefficient is the low part of its word. -/
theorem coeffsShrink_eq_word (i : Fin (g.kernelSize * g.kernelSize)) :
    r.coeffsShrink i = (r.word (coeffsAddr g i)).extractLsb' 0 g.coeffWidth := by
  have hi := i.isLt
  have hle := g.coeffWidth_le
  have haddr := hK.toNat_coeffsAddr i
  rw [word, if_neg (by omega), if_neg (by omega), if_neg (by omega), if_pos (by omega), haddr,
    Nat.add_sub_cancel_left, coeffSlot]
  apply BitVec.eq_of_getLsbD_eq
  intro k hk
  have hlt : k < g.dataBusWidth := by omega
  simp only [coeffsShrink, BitVec.getLsbD_extractLsb', hk, hlt, decide_true, Bool.true_and,
    Nat.zero_add]

end

end Registers

/-! ### Frame conditions -/

section

variable {P : Parts g} {s : Component P} {x : Pins g}

/-- A cycle that writes to no word keeps all of them. -/
theorem config_step_of_not_stored (hK : AddressesFit g) (hr : x.reset = false)
    (h : ¬ (x.avsParamsWrite ∧ Stored x.avsParamsAddress)) : (s.step x).config = s.config := by
  have hcontrol : ¬ controlStrobe x := fun hs =>
    h (((controlStrobe_iff hK x).mp hs).imp_right .inl)
  have hwidth : ¬ imageWidthStrobe x := fun hs =>
    h (((imageWidthStrobe_iff hK x).mp hs).imp_right fun ha => .inr (.inl ha))
  have hheight : ¬ imageHeightStrobe x := fun hs =>
    h (((imageHeightStrobe_iff hK x).mp hs).imp_right fun ha => .inr (.inr (.inl ha)))
  have hcoeffs : ¬ coeffsStrobe x (coeffsIndex x) := fun hs => by
    have hlt := coeffsIndex_lt x
    obtain ⟨hw, haddr⟩ := (coeffsStrobe_iff hK x hlt).mp ⟨hs, rfl⟩
    exact h ⟨hw, .inr (.inr (.inr (by omega)))⟩
  simp only [Component.config, Component.step_regs hr, Registers.edge, Registers.writeControlReg,
    Registers.writeImageWidthReg, Registers.writeImageHeightReg, Registers.writeCoeffsReg, hcontrol,
    hwidth, hheight, hcoeffs, Bool.false_eq_true, if_false]

/-- A cycle that writes at one address keeps the words at the others. -/
theorem word_step_of_ne (hK : AddressesFit g) (hr : x.reset = false)
    {a : BitVec g.addressBusWidth} (ha : a ≠ x.avsParamsAddress) :
    (s.step x).regs.word a = s.regs.word a := by
  by_cases hs : Stored a
  · rw [Component.step_regs hr, Registers.word_edge hK _ _ _ hs, if_neg fun h => ha h.2.symm]
  · rw [Registers.word_of_not_stored _ hs, Registers.word_of_not_stored _ hs]

end

/-! ### Refinement -/

/-- The registers hold the words of the memory. -/
def Represents (r : Registers g) (mem : BitVec g.addressBusWidth → BitVec g.dataBusWidth) : Prop :=
  ∀ a, Stored a → r.word a = mem a

variable {P : Parts g}

theorem represents_of_reset : Represents ({} : Registers g) fun _ => 0 := by
  intro a _
  have hslot : ∀ i, ({} : Registers g).coeffSlot i = 0 := fun i => by
    apply BitVec.eq_of_getLsbD_eq
    intro k _
    simp [Registers.coeffSlot]
  unfold Registers.word
  rw [hslot]
  split_ifs <;> rfl

/-- **Step lemma.** -/
theorem Represents.step (hK : AddressesFit g) {s : Component P}
    {mem : BitVec g.addressBusWidth → BitVec g.dataBusWidth} (h : Represents s.regs mem)
    (x : Pins g) : Represents (s.step x).regs (apply 0 mem (busOp x)) := by
  unfold busOp
  by_cases hr : x.reset
  · rw [if_pos hr, Component.step, if_pos hr]
    exact represents_of_reset
  · rw [if_neg hr, Component.step_regs (by simpa using hr)]
    intro a ha
    rw [Registers.word_edge hK _ _ _ ha, h a ha]
    by_cases hw : x.avsParamsWrite
    · rw [if_pos hw, apply]
      by_cases haddr : x.avsParamsAddress = a
      · rw [if_pos ⟨hw, haddr⟩, haddr, Function.update_self]
      · rw [if_neg fun h => haddr h.2, Function.update_of_ne fun h => haddr h.symm]
    · rw [if_neg hw, if_neg fun h => hw h.1]
      rfl

/-- **Run lemma.** -/
theorem represents_of_run (hK : AddressesFit g) {s : Component P} (h0 : s.regs = {})
    (inp : ℕ → Pins g) (n : ℕ) :
    Represents (run Component.step s inp n).regs (contents 0 (fun k => busOp (inp k)) n) :=
  run_simulation (R := fun (s : Component P) mem => Represents s.regs mem)
    (by rw [h0]; exact represents_of_reset) (fun _ _ x h => h.step hK x) inp n

/-- **The slave refines a memory.** On every run from reset, with any bus cycles and any
stream activity, `readdata` is loaded with the last word written to the address presented,
the status at address `1` and `0` at every other address; cycles that write to no word
keep all of them, a write keeps the words at the other addresses, and the datapath gets
the low bits of the last words written to the coefficients. -/
theorem registerFile_refines (hK : AddressesFit g) {s : Component P} (h0 : s.IsReset)
    (inp : ℕ → Pins g) (n : ℕ) :
    let t := run Component.step s inp n
    let x := inp n
    let mem := contents 0 (fun k => busOp (inp k)) n
    (∀ a, LastWritten 0 (fun k => busOp (inp k)) n a (mem a)) ∧
    (x.reset = false → (t.step x).regs.avsParamsReaddata =
      if x.avsParamsAddress.toNat = 1 then
        if t.control.currentState = .S0 then 0 else BitVec.allOnes g.dataBusWidth
      else if Stored x.avsParamsAddress then mem x.avsParamsAddress else 0) ∧
    (x.reset = false → ¬ (x.avsParamsWrite ∧ Stored x.avsParamsAddress) →
      (t.step x).config = t.config) ∧
    (x.reset = false → ∀ a, a ≠ x.avsParamsAddress → (t.step x).regs.word a = t.regs.word a) ∧
    ∀ i, t.regs.coeffsShrink i = (mem (coeffsAddr g i)).extractLsb' 0 g.coeffWidth := by
  intro t x mem
  have hrep : Represents t.regs mem := represents_of_run hK h0.1 inp n
  refine ⟨lastWritten_contents 0 _ n, fun hr => ?_, fun hr h => config_step_of_not_stored hK hr h,
    fun hr a ha => word_step_of_ne hK hr ha, fun i => ?_⟩
  · rw [Component.step_regs hr]
    show t.regs.readOutMux t.control.currentState x = _
    rw [Registers.readOutMux_eq hK]
    by_cases hs : Stored x.avsParamsAddress
    · rw [if_pos hs, hrep _ hs]
      rfl
    · rw [if_neg hs, Registers.word_of_not_stored _ hs]
      rfl
  · have hi := i.isLt
    have haddr := hK.toNat_coeffsAddr i
    rw [Registers.coeffsShrink_eq_word hK, hrep _ (.inr (.inr (.inr (by omega))))]

/-- Two writes to the first coefficient, one beyond the last, and a read. -/
def coefficientAccess (n : ℕ) : Pins shipped :=
  if n = 0 then { avsParamsWrite := true, avsParamsAddress := 4, avsParamsWritedata := 9 }
  else if n = 1 then { avsParamsWrite := true, avsParamsAddress := 4, avsParamsWritedata := 5 }
  else if n = 2 then { avsParamsWrite := true, avsParamsAddress := 53, avsParamsWritedata := 7 }
  else { eager shipped with avsParamsRead := true, avsParamsAddress := 4 }

theorem registerFile_refines_coefficient :
    (run Component.step (Component.programmed (Parts.plain shipped) 2 2).clear coefficientAccess
      4).regs.avsParamsReaddata = 5 :=
  ((registerFile_refines (by decide) (Component.clear_isReset _) coefficientAccess 3).2.1 rfl).trans
    (by decide)

end FirFilter.Hardware
