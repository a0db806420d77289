import FirFilter.Hardware.Component
import FirFilter.Software.Arithmetic
/-!
# FirFilter.System.Narrowing

The two ways to narrow a window sum to 16 bits.

Both drop six bits, rounding towards `-∞`. `main.c` then clamps, and the component
cuts bits out of `raw_result`, a bus as wide as a single product. A sum of 49
products leaves the range of these bits, and the output wraps where the program
saturates.
-/

namespace FirFilter.System

open Hardware Software

variable {g : Generics} {P : Parts g}

/-- The widths of the source, with any sizes. -/
structure DefaultWidths (g : Generics) : Prop where
  kernelSize : g.kernelSize = 7
  pixelWidth : g.pixelWidth = 8
  coeffWidth : g.coeffWidth = 16
  productWidth : g.productWidth = 25

/-! ### The exact sum -/

/-- The sum of products over the window in the register bank. -/
def exactSum (s : Component P) : ℤ :=
  productSum (P.registerBank.output s.process.2) s.regs.coeffsShrink

theorem abs_coeff_le (hg : DefaultWidths g) (v : BitVec g.coeffWidth) : |v.toInt| ≤ 2 ^ 15 := by
  have hlo := BitVec.le_two_mul_toInt (x := v)
  have hhi := BitVec.two_mul_toInt_lt (x := v)
  have hpow : (2 : ℤ) ^ g.coeffWidth = 2 ^ 16 := by rw [hg.coeffWidth]
  rw [abs_le]
  omega

theorem pixel_lt (hg : DefaultWidths g) (v : BitVec g.pixelWidth) : v.toNat < 256 := by
  have hlt := v.isLt
  have hpow : 2 ^ g.pixelWidth = 2 ^ 8 := by rw [hg.pixelWidth]
  omega

/-- A sum of 49 products has less than 30 bits. -/
theorem abs_exactSum_le (hg : DefaultWidths g) (s : Component P) :
    |exactSum s| ≤ 49 * (2 ^ 15 * 255) := by
  have hsum : ∀ (f : Fin g.kernelSize → ℤ) (b : ℤ), (∀ k, |f k| ≤ b) → |∑ k, f k| ≤ 7 * b := by
    intro f b hf
    calc |∑ k, f k| ≤ ∑ k, |f k| := Finset.abs_sum_le_sum_abs _ _
      _ ≤ ∑ _k : Fin g.kernelSize, b := Finset.sum_le_sum fun k _ => hf k
      _ = 7 * b := by
          rw [Finset.sum_const, Finset.card_univ, Fintype.card_fin, hg.kernelSize, nsmul_eq_mul]
          rfl
  have hterm : ∀ (c : BitVec g.coeffWidth) (v : BitVec g.pixelWidth),
      |c.toInt * (v.toNat : ℤ)| ≤ 2 ^ 15 * 255 := by
    intro c v
    have hv := pixel_lt hg v
    rw [abs_mul, Nat.abs_cast]
    exact mul_le_mul (abs_coeff_le hg c) (by omega) (Int.natCast_nonneg _) (by norm_num)
  calc |exactSum s| ≤ 7 * (7 * (2 ^ 15 * 255)) := hsum _ _ fun k => hsum _ _ fun p => hterm _ _
    _ = 49 * (2 ^ 15 * 255) := by norm_num

/-! ### Slice and clamp -/

/-- **The slice.** `aso_out_data` is the sum over `64`, modulo `2 ^ 16`. -/
theorem asoOutData_toInt (hP : P.PairsColumns) (s : Component P) :
    s.asoOutData.toInt = (exactSum s / 64).bmod (2 ^ 16) := by
  have hslice := toInt_slice (n := 15) (k := 6) g.productWidth_ge (exactSum s)
  rw [Component.asoOutData, Component.rawResult, hP]
  exact hslice

/-- **The clamp**, for a sum that fits in `tmp`. -/
theorem narrow_ofInt {S : ℤ} (hlo : -2 ^ 31 ≤ S) (hhi : S < 2 ^ 31) :
    (narrow (Int32.ofInt S)).toInt = saturate 15 (S / 64) := by
  rw [narrow_toInt, Int32.toInt_ofInt_of_le hlo hhi]

/-- The sums that both narrow to the same value: those in range, and those beyond it
whose 16 bits happen to be the bound. -/
def NarrowsAlike (S : ℤ) : Prop :=
  (-2 ^ 21 ≤ S ∧ S < 2 ^ 21) ∨ (0 < S ∧ S / 64 % 2 ^ 16 = 2 ^ 15 - 1) ∨
    (S < 0 ∧ S / 64 % 2 ^ 16 = 2 ^ 15)

instance (S : ℤ) : Decidable (NarrowsAlike S) := by
  unfold NarrowsAlike
  infer_instance

theorem saturate_eq_bmod_sixteen (S : ℤ) :
    saturate 15 (S / 64) = (S / 64).bmod (2 ^ 16) ↔ NarrowsAlike S := by
  rw [saturate_eq_bmod_iff, NarrowsAlike]
  constructor
  · rintro (h | h | h) <;> omega
  · rintro (h | h | h) <;> omega

theorem asoOutData_of_mem (hP : P.PairsColumns) {s : Component P} (hlo : -2 ^ 21 ≤ exactSum s)
    (hhi : exactSum s < 2 ^ 21) : s.asoOutData.toInt = saturate 15 (exactSum s / 64) := by
  rw [asoOutData_toInt hP]
  exact ((saturate_eq_bmod_sixteen _).mpr (.inl ⟨hlo, hhi⟩)).symm

/-- **Narrowing.** For whatever window and coefficients, the component and `main.c`
narrow the sum to the same value exactly when it is one of `NarrowsAlike`. -/
theorem asoOutData_eq_narrow_iff (hg : DefaultWidths g) (hP : P.PairsColumns) (s : Component P) :
    s.asoOutData.toInt = (narrow (Int32.ofInt (exactSum s))).toInt ↔
      NarrowsAlike (exactSum s) := by
  have hbound := abs_le.mp (abs_exactSum_le hg s)
  rw [asoOutData_toInt hP, narrow_ofInt (by omega) (by omega), eq_comm]
  exact saturate_eq_bmod_sixteen _

/-- A white pixel on black in the centre of the window, under the coefficient that
`log.bin` has there. -/
def whitePixel : Component (Parts.plain shipped) where
  regs := { coeffsReg := 32767#_ <<< (32 * 24) }
  control := {}
  process := (fun _ => 0, fun age tap => if age = 3 ∧ tap.val = 3 then 255 else 0)

theorem asoOutData_eq_narrow_iff_whitePixel :
    whitePixel.asoOutData.toInt = (narrow (Int32.ofInt (exactSum whitePixel))).toInt ↔
      NarrowsAlike (exactSum whitePixel) :=
  asoOutData_eq_narrow_iff ⟨rfl, rfl, rfl, rfl⟩ (Parts.plain_pairsColumns shipped) whitePixel

/-- The component outputs `-516` for it, and `main.c` stores `32767`. -/
theorem whitePixel_wraps : ¬ (whitePixel.asoOutData.toInt =
    (narrow (Int32.ofInt (exactSum whitePixel))).toInt) := by
  decide +kernel

end FirFilter.System
