import FirFilter.Hardware.Registers
import FirFilter.Lib.Clocked
import FirFilter.Lib.DelayLine
import Mathlib.Algebra.BigOperators.Fin
/-!
# FirFilter.Hardware.Component

The whole of `FIR_Filter_2D_custom`: registers, control part and the instance of
`fir_filter_2D_process`.

`fir_filter_2D_process` wires three components whose source is not part of the
repository: the vendor's `altshift_taps`, and `register_bank_custom` and
`convolution`. They are the fields of `Parts`, a parameter of everything below.
Their state types are arbitrary, and what a result relies on is a named
hypothesis about them (`ShiftTaps.DelayLine`, `ColumnBank.KeepsLast`,
`Parts.PairsColumns`); the control results rely on nothing.
-/

namespace FirFilter.Hardware

variable {g : Generics}

/-- A cycle with neither a reset nor a bus write. -/
def Pins.Quiet (x : Pins g) : Prop := x.reset = false ∧ x.avsParamsWrite = false

/-- Every handshake offered, no reset and no bus access. -/
def eager (g : Generics) : Pins g := { asiInValid := true, asoOutReady := true }

theorem eager_quiet (g : Generics) : (eager g).Quiet := ⟨rfl, rfl⟩

/-! ### `fir_filter_2D_process` -/

/-- The components instantiated by `fir_filter_2D_process`. -/
structure Parts (g : Generics) where
  /-- `i1: altshift_taps` -/
  altshiftTaps : ShiftTaps (BitVec g.pixelWidth) g.kernelSize
  /-- `i2: register_bank_custom` -/
  registerBank : ColumnBank (BitVec g.pixelWidth) g.kernelSize
  /-- `i3: convolution`, a combinational function of the bank and the coefficients. -/
  convolution : (Fin g.kernelSize → Fin g.kernelSize → BitVec g.pixelWidth) →
    (Fin (g.kernelSize * g.kernelSize) → BitVec g.coeffWidth) → BitVec g.productWidth

/-- Coefficient slot `k * KERNEL_SIZE + p`. -/
def coeffSlotIndex (k p : Fin g.kernelSize) : Fin (g.kernelSize * g.kernelSize) :=
  finProdFinEquiv (k, p)

/-- The exact sum of products: coefficient `k * KERNEL_SIZE + p` (signed) times the
pixel (zero-extended) in column `k` from the left and row `p` from the top. -/
def productSum (out : Fin g.kernelSize → Fin g.kernelSize → BitVec g.pixelWidth)
    (coeffs : Fin (g.kernelSize * g.kernelSize) → BitVec g.coeffWidth) : ℤ :=
  ∑ k : Fin g.kernelSize, ∑ p : Fin g.kernelSize,
    (coeffs (coeffSlotIndex k p)).toInt * ((out k.rev p.rev).toNat : ℤ)

/-- `convolution` delivers the sum of products modulo `2 ^ PRODUCT_WIDTH`. -/
def Parts.PairsColumns (P : Parts g) : Prop :=
  ∀ out coeffs, P.convolution out coeffs = BitVec.ofInt g.productWidth (productSum out coeffs)

/-- Executable stand-ins for the three components. -/
def Parts.plain (g : Generics) : Parts g where
  altshiftTaps := shiftRegister g.kernelSize g.maxImageWidth 0
  registerBank := columnRegister g.kernelSize 0
  convolution := fun out coeffs => BitVec.ofInt g.productWidth (productSum out coeffs)

theorem Parts.plain_delayLine (g : Generics) :
    (Parts.plain g).altshiftTaps.DelayLine g.maxImageWidth :=
  shiftRegister_delayLine 0 g.maxImageWidth_pos

theorem Parts.plain_keepsLast (g : Generics) : (Parts.plain g).registerBank.KeepsLast :=
  columnRegister_keepsLast _ 0

theorem Parts.plain_pairsColumns (g : Generics) : (Parts.plain g).PairsColumns :=
  fun _ _ => rfl

/-- The contents of the delay line and of the register bank. -/
abbrev Process (P : Parts g) := P.altshiftTaps.State × P.registerBank.State

namespace Process

variable {P : Parts g}

/-- One clock edge without reset; `en` enables both memories. -/
def edge (p : Process P) (en : Bool) (shiftInput : BitVec g.pixelWidth) : Process P :=
  if en then shiftBoth P.altshiftTaps P.registerBank p shiftInput else p

/-- `reset` drives `aclr` of the delay line and `reset` of the bank. -/
def clear (p : Process P) : Process P :=
  (P.altshiftTaps.aclr p.1, P.registerBank.reset p.2)

/-- The `K × K` values in the register bank, row `a` from the top and column `b`
from the left: the latest column is the right-most, the first tap the bottom row. -/
def window (p : Process P) (a b : Fin g.kernelSize) : BitVec g.pixelWidth :=
  P.registerBank.output p.2 b.rev a.rev

end Process

/-! ### The component -/

/-- Everything `FIR_Filter_2D_custom` stores. -/
structure Component (P : Parts g) where
  regs : Registers g
  control : Control
  process : Process P

namespace Component

variable {P : Parts g}

/-- The signals the control part sees. -/
def signals (s : Component P) (x : Pins g) : Signals where
  controlBit := s.regs.controlBit
  imageWidth := s.regs.imageWidth
  imageHeight := s.regs.imageHeight
  asoOutReady := x.asoOutReady
  asiInValid := x.asiInValid

/-- `asi_in_ready`. -/
def asiInReady (s : Component P) : Bool := intAsiInReady s.control.currentState

/-- `aso_out_valid`. -/
def outValid (s : Component P) : Bool := asoOutValid s.control.currentState

/-- `shift_enable`. -/
def shiftEnable (s : Component P) (x : Pins g) : Bool :=
  Hardware.shiftEnable s.control.currentState x.asiInValid

/-- `raw_result`. -/
def rawResult (s : Component P) : BitVec g.productWidth :=
  P.convolution (P.registerBank.output s.process.2) s.regs.coeffsShrink

/-- `aso_out_data <= raw_result(21 downto 6)`. -/
def asoOutData (s : Component P) : BitVec 16 := s.rawResult.extractLsb 21 6

/-- The effect of `reset = '1'` on every process. -/
def clear (s : Component P) : Component P where
  regs := {}
  control := {}
  process := s.process.clear

/-- One clock cycle: the asynchronous reset, or one rising edge. -/
def step (s : Component P) (x : Pins g) : Component P :=
  if x.reset then s.clear
  else
    { regs := s.regs.edge s.control.currentState x
      control := s.control.edge g (s.signals x)
      process := s.process.edge (s.shiftEnable x) x.asiInData }

/-- A beat of the input stream is accepted in this cycle. -/
def accepts (s : Component P) (x : Pins g) : Bool := x.asiInValid && s.asiInReady

/-- A beat of the output stream is accepted in this cycle. -/
def transfers (s : Component P) (x : Pins g) : Bool := x.asoOutReady && s.outValid

/-! ### One cycle without reset -/

variable {s : Component P} {x : Pins g}

@[simp] theorem step_regs (hr : x.reset = false) :
    (s.step x).regs = s.regs.edge s.control.currentState x := by
  simp [step, hr]

@[simp] theorem step_control (hr : x.reset = false) :
    (s.step x).control = s.control.edge g (s.signals x) := by
  simp [step, hr]

@[simp] theorem step_process (hr : x.reset = false) :
    (s.step x).process = s.process.edge (s.shiftEnable x) x.asiInData := by
  simp [step, hr]

theorem step_transition (hr : x.reset = false) :
    Transition g (s.signals x) s.control (s.step x).control := by
  rw [step_control hr]
  exact Control.edge_transition g _ _

/-- The component after reset, with whatever the memories hold. -/
def IsReset (s : Component P) : Prop := s.regs = {} ∧ s.control = {}

theorem clear_isReset (s : Component P) : s.clear.IsReset := ⟨rfl, rfl⟩

/-! ### Cycles without a bus write -/

/-- What software can set: everything in the registers but `readdata`. -/
def config (s : Component P) : BitVec g.dataBusWidth × BitVec g.dataBusWidth ×
    BitVec g.dataBusWidth × BitVec (g.dataBusWidth * (g.kernelSize * g.kernelSize)) :=
  (s.regs.controlReg, s.regs.imageWidthReg, s.regs.imageHeightReg, s.regs.coeffsReg)

theorem config_step_of_quiet (h : x.Quiet) : (s.step x).config = s.config := by
  simp [config, h.1, Registers.edge, Registers.writeControlReg, Registers.writeImageWidthReg,
    Registers.writeImageHeightReg, Registers.writeCoeffsReg, controlStrobe, imageWidthStrobe,
    imageHeightStrobe, coeffsStrobe, h.2]

/-- Without bus writes the configuration stays what it is. -/
theorem config_run_of_quiet (s : Component P) {inp : ℕ → Pins g} (h : ∀ n, (inp n).Quiet)
    (n : ℕ) : (Clocked.run step s inp n).config = s.config := by
  induction n with
  | zero => rfl
  | succ n ih => rw [Clocked.run_succ, config_step_of_quiet (h n), ih]

theorem sizes_run_of_quiet (s : Component P) {inp : ℕ → Pins g} (h : ∀ n, (inp n).Quiet)
    (n : ℕ) : (Clocked.run step s inp n).regs.imageWidth = s.regs.imageWidth ∧
      (Clocked.run step s inp n).regs.imageHeight = s.regs.imageHeight := by
  have hconf := config_run_of_quiet s h n
  simp only [config, Prod.mk.injEq] at hconf
  unfold Registers.imageWidth Registers.imageHeight
  rw [hconf.2.1, hconf.2.2.1]
  exact ⟨rfl, rfl⟩

theorem controlBit_run_of_quiet (s : Component P) {inp : ℕ → Pins g} (h : ∀ n, (inp n).Quiet)
    (n : ℕ) : (Clocked.run step s inp n).regs.controlBit = s.regs.controlBit := by
  have hconf := config_run_of_quiet s h n
  simp only [config, Prod.mk.injEq] at hconf
  unfold Registers.controlBit
  rw [hconf.1]

/-- Idle, programmed for a `w × h` image and started. -/
def programmed (P : Parts g) (w h : ℕ) : Component P where
  regs := { controlReg := 1, imageWidthReg := BitVec.ofNat _ w, imageHeightReg := BitVec.ofNat _ h }
  control := {}
  process := (P.altshiftTaps.powerUp, P.registerBank.powerUp)

theorem programmed_controlBit (P : Parts g) (w h : ℕ) :
    (programmed P w h).regs.controlBit = true := by
  have hbits : 0 < g.dataBusWidth := by
    by_contra h0
    have hlt := g.maxImageWidth_lt
    rw [Nat.eq_zero_of_not_pos h0, Nat.pow_zero] at hlt
    exact absurd g.maxImageWidth_pos (by omega)
  show (1#g.dataBusWidth).getLsbD 0 = true
  rw [BitVec.getLsbD_one]
  simpa using hbits

end Component

end FirFilter.Hardware
