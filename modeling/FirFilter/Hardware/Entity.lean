import Mathlib.Algebra.Order.Ring.Nat
/-!
# FirFilter.Hardware.Entity

The entity declaration of `FIR_Filter_2D_custom`: its generics and the pins
that drive it during one clock cycle.

The generics carry the conditions under which the VHDL elaborates and every image
size can be programmed: every `integer range … downto 0 := 0` must contain `0`, and
the coefficient slices and the sizes must fit in a register, and the output bits
must be bits of the result. Two generics of the source are not separate fields
because the architecture leaves no choice for them: `IN_DATA_WIDTH` is connected to
a port of `PIXEL_WIDTH` bits, and `OUT_DATA_WIDTH` receives the 16 bits
`raw_result(21 downto 6)`.
-/

namespace FirFilter.Hardware

/-- The generics, with the defaults of the source. -/
structure Generics where
  dataBusWidth : ℕ := 32
  addressBusWidth : ℕ := 6
  pixelWidth : ℕ := 8
  coeffWidth : ℕ := 16
  productWidth : ℕ := 25
  kernelSize : ℕ := 7
  maxImageWidth : ℕ := 1656
  maxImageHeight : ℕ := 200
  /-- `cnt2` and `cnt5` range over `KERNEL_SIZE - 1 downto 0`. -/
  kernelSize_pos : 0 < kernelSize := by decide
  /-- `cnt3` and `cnt6` range over `MAX_IMAGE_WIDTH - 1 downto 0`. -/
  maxImageWidth_pos : 0 < maxImageWidth := by decide
  /-- `cnt4` ranges over `MAX_IMAGE_HEIGHT - 2 downto 0`. -/
  two_le_maxImageHeight : 2 ≤ maxImageHeight := by decide
  /-- A coefficient is a slice of its register. -/
  coeffWidth_le : coeffWidth ≤ dataBusWidth := by decide
  /-- `raw_result(21 downto 6)` is a slice of the result. -/
  productWidth_ge : 22 ≤ productWidth := by decide
  /-- The size registers can hold every size. -/
  maxImageWidth_lt : maxImageWidth < 2 ^ dataBusWidth := by decide
  maxImageHeight_lt : maxImageHeight < 2 ^ dataBusWidth := by decide

/-- The component as it is shipped. -/
abbrev shipped : Generics := {}

/-- A component for images of two columns and two rows. -/
abbrev smallGenerics : Generics := { maxImageWidth := 8, maxImageHeight := 2 }

/-- A component for images of seven columns and seven rows. -/
abbrev sevenGenerics : Generics := { maxImageWidth := 13, maxImageHeight := 7 }

/-- The input pins during one cycle. -/
structure Pins (g : Generics) where
  reset : Bool := false
  avsParamsAddress : BitVec g.addressBusWidth := 0
  avsParamsRead : Bool := false
  avsParamsWrite : Bool := false
  avsParamsWritedata : BitVec g.dataBusWidth := 0
  asiInData : BitVec g.pixelWidth := 0
  asiInValid : Bool := false
  asoOutReady : Bool := false

/-- `MAX_IMAGE_WIDTH * KERNEL_SIZE` pixels fill the shifter. -/
def Generics.shifterSize (g : Generics) : ℕ := g.maxImageWidth * g.kernelSize

theorem Generics.shifterSize_pos (g : Generics) : 0 < g.shifterSize :=
  Nat.mul_pos g.maxImageWidth_pos g.kernelSize_pos

end FirFilter.Hardware
