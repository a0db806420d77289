import FirFilter.Hardware.StateMachine
import FirFilter.Lib.BitSlice
/-!
# FirFilter.Hardware.Registers

The Avalon-MM slave of `FIR_Filter_2D_custom`: the control, size and coefficient
registers, their write processes, the read multiplexer and the slicing that
hands the coefficients to the datapath.

As in the source, the coefficients are one flattened vector. Slot `i` is at bits
`DATA_BUS_WIDTH * (i + 1) - 1 downto DATA_BUS_WIDTH * i`, `coeffs_index` selects
it for a bus access, and `coeffs_shrink` reads the low `COEFF_WIDTH` bits of
every slot at a different pitch. `avs_params_read` has no effect: `readdata` is
loaded on every edge. The source spells its address constants with six bits, for the
default `ADDRESS_BUS_WIDTH`; here they have the width of the bus.
-/

namespace FirFilter.Hardware

variable {g : Generics}

/-- The registers behind the Avalon-MM slave. -/
structure Registers (g : Generics) where
  controlReg : BitVec g.dataBusWidth := 0
  imageWidthReg : BitVec g.dataBusWidth := 0
  imageHeightReg : BitVec g.dataBusWidth := 0
  coeffsReg : BitVec (g.dataBusWidth * (g.kernelSize * g.kernelSize)) := 0
  avsParamsReaddata : BitVec g.dataBusWidth := 0
  deriving DecidableEq

/-! ### Addresses and strobes -/

def controlAddr (g : Generics) : BitVec g.addressBusWidth := 0
def statusAddr (g : Generics) : BitVec g.addressBusWidth := 1
def imageWidthAddr (g : Generics) : BitVec g.addressBusWidth := 2
def imageHeightAddr (g : Generics) : BitVec g.addressBusWidth := 3

/-- `COEFFS_ADDR(i)`. -/
def coeffsAddr (g : Generics) (i : ℕ) : BitVec g.addressBusWidth :=
  BitVec.ofNat g.addressBusWidth (4 + i)

def controlStrobe (x : Pins g) : Bool :=
  x.avsParamsWrite && x.avsParamsAddress == controlAddr g

def imageWidthStrobe (x : Pins g) : Bool :=
  x.avsParamsWrite && x.avsParamsAddress == imageWidthAddr g

def imageHeightStrobe (x : Pins g) : Bool :=
  x.avsParamsWrite && x.avsParamsAddress == imageHeightAddr g

/-- `coeffs_strobe(i)`. -/
def coeffsStrobe (x : Pins g) (i : ℕ) : Bool :=
  x.avsParamsWrite && x.avsParamsAddress == coeffsAddr g i

def addressIndex (x : Pins g) : ℕ := x.avsParamsAddress.toNat

/-- The coefficient the address selects, and `0` for every other address. -/
def coeffsIndex (x : Pins g) : ℕ :=
  if 4 ≤ addressIndex x ∧ addressIndex x < 4 + g.kernelSize * g.kernelSize then
    addressIndex x - 4
  else 0

theorem coeffsIndex_lt (x : Pins g) : coeffsIndex x < g.kernelSize * g.kernelSize := by
  have hpos := Nat.mul_pos g.kernelSize_pos g.kernelSize_pos
  unfold coeffsIndex
  split <;> omega

/-! ### The processes -/

namespace Registers

/-- Slot `i` of `coeffs_reg`. -/
def coeffSlot (r : Registers g) (i : ℕ) : BitVec g.dataBusWidth :=
  r.coeffsReg.extractLsb' (g.dataBusWidth * i) g.dataBusWidth

/-- `status_reg`. -/
def statusReg (g : Generics) (currentState : State) : BitVec g.dataBusWidth :=
  if currentState = .S0 then 0 else BitVec.allOnes g.dataBusWidth

/-- `read_out_mux`. -/
def readOutMux (r : Registers g) (currentState : State) (x : Pins g) :
    BitVec g.dataBusWidth :=
  if x.avsParamsAddress = controlAddr g then r.controlReg
  else if x.avsParamsAddress = statusAddr g then statusReg g currentState
  else if x.avsParamsAddress = imageWidthAddr g then r.imageWidthReg
  else if x.avsParamsAddress = imageHeightAddr g then r.imageHeightReg
  else if x.avsParamsAddress = coeffsAddr g (coeffsIndex x) then r.coeffSlot (coeffsIndex x)
  else 0

/-- Process `write_control_reg`. -/
def writeControlReg (r : Registers g) (x : Pins g) : BitVec g.dataBusWidth :=
  if controlStrobe x then x.avsParamsWritedata else r.controlReg

/-- Process `write_image_width_reg`. -/
def writeImageWidthReg (r : Registers g) (x : Pins g) : BitVec g.dataBusWidth :=
  if imageWidthStrobe x then x.avsParamsWritedata else r.imageWidthReg

/-- Process `write_image_height_reg`. -/
def writeImageHeightReg (r : Registers g) (x : Pins g) : BitVec g.dataBusWidth :=
  if imageHeightStrobe x then x.avsParamsWritedata else r.imageHeightReg

/-- Process `write_coeffs_reg`. -/
def writeCoeffsReg (r : Registers g) (x : Pins g) :
    BitVec (g.dataBusWidth * (g.kernelSize * g.kernelSize)) :=
  if coeffsStrobe x (coeffsIndex x) then
    assignSlice r.coeffsReg (g.dataBusWidth * coeffsIndex x) x.avsParamsWritedata
  else r.coeffsReg

/-- One clock edge without reset. -/
def edge (r : Registers g) (currentState : State) (x : Pins g) : Registers g where
  controlReg := r.writeControlReg x
  imageWidthReg := r.writeImageWidthReg x
  imageHeightReg := r.writeImageHeightReg x
  coeffsReg := r.writeCoeffsReg x
  avsParamsReaddata := r.readOutMux currentState x

/-! ### What the rest of the component reads -/

/-- `image_width <= to_integer(unsigned(image_width_reg))`. -/
def imageWidth (r : Registers g) : ℕ := r.imageWidthReg.toNat

/-- `image_height <= to_integer(unsigned(image_height_reg))`. -/
def imageHeight (r : Registers g) : ℕ := r.imageHeightReg.toNat

/-- `control_reg(0)`. -/
def controlBit (r : Registers g) : Bool := r.controlReg.getLsbD 0

/-- Slice `i` of `coeffs_shrink`. -/
def coeffsShrink (r : Registers g) (i : Fin (g.kernelSize * g.kernelSize)) :
    BitVec g.coeffWidth :=
  r.coeffsReg.extractLsb' (g.dataBusWidth * i.val) g.coeffWidth

/-! ### The width and height registers -/

theorem edge_imageWidth (r : Registers g) (st : State) (x : Pins g) :
    (r.edge st x).imageWidth =
      if imageWidthStrobe x then x.avsParamsWritedata.toNat else r.imageWidth := by
  simp only [imageWidth, edge, writeImageWidthReg]
  split <;> rfl

theorem edge_imageHeight (r : Registers g) (st : State) (x : Pins g) :
    (r.edge st x).imageHeight =
      if imageHeightStrobe x then x.avsParamsWritedata.toNat else r.imageHeight := by
  simp only [imageHeight, edge, writeImageHeightReg]
  split <;> rfl

/-! ### The coefficients -/

theorem slot_fits (g : Generics) {i : ℕ} (hi : i < g.kernelSize * g.kernelSize) :
    g.dataBusWidth * i + g.dataBusWidth ≤ g.dataBusWidth * (g.kernelSize * g.kernelSize) :=
  slot_le hi

/-- The low bits of a slot after an edge: those of the word if the bus wrote the slot,
and the old ones otherwise. -/
theorem edge_coeffsSlice (r : Registers g) (st : State) (x : Pins g) {i u : ℕ}
    (hi : i < g.kernelSize * g.kernelSize) (hu : u ≤ g.dataBusWidth) :
    (r.edge st x).coeffsReg.extractLsb' (g.dataBusWidth * i) u =
      if coeffsStrobe x (coeffsIndex x) ∧ coeffsIndex x = i then
        x.avsParamsWritedata.extractLsb' 0 u
      else r.coeffsReg.extractLsb' (g.dataBusWidth * i) u := by
  have hfit := slot_fits g hi
  show (r.writeCoeffsReg x).extractLsb' (g.dataBusWidth * i) u = _
  unfold writeCoeffsReg
  by_cases hs : coeffsStrobe x (coeffsIndex x)
  · rw [if_pos hs]
    by_cases hindex : coeffsIndex x = i
    · rw [if_pos ⟨hs, hindex⟩, hindex]
      exact extract_assignSlice_sub _ _ _ hu hfit
    · rw [if_neg fun h => hindex h.2]
      refine extract_assignSlice_of_disjoint _ _ _ ?_ (by omega)
      rcases slots_disjoint g.dataBusWidth hindex with h | h
      · exact .inl (by omega)
      · exact .inr h
  · rw [if_neg hs, if_neg fun h => hs h.1]

/-- A coefficient after an edge. -/
theorem edge_coeffsShrink (r : Registers g) (st : State) (x : Pins g)
    (i : Fin (g.kernelSize * g.kernelSize)) :
    (r.edge st x).coeffsShrink i =
      if coeffsStrobe x (coeffsIndex x) ∧ coeffsIndex x = i.val then
        x.avsParamsWritedata.extractLsb' 0 g.coeffWidth
      else r.coeffsShrink i :=
  r.edge_coeffsSlice st x i.isLt g.coeffWidth_le

end Registers

end FirFilter.Hardware
