import FirFilter.Lib.ForLoop
import Mathlib.Logic.Function.Basic
/-!
# FirFilter.Software.Memory

The heap of `main.c`: the contents of the arrays, the sizes of the blocks they
live in, and a log of the accesses.

An array is a total function of its 32-bit index, so a read always has a value:
before the first write it is whatever the heap held. Every access is logged with
the number of elements its block has at that moment, `0` before `malloc` and
after `free`; an access that is not `InBounds` is undefined behaviour in C. Block
sizes are computed as in the source, in 32-bit unsigned arithmetic, and every
`malloc` succeeds.
-/

namespace FirFilter.Software

/-- The blocks that hold image data: `input_buf`, the array of pointers `image`,
`image[x]` for every `x`, and `output_buf`. -/
inductive Buffer
  | inputBuf
  | image
  | column (x : UInt32)
  | outputBuf
  deriving DecidableEq

/-- The bytes of one element. -/
def Buffer.elementSize : Buffer → ℕ
  | .inputBuf | .column _ => 1
  | .image => 4
  | .outputBuf => 2

/-- An access to element `index` of a block of `elements` elements. -/
structure Access where
  buffer : Buffer
  index : UInt32
  write : Bool
  elements : ℕ
  deriving DecidableEq

def Access.InBounds (a : Access) : Prop := a.index.toNat < a.elements

instance (a : Access) : Decidable a.InBounds := inferInstanceAs (Decidable (_ < _))

/-- What `main.c` keeps on the heap. `log` has the newest access first. -/
structure Heap where
  readValueInt : Int16
  filter : UInt32 → UInt32 → Int32
  width : UInt32
  height : UInt32
  inputBuf : UInt32 → UInt8
  /-- Column `x`, row `y`. -/
  image : UInt32 → UInt32 → UInt8
  outputBuf : UInt32 → Int16
  elements : Buffer → ℕ
  log : List Access

/-- A heap before the first iteration. -/
def emptyHeap : Heap where
  readValueInt := 0
  filter := fun _ _ => 0
  width := 0
  height := 0
  inputBuf := fun _ => 0
  image := fun _ _ => 0
  outputBuf := fun _ => 0
  elements := fun _ => 0
  log := []

/-- `f` with a new value at `(x, y)`. -/
def update₂ {α : Type*} (f : UInt32 → UInt32 → α) (x y : UInt32) (v : α) : UInt32 → UInt32 → α :=
  fun x' y' => if x' = x ∧ y' = y then v else f x' y'

theorem update₂_same {α : Type*} (f : UInt32 → UInt32 → α) (x y : UInt32) (v : α) :
    update₂ f x y v x y = v := if_pos ⟨rfl, rfl⟩

theorem update₂_of_ne {α : Type*} (f : UInt32 → UInt32 → α) {x y x' y' : UInt32} (v : α)
    (h : ¬ (x' = x ∧ y' = y)) : update₂ f x y v x' y' = f x' y' := if_neg h

theorem update₂_ofNat {α : Type*} (f : UInt32 → UInt32 → α) (x y : UInt32) (v : α) {x' y' : ℕ}
    (hx : x' < 2 ^ 32) (hy : y' < 2 ^ 32) :
    update₂ f x y v (UInt32.ofNat x') (UInt32.ofNat y') =
      if x' = x.toNat ∧ y' = y.toNat then v else f (UInt32.ofNat x') (UInt32.ofNat y') := by
  simp only [update₂, ← UInt32.toNat_inj, toNat_ofNat_of_lt hx, toNat_ofNat_of_lt hy]

namespace Heap

/-- `malloc(bytes)` for a block. The contents stay undefined. -/
def malloc (m : Heap) (b : Buffer) (bytes : UInt32) : Heap :=
  { m with elements := Function.update m.elements b (bytes.toNat / b.elementSize) }

/-- `free` of a block. -/
def free (m : Heap) (b : Buffer) : Heap :=
  { m with elements := Function.update m.elements b 0 }

def access (m : Heap) (b : Buffer) (index : UInt32) (write : Bool) : Heap :=
  { m with log := ⟨b, index, write, m.elements b⟩ :: m.log }

/-- The accesses of `image[x][y]`: the pointer, then the cell. -/
def accessCell (m : Heap) (x y : UInt32) (write : Bool) : Heap :=
  (m.access .image x false).access (.column x) y write

/-- `image[x][y] = v` -/
def storeCell (m : Heap) (x y : UInt32) (v : UInt8) : Heap :=
  { m.accessCell x y true with image := update₂ m.image x y v }

/-- `image[x][y] = input_buf[k]` -/
def copyInput (m : Heap) (x y k : UInt32) : Heap :=
  (m.access .inputBuf k false).storeCell x y (m.inputBuf k)

/-- `image[x][y] = image[x][y']` -/
def copyCell (m : Heap) (x y y' : UInt32) : Heap :=
  (m.accessCell x y' false).storeCell x y (m.image x y')

/-- `input_buf[k] = v` -/
def storeInput (m : Heap) (k : UInt32) (v : UInt8) : Heap :=
  { m.access .inputBuf k true with inputBuf := Function.update m.inputBuf k v }

/-- `output_buf[k] = v` -/
def storeOutput (m : Heap) (k : UInt32) (v : Int16) : Heap :=
  { m.access .outputBuf k true with outputBuf := Function.update m.outputBuf k v }

/-! ### The contents of the log -/

/-- What `accessCell` adds to the log, with blocks of the sizes `E`. -/
def cellEntries (E : Buffer → ℕ) (x y : UInt32) (write : Bool) : List Access :=
  [⟨.column x, y, write, E (.column x)⟩, ⟨.image, x, false, E .image⟩]

/-- Code that emits fixed entries while the block sizes are `E`, and keeps them. -/
abbrev Logs (E : Buffer → ℕ) (f : Heap → Heap) (es : List Access) : Prop :=
  Emits Heap.log (fun m => m.elements = E) f es

variable {E : Buffer → ℕ}

theorem logs_access (b : Buffer) (k : UInt32) (write : Bool) :
    Logs E (fun m => m.access b k write) [⟨b, k, write, E b⟩] := by
  rintro m rfl
  exact ⟨rfl, rfl⟩

theorem logs_copyInput (x y k : UInt32) : Logs E (fun m => m.copyInput x y k)
    (cellEntries E x y true ++ [⟨.inputBuf, k, false, E .inputBuf⟩]) := by
  rintro m rfl
  exact ⟨rfl, rfl⟩

theorem logs_copyCell (x y y' : UInt32) : Logs E (fun m => m.copyCell x y y')
    (cellEntries E x y true ++ cellEntries E x y' false) := by
  rintro m rfl
  exact ⟨rfl, rfl⟩

theorem logs_storeInput (k : UInt32) (v : UInt8) : Logs E (fun m => m.storeInput k v)
    [⟨.inputBuf, k, true, E .inputBuf⟩] := by
  rintro m rfl
  exact ⟨rfl, rfl⟩

theorem logs_storeOutput (k : UInt32) (v : Int16) : Logs E (fun m => m.storeOutput k v)
    [⟨.outputBuf, k, true, E .outputBuf⟩] := by
  rintro m rfl
  exact ⟨rfl, rfl⟩

/-! ### Block sizes -/

@[simp] theorem width_malloc (m : Heap) (b : Buffer) (bytes : UInt32) :
    (m.malloc b bytes).width = m.width := rfl

@[simp] theorem height_malloc (m : Heap) (b : Buffer) (bytes : UInt32) :
    (m.malloc b bytes).height = m.height := rfl

theorem elements_malloc (m : Heap) (b : Buffer) (bytes : UInt32) :
    (m.malloc b bytes).elements b = bytes.toNat / b.elementSize := Function.update_self _ _ _

theorem elements_malloc_of_ne (m : Heap) {b b' : Buffer} (bytes : UInt32) (h : b' ≠ b) :
    (m.malloc b bytes).elements b' = m.elements b' := Function.update_of_ne h _ _

theorem elements_free_of_ne (m : Heap) {b b' : Buffer} (h : b' ≠ b) :
    (m.free b).elements b' = m.elements b' := Function.update_of_ne h _ _

end Heap

end FirFilter.Software
