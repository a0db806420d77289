import FirFilter.Software.Memory
import FirFilter.Lib.LittleEndian
/-!
# FirFilter.Software.Main

`main.c`, one iteration of its endless loop at a time.

The parts are in the order of the source. The iterators, `*width` and `*height`
are 32-bit unsigned, `filter` and `tmp` 32-bit signed. The files are byte lists;
the mask and the image file are inputs and the output file is the result. A short
`fread` leaves the rest of its buffer as it was. The blocks are new ones in every
turn of the loop, with any contents.
-/

namespace FirFilter.Software

/-- `FILTER_SIZE` -/
def filterSize : UInt32 := 7

/-- `FRACTION_BITS` -/
def fractionBits : Int32 := 6

/-- `PADDING_SIZE` -/
def paddingSize : UInt32 := 3

/-- `SHRT_MAX` -/
def shrtMax : Int32 := 32767

/-- `SHRT_MIN` -/
def shrtMin : Int32 := -32768

@[simp] theorem toNat_filterSize : filterSize.toNat = 7 := rfl

@[simp] theorem toNat_paddingSize : paddingSize.toNat = 3 := rfl

/-! ### Files -/

/-- The bytes of an `unsigned long`. -/
def encodeUInt32 (v : UInt32) : List UInt8 := encodeLE 4 v.toNat

def decodeUInt32 (bs : List UInt8) : UInt32 := UInt32.ofNat (decodeLE bs)

/-- The bytes of a `short`. -/
def encodeInt16 (v : Int16) : List UInt8 := encodeLE 2 v.toUInt16.toNat

def decodeInt16 (bs : List UInt8) : Int16 := (UInt16.ofNat (decodeLE bs)).toInt16

/-- `fread` of one object that held the bytes `old`, and what is left of the file. -/
def fread (old file : List UInt8) : List UInt8 × List UInt8 :=
  (file.take old.length ++ old.drop file.length, file.drop old.length)

/-! ### Reading -/

/-- One coefficient: `fread(read_value_int, 2, 1, file)`, then
`filter[i][j] = *read_value_int`. -/
def readCoefficient (i j : UInt32) (s : Heap × List UInt8) : Heap × List UInt8 :=
  let r := fread (encodeInt16 s.1.readValueInt) s.2
  let v := decodeInt16 r.1
  ({ s.1 with readValueInt := v, filter := update₂ s.1.filter i j v.toInt32 }, r.2)

/-- "read filter" -/
def readFilter (filterFile : List UInt8) (m : Heap) : Heap :=
  (forLoop 0 filterSize (fun i => forLoop 0 filterSize fun j => readCoefficient i j)
    (m, filterFile)).1

/-- `fread(width, 4, 1, file)` and `fread(height, 4, 1, file)` -/
def readHeader (imageFile : List UInt8) (m : Heap) : Heap × List UInt8 :=
  let r := fread (encodeUInt32 m.width) imageFile
  let r' := fread (encodeUInt32 m.height) r.2
  ({ m with width := decodeUInt32 r.1, height := decodeUInt32 r'.1 }, r'.2)

/-- `fread(input_buf, 1, n, file)` -/
def readPixels (n : UInt32) (file : List UInt8) (m : Heap) : Heap :=
  forLoop 0 (UInt32.ofNat (min n.toNat file.length))
    (fun k m => m.storeInput k (file.getD k.toNat 0)) m

/-- The loop that allocates the columns of `image`. -/
def allocateColumns (w h : UInt32) (m : Heap) : Heap :=
  forLoop 0 (w + 2 * paddingSize)
    (fun i m => (m.malloc (.column i) (1 * (h + 2 * paddingSize))).access .image i true) m

/-! ### Padding -/

/-- The index into `input_buf` in the three branches of the first padding loop. -/
def inputIndex (w i j : UInt32) : UInt32 :=
  if j < paddingSize then (i - paddingSize) * w
  else if w + paddingSize ≤ j then (i - paddingSize) * w + (w - 1)
  else (i - paddingSize) * w + j - paddingSize

/-- The first padding loop: rows with their side columns. -/
def padRows (w h : UInt32) (m : Heap) : Heap :=
  forLoop paddingSize (h + paddingSize) (fun i => forLoop 0 (w + 2 * paddingSize) fun j m =>
    m.copyInput j i (inputIndex w i j)) m

/-- The second padding loop: the rows above and below. -/
def padBorder (w h : UInt32) (m : Heap) : Heap :=
  forLoop 0 paddingSize (fun i => forLoop 0 (w + 2 * paddingSize) fun j m =>
    (m.copyCell j i paddingSize).copyCell j (h + 2 * paddingSize - i - 1) (h + paddingSize - 1)) m

/-- The padding, with `free(input_buf)` between the loops. -/
def pad (w h : UInt32) (m : Heap) : Heap :=
  padBorder w h ((padRows w h m).free .inputBuf)

/-! ### Filtering -/

/-- `filter[k][p] * image[x][y]`; the pixel is promoted to `int`. -/
def product (m : Heap) (k p x y : UInt32) : Int32 :=
  m.filter k p * (m.image x y).toUInt32.toInt32

/-- The loops over `k` and `p`, and the value of `tmp` after them. -/
def accumulate (i j : UInt32) (m : Heap) : Heap × Int32 :=
  forLoop 0 filterSize (fun k => forLoop 0 filterSize fun p s =>
    (s.1.accessCell (j + k) (i + p) false, s.2 + product s.1 k p (j + k) (i + p))) (m, 0)

/-- The value stored for a sum: shift, clamp and conversion to `short`. -/
def narrow (tmp : Int32) : Int16 :=
  let tmp := tmp >>> fractionBits
  let tmp := if shrtMax < tmp then shrtMax else if tmp < shrtMin then shrtMin else tmp
  tmp.toInt16

/-- One output pixel. -/
def filterPixel (w i j : UInt32) (m : Heap) : Heap :=
  let r := accumulate i j m
  r.1.storeOutput (i * w + j) (narrow r.2)

/-- "perform filtering" -/
def filterImage (w h : UInt32) (m : Heap) : Heap :=
  forLoop 0 h (fun i => forLoop 0 w fun j => filterPixel w i j) m

/-! ### Writing -/

/-- The loop that frees the columns of `image`. -/
def freeColumns (w : UInt32) (m : Heap) : Heap :=
  forLoop 0 (w + 2 * paddingSize) (fun i m => (m.access .image i false).free (.column i)) m

/-- `fwrite(output_buf, 2, n, file)`: the accesses. -/
def readOutput (n : UInt32) (m : Heap) : Heap :=
  forLoop 0 n (fun k m => m.access .outputBuf k false) m

/-- The bytes of the output file. -/
def outputFile (m : Heap) : List UInt8 :=
  encodeUInt32 m.width ++ encodeUInt32 m.height ++
    (List.range (m.width * m.height).toNat).flatMap fun k =>
      encodeInt16 (m.outputBuf (UInt32.ofNat k))

/-! ### One iteration -/

/-- Up to the allocation of `image`. -/
def load (filterFile imageFile : List UInt8) (m : Heap) : Heap :=
  let r := readHeader imageFile (readFilter filterFile m)
  let m := r.1.malloc .inputBuf (1 * r.1.height * r.1.width)
  let m := readPixels (m.height * m.width) r.2 m
  let m := m.malloc .image (4 * (m.width + 2 * paddingSize))
  allocateColumns m.width m.height m

/-- "perform filtering", with the allocation of `output_buf`. -/
def filtering (m : Heap) : Heap :=
  filterImage m.width m.height (m.malloc .outputBuf (2 * m.width * m.height))

/-- One iteration of `while (1)`: the heap after it and the file it wrote. -/
def mainIteration (filterFile imageFile : List UInt8) (m : Heap) : Heap × List UInt8 :=
  let m := load filterFile imageFile m
  let m := pad m.width m.height m
  let m := filtering m
  let m := (freeColumns m.width m).free .image
  let m := readOutput (m.width * m.height) m
  (m.free .outputBuf, outputFile m)

/-! ### The endless loop -/

/-- One turn of `while (1)`: the mask and the image file, and what the blocks happen to hold that
the turn gets from `malloc`. -/
structure MainTurn where
  files : List UInt8 × List UInt8
  fresh : Heap

/-- Every turn allocates its blocks anew, so none holds what an earlier turn has written. -/
def Heap.renew (m fresh : Heap) : Heap := { fresh with elements := m.elements, log := m.log }

/-- The heap after a turn and the file it wrote. -/
def MainTurn.run (t : MainTurn) (m : Heap) : Heap × List UInt8 :=
  mainIteration t.files.1 t.files.2 (m.renew t.fresh)

/-- `while (1)`: the files that the turns write. -/
def mainLoop (m : Heap) : List MainTurn → List (List UInt8)
  | [] => []
  | t :: ts => (t.run m).2 :: mainLoop (t.run m).1 ts

end FirFilter.Software
