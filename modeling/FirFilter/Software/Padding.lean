import FirFilter.Software.Main
import FirFilter.Lib.Imfilter
import FirFilter.Lib.RowMajor
/-!
# FirFilter.Software.Padding

The two padding loops of `main.c` extend the image by edge replication.

The first loop fills rows `3` to `h + 2`, side columns included, from
`input_buf`; the second copies row `3` upwards and row `h + 2` downwards, corners
included. The sizes are those for which none of the index expressions wraps.
-/

namespace FirFilter.Software

open Heap

/-- An image size for which the index arithmetic of the padding loops is exact. -/
structure ImageSize where
  width : UInt32
  height : UInt32
  width_pos : 1 ≤ width.toNat
  height_pos : 1 ≤ height.toNat
  pixels_lt : width.toNat * height.toNat < 2 ^ 32
  columns_lt : 4 * (width.toNat + 6) < 2 ^ 32
  rows_lt : height.toNat + 6 < 2 ^ 32

namespace ImageSize

variable (d : ImageSize)

instance : NeZero d.width.toNat := ⟨by have := d.width_pos; omega⟩

instance : NeZero d.height.toNat := ⟨by have := d.height_pos; omega⟩

theorem toNat_columns : (d.width + 2 * paddingSize).toNat = d.width.toNat + 6 := by
  have := d.columns_lt
  have h6 : (2 * paddingSize).toNat = 6 := rfl
  rw [toNat_add_of_lt (by omega), h6]

theorem toNat_rows : (d.height + 2 * paddingSize).toNat = d.height.toNat + 6 := by
  have := d.rows_lt
  have h6 : (2 * paddingSize).toNat = 6 := rfl
  rw [toNat_add_of_lt (by omega), h6]

theorem toNat_lastColumn : (d.width + paddingSize).toNat = d.width.toNat + 3 := by
  have := d.columns_lt
  rw [toNat_add_of_lt (by rw [toNat_paddingSize]; omega), toNat_paddingSize]

theorem toNat_lastRow : (d.height + paddingSize).toNat = d.height.toNat + 3 := by
  have := d.rows_lt
  rw [toNat_add_of_lt (by rw [toNat_paddingSize]; omega), toNat_paddingSize]

/-- A row-major index inside the image. -/
theorem rowMajor_lt {r c : ℕ} (hr : r < d.height.toNat) (hc : c < d.width.toNat) :
    r * d.width.toNat + c < d.width.toNat * d.height.toNat := by
  rw [Nat.mul_comm d.width.toNat]
  exact FirFilter.rowMajor_lt hr hc

/-- The index into `input_buf` of the pixel that cell `(x, y)` replicates. -/
def source (x y : ℕ) : UInt32 :=
  UInt32.ofNat ((clampIndex d.height.toNat (y - 3)).val * d.width.toNat +
    (clampIndex d.width.toNat (x - 3)).val)

theorem toNat_source (x y : ℕ) : (d.source x y).toNat =
    (clampIndex d.height.toNat (y - 3)).val * d.width.toNat +
      (clampIndex d.width.toNat (x - 3)).val := by
  have hlt := d.rowMajor_lt (clampIndex d.height.toNat (y - 3)).isLt
    (clampIndex d.width.toNat (x - 3)).isLt
  exact toNat_ofNat_of_lt (hlt.trans d.pixels_lt)

theorem toNat_source_lt (x y : ℕ) : (d.source x y).toNat < d.width.toNat * d.height.toNat := by
  rw [toNat_source]
  exact d.rowMajor_lt (Fin.isLt _) (Fin.isLt _)

theorem source_top (x : ℕ) {y : ℕ} (hy : y ≤ 3) : d.source x y = d.source x 3 := by
  have h1 := clampIndex_val d.height.toNat (y - 3)
  have h2 := clampIndex_val d.height.toNat ((3 : ℕ) - 3)
  have heq : clampIndex d.height.toNat (y - 3) = clampIndex d.height.toNat ((3 : ℕ) - 3) :=
    Fin.ext (by omega)
  unfold source
  rw [heq]

theorem source_bottom (x : ℕ) {y : ℕ} (hy : d.height.toNat + 2 ≤ y) :
    d.source x y = d.source x (d.height.toNat + 2) := by
  have h1 := clampIndex_val d.height.toNat (y - 3)
  have h2 := clampIndex_val d.height.toNat ((d.height.toNat + 2 : ℕ) - 3)
  have := d.height_pos
  have heq : clampIndex d.height.toNat (y - 3) =
      clampIndex d.height.toNat ((d.height.toNat + 2 : ℕ) - 3) := Fin.ext (by omega)
  unfold source
  rw [heq]

/-- The three branches of the first loop are the three parts of a row. -/
theorem inputIndex_eq {i j : UInt32} (hi : 3 ≤ i.toNat) (hi' : i.toNat < d.height.toNat + 3)
    (hj : j.toNat < d.width.toNat + 6) : inputIndex d.width i j = d.source j.toNat i.toNat := by
  have hw := d.width_pos
  have hrow : (i - paddingSize).toNat = i.toNat - 3 := toNat_sub_of_le hi
  have hrows := clampIndex_of_lt (n := d.height.toNat) (z := (i.toNat : ℤ) - 3)
    (by omega) (by omega)
  have hcols := clampIndex_val d.width.toNat (j.toNat - 3)
  have hlt : (i.toNat - 3) * d.width.toNat + (d.width.toNat - 1) <
      d.width.toNat * d.height.toNat := d.rowMajor_lt (by omega) (by omega)
  have hpix := d.pixels_lt
  have hbase : ((i - paddingSize) * d.width).toNat = (i.toNat - 3) * d.width.toNat := by
    rw [toNat_mul_of_lt (by rw [hrow]; omega), hrow]
  have hlast : (d.width - 1).toNat = d.width.toNat - 1 := toNat_sub_of_le hw
  apply UInt32.toNat_inj.mp
  rw [d.toNat_source, show (clampIndex d.height.toNat (i.toNat - 3)).val = i.toNat - 3 by omega]
  unfold inputIndex
  by_cases h1 : j.toNat < 3
  · rw [if_pos (UInt32.lt_iff_toNat_lt.mpr h1), hbase]
    omega
  · rw [if_neg (mt UInt32.lt_iff_toNat_lt.mp h1)]
    by_cases h2 : d.width.toNat + 3 ≤ j.toNat
    · rw [if_pos (UInt32.le_iff_toNat_le.mpr (by rwa [d.toNat_lastColumn])),
        toNat_add_of_lt (by rw [hbase, hlast]; omega), hbase, hlast]
      omega
    · rw [if_neg (mt UInt32.le_iff_toNat_le.mp (by rwa [d.toNat_lastColumn])),
        UInt32.toNat_sub, UInt32.toNat_add, hbase, toNat_paddingSize]
      -- the sum may wrap, and the subtraction wraps back
      omega

end ImageSize

/-! ### The contents after the loops -/

section Contents

variable {d : ImageSize} {buf : UInt32 → UInt8}

/-- The first loop has filled the rows above `i` and the first `j` cells of row `i`. -/
structure RowsFilled (d : ImageSize) (buf : UInt32 → UInt8) (i j : ℕ) (m : Heap) : Prop where
  inputBuf : m.inputBuf = buf
  filled : ∀ x y : UInt32, x.toNat < d.width.toNat + 6 → 3 ≤ y.toNat →
    (y.toNat < i ∨ y.toNat = i ∧ x.toNat < j) → m.image x y = buf (d.source x.toNat y.toNat)

theorem RowsFilled.copyInput {m : Heap} {i j : UInt32}
    (h : RowsFilled d buf i.toNat j.toNat m) (hi : 3 ≤ i.toNat)
    (hi' : i.toNat < d.height.toNat + 3) (hj : j.toNat < d.width.toNat + 6) :
    RowsFilled d buf i.toNat (j.toNat + 1) (m.copyInput j i (inputIndex d.width i j)) := by
  refine ⟨h.inputBuf, fun x y hx hy hdone => ?_⟩
  show update₂ m.image j i (m.inputBuf (inputIndex d.width i j)) x y = _
  by_cases hcell : x = j ∧ y = i
  · obtain ⟨rfl, rfl⟩ := hcell
    rw [update₂_same, d.inputIndex_eq hi hi' hj, h.inputBuf]
  · rw [update₂_of_ne _ _ hcell]
    refine h.filled x y hx hy ?_
    rcases hdone with hlt | ⟨heq, hlt⟩
    · exact .inl hlt
    · refine .inr ⟨heq, ?_⟩
      have hne : x.toNat ≠ j.toNat := fun hx =>
        hcell ⟨UInt32.toNat_inj.mp hx, UInt32.toNat_inj.mp heq⟩
      omega

/-- After the first loop the rows of the image hold their pixels. -/
theorem padRows_filled (d : ImageSize) (m : Heap) :
    RowsFilled d m.inputBuf (d.height.toNat + 3) 0 (padRows d.width d.height m) := by
  rw [← d.toNat_lastRow]
  refine forLoop_induction (fun i => RowsFilled d m.inputBuf i 0) ?_ ?_ ?_
  · rw [d.toNat_lastRow, toNat_paddingSize]
    omega
  · refine ⟨rfl, fun x y _ hy hdone => ?_⟩
    rw [toNat_paddingSize] at hdone
    omega
  · intro i s hi hi' hs
    rw [d.toNat_lastRow] at hi'
    have hrow : RowsFilled d m.inputBuf i.toNat (d.width + 2 * paddingSize).toNat _ :=
      forLoop_induction_zero (RowsFilled d m.inputBuf i.toNat) hs
        fun j s hj hs => hs.copyInput hi hi' (by rwa [d.toNat_columns] at hj)
    refine ⟨hrow.inputBuf, fun x y hx hy hdone => hrow.filled x y hx hy ?_⟩
    rw [d.toNat_columns]
    omega

/-- The second loop has filled `i` rows at each end and the first `j` cells of the next
two. -/
def BorderFilled (d : ImageSize) (buf : UInt32 → UInt8) (i j : ℕ) (m : Heap) : Prop :=
  ∀ x y : UInt32, x.toNat < d.width.toNat + 6 →
    (3 ≤ y.toNat ∧ y.toNat < d.height.toNat + 3 ∨ y.toNat < i ∨
      d.height.toNat + 6 ≤ y.toNat + i ∧ y.toNat < d.height.toNat + 6 ∨
      x.toNat < j ∧ (y.toNat = i ∨ y.toNat + i = d.height.toNat + 5)) →
    m.image x y = buf (d.source x.toNat y.toNat)

/-- Copying a filled cell to one with the same source. -/
theorem image_copyCell {m : Heap} {x y y' : UInt32} {v : UInt8} (h : m.image x y' = v) :
    (m.copyCell x y y').image x y = v := by
  show update₂ m.image x y (m.image x y') x y = v
  rw [update₂_same, h]

theorem image_copyCell_of_ne {m : Heap} {x y y' a b : UInt32} (h : ¬ (a = x ∧ b = y)) :
    (m.copyCell x y y').image a b = m.image a b := update₂_of_ne _ _ h

theorem ImageSize.toNat_mirror (d : ImageSize) {i : UInt32} (hi : i.toNat < 3) :
    (d.height + 2 * paddingSize - i - 1).toNat = d.height.toNat + 5 - i.toNat := by
  have h1 : (d.height + 2 * paddingSize - i).toNat = d.height.toNat + 6 - i.toNat := by
    rw [toNat_sub_of_le (by rw [d.toNat_rows]; omega), d.toNat_rows]
  rw [toNat_sub_of_le (by rw [h1, UInt32.toNat_one]; omega), h1, UInt32.toNat_one]
  omega

theorem ImageSize.toNat_bottom (d : ImageSize) :
    (d.height + paddingSize - 1).toNat = d.height.toNat + 2 := by
  rw [toNat_sub_of_le (by rw [d.toNat_lastRow, UInt32.toNat_one]; omega), d.toNat_lastRow,
    UInt32.toNat_one]
  omega

theorem BorderFilled.copyCells {m : Heap} {i j : UInt32}
    (h : BorderFilled d buf i.toNat j.toNat m) (hi : i.toNat < 3)
    (hj : j.toNat < d.width.toNat + 6) :
    BorderFilled d buf i.toNat (j.toNat + 1)
      ((m.copyCell j i paddingSize).copyCell j (d.height + 2 * paddingSize - i - 1)
        (d.height + paddingSize - 1)) := by
  have hh := d.height_pos
  have hmirror := d.toNat_mirror hi
  have hbottom := d.toNat_bottom
  -- both cells read are in the rows of the image, which the loop does not write
  have htop : m.image j paddingSize = buf (d.source j.toNat 3) :=
    h j paddingSize hj (.inl ⟨le_refl 3, by rw [toNat_paddingSize]; omega⟩)
  have hlow : (m.copyCell j i paddingSize).image j (d.height + paddingSize - 1) =
      buf (d.source j.toNat (d.height.toNat + 2)) := by
    rw [image_copyCell_of_ne fun hcell => by
      have := congrArg UInt32.toNat hcell.2
      omega]
    rw [← hbottom]
    exact h j _ hj (.inl ⟨by omega, by omega⟩)
  intro x y hx hdone
  by_cases hcell : x = j ∧ y = d.height + 2 * paddingSize - i - 1
  · obtain ⟨rfl, rfl⟩ := hcell
    rw [image_copyCell hlow, hmirror,
      d.source_bottom x.toNat (y := d.height.toNat + 5 - i.toNat) (by omega)]
  · rw [image_copyCell_of_ne hcell]
    by_cases hcell' : x = j ∧ y = i
    · obtain ⟨rfl, rfl⟩ := hcell'
      rw [image_copyCell htop, d.source_top x.toNat (y := y.toNat) (by omega)]
    · rw [image_copyCell_of_ne hcell']
      refine h x y hx ?_
      have hne : x.toNat = j.toNat → y.toNat ≠ i.toNat ∧ y.toNat + i.toNat ≠ d.height.toNat + 5 :=
        fun hxj => by
          obtain rfl := UInt32.toNat_inj.mp hxj
          refine ⟨fun hy => hcell' ⟨rfl, UInt32.toNat_inj.mp hy⟩, fun hy => hcell ⟨rfl, ?_⟩⟩
          apply UInt32.toNat_inj.mp
          omega
      omega

/-- After both loops every cell holds the pixel it replicates. -/
theorem padBorder_filled {m : Heap} (h : RowsFilled d buf (d.height.toNat + 3) 0 m) :
    BorderFilled d buf 3 0 (padBorder d.width d.height m) := by
  show BorderFilled d buf paddingSize.toNat 0 (forLoop 0 paddingSize _ m)
  refine forLoop_induction_zero (fun i => BorderFilled d buf i 0) ?_ ?_
  · intro x y hx hdone
    exact h.filled x y hx (by omega) (by omega)
  · intro i s hi hs
    have hrow : BorderFilled d buf i.toNat (d.width + 2 * paddingSize).toNat _ :=
      forLoop_induction_zero (BorderFilled d buf i.toNat) hs
        fun j s hj hs => hs.copyCells hi (by rwa [d.toNat_columns] at hj)
    intro x y hx hdone
    refine hrow x y hx ?_
    rw [d.toNat_columns]
    have hi3 : i.toNat < 3 := hi
    omega

/-- **Padding is edge replication.** -/
theorem image_pad (d : ImageSize) (m : Heap) {x y : UInt32}
    (hx : x.toNat < d.width.toNat + 6) (hy : y.toNat < d.height.toNat + 6) :
    (pad d.width d.height m).image x y = m.inputBuf (d.source x.toNat y.toNat) := by
  have hrows := padRows_filled d m
  refine padBorder_filled (m := (padRows d.width d.height m).free .inputBuf)
    ⟨hrows.inputBuf, hrows.filled⟩ x y hx ?_
  omega

end Contents

end FirFilter.Software
