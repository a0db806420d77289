import FirFilter.Lib.RowMajor
import Mathlib.Data.Matrix.Basic
import Mathlib.Logic.Equiv.Fin.Basic
/-!
# FirFilter.Lib.Matlab

Arrays as MATLAB stores them: the elements of a matrix are in column-major
order, `fwrite` writes them in this order and `reshape` fills a matrix in it.
Writing the transpose is therefore what makes a file row-major.
-/

namespace FirFilter.Matlab

variable {α : Type*} {m n : ℕ}

/-- `A(:)` -/
def columnMajor (A : Matrix (Fin m) (Fin n) α) : List α :=
  List.ofFn fun k : Fin (n * m) => A k.modNat k.divNat

/-- `reshape(l, [m n])`, an error unless the number of elements is right. -/
def reshape (m n : ℕ) (l : List α) : Option (Matrix (Fin m) (Fin n) α) :=
  if h : l.length = n * m then
    some fun r c => l.get ((finProdFinEquiv (c, r)).cast h.symm)
  else none

@[simp] theorem length_columnMajor (A : Matrix (Fin m) (Fin n) α) :
    (columnMajor A).length = n * m := by
  simp [columnMajor]

theorem getElem_columnMajor (A : Matrix (Fin m) (Fin n) α) (r : Fin m) (c : Fin n)
    (h : c.val * m + r.val < (columnMajor A).length) :
    (columnMajor A)[c.val * m + r.val] = A r c := by
  have hk : c.val * m + r.val < n * m := by rwa [length_columnMajor] at h
  have hdiv : (⟨c.val * m + r.val, hk⟩ : Fin (n * m)).divNat = c :=
    Fin.ext (rowMajor_div r.isLt)
  have hmod : (⟨c.val * m + r.val, hk⟩ : Fin (n * m)).modNat = r :=
    Fin.ext (rowMajor_mod r.isLt)
  simp only [columnMajor, List.getElem_ofFn, hdiv, hmod]

/-- A matrix is filled again from its elements. -/
theorem reshape_columnMajor (A : Matrix (Fin m) (Fin n) α) :
    reshape m n (columnMajor A) = some A := by
  rw [reshape, dif_pos (length_columnMajor A)]
  congr 1
  funext r c
  have hidx : (finProdFinEquiv (c, r)).val = c.val * m + r.val := by
    rw [finProdFinEquiv_apply_val]
    show r.val + m * c.val = _
    rw [Nat.mul_comm, Nat.add_comm]
  show (columnMajor A)[((finProdFinEquiv (c, r)).val)] = A r c
  simp only [hidx]
  exact getElem_columnMajor A r c _

/-- `reshape` accepts the elements of a matrix and nothing else. -/
theorem reshape_eq_some_iff {l : List α} {A : Matrix (Fin m) (Fin n) α} :
    reshape m n l = some A ↔ l = columnMajor A := by
  constructor
  · intro h
    unfold reshape at h
    split at h
    · rename_i hlen
      obtain rfl := Option.some.inj h
      refine List.ext_getElem (hlen.trans (length_columnMajor _).symm) fun k hk hk' => ?_
      have hm : 0 < m := Nat.pos_of_ne_zero fun h0 => by simp [hlen, h0] at hk
      have hsplit : k % m + m * (k / m) = k := Nat.mod_add_div k m
      simp only [columnMajor, List.getElem_ofFn, List.get_eq_getElem, Fin.val_cast,
        finProdFinEquiv_apply_val, Fin.coe_divNat, Fin.coe_modNat, hsplit]
    · exact absurd h (by simp)
  · rintro rfl
    exact reshape_columnMajor A

theorem columnMajor_map {β : Type*} (f : α → β) (A : Matrix (Fin m) (Fin n) α) :
    columnMajor (A.map f) = (columnMajor A).map f := by
  simp only [columnMajor, List.map_ofFn]
  rfl

/-- The matrix whose transpose holds a sequence row by row. -/
theorem columnMajor_rowMajor (f : ℕ → α) :
    columnMajor (Matrix.of fun (c : Fin m) (r : Fin n) => f (r.val * m + c.val)) =
      (List.range (n * m)).map f := by
  refine List.ext_getElem ?_ fun k hk hk' => ?_
  · rw [length_columnMajor, List.length_map, List.length_range]
  · have hsplit : k / m * m + k % m = k := Nat.div_add_mod' k m
    simp only [columnMajor, List.getElem_ofFn, Matrix.of_apply, Fin.coe_divNat, Fin.coe_modNat,
      List.getElem_map, List.getElem_range, hsplit]

end FirFilter.Matlab
