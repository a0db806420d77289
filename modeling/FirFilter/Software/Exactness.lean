import FirFilter.Software.Filter
import Mathlib.Algebra.BigOperators.Fin
/-!
# FirFilter.Software.Exactness

The filter arithmetic of `main.c` is integer arithmetic.

`Arithmetic` has the loops as they are written. Here the products may come in any
order: no partial sum of any order leaves the range of `tmp`, so all of them end in the
same value, and what is stored grows with the exact sum.
-/

namespace FirFilter.Software

variable {m : Heap} {i j : UInt32}

/-! ### Other orders of summation -/

/-- The positions of the mask in the order of the loops over `k` and `p`. -/
def loopOrder : List (Fin 7 × Fin 7) := List.finRange 7 ×ˢ List.finRange 7

/-- `tmp` after the products for the positions of a list, added in its order. -/
def sumInOrder (m : Heap) (i j : UInt32) (l : List (Fin 7 × Fin 7)) : Int32 :=
  l.foldl (fun tmp q => tmp + product m (UInt32.ofNat q.1) (UInt32.ofNat q.2)
    (j + UInt32.ofNat q.1) (i + UInt32.ofNat q.2)) 0

/-- The exact sum of the products for the positions of a list. -/
def exactInOrder (m : Heap) (i j : UInt32) (l : List (Fin 7 × Fin 7)) : ℤ :=
  (l.map fun q => term m i j q.1 q.2).sum

theorem exactInOrder_concat (l : List (Fin 7 × Fin 7)) (q : Fin 7 × Fin 7) :
    exactInOrder m i j (l ++ [q]) = exactInOrder m i j l + term m i j q.1 q.2 := by
  rw [exactInOrder, List.map_append, List.sum_append, List.map_singleton, List.sum_singleton]
  rfl

theorem abs_exactInOrder_le (hm : ShortFilter m) (l : List (Fin 7 × Fin 7)) :
    |exactInOrder m i j l| ≤ l.length * (2 ^ 15 * 255) := by
  induction l using List.reverseRecOn with
  | nil => exact le_refl _
  | append_singleton l q ih =>
      have hterm := abs_term_le hm i j q.1 q.1.isLt q.2 q.2.isLt
      rw [exactInOrder_concat, List.length_append, List.length_singleton]
      calc |exactInOrder m i j l + term m i j q.1 q.2|
          ≤ |exactInOrder m i j l| + |term m i j q.1 q.2| := abs_add_le _ _
        _ ≤ l.length * (2 ^ 15 * 255) + 2 ^ 15 * 255 := add_le_add ih hterm
        _ = ((l.length + 1 : ℕ) : ℤ) * (2 ^ 15 * 255) := by push_cast; ring

theorem exactInOrder_inInt (hm : ShortFilter m) {l : List (Fin 7 × Fin 7)}
    (hl : l.length ≤ 49) : InInt (exactInOrder m i j l) := by
  have h := abs_le.mp (abs_exactInOrder_le (i := i) (j := j) hm l)
  unfold InInt
  omega

/-- As many products as the mask has are added exactly, in any order. -/
theorem sumInOrder_exact (hm : ShortFilter m) {l : List (Fin 7 × Fin 7)}
    (hl : l.length ≤ 49) : (sumInOrder m i j l).toInt = exactInOrder m i j l := by
  induction l using List.reverseRecOn with
  | nil => rfl
  | append_singleton l q ih =>
      have hk : (UInt32.ofNat q.1).toNat = q.1 := toNat_ofNat_of_lt (by omega)
      have hp : (UInt32.ofNat q.2).toNat = q.2 := toNat_ofNat_of_lt (by omega)
      have hproduct := toInt_product hm i j (k := UInt32.ofNat q.1) (p := UInt32.ofNat q.2)
        (by omega) (by omega)
      have hsum := exactInOrder_inInt (i := i) (j := j) hm hl
      rw [hk, hp] at hproduct
      rw [List.length_append] at hl
      rw [exactInOrder_concat, ← hproduct, ← ih (by omega)] at hsum ⊢
      rw [sumInOrder, List.foldl_append]
      exact toInt_add_of_mem hsum

theorem exactInOrder_loopOrder : exactInOrder m i j loopOrder = windowSum m i j := by
  have hnodup : loopOrder.Nodup := (List.nodup_finRange 7).product (List.nodup_finRange 7)
  have hall : loopOrder.toFinset = Finset.univ := by
    refine Finset.eq_univ_of_forall fun q => List.mem_toFinset.mpr ?_
    exact List.mem_product.mpr ⟨List.mem_finRange q.1, List.mem_finRange q.2⟩
  rw [exactInOrder, ← List.sum_toFinset _ hnodup, hall, Fintype.sum_prod_type]
  unfold windowSum
  rw [Finset.sum_range]
  exact Finset.sum_congr rfl fun k _ => (Finset.sum_range fun p => term m i j k p).symm

/-- A reordering of the loops ends with the exact sum. -/
theorem exactInOrder_perm {l : List (Fin 7 × Fin 7)} (h : l.Perm loopOrder) :
    exactInOrder m i j l = windowSum m i j :=
  (h.map _).sum_eq.trans exactInOrder_loopOrder

/-! ### The pixel -/

/-- The filter loops start with coefficients from 16-bit words, whatever the files. -/
theorem shortFilter_pad (filterFile imageFile : List UInt8) (m : Heap) :
    let m' := load filterFile imageFile m
    ShortFilter (pad m'.width m'.height m') := by
  intro m'
  have hsame := sameParams_pad m'.width m'.height m'
  unfold ShortFilter
  rw [hsame.filter]
  exact shortFilter_load filterFile imageFile m

/-- What `main.c` stores for pixel `(i, j)`. -/
def storedPixel (w i j : UInt32) (m : Heap) : Int16 :=
  (filterPixel w i j m).outputBuf (i * w + j)

theorem storedPixel_eq (w i j : UInt32) (m : Heap) :
    storedPixel w i j m = narrow (accumulate i j m).2 := Function.update_self _ _ _

theorem toInt_storedPixel (hm : ShortFilter m) (w i j : UInt32) :
    (storedPixel w i j m).toInt = saturate 15 (windowSum m i j / 64) := by
  rw [storedPixel_eq, narrow_toInt, (accumulate_exact hm i j).2.2]

/-- **The arithmetic is exact.** For any coefficients from 16-bit words and any bytes in the
window, every product and every prefix of the loops has the value it has in `ℤ` and is in the
range of `int`; the clamped quotient is the exact one, and the stored `short` is the same
number. No order of the products leaves the range or changes what is stored, and a larger
exact sum is never stored as a smaller value. -/
theorem filterPixel_exact (hm : ShortFilter m) (w i j : UInt32) :
    (∀ k p : UInt32, k.toNat < 7 → p.toNat < 7 →
      (product m k p (j + k) (i + p)).toInt = term m i j k.toNat p.toNat ∧
        InInt (term m i j k.toNat p.toNat)) ∧
    (∀ k p : UInt32, k.toNat < 7 → p.toNat ≤ 7 →
      (accumulatePrefix i j k p m).2.toInt = partialSum (term m i j) k.toNat p.toNat ∧
        InInt (partialSum (term m i j) k.toNat p.toNat)) ∧
    ((accumulate i j m).2.toInt = windowSum m i j ∧
      (shiftAndClamp (accumulate i j m).2).toInt = saturate 15 (windowSum m i j / 64) ∧
      (storedPixel w i j m).toInt = saturate 15 (windowSum m i j / 64)) ∧
    (∀ l : List (Fin 7 × Fin 7), l.Perm loopOrder →
      (∀ n, (sumInOrder m i j (l.take n)).toInt = exactInOrder m i j (l.take n) ∧
        InInt (exactInOrder m i j (l.take n))) ∧
      narrow (sumInOrder m i j l) = storedPixel w i j m) ∧
    ∀ (m' : Heap) (w' i' j' : UInt32), ShortFilter m' → windowSum m i j ≤ windowSum m' i' j' →
      (storedPixel w i j m).toInt ≤ (storedPixel w' i' j' m').toInt := by
  have hacc := (accumulate_exact hm i j).2.2
  have hstored := toInt_storedPixel hm w i j
  refine ⟨fun k p hk hp => ⟨toInt_product hm i j hk hp, term_inInt hm i j hk hp⟩,
    fun k p hk hp => ⟨(accumulatePrefix_exact hm i j (.inl ⟨hk, hp⟩)).tmp,
      partialSum_inInt hm i j hk hp⟩,
    ⟨hacc, by rw [shiftAndClamp_toInt, hacc], hstored⟩, fun l hl => ?_, ?_⟩
  · have hlen : l.length = 49 := hl.length_eq
    refine ⟨fun n => ?_, ?_⟩
    · have hn : (l.take n).length ≤ 49 := by
        rw [List.length_take]
        omega
      exact ⟨sumInOrder_exact hm hn, exactInOrder_inInt hm hn⟩
    · apply Int16.toInt_inj.mp
      rw [hstored, narrow_toInt, sumInOrder_exact hm hlen.le, exactInOrder_perm hl]
  · intro m' w' i' j' hm' hle
    rw [hstored, toInt_storedPixel hm']
    exact saturate_mono 15 (Int.ediv_le_ediv (by decide) hle)

/-- All coefficients `-32768` and all pixels `255`. -/
def extremeHeap : Heap := { emptyHeap with filter := fun _ _ => -32768, image := fun _ _ => 255 }

theorem filterPixel_exact_extreme :
    (accumulate 0 0 extremeHeap).2.toInt = -409436160 ∧
      (storedPixel 1 0 0 extremeHeap).toInt = -32768 := by
  have hm : ShortFilter extremeHeap := fun _ _ _ _ => by
    show -2 ^ 15 ≤ (-32768 : Int32).toInt ∧ (-32768 : Int32).toInt < 2 ^ 15
    decide
  have hsum : windowSum extremeHeap 0 0 = -409436160 := by decide +kernel
  obtain ⟨hacc, -, hstored⟩ := (filterPixel_exact hm 1 0 0).2.2.1
  exact ⟨hacc.trans hsum, hstored.trans (by rw [hsum]; decide)⟩

end FirFilter.Software
