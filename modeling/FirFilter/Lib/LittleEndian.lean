import Mathlib.Algebra.Order.Ring.Nat
import Mathlib.Data.List.Basic
import Mathlib.Tactic.Ring
/-!
# FirFilter.Lib.LittleEndian

Fixed-width little-endian words, and the sequences of words that binary files
are made of.
-/

namespace FirFilter

/-- The `w` little-endian bytes of `n`; higher digits are dropped. -/
def encodeLE : ℕ → ℕ → List UInt8
  | 0, _ => []
  | w + 1, n => UInt8.ofNat n :: encodeLE w (n / 256)

/-- The number with the given little-endian bytes. -/
def decodeLE : List UInt8 → ℕ
  | [] => 0
  | b :: bs => b.toNat + 256 * decodeLE bs

@[simp] theorem length_encodeLE (w n : ℕ) : (encodeLE w n).length = w := by
  induction w generalizing n with
  | zero => rfl
  | succ w ih => rw [encodeLE, List.length_cons, ih]

theorem decodeLE_encodeLE {w n : ℕ} (h : n < 256 ^ w) : decodeLE (encodeLE w n) = n := by
  induction w generalizing n with
  | zero =>
      rw [Nat.pow_zero] at h
      simp only [encodeLE, decodeLE]
      omega
  | succ w ih =>
      rw [Nat.pow_succ] at h
      have hdiv : n / 256 < 256 ^ w := Nat.div_lt_of_lt_mul (by omega)
      have hlow : (UInt8.ofNat n).toNat = n % 256 := UInt8.toNat_ofNat'
      rw [encodeLE, decodeLE, ih hdiv, hlow]
      exact Nat.mod_add_div n 256

theorem decodeLE_lt (bs : List UInt8) : decodeLE bs < 256 ^ bs.length := by
  induction bs with
  | nil => decide
  | cons b bs ih =>
      have hb := b.toNat_lt
      rw [decodeLE, List.length_cons, Nat.pow_succ]
      omega

/-- Every list of bytes is the encoding of its number. -/
theorem encodeLE_decodeLE (bs : List UInt8) : encodeLE bs.length (decodeLE bs) = bs := by
  induction bs with
  | nil => rfl
  | cons b bs ih =>
      have hb := b.toNat_lt
      have hlow : UInt8.ofNat (b.toNat + 256 * decodeLE bs) = b := by
        rw [← UInt8.toNat_inj, UInt8.toNat_ofNat']
        omega
      have hhigh : (b.toNat + 256 * decodeLE bs) / 256 = decodeLE bs := by omega
      rw [decodeLE, List.length_cons, encodeLE, hlow, hhigh, ih]

/-! ### Sequences of words -/

/-- Read up to `n` words of `w` bytes, as many as are complete, and what is left. -/
def readWords (w : ℕ) : ℕ → List UInt8 → List ℕ × List UInt8
  | 0, bs => ([], bs)
  | n + 1, bs =>
      if bs.length < w then ([], bs)
      else ((decodeLE (bs.take w) :: (readWords w n (bs.drop w)).1), (readWords w n (bs.drop w)).2)

/-- A sequence of words is read back from its bytes. -/
theorem readWords_encode (w : ℕ) (vs : List ℕ) (rest : List UInt8) (h : ∀ v ∈ vs, v < 256 ^ w) :
    readWords w vs.length (vs.flatMap (encodeLE w) ++ rest) = (vs, rest) := by
  induction vs with
  | nil => rfl
  | cons v vs ih =>
      have hlen : ¬ ((v :: vs).flatMap (encodeLE w) ++ rest).length < w := by
        simp only [List.flatMap_cons, List.length_append, length_encodeLE]
        omega
      have hbytes : (v :: vs).flatMap (encodeLE w) ++ rest =
          encodeLE w v ++ (vs.flatMap (encodeLE w) ++ rest) := by
        rw [List.flatMap_cons, List.append_assoc]
      rw [List.length_cons, readWords, if_neg hlen, hbytes,
        List.take_left' (length_encodeLE w v), List.drop_left' (length_encodeLE w v),
        ih fun v hv => h v (List.mem_cons_of_mem _ hv), decodeLE_encodeLE (h v List.mem_cons_self)]

/-- What is read is encoded at the start of the file. -/
theorem readWords_sound (w n : ℕ) (bs : List UInt8) :
    (readWords w n bs).1.flatMap (encodeLE w) ++ (readWords w n bs).2 = bs ∧
      ∀ v ∈ (readWords w n bs).1, v < 256 ^ w := by
  induction n generalizing bs with
  | zero => exact ⟨rfl, fun v hv => absurd hv List.not_mem_nil⟩
  | succ n ih =>
      rw [readWords]
      split
      · exact ⟨rfl, fun v hv => absurd hv List.not_mem_nil⟩
      · rename_i hlen
        obtain ⟨hbytes, hlt⟩ := ih (bs.drop w)
        have hword : (bs.take w).length = w := List.length_take_of_le (Nat.le_of_not_lt hlen)
        constructor
        · have hfirst := encodeLE_decodeLE (bs.take w)
          rw [hword] at hfirst
          rw [List.flatMap_cons, hfirst, List.append_assoc, hbytes, List.take_append_drop]
        · intro v hv
          rcases List.mem_cons.mp hv with rfl | hv
          · have hlt := decodeLE_lt (bs.take w)
            rwa [hword] at hlt
          · exact hlt v hv

/-- What follows the words is not read. -/
theorem readWords_append {w n : ℕ} {bs : List UInt8} (h : (readWords w n bs).1.length = n)
    (rest : List UInt8) :
    readWords w n (bs ++ rest) = ((readWords w n bs).1, (readWords w n bs).2 ++ rest) := by
  have hall := readWords_encode w (readWords w n bs).1 ((readWords w n bs).2 ++ rest)
    (readWords_sound w n bs).2
  rwa [h, ← List.append_assoc, (readWords_sound w n bs).1] at hall

end FirFilter
