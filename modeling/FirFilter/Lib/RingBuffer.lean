import Mathlib.Data.List.Basic
import Mathlib.Data.Nat.ModEq
import Mathlib.Logic.Function.Basic
/-!
# FirFilter.Lib.RingBuffer

Ring buffers between one producer and one consumer.

The buffer is an array of `N` slots and two indices into it. The producer fills slots from
`inn` on and then moves `inn`, the consumer reads slots from `out` on and then moves `out`.
One slot stays free, so that equal indices mean that the ring is empty.

`Holds` says which part of a stream is in the ring. It counts the elements consumed and
produced without wrapping around: what the one side does can be compared with what the
other has seen before, and an index that was read earlier is still that of a count.
-/

namespace FirFilter.RingBuffer

variable {α : Type*} {N rd wr out inn i j n : ℕ} {stream xs : List α} {buf : ℕ → α}

/-! ### Indices -/

theorem eq_of_mod_eq (h : i % N = j % N) (hle : i ≤ j) (hlt : j < i + N) : i = j := by
  have hdvd : N ∣ j - i := (Nat.modEq_iff_dvd' hle).mp h
  have hzero : j - i = 0 := Nat.eq_zero_of_dvd_of_lt hdvd (by omega)
  omega

/-- Counts at most one round apart: the later index is ahead, or it has wrapped around. -/
theorem mod_cases (hle : rd ≤ wr) (hroom : wr < rd + N) :
    wr % N + rd = rd % N + wr ∨ wr % N + rd + N = rd % N + wr := by
  have hN : 0 < N := by omega
  have hlt := Nat.mod_lt rd hN
  have hwr : wr % N = (rd % N + (wr - rd)) % N := by
    rw [Nat.mod_add_mod, Nat.add_sub_of_le hle]
  rcases Nat.lt_or_ge (rd % N + (wr - rd)) N with h | h
  · rw [Nat.mod_eq_of_lt h] at hwr
    omega
  · have hless : rd % N + (wr - rd) - N < N := by omega
    rw [Nat.mod_eq_sub_mod h, Nat.mod_eq_of_lt hless] at hwr
    omega

/-- No wrapping around before the end of the array. -/
theorem add_mod_of_lt (h : rd % N + i < N) : (rd + i) % N = rd % N + i := by
  rw [← Nat.mod_add_mod, Nat.mod_eq_of_lt h]

/-- How many slots the producer can fill before the end of the array. -/
def fillable (N inn out : ℕ) : ℕ :=
  if inn < out then out - 1 - inn else if 0 < out then N - inn else N - 1 - inn

/-- How many slots the consumer can read before the end of the array. -/
def readable (N inn out : ℕ) : ℕ := if out ≤ inn then inn - out else N - out

/-- What can be filled is free and in one piece, and is nothing only if the ring is full. -/
theorem fillable_spec (hle : rd ≤ wr) (hroom : wr < rd + N) :
    let f := fillable N (wr % N) (rd % N)
    wr + f < rd + N ∧ wr % N + f ≤ N ∧ (f = 0 → wr + 1 = rd + N) := by
  have hN : 0 < N := by omega
  have hrd := Nat.mod_lt rd hN
  have hwr := Nat.mod_lt wr hN
  have hcases := mod_cases hle hroom
  intro f
  simp only [f, fillable]
  split
  · omega
  · split <;> omega

/-- What can be read is there and in one piece, and is nothing only if the ring is empty. -/
theorem readable_spec (hle : rd ≤ wr) (hroom : wr < rd + N) :
    let f := readable N (wr % N) (rd % N)
    rd + f ≤ wr ∧ rd % N + f ≤ N ∧ (f = 0 → rd = wr) := by
  have hN : 0 < N := by omega
  have hrd := Nat.mod_lt rd hN
  have hwr := Nat.mod_lt wr hN
  have hcases := mod_cases hle hroom
  intro f
  simp only [f, readable]
  split <;> omega

/-! ### Contents -/

theorem concat_prefix {l : List α} {x : α} (hl : l <+: stream) (hx : stream[l.length]? = some x) :
    l ++ [x] <+: stream := by
  obtain ⟨t, rfl⟩ := hl
  rw [List.getElem?_append_right le_rfl, Nat.sub_self] at hx
  cases t with
  | nil => simp at hx
  | cons a t =>
      obtain rfl : a = x := by simpa using hx
      exact ⟨t, by simp⟩

/-- The elements in the ring. -/
def ring (N : ℕ) (buf : ℕ → α) (out inn : ℕ) : List α :=
  (List.range ((inn + N - out) % N)).map fun i => buf ((out + i) % N)

/-- The elements of `stream` from number `rd` to number `wr` are in the ring. -/
structure Holds (N : ℕ) (stream : List α) (buf : ℕ → α) (rd wr out inn : ℕ) : Prop where
  le : rd ≤ wr
  room : wr < rd + N
  out_eq : out = rd % N
  inn_eq : inn = wr % N
  slot : ∀ k, rd ≤ k → k < wr → stream[k]? = some (buf (k % N))

namespace Holds

theorem nil (hN : 0 < N) : Holds N stream buf 0 0 0 0 :=
  ⟨le_rfl, by omega, (Nat.zero_mod N).symm, (Nat.zero_mod N).symm, fun k _ h => absurd h (by omega)⟩

variable (h : Holds N stream buf rd wr out inn)

include h

theorem empty_iff : out = inn ↔ rd = wr := by
  have hle := h.le
  have hroom := h.room
  rw [h.out_eq, h.inn_eq]
  exact ⟨fun heq => eq_of_mod_eq heq hle hroom, fun heq => heq ▸ rfl⟩

/-- The index behind the last element is that of the first one. -/
theorem full_iff : (inn + 1) % N = out ↔ wr + 1 = rd + N := by
  have hle := h.le
  have hroom := h.room
  rw [h.out_eq, h.inn_eq, Nat.mod_add_mod]
  constructor
  · intro heq
    exact eq_of_mod_eq (heq.trans (Nat.add_mod_right rd N).symm) hroom (by omega)
  · intro heq
    rw [heq, Nat.add_mod_right]

theorem head (hlt : rd < wr) : stream[rd]? = some (buf out) := by
  rw [h.out_eq]
  exact h.slot rd le_rfl hlt

/-- What has been consumed, and the next element. -/
theorem concat_head {l : List α} (hl : l <+: stream) (hlen : l.length = rd) (hlt : rd < wr) :
    l ++ [buf out] <+: stream :=
  concat_prefix hl (hlen ▸ h.head hlt)

/-- A free slot is none of those in use. -/
theorem store (hi : wr + i < rd + N) (v : α) :
    Holds N stream (Function.update buf ((wr + i) % N) v) rd wr out inn := by
  refine ⟨h.le, h.room, h.out_eq, h.inn_eq, fun k h1 h2 => ?_⟩
  have hne : k % N ≠ (wr + i) % N := fun heq => by
    have := eq_of_mod_eq heq (by omega) (by omega)
    omega
  rw [Function.update_of_ne hne]
  exact h.slot k h1 h2

/-- The producer has filled `n` slots and moves its index. -/
theorem produce (hroom : wr + n < rd + N)
    (hslot : ∀ i < n, stream[wr + i]? = some (buf ((wr + i) % N))) :
    Holds N stream buf rd (wr + n) out ((inn + n) % N) := by
  have hle := h.le
  refine ⟨by omega, hroom, h.out_eq, by rw [h.inn_eq, Nat.mod_add_mod], fun k h1 h2 => ?_⟩
  rcases Nat.lt_or_ge k wr with hk | hk
  · exact h.slot k h1 hk
  · have := hslot (k - wr) (by omega)
    rwa [Nat.add_sub_of_le hk] at this

/-- The stream goes on. -/
theorem extend : Holds N (stream ++ xs) buf rd wr out inn := by
  refine ⟨h.le, h.room, h.out_eq, h.inn_eq, fun k h1 h2 => ?_⟩
  have hk := h.slot k h1 h2
  rwa [List.getElem?_append_left (List.getElem?_eq_some_iff.mp hk).1]

/-- One more element of a stream that ends with the ring. -/
theorem push (hlen : stream.length = wr) (hroom : wr + 1 < rd + N) (v : α) :
    Holds N (stream ++ [v]) (Function.update buf inn v) rd (wr + 1) out ((inn + 1) % N) := by
  have hextend : Holds N (stream ++ [v]) buf rd wr out inn := h.extend
  have hstore := hextend.store (i := 0) (by omega) v
  rw [Nat.add_zero, ← h.inn_eq] at hstore
  refine hstore.produce hroom fun i hi => ?_
  obtain rfl : i = 0 := by omega
  rw [Nat.add_zero, ← h.inn_eq, Function.update_self, ← hlen, List.getElem?_concat_length]

/-- The consumer has read `n` slots and moves its index. -/
theorem consume (hn : rd + n ≤ wr) : Holds N stream buf (rd + n) wr ((out + n) % N) inn := by
  have hroom := h.room
  exact ⟨hn, by omega, by rw [h.out_eq, Nat.mod_add_mod], h.inn_eq,
    fun k h1 h2 => h.slot k (by omega) h2⟩

end Holds

end FirFilter.RingBuffer
