import Mathlib.Data.List.Basic
import Mathlib.Data.Nat.ModEq

/-!
# Ring buffers

An array in which what is stored last goes on at the start again. One slot stays free, so that
equal positions mean an empty ring.
-/

/-- The slots of a ring, the next to write and the next to read. -/
structure RingBuffer (α : Type*) (size : ℕ) where
  buf : ℕ → α
  head : ℕ
  tail : ℕ
  head_lt : head < size
  tail_lt : tail < size

open List Function

namespace RingBuffer

variable {α : Type*} {size : ℕ}

section

variable (r : RingBuffer α size)

/-- How many slots are to be read. -/
def length : ℕ :=
  if r.tail ≤ r.head then r.head - r.tail else size - r.tail + r.head

/-- What is to be read, the oldest first. -/
def toList : List α :=
  (List.range r.length).map fun i => r.buf ((r.tail + i) % size)

/-- A slot is written. -/
def store (a : α) : RingBuffer α size where
  buf := update r.buf r.head a
  head := (r.head + 1) % size
  tail := r.tail
  head_lt := Nat.mod_lt _ (Nat.zero_lt_of_lt r.head_lt)
  tail_lt := r.tail_lt

/-- A slot is read, or lost. -/
def skip : RingBuffer α size where
  buf := r.buf
  head := r.head
  tail := (r.tail + 1) % size
  head_lt := r.head_lt
  tail_lt := Nat.mod_lt _ (Nat.zero_lt_of_lt r.head_lt)

/-- Some slots are read. -/
def advance (i : ℕ) : RingBuffer α size where
  buf := r.buf
  head := r.head
  tail := (r.tail + i) % size
  head_lt := r.head_lt
  tail_lt := Nat.mod_lt _ (Nat.zero_lt_of_lt r.head_lt)

/-- The ring starts again. -/
def reset : RingBuffer α size where
  buf := r.buf
  head := 0
  tail := 0
  head_lt := Nat.zero_lt_of_lt r.head_lt
  tail_lt := Nat.zero_lt_of_lt r.head_lt

/-- The slots to be read, up to the end of the array and from its start. -/
def slices : List α × List α :=
  let first := if r.tail + r.length ≤ size then r.length else size - r.tail
  ((List.range first).map fun i => r.buf (r.tail + i),
    (List.range (r.length - first)).map fun i => r.buf i)

@[simp] theorem length_toList : r.toList.length = r.length := by
  simp [toList]

@[simp] theorem toList_reset : r.reset.toList = [] := rfl

theorem length_lt : r.length < size := by
  have hhead := r.head_lt
  unfold length
  split <;> omega

theorem toList_eq_nil_iff : r.toList = [] ↔ r.length = 0 := by
  rw [← length_toList, List.length_eq_zero_iff]

/-- The next slot to write is behind those to be read. -/
theorem tail_add_length : (r.tail + r.length) % size = r.head := by
  have hhead := r.head_lt
  have htail := r.tail_lt
  unfold length
  split
  · rw [Nat.add_sub_cancel' ‹_›]
    exact Nat.mod_eq_of_lt hhead
  · have heq : r.tail + (size - r.tail + r.head) = size + r.head := by omega
    rw [heq, Nat.add_mod_left]
    exact Nat.mod_eq_of_lt hhead

/-- No slot to be read is the next to write. -/
theorem slot_ne_head {i : ℕ} (h : i < r.length) : (r.tail + i) % size ≠ r.head := by
  have hlength := r.length_lt
  have htail := r.tail_lt
  rw [← r.tail_add_length]
  intro heq
  have hmod := Nat.ModEq.add_left_cancel' r.tail heq
  rw [Nat.ModEq, Nat.mod_eq_of_lt (by omega), Nat.mod_eq_of_lt hlength] at hmod
  omega

/-- Equal positions mean an empty ring. -/
theorem length_eq_zero_iff : r.length = 0 ↔ r.tail = r.head := by
  have hhead := r.head_lt
  have htail := r.tail_lt
  unfold length
  split <;> omega

end

variable {r : RingBuffer α size}

theorem length_advance {i : ℕ} (h : i ≤ r.length) : (r.advance i).length = r.length - i := by
  have hhead := r.head_lt
  have htail := r.tail_lt
  have hlt := r.length_lt
  have hmod : (r.tail + i) % size =
      if r.tail + i < size then r.tail + i else r.tail + i - size := by
    split
    next hfits => exact Nat.mod_eq_of_lt hfits
    next hwraps =>
      rw [Nat.mod_eq_sub_mod (by omega)]
      exact Nat.mod_eq_of_lt (by omega)
  unfold length at h hlt ⊢
  simp only [advance, hmod]
  split_ifs at h hlt ⊢ <;> omega

/-- The slots that are read were the oldest. -/
theorem toList_advance {i : ℕ} (h : i ≤ r.length) : (r.advance i).toList = r.toList.drop i := by
  unfold toList
  rw [length_advance h]
  conv_rhs => rw [show r.length = i + (r.length - i) by omega, range_add, map_append, map_map]
  rw [drop_left' (by rw [length_map, length_range])]
  apply map_congr_left
  intro j _
  change r.buf (((r.tail + i) % size + j) % size) = r.buf ((r.tail + (i + j)) % size)
  rw [Nat.mod_add_mod, Nat.add_assoc]

/-- The oldest slots lie in one piece up to the end of the array. -/
theorem take_toList {i : ℕ} (h : i ≤ r.length) (hpiece : r.tail + i ≤ size) :
    r.toList.take i = (List.range i).map fun j => r.buf (r.tail + j) := by
  unfold toList
  rw [← map_take, take_range, Nat.min_eq_left h]
  apply map_congr_left
  intro j hj
  have hj := mem_range.mp hj
  rw [Nat.mod_eq_of_lt (by omega)]

section Store

variable {r : RingBuffer α size}

variable (h : r.length + 1 < size)

include h

theorem length_store (a : α) : (r.store a).length = r.length + 1 := by
  have hhead := r.head_lt
  have htail := r.tail_lt
  have hmod : (r.head + 1) % size = if r.head + 1 = size then 0 else r.head + 1 := by
    split
    next heq => rw [heq, Nat.mod_self]
    next hne => exact Nat.mod_eq_of_lt (by omega)
  unfold length at h ⊢
  simp only [store, hmod]
  split_ifs at h ⊢ <;> omega

/-- What is stored is to be read last, as long as a slot stays free. -/
theorem toList_store (a : α) : (r.store a).toList = r.toList ++ [a] := by
  unfold toList
  rw [length_store h, range_succ, map_append, map_singleton]
  congr 1
  · apply map_congr_left
    intro i hi
    exact update_of_ne (r.slot_ne_head (mem_range.mp hi)) _ _
  · congr 1
    change update r.buf r.head a ((r.tail + r.length) % size) = a
    rw [r.tail_add_length, update_self]

/-- Then the positions do not meet. -/
theorem store_head_ne_tail (a : α) : (r.store a).head ≠ (r.store a).tail := by
  intro heq
  have hlength := length_store h a
  have hzero : (r.store a).length = 0 := by
    unfold length
    rw [heq, if_pos le_rfl, Nat.sub_self]
  omega

end Store

/-- Of a ring that is full the oldest slot is lost, and then there is one to write. -/
theorem store_skip (r : RingBuffer α size) (a : α) : (r.store a).skip = r.skip.store a := rfl

/-- What is stored on a full ring takes the place of the oldest. -/
theorem toList_store_skip (h : r.length + 1 = size) (hsize : 1 < size)
    (a : α) : (r.store a).skip.toList = r.toList.drop 1 ++ [a] := by
  have hskip : r.skip.length + 1 < size := by
    have hlength := length_advance (r := r) (i := 1) (by omega)
    change r.skip.length = _ at hlength
    omega
  rw [store_skip, toList_store hskip]
  exact congrArg (· ++ [a]) (toList_advance (r := r) (i := 1) (by omega))

/-- Then the positions meet. -/
theorem store_head_eq_tail (h : r.length + 1 = size) (a : α) :
    (r.store a).head = (r.store a).tail := by
  change (r.head + 1) % size = r.tail
  rw [← r.tail_add_length, Nat.mod_add_mod, Nat.add_assoc, h, Nat.add_mod_right]
  exact Nat.mod_eq_of_lt r.tail_lt

/-- The slices together are what is to be read. -/
theorem slices_append (r : RingBuffer α size) : r.slices.1 ++ r.slices.2 = r.toList := by
  have htail := r.tail_lt
  have hlength := r.length_lt
  unfold slices toList
  dsimp only
  split
  next hfits =>
    rw [Nat.sub_self]
    simp only [range_zero, map_nil, append_nil]
    apply map_congr_left
    intro i hi
    have hi := mem_range.mp hi
    rw [Nat.mod_eq_of_lt (by omega)]
  next hwraps =>
    conv_rhs => rw [show r.length = (size - r.tail) + (r.length - (size - r.tail)) by omega]
    rw [range_add, map_append, map_map]
    congr 1
    · apply map_congr_left
      intro i hi
      have hi := mem_range.mp hi
      rw [Nat.mod_eq_of_lt (by omega)]
    · apply map_congr_left
      intro i hi
      have hi := mem_range.mp hi
      have heq : r.tail + (size - r.tail + i) = size + i := by omega
      simp only [comp_apply]
      rw [heq, Nat.add_mod_left, Nat.mod_eq_of_lt (by omega)]

end RingBuffer
