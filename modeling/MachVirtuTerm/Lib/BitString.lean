import Mathlib.Data.BitVec
import Mathlib.Order.Bounds.Basic

/-!
# Bit strings

Strings of bits in words of 32 bits, with the lowest bit first.
-/

open BitVec Option

namespace MachVirtuTerm

open List

/-- The bits of a string of words. -/
def testbit : ℕ → List (BitVec 32) → Bool
  | _, [] => false
  | bitno, w :: s => if 32 ≤ bitno then testbit (bitno - 32) s else w.getLsbD bitno

def setbit : ℕ → List (BitVec 32) → List (BitVec 32)
  | _, [] => []
  | bitno, w :: s =>
    if 32 ≤ bitno then w :: setbit (bitno - 32) s else (w ||| 1#32 <<< bitno) :: s

def clrbit : ℕ → List (BitVec 32) → List (BitVec 32)
  | _, [] => []
  | bitno, w :: s =>
    if 32 ≤ bitno then w :: clrbit (bitno - 32) s else (w &&& ~~~(1#32 <<< bitno)) :: s

/-- `ffsbit`, unless no bit is set and it reads behind the string. -/
def ffsbit : List (BitVec 32) → Option ℕ
  | [] => none
  | w :: s =>
    if w = 0 then (ffsbit s).map (· + 32) else some (((range 32).find? w.getLsbD).getD 0)

@[simp] theorem length_setbit (bitno : ℕ) (s : List (BitVec 32)) :
    (setbit bitno s).length = s.length := by
  induction s generalizing bitno with
  | nil => rfl
  | cons w s ih =>
    rw [setbit]
    split
    · rw [length_cons, ih, length_cons]
    · rfl

@[simp] theorem length_clrbit (bitno : ℕ) (s : List (BitVec 32)) :
    (clrbit bitno s).length = s.length := by
  induction s generalizing bitno with
  | nil => rfl
  | cons w s ih =>
    rw [clrbit]
    split
    · rw [length_cons, ih, length_cons]
    · rfl

theorem getLsbD_one_shiftLeft {i j : ℕ} (hi : i < 32) :
    (1#32 <<< j).getLsbD i = decide (i = j) := by
  rw [getLsbD_shiftLeft, getLsbD_one]
  simp only [hi, decide_true, Bool.true_and]
  rw [Bool.eq_iff_iff]
  simp only [Bool.and_eq_true, Bool.not_eq_true', decide_eq_false_iff_not, decide_eq_true_eq]
  omega

/-- A bit that is set, among the others. -/
theorem testbit_setbit {bitno : ℕ} {s : List (BitVec 32)} (h : bitno < 32 * s.length) (i : ℕ) :
    testbit i (setbit bitno s) = (testbit i s || decide (i = bitno)) := by
  induction s generalizing bitno i with
  | nil => cases h
  | cons w s ih =>
    rw [length_cons] at h
    rw [setbit]
    by_cases hbitno : 32 ≤ bitno
    · rw [if_pos hbitno, testbit, testbit]
      by_cases hi : 32 ≤ i
      · rw [if_pos hi, if_pos hi, ih (by omega)]
        congr 2
        rw [eq_iff_iff]
        omega
      · rw [if_neg hi, if_neg hi]
        have hne : i ≠ bitno := by omega
        simp [hne]
    · rw [if_neg hbitno, testbit, testbit]
      by_cases hi : 32 ≤ i
      · have hne : i ≠ bitno := by omega
        simp [hi, hne]
      · rw [if_neg hi, if_neg hi, getLsbD_or, getLsbD_one_shiftLeft (by omega)]

/-- A bit that is cleared, among the others. -/
theorem testbit_clrbit {bitno : ℕ} {s : List (BitVec 32)} (h : bitno < 32 * s.length) (i : ℕ) :
    testbit i (clrbit bitno s) = (testbit i s && !decide (i = bitno)) := by
  induction s generalizing bitno i with
  | nil => cases h
  | cons w s ih =>
    rw [length_cons] at h
    rw [clrbit]
    by_cases hbitno : 32 ≤ bitno
    · rw [if_pos hbitno, testbit, testbit]
      by_cases hi : 32 ≤ i
      · rw [if_pos hi, if_pos hi, ih (by omega)]
        congr 3
        rw [eq_iff_iff]
        omega
      · rw [if_neg hi, if_neg hi]
        have hne : i ≠ bitno := by omega
        simp [hne]
    · rw [if_neg hbitno, testbit, testbit]
      by_cases hi : 32 ≤ i
      · have hne : i ≠ bitno := by omega
        simp [hi, hne]
      · rw [if_neg hi, if_neg hi, getLsbD_and, getLsbD_not, getLsbD_one_shiftLeft (by omega)]
        simp only [show i < 32 by omega, decide_true, Bool.true_and]

/-- The first bit that is set. -/
theorem ffsbit_isLeast {i : ℕ} {s : List (BitVec 32)} (h : testbit i s = true) :
    ∃ low, ffsbit s = some low ∧ IsLeast {j | testbit j s = true} low := by
  induction s generalizing i with
  | nil => cases h
  | cons w s ih =>
    rw [ffsbit]
    by_cases hw : w = 0
    · rw [if_pos hw]
      rw [testbit] at h
      split at h
      · obtain ⟨low, hlow, hset, hleast⟩ := ih h
        refine ⟨low + 32, by rw [hlow, map_some], ?_, fun j hj => ?_⟩
        · change testbit (low + 32) (w :: s) = true
          rw [testbit, if_pos (by omega), Nat.add_sub_cancel]
          exact hset
        · change testbit j (w :: s) = true at hj
          rw [testbit] at hj
          split at hj
          · have hle := hleast hj
            omega
          · rw [hw] at hj
            simp at hj
      · rw [hw] at h
        simp at h
    · rw [if_neg hw]
      obtain ⟨k, hk⟩ : ∃ k, w.getLsbD k = true := by
        by_contra hnone
        push Not at hnone
        exact hw (eq_of_getLsbD_eq fun k _ => by simpa using hnone k)
      have hk32 := lt_of_getLsbD hk
      obtain ⟨low, hlow⟩ := isSome_iff_exists.mp
        (find?_isSome.mpr ⟨k, mem_range.mpr hk32, hk⟩)
      refine ⟨low, by rw [hlow, getD_some], ?_, fun j hj => ?_⟩
      · have hset := find?_some hlow
        have hlt := lt_of_getLsbD hset
        change testbit low (w :: s) = true
        rw [testbit, if_neg (by omega)]
        exact hset
      · change testbit j (w :: s) = true at hj
        rw [testbit] at hj
        have hlt := lt_of_getLsbD (find?_some hlow)
        split at hj
        · omega
        · by_contra hlow'
          have hbefore := (find?_range_eq_some.mp hlow).2.2 j (by omega)
          rw [hj] at hbefore
          cases hbefore

end MachVirtuTerm
