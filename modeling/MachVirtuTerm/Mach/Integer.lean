import Mathlib.Data.Int.Notation

/-!
# Integers of the machine

A signed integer of the machine is the number that it stands for; what is computed wraps around.
-/

namespace MachVirtuTerm

/-- An integer in a `short`. -/
def toShort (n : ℤ) : ℤ := n.bmod 65536

theorem toShort_eq {n : ℤ} (h₁ : -32768 ≤ n) (h₂ : n < 32768) : toShort n = n := by
  unfold toShort
  rw [Int.bmod_eq_of_le_mul_two] <;> omega

/-- An integer in an `int`. -/
def wrapInt (n : ℤ) : ℤ := n.bmod 4294967296

theorem wrapInt_eq {n : ℤ} (h : -2147483648 ≤ n) (h' : n < 2147483648) : wrapInt n = n := by
  rw [wrapInt, Int.bmod_eq_of_le_mul_two] <;> omega

end MachVirtuTerm
