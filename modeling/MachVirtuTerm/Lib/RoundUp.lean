import Mathlib.Data.BitVec
import Mathlib.Data.Nat.Bitwise
import Mathlib.Tactic.Ring

/-!
# Rounding up by a mask

A word is rounded up to a multiple of a power of two by adding the mask of its low bits and
clearing these bits. If the sum does not wrap around, the result is the least such multiple
from the word on; if it does, the result is smaller than the word and there is none.
-/

open BitVec

namespace RoundUp

variable {w k : ℕ} {x y mask : BitVec w}

/-- The low bits. -/
structure IsMask (mask : BitVec w) (k : ℕ) : Prop where
  le : k ≤ w
  toNat_eq : mask.toNat = 2 ^ k - 1

/-- Add the mask and clear its bits. -/
def roundUp (x mask : BitVec w) : BitVec w := (x + mask) &&& ~~~mask

/-- A word is its low bits and the others. -/
theorem and_not_add_and (x mask : BitVec w) : (x &&& ~~~mask) + (x &&& mask) = x := by
  have hdisjoint : (x &&& ~~~mask) &&& (x &&& mask) = 0 := by
    ext i hi
    simp only [getElem_and, getElem_not, ofNat_eq_ofNat, getElem_zero]
    grind
  rw [add_eq_or_of_and_eq_zero _ _ hdisjoint]
  ext i hi
  simp only [getElem_or, getElem_and, getElem_not]
  grind

section

variable (h : IsMask mask k)

include h

variable (x : BitVec w)

theorem IsMask.toNat_and : (x &&& mask).toNat = x.toNat % 2 ^ k := by
  rw [BitVec.toNat_and, h.toNat_eq]
  exact Nat.and_two_pow_sub_one_eq_mod _ _

/-- The words without low bits are the multiples. -/
theorem IsMask.and_eq_zero_iff : x &&& mask = 0 ↔ 2 ^ k ∣ x.toNat := by
  rw [← toNat_inj, h.toNat_and, Nat.dvd_iff_mod_eq_zero]
  rfl

theorem IsMask.toNat_and_not : (x &&& ~~~mask).toNat = x.toNat / 2 ^ k * 2 ^ k := by
  have hadd := congrArg BitVec.toNat (and_not_add_and x mask)
  have hlow := h.toNat_and x
  have hle : (x &&& ~~~mask).toNat ≤ x.toNat := by
    rw [BitVec.toNat_and]
    exact Nat.and_le_left
  have hmod : (x &&& mask).toNat ≤ x.toNat := by
    rw [BitVec.toNat_and]
    exact Nat.and_le_left
  have hdiv := Nat.div_add_mod x.toNat (2 ^ k)
  have hlt := x.isLt
  rw [toNat_add] at hadd
  -- The two parts share no bit, so their sum does not wrap around.
  have hsum : (x &&& ~~~mask).toNat + (x &&& mask).toNat < 2 ^ w := by
    by_contra hge
    have hsub : ((x &&& ~~~mask).toNat + (x &&& mask).toNat) % 2 ^ w =
        (x &&& ~~~mask).toNat + (x &&& mask).toNat - 2 ^ w := by
      rw [Nat.mod_eq_sub_mod (Nat.not_lt.mp hge), Nat.mod_eq_of_lt (by omega)]
    omega
  rw [Nat.mod_eq_of_lt hsum, hlow] at hadd
  rw [Nat.mul_comm]
  omega

/-- The result is a multiple. -/
theorem IsMask.roundUp_and : roundUp x mask &&& mask = 0 := by
  rw [h.and_eq_zero_iff]
  unfold roundUp
  rw [h.toNat_and_not]
  exact Nat.dvd_mul_left _ _

/-- The sum wraps around exactly when the result is smaller. -/
theorem IsMask.roundUp_lt_iff : roundUp x mask < x ↔ 2 ^ w ≤ x.toNat + (2 ^ k - 1) := by
  have hpos : 0 < 2 ^ k := Nat.two_pow_pos k
  have hlt := x.isLt
  have hk : 2 ^ k ≤ 2 ^ w := Nat.pow_le_pow_right (by decide) h.le
  rw [lt_def]
  unfold roundUp
  rw [h.toNat_and_not, toNat_add, h.toNat_eq]
  constructor
  · intro hsmall
    by_contra hfits
    rw [Nat.mod_eq_of_lt (by omega)] at hsmall
    have hdiv := Nat.div_add_mod (x.toNat + (2 ^ k - 1)) (2 ^ k)
    have hmod := Nat.mod_lt (x.toNat + (2 ^ k - 1)) hpos
    rw [Nat.mul_comm] at hdiv
    omega
  · intro hwraps
    rw [Nat.mod_eq_sub_mod hwraps, Nat.mod_eq_of_lt (by omega), Nat.div_eq_of_lt (by omega)]
    omega

end

/-- If it does not wrap around, the result is not smaller. -/
theorem le_roundUp (h : ¬ roundUp x mask < x) : x ≤ roundUp x mask := BitVec.not_lt.mp h

/-- The result is the least multiple from the word on. -/
theorem IsMask.roundUp_le (h : IsMask mask k) (hfits : ¬ roundUp x mask < x) (hxy : x ≤ y)
    (hy : y &&& mask = 0) : roundUp x mask ≤ y := by
  have hpos : 0 < 2 ^ k := Nat.two_pow_pos k
  rw [h.roundUp_lt_iff, Nat.not_le] at hfits
  rw [h.and_eq_zero_iff] at hy
  rw [le_def] at hxy ⊢
  unfold roundUp
  rw [h.toNat_and_not, toNat_add, h.toNat_eq, Nat.mod_eq_of_lt hfits]
  obtain ⟨c, hc⟩ := hy
  have hdiv : (x.toNat + (2 ^ k - 1)) / 2 ^ k ≤ c := by
    rw [Nat.div_le_iff_le_mul_add_pred hpos]
    omega
  rw [hc, Nat.mul_comm]
  exact Nat.mul_le_mul_left _ hdiv

/-- If it wraps around, there is no multiple from the word on. -/
theorem IsMask.and_ne_zero (h : IsMask mask k) (hwraps : roundUp x mask < x) (hxy : x ≤ y) :
    y &&& mask ≠ 0 := by
  rw [h.roundUp_lt_iff] at hwraps
  rw [Ne, h.and_eq_zero_iff]
  rintro ⟨c, hc⟩
  rw [le_def] at hxy
  have hlt := y.isLt
  have hpow : 2 ^ w = 2 ^ k * 2 ^ (w - k) := by rw [← pow_add, Nat.add_sub_cancel' h.le]
  have hpos : 0 < 2 ^ k := Nat.two_pow_pos k
  have hcw : c < 2 ^ (w - k) := by
    rw [hc, hpow] at hlt
    exact Nat.lt_of_mul_lt_mul_left hlt
  have hmul : 2 ^ k * (c + 1) ≤ 2 ^ k * 2 ^ (w - k) := Nat.mul_le_mul_left _ hcw
  rw [Nat.mul_add, ← hpow] at hmul
  omega

/-- Words after one whose sum wraps around do so too. -/
theorem IsMask.roundUp_lt_of_le (h : IsMask mask k) (hwraps : roundUp x mask < x) (hxy : x ≤ y) :
    roundUp y mask < y := by
  rw [h.roundUp_lt_iff] at hwraps ⊢
  rw [le_def] at hxy
  omega

end RoundUp
