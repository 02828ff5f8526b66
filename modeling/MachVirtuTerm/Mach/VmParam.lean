import Mathlib.Data.Nat.Notation

/-!
# Parameters of the machine
-/

open BitVec

namespace MachVirtuTerm

def pageSize : ℕ := 4096

def pageMask : BitVec 32 := BitVec.ofNat 32 (pageSize - 1)

variable (x : BitVec 32)

def truncPage : BitVec 32 := x &&& ~~~pageMask

def roundPage : BitVec 32 := truncPage (x + pageMask)

def PageAligned : Prop := x &&& pageMask = 0

instance (x : BitVec 32) : Decidable (PageAligned x) := inferInstanceAs (Decidable (_ = _))

/-- The offset in a page. -/
theorem toNat_and_pageMask : (x &&& pageMask).toNat = x.toNat % pageSize := by
  rw [BitVec.toNat_and]
  exact Nat.and_two_pow_sub_one_eq_mod x.toNat 12

theorem pageAligned_iff : PageAligned x ↔ x.toNat % pageSize = 0 := by
  rw [← toNat_and_pageMask, PageAligned, ← toNat_inj]
  rfl

/-- Sums of page addresses are page addresses. -/
theorem PageAligned.add {x y : BitVec 32} (hx : PageAligned x) (hy : PageAligned y) :
    PageAligned (x + y) := by
  rw [pageAligned_iff] at hx hy ⊢
  simp only [pageSize] at hx hy ⊢
  rw [toNat_add]
  omega

/-- An address is the start of its page and an offset in it. -/
theorem truncPage_add : truncPage x + (x &&& pageMask) = x := by
  have hdisjoint : truncPage x &&& (x &&& pageMask) = 0 := by
    ext i hi
    simp [truncPage]
    grind
  rw [add_eq_or_of_and_eq_zero _ _ hdisjoint]
  ext i hi
  simp [truncPage]
  grind

/-- `trunc_page` is rounding down. -/
theorem toNat_truncPage : (truncPage x).toNat = x.toNat - x.toNat % pageSize := by
  have hadd := truncPage_add x
  have hmod := toNat_and_pageMask x
  have hle := Nat.mod_le x.toNat pageSize
  generalize x &&& pageMask = y at hadd hmod
  have hx : truncPage x = x - y := by bv_omega
  rw [hx, toNat_sub_of_le (by rw [le_def]; omega), hmod]

/-- The offset in a page. -/
theorem toNat_sub_truncPage : (x - truncPage x).toNat = x.toNat % pageSize := by
  have hle := Nat.mod_le x.toNat pageSize
  have htrunc := toNat_truncPage x
  rw [toNat_sub_of_le (by rw [le_def]; omega), htrunc]
  omega

/-- An offset in a page is less than its size. -/
theorem sub_truncPage_lt : (x - truncPage x).toNat < pageSize := by
  rw [toNat_sub_truncPage]
  exact Nat.mod_lt _ (by decide)

/-- The addresses of a page have the same start. -/
theorem truncPage_add_ofNat {x : BitVec 32} {r : ℕ} (hr : x.toNat % pageSize + r < pageSize) :
    truncPage (x + BitVec.ofNat 32 r) = truncPage x := by
  refine eq_of_toNat_eq ?_
  have hx := x.isLt
  rw [toNat_truncPage, toNat_truncPage, toNat_add, toNat_ofNat]
  simp only [pageSize] at hr ⊢
  omega

end MachVirtuTerm
