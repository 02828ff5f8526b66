import Mathlib.Data.BitVec

/-!
# Port names

A port name is a 32-bit word: an index in the high 24 bits and a generation
number in the low 8 bits. In the bits of a space entry the same generation
stands in the high 8 bits. Names are ordered as numbers, so first by index and
then by generation.
-/

open BitVec

namespace MachVirtuTerm

/-- Machine words are ordered as the numbers they denote. -/
instance instLinearOrderBitVec (w : ℕ) : LinearOrder (BitVec w) where
  le_refl x := Nat.le_refl x.toNat
  le_trans _ _ _ := Nat.le_trans
  lt_iff_le_not_ge _ _ := Nat.lt_iff_le_and_not_ge
  le_antisymm _ _ h1 h2 := eq_of_toNat_eq (Nat.le_antisymm h1 h2)
  le_total x y := Nat.le_total x.toNat y.toNat
  toDecidableLE := inferInstance

/-- The least word is 0 and the greatest has all bits set. -/
instance instBoundedOrderBitVec (w : ℕ) : BoundedOrder (BitVec w) where
  top := BitVec.allOnes w
  le_top x := by
    change x.toNat ≤ (BitVec.allOnes w).toNat
    rw [toNat_allOnes]
    have := x.isLt
    omega
  bot := 0
  bot_le x := by
    change (0 : BitVec w).toNat ≤ x.toNat
    simp

/-- `mach_port_t`. -/
abbrev MachPort := BitVec 32

def machPortNull : MachPort := 0

def machPortDead : MachPort := BitVec.allOnes 32

variable (name : MachPort)

def machPortValid : Prop := name ≠ machPortNull ∧ name ≠ machPortDead

instance (name : MachPort) : Decidable (machPortValid name) :=
  inferInstanceAs (Decidable (_ ∧ _))

def machPortIndex : ℕ := (name >>> 8).toNat

/-- `MACH_PORT_GEN`: the generation, where the bits of an entry have it. -/
def machPortGen : BitVec 32 := (name &&& 0xff) <<< 24

def machPortMake (index : ℕ) (gen : BitVec 32) : MachPort :=
  (BitVec.ofNat 32 index <<< 8) ||| (gen >>> 24)

theorem machPortIndex_eq : machPortIndex name = name.toNat / 256 := by
  simp [machPortIndex, toNat_ushiftRight, Nat.shiftRight_eq_div_pow]

theorem machPortGen_toNat : (machPortGen name).toNat = name.toNat % 256 * 2 ^ 24 := by
  have hand : (name &&& 0xff).toNat = name.toNat % 256 := by
    rw [BitVec.toNat_and]
    exact Nat.and_two_pow_sub_one_eq_mod name.toNat 8
  rw [machPortGen, toNat_shiftLeft, hand, Nat.shiftLeft_eq]
  omega

theorem machPortMake_toNat {index : ℕ} (hi : index < 2 ^ 24) (gen : BitVec 32) :
    (machPortMake index gen).toNat = index * 256 + gen.toNat / 2 ^ 24 := by
  have hg := gen.isLt
  have hshift : (BitVec.ofNat 32 index <<< 8).toNat = index <<< 8 := by
    rw [toNat_shiftLeft, toNat_ofNat, Nat.shiftLeft_eq, Nat.shiftLeft_eq]
    omega
  rw [machPortMake, toNat_or, hshift, toNat_ushiftRight,
    Nat.shiftRight_eq_div_pow, ← Nat.shiftLeft_add_eq_or_of_lt (by omega), Nat.shiftLeft_eq]

/-- An index fits in 24 bits. -/
theorem machPortIndex_lt : machPortIndex name < 2 ^ 24 := by
  have := name.isLt
  rw [machPortIndex_eq]
  omega

variable {m n : MachPort}

/-- Index and generation determine the name. -/
theorem machPort_ext (hi : machPortIndex m = machPortIndex n)
    (hg : machPortGen m = machPortGen n) : m = n := by
  have hg' := congrArg BitVec.toNat hg
  rw [machPortGen_toNat, machPortGen_toNat] at hg'
  rw [machPortIndex_eq, machPortIndex_eq] at hi
  exact eq_of_toNat_eq (by omega)

@[simp] theorem machPortIndex_make {index : ℕ} (hi : index < 2 ^ 24) (gen : BitVec 32) :
    machPortIndex (machPortMake index gen) = index := by
  have hg := gen.isLt
  rw [machPortIndex_eq, machPortMake_toNat hi]
  omega

/-- The names below the first one of an index are those with smaller indices. -/
theorem lt_machPortMake_iff {name : MachPort} {index : ℕ} (hi : index < 2 ^ 24) :
    name < machPortMake index 0 ↔ machPortIndex name < index := by
  have h0 : (0 : BitVec 32).toNat = 0 := rfl
  rw [lt_def, machPortMake_toNat hi, machPortIndex_eq, h0]
  omega

/-- The names from the first one of an index on are those with no smaller index. -/
theorem machPortMake_le_iff {name : MachPort} {index : ℕ} (hi : index < 2 ^ 24) :
    machPortMake index 0 ≤ name ↔ index ≤ machPortIndex name := by
  rw [← not_lt, lt_machPortMake_iff hi, not_lt]

/-- Names are ordered by index first. -/
theorem machPortIndex_mono (h : m ≤ n) : machPortIndex m ≤ machPortIndex n := by
  rw [le_def] at h
  rw [machPortIndex_eq, machPortIndex_eq]
  omega

/-- A name with a smaller index is smaller. -/
theorem lt_of_machPortIndex_lt (h : machPortIndex m < machPortIndex n) : m < n :=
  not_le.mp fun hle => absurd (machPortIndex_mono hle) h.not_ge

end MachVirtuTerm
