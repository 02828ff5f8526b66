import MachVirtuTerm.Mach.Port

/-!
# Space entries

The word `ie_bits` of a space entry holds the user references, the type of the
right, the collision bit and the generation. The masks are disjoint, so
changing one field keeps the others.
-/

open BitVec hiding not_not

namespace MachVirtuTerm

/-- `struct ipc_entry`. The union of `ie_next` and `ie_request` is one field.
`IO_NULL` is `none`. -/
structure IpcEntry where
  ieBits : BitVec 32
  ieObject : Option ℕ
  index : ℕ
  deriving DecidableEq, Inhabited

/-- `ie_next`, the next free entry. -/
def IpcEntry.ieNext (entry : IpcEntry) : ℕ := entry.index

/-- `ie_request`, the dead-name request. -/
def IpcEntry.ieRequest (entry : IpcEntry) : ℕ := entry.index

def machPortTypeNone : BitVec 32 := 0

def machPortTypeSend : BitVec 32 := 0x00010000

def machPortTypeReceive : BitVec 32 := 0x00020000

def machPortTypeSendOnce : BitVec 32 := 0x00040000

def machPortTypePortSet : BitVec 32 := 0x00080000

def machPortTypeDeadName : BitVec 32 := 0x00100000

def machPortTypeSendReceive : BitVec 32 := machPortTypeSend ||| machPortTypeReceive

def machPortTypeSendRights : BitVec 32 := machPortTypeSend ||| machPortTypeSendOnce

def machPortUrefsMax : BitVec 32 := 0x0000ffff

/-- `IE_BITS_UREFS_MASK`: 16 bits of user references. -/
def ieBitsUrefsMask : BitVec 32 := 0x0000ffff

/-- `IE_BITS_TYPE_MASK`: 5 bits of capability type. -/
def ieBitsTypeMask : BitVec 32 := 0x001f0000

/-- `IE_BITS_COLLISION`: 1 bit for collisions. -/
def ieBitsCollision : BitVec 32 := 0x00800000

/-- `IE_BITS_GEN_MASK`: 8 bits for the generation. -/
def ieBitsGenMask : BitVec 32 := 0xff000000

/-- `IE_BITS_GEN_ONE`: low bit of the generation. -/
def ieBitsGenOne : BitVec 32 := 0x04000000

/-- `IE_BITS_RIGHT_MASK`: the bits relevant to the right. -/
def ieBitsRightMask : BitVec 32 := 0x007fffff

variable (bits : BitVec 32)

def ieBitsUrefs : BitVec 32 := bits &&& ieBitsUrefsMask

def ieBitsType : BitVec 32 := bits &&& ieBitsTypeMask

def ieBitsGen : BitVec 32 := bits &&& ieBitsGenMask

def ieBitsNewGen : BitVec 32 := (bits + ieBitsGenOne) &&& ieBitsGenMask

/-- Whether the collision bit is set. -/
def ieBitsCollides : Prop := bits &&& ieBitsCollision ≠ 0

instance (bits : BitVec 32) : Decidable (ieBitsCollides bits) :=
  inferInstanceAs (Decidable (_ ≠ _))

/-- The part of `ie_bits` that belongs to the right. -/
def ieBitsRight : BitVec 32 := bits &&& ieBitsRightMask

section Fields

variable {x y m : BitVec 32}

/-- A word outside a field does not change it. -/
theorem or_and_of_disjoint (h : y &&& m = 0) : (x ||| y) &&& m = x &&& m := by
  rw [and_or_distrib_right, h]
  exact or_zero

/-- Masking a word keeps the fields inside the mask. -/
theorem and_and_of_le {a : BitVec 32} (h : a &&& m = m) : x &&& a &&& m = x &&& m := by
  rw [BitVec.and_assoc, h]

/-- Masking a word clears the fields outside the mask. -/
theorem and_and_of_disjoint {a : BitVec 32} (h : a &&& m = 0) : x &&& a &&& m = 0 := by
  rw [BitVec.and_assoc, h]
  exact and_zero

@[simp] theorem ieBitsType_or_collision : ieBitsType (x ||| ieBitsCollision) = ieBitsType x :=
  or_and_of_disjoint (by decide)

@[simp] theorem ieBitsGen_or_collision : ieBitsGen (x ||| ieBitsCollision) = ieBitsGen x :=
  or_and_of_disjoint (by decide)

@[simp] theorem ieBitsRight_or_collision : ieBitsRight (x ||| ieBitsCollision) = ieBitsRight x :=
  or_and_of_disjoint (by decide)

@[simp] theorem ieBitsCollides_or_collision : ieBitsCollides (x ||| ieBitsCollision) := by
  intro h
  rw [and_or_distrib_right] at h
  exact absurd (or_eq_zero_iff.mp h).2 (by decide)

@[simp] theorem ieBitsType_clear_collision :
    ieBitsType (x &&& ~~~ieBitsCollision) = ieBitsType x := and_and_of_le (by decide)

@[simp] theorem ieBitsGen_clear_collision :
    ieBitsGen (x &&& ~~~ieBitsCollision) = ieBitsGen x := and_and_of_le (by decide)

@[simp] theorem ieBitsRight_clear_collision :
    ieBitsRight (x &&& ~~~ieBitsCollision) = ieBitsRight x := and_and_of_le (by decide)

@[simp] theorem not_ieBitsCollides_clear_collision :
    ¬ieBitsCollides (x &&& ~~~ieBitsCollision) := by
  simp only [ieBitsCollides, ne_eq, not_not]
  exact and_and_of_disjoint (by decide)

@[simp] theorem ieBitsType_genMask : ieBitsType (x &&& ieBitsGenMask) = machPortTypeNone :=
  and_and_of_disjoint (by decide)

@[simp] theorem not_ieBitsCollides_genMask : ¬ieBitsCollides (x &&& ieBitsGenMask) := by
  simp only [ieBitsCollides, ne_eq, not_not]
  exact and_and_of_disjoint (by decide)

variable (name : MachPort)

/-- The generation of a name has no other bits. -/
theorem machPortGen_and_genMask : machPortGen name &&& ieBitsGenMask = machPortGen name := by
  have hmask : ∀ i < 32, 24 ≤ i → ieBitsGenMask.getLsbD i = true := by decide
  refine eq_of_getLsbD_eq fun i hi => ?_
  rw [getLsbD_and]
  by_cases h : i < 24
  · simp [machPortGen, h]
  · rw [hmask i hi (by omega), Bool.and_true]

/-- The generation of a name lies outside the fields of the right and the collision bit. -/
theorem machPortGen_and_of_disjoint (h : ieBitsGenMask &&& m = 0) : machPortGen name &&& m = 0 := by
  rw [← machPortGen_and_genMask]
  exact and_and_of_disjoint h

@[simp] theorem ieBitsGen_machPortGen :
    ieBitsGen (machPortGen name) = machPortGen name := machPortGen_and_genMask name

@[simp] theorem ieBitsType_or_machPortGen : ieBitsType (x ||| machPortGen name) = ieBitsType x :=
  or_and_of_disjoint (machPortGen_and_of_disjoint name (by decide))

@[simp] theorem ieBitsRight_or_machPortGen : ieBitsRight (x ||| machPortGen name) = ieBitsRight x :=
  or_and_of_disjoint (machPortGen_and_of_disjoint name (by decide))

@[simp] theorem ieBitsCollides_or_machPortGen :
    ieBitsCollides (x ||| machPortGen name) ↔ ieBitsCollides x := by
  unfold ieBitsCollides
  rw [or_and_of_disjoint (machPortGen_and_of_disjoint name (by decide))]

@[simp] theorem not_ieBitsCollides_machPortGen : ¬ieBitsCollides (machPortGen name) := by
  simp only [ieBitsCollides, ne_eq, not_not]
  exact machPortGen_and_of_disjoint name (by decide)

/-- The generation of a name made from an index and a generation. -/
theorem machPortGen_make (index : ℕ) (gen : BitVec 32) :
    machPortGen (machPortMake index gen) = ieBitsGen gen := by
  have hmask : ∀ i < 32, ieBitsGenMask.getLsbD i = decide (24 ≤ i) := by decide
  have hbyte : ∀ i < 8, (0xff : BitVec 32).getLsbD i = true := by decide
  refine eq_of_getLsbD_eq fun i hi => ?_
  rw [ieBitsGen, getLsbD_and, hmask i hi, machPortGen, getLsbD_shiftLeft]
  by_cases h : i < 24
  · simp [h]
  · have h24 : i - 24 < 8 := by omega
    rw [getLsbD_and, hbyte _ h24, machPortMake, getLsbD_or, getLsbD_shiftLeft, getLsbD_ushiftRight]
    have hsub : 24 + (i - 24) = i := by omega
    simp [h, hi, h24, hsub, Nat.le_of_not_lt h]

@[simp] theorem ieBitsGen_newGen : ieBitsGen (ieBitsNewGen x) = ieBitsNewGen x :=
  and_and_of_le (by decide)

@[simp] theorem not_ieBitsCollides_newGen : ¬ieBitsCollides (ieBitsNewGen x) :=
  not_ieBitsCollides_genMask

/-- Bits of a right only have no generation. -/
theorem ieBitsGen_of_right (h : ieBitsRight x = x) : ieBitsGen x = 0 := by
  rw [← h]
  exact and_and_of_disjoint (by decide)

/-- Bits of a right only have no collision bit. -/
theorem not_ieBitsCollides_of_right (h : ieBitsRight x = x) : ¬ieBitsCollides x := by
  rw [← h]
  simp only [ieBitsCollides, ne_eq, not_not]
  exact and_and_of_disjoint (by decide)

/-- Adding a generation to the bits of a right. -/
theorem ieBitsGen_or_machPortGen (h : ieBitsRight x = x) (name : MachPort) :
    ieBitsGen (x ||| machPortGen name) = machPortGen name := by
  have hx : x &&& ieBitsGenMask = 0 := ieBitsGen_of_right h
  rw [ieBitsGen, and_or_distrib_right, hx, machPortGen_and_genMask]
  exact zero_or

/-- The bits of an entry that takes the right `y`. -/
def ieBitsStore (x y : BitVec 32) : BitVec 32 := (x &&& ~~~ieBitsRightMask) ||| ieBitsRight y

@[simp] theorem ieBitsType_store : ieBitsType (ieBitsStore x y) = ieBitsType y := by
  have hx : x &&& ~~~ieBitsRightMask &&& ieBitsTypeMask = 0 := and_and_of_disjoint (by decide)
  have hy : y &&& ieBitsRightMask &&& ieBitsTypeMask = y &&& ieBitsTypeMask :=
    and_and_of_le (by decide)
  rw [ieBitsType, ieBitsStore, ieBitsRight, and_or_distrib_right, hx, hy]
  exact zero_or

@[simp] theorem ieBitsRight_store : ieBitsRight (ieBitsStore x y) = ieBitsRight y := by
  have hx : x &&& ~~~ieBitsRightMask &&& ieBitsRightMask = 0 := and_and_of_disjoint (by decide)
  have hy : y &&& ieBitsRightMask &&& ieBitsRightMask = y &&& ieBitsRightMask :=
    and_and_of_le (by decide)
  rw [ieBitsRight, ieBitsStore, ieBitsRight, and_or_distrib_right, hx, hy]
  exact zero_or

@[simp] theorem ieBitsGen_store : ieBitsGen (ieBitsStore x y) = ieBitsGen x := by
  have hy : y &&& ieBitsRightMask &&& ieBitsGenMask = 0 := and_and_of_disjoint (by decide)
  rw [ieBitsGen, ieBitsStore, ieBitsRight, or_and_of_disjoint hy]
  exact and_and_of_le (by decide)

@[simp] theorem ieBitsCollides_store : ieBitsCollides (ieBitsStore x y) ↔ ieBitsCollides x := by
  have hy : y &&& ieBitsRightMask &&& ieBitsCollision = 0 := and_and_of_disjoint (by decide)
  unfold ieBitsCollides
  rw [ieBitsStore, ieBitsRight, or_and_of_disjoint hy, and_and_of_le (by decide)]

/-- Storing back the right of an entry changes nothing. -/
theorem ieBitsStore_self (x : BitVec 32) : ieBitsStore x x = x := by
  have hall : ~~~ieBitsRightMask ||| ieBitsRightMask = BitVec.allOnes 32 := by decide
  rw [ieBitsStore, ieBitsRight, ← and_or_distrib_left, hall, and_allOnes]

/-- An entry whose bits are of a right only keeps this. -/
theorem ieBitsRight_store_self (h : ieBitsRight x = x) :
    ieBitsRight (ieBitsStore x y) = ieBitsStore x y := by
  have hx : x &&& ~~~ieBitsRightMask = 0 := by
    rw [← h]
    exact and_and_of_disjoint (by decide)
  rw [ieBitsRight_store, ieBitsStore, hx]
  exact zero_or.symm

end Fields

end MachVirtuTerm
