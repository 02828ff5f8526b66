import MachVirtuTerm.Mach.Port
import MachVirtuTerm.Vm.MapEntry

/-!
# The body of a kernel message

The descriptors of a complex message, with the words that stand in them while the message is
in the kernel and after it was copied out, and `ipc_kmsg_clean_body`.
-/

open List

namespace MachVirtuTerm

namespace Kmsg

/-- `mach_msg_return_t`. -/
abbrev MachMsgReturn := BitVec 32

/-- `mach_msg_type_name_t`, as a descriptor holds it. -/
abbrev MachMsgTypeName := BitVec 8

/-- `mach_msg_copy_options_t`, as a descriptor holds it. -/
abbrev MachMsgCopyOptions := BitVec 8

def machMsgPhysicalCopy : MachMsgCopyOptions := 0

def machMsgVirtualCopy : MachMsgCopyOptions := 1

def machMsgAllocate : MachMsgCopyOptions := 2

def machMsgOverwrite : MachMsgCopyOptions := 3

/-- A name that is neither `MACH_PORT_NULL` nor `MACH_PORT_DEAD`. -/
abbrev ValidName := { name : MachPort // machPortValid name }

/-- The word of a port in a message: a right that the message holds, or a name of the
receiver. -/
inductive PortWord (R : Type*) where
  | null
  | dead
  | right (object : R)
  | name (name : ValidName)
  deriving DecidableEq

/-- The address in an out-of-line descriptor: memory that the message holds, or an address of
a user. -/
inductive OolWord (M : Type*) where
  | null
  | kernel (memory : M)
  | user (address : VmOffset)
  deriving DecidableEq

/-- The address in an out-of-line ports descriptor; an array in the kernel comes with its
elements. -/
inductive ArrayWord (R M : Type*) where
  | null
  | kernel (memory : M) (objects : List (PortWord R))
  | user (address : VmOffset)
  deriving DecidableEq

/-- `mach_msg_descriptor_t`. Both types of out-of-line memory have one constructor. -/
inductive Descriptor (R M : Type*) where
  | port (name : PortWord R) (disposition : MachMsgTypeName)
  | outOfLine (address : OolWord M) (size : BitVec 32) (copy : MachMsgCopyOptions)
  | oolPorts (address : ArrayWord R M) (count : BitVec 32) (copy : MachMsgCopyOptions)
      (disposition : MachMsgTypeName)
  | other
  deriving DecidableEq

/-- What a message carries: rights and memory. -/
inductive Item (R M : Type*) where
  | right (object : R) (disposition : MachMsgTypeName)
  | memory (memory : M)
  deriving DecidableEq

/-- What is done with an item: it goes to the receiver or is released. A `fault` is a step on
a word that stands for no item of the kernel. -/
inductive Use (R M : Type*) where
  | transferred (item : Item R M)
  | released (item : Item R M)
  | fault
  deriving DecidableEq

/-- The message is for real-time ports, and below which size memory is in a buffer of its own
(`MSG_OOL_SIZE_SMALL`). -/
structure Config where
  rt : Bool
  msgOolSizeSmall : BitVec 32

variable {R M : Type*}

/-- The item of a use. -/
def Use.item? : Use R M → Option (Item R M)
  | .transferred item => some item
  | .released item => some item
  | .fault => none

/-- Memory at an address of the user; 0 is no address. -/
def OolWord.ofUser (address : VmOffset) : OolWord M :=
  if address = 0 then .null else .user address

/-- An array at an address of the user; 0 is no address. -/
def ArrayWord.ofUser (address : VmOffset) : ArrayWord R M :=
  if address = 0 then .null else .user address

/-! ## Releasing what a body holds -/

/-- `ipc_object_destroy`. -/
def objectDestroy (object : PortWord R) (disposition : MachMsgTypeName) : List (Use R M) :=
  match object with
  | .right object => [.released (.right object disposition)]
  | _ => [.fault]

/-- `ipc_object_destroy` for an object that satisfies `IO_VALID`. -/
def destroyValid (object : PortWord R) (disposition : MachMsgTypeName) : List (Use R M) :=
  match object with
  | .null | .dead => []
  | object => objectDestroy object disposition

/-- `KFREE` of a buffer. -/
def kfree : OolWord M → List (Use R M)
  | .kernel memory => [.released (.memory memory)]
  | _ => [.fault]

/-- `KFREE` of an array. -/
def kfreeArray : ArrayWord R M → List (Use R M)
  | .kernel memory _ => [.released (.memory memory)]
  | _ => [.fault]

/-- `vm_map_copy_discard`, which does nothing for `VM_MAP_COPY_NULL`. -/
def copyDiscard : OolWord M → List (Use R M)
  | .null => []
  | .kernel memory => [.released (.memory memory)]
  | .user _ => [.fault]

/-- The first elements of an array are destroyed. -/
def destroyObjects (disposition : MachMsgTypeName) : ℕ → List (PortWord R) → List (Use R M)
  | 0, _ => []
  | _ + 1, [] => [.fault]
  | count + 1, object :: objects =>
    destroyValid object disposition ++ destroyObjects disposition count objects

/-- The elements of an array in the kernel; there are none to read at another address. -/
def ArrayWord.objects : ArrayWord R M → List (PortWord R)
  | .kernel _ objects => objects
  | _ => []

/-- The buffer of its own in which small memory is copied physically. -/
def Config.Small (cfg : Config) (size : BitVec 32) (copy : MachMsgCopyOptions) : Prop :=
  copy = machMsgPhysicalCopy ∧ size < cfg.msgOolSizeSmall

instance (cfg : Config) (size : BitVec 32) (copy : MachMsgCopyOptions) :
    Decidable (cfg.Small size copy) :=
  inferInstanceAs (Decidable (_ ∧ _))

/-- One round of the loop of `ipc_kmsg_clean_body`. -/
def cleanDescriptor (cfg : Config) : Descriptor R M → List (Use R M)
  | .port name disposition => destroyValid name disposition
  | .outOfLine address size copy =>
    if size = 0 then []
    else if cfg.Small size copy then kfree address
    else copyDiscard address
  | .oolPorts address count _ disposition =>
    if count = 0 then []
    else destroyObjects disposition count.toNat address.objects ++ kfreeArray address
  | .other => []

/-- `ipc_kmsg_clean_body`, for the descriptors up to the given number. -/
def cleanBody (cfg : Config) (body : List (Descriptor R M)) : List (Use R M) :=
  body.flatMap (cleanDescriptor cfg)

@[simp]
theorem cleanBody_nil (cfg : Config) : cleanBody cfg ([] : List (Descriptor R M)) = [] :=
  rfl

@[simp]
theorem cleanBody_cons (cfg : Config) (d : Descriptor R M) (body : List (Descriptor R M)) :
    cleanBody cfg (d :: body) = cleanDescriptor cfg d ++ cleanBody cfg body := by
  simp [cleanBody]

@[simp]
theorem cleanBody_append (cfg : Config) (body₁ body₂ : List (Descriptor R M)) :
    cleanBody cfg (body₁ ++ body₂) = cleanBody cfg body₁ ++ cleanBody cfg body₂ := by
  simp [cleanBody]

/-! ## What a body carries -/

/-- The right in a word. -/
def PortWord.carried (disposition : MachMsgTypeName) : PortWord R → List (Item R M)
  | .right object => [.right object disposition]
  | _ => []

/-- The memory at a word. -/
def OolWord.carried : OolWord M → List (Item R M)
  | .kernel memory => [.memory memory]
  | _ => []

/-- The rights and the memory of an array. -/
def ArrayWord.carried (disposition : MachMsgTypeName) : ArrayWord R M → List (Item R M)
  | .kernel memory objects =>
    objects.flatMap (PortWord.carried disposition) ++ [.memory memory]
  | _ => []

/-- The items that a descriptor carries. -/
def Descriptor.carried : Descriptor R M → List (Item R M)
  | .port name disposition => name.carried disposition
  | .outOfLine address _ _ => address.carried
  | .oolPorts address _ _ disposition => address.carried disposition
  | .other => []

/-- A word that is not a name of a user. -/
def PortWord.InKernel : PortWord R → Prop
  | .name _ => False
  | _ => True

/-- A descriptor as it is in a message in the kernel: its words are not of a user, memory of
size 0 is at the null address, so is an array whose length in bytes is 0, and other arrays
have as many elements as the descriptor counts. -/
def Descriptor.InKernel : Descriptor R M → Prop
  | .port name _ => name.InKernel
  | .outOfLine address size _ =>
    match address with
    | .null => size = 0
    | .kernel _ => size ≠ 0
    | .user _ => False
  | .oolPorts address count _ _ =>
    match address with
    | .null => count * 4 = 0
    | .kernel _ objects =>
      count * 4 ≠ 0 ∧ count.toNat = objects.length ∧ ∀ object ∈ objects, object.InKernel
    | .user _ => False
  | .other => False

/-- No elements are counted at the null address. The length in bytes is 0 for some other
counts too. -/
def Descriptor.Counted : Descriptor R M → Prop
  | .oolPorts .null count _ _ => count = 0
  | _ => True

/-- The items that the uses are about. -/
def itemsOf (uses : List (Use R M)) : List (Item R M) :=
  uses.filterMap Use.item?

@[simp]
theorem itemsOf_nil : itemsOf ([] : List (Use R M)) = [] :=
  rfl

@[simp]
theorem itemsOf_append (uses₁ uses₂ : List (Use R M)) :
    itemsOf (uses₁ ++ uses₂) = itemsOf uses₁ ++ itemsOf uses₂ :=
  filterMap_append

/-- Every item is transferred or released exactly once, and nothing else is taken for an
item. -/
def UsedOnce (uses : List (Use R M)) (carried : List (Item R M)) : Prop :=
  .fault ∉ uses ∧ (itemsOf uses).Perm carried

theorem UsedOnce.nil : UsedOnce ([] : List (Use R M)) [] :=
  ⟨by simp, .nil⟩

theorem UsedOnce.append {uses₁ uses₂ : List (Use R M)} {carried₁ carried₂ : List (Item R M)}
    (h₁ : UsedOnce uses₁ carried₁) (h₂ : UsedOnce uses₂ carried₂) :
    UsedOnce (uses₁ ++ uses₂) (carried₁ ++ carried₂) := by
  refine ⟨?_, ?_⟩
  · rw [mem_append]
    exact not_or_intro h₁.1 h₂.1
  · rw [itemsOf_append]
    exact h₁.2.append h₂.2

theorem UsedOnce.released (item : Item R M) : UsedOnce [.released item] [item] :=
  ⟨by simp, .refl _⟩

theorem UsedOnce.transferred (item : Item R M) : UsedOnce [.transferred item] [item] :=
  ⟨by simp, .refl _⟩

/-! ## A body in the kernel is released as a whole -/

theorem destroyValid_once (disposition : MachMsgTypeName) {object : PortWord R}
    (h : object.InKernel) :
    UsedOnce (M := M) (destroyValid object disposition) (object.carried disposition) := by
  cases object with
  | null => exact .nil
  | dead => exact .nil
  | right object => exact .released _
  | name => exact h.elim

/-- As many elements as the array has. -/
theorem destroyObjects_once (disposition : MachMsgTypeName) {objects : List (PortWord R)}
    (h : ∀ object ∈ objects, object.InKernel) :
    UsedOnce (M := M) (destroyObjects disposition objects.length objects)
      (objects.flatMap (PortWord.carried disposition)) := by
  induction objects with
  | nil => exact .nil
  | cons object objects ih =>
    rw [flatMap_cons]
    exact (destroyValid_once disposition (h object (by simp))).append
      (ih fun o ho => h o (by simp [ho]))

theorem count_ne_zero {count : BitVec 32} (h : count * 4 ≠ 0) : count ≠ 0 := by
  rintro rfl
  exact h rfl

/-- A descriptor in the kernel releases what it carries. -/
theorem cleanDescriptor_once (cfg : Config) {d : Descriptor R M} (h : d.InKernel)
    (hcounted : d.Counted) : UsedOnce (cleanDescriptor cfg d) d.carried := by
  match d, h, hcounted with
  | .port name disposition, h, _ => exact destroyValid_once disposition h
  | .outOfLine .null size copy, h, _ =>
    have hsize : size = 0 := h
    simp [cleanDescriptor, hsize, Descriptor.carried, OolWord.carried, UsedOnce.nil]
  | .outOfLine (.kernel memory) size copy, h, _ =>
    have hsize : size ≠ 0 := h
    simp only [cleanDescriptor, hsize, if_false]
    split
    · exact .released _
    · exact .released _
  | .oolPorts .null count copy disposition, _, hcounted =>
    have hcount : count = 0 := hcounted
    simp [cleanDescriptor, hcount, Descriptor.carried, ArrayWord.carried, UsedOnce.nil]
  | .oolPorts (.kernel memory objects) count copy disposition, h, _ =>
    obtain ⟨hlength, hcount, hobjects⟩ := h
    simp only [cleanDescriptor, count_ne_zero hlength, if_false, hcount]
    exact (destroyObjects_once disposition hobjects).append (.released _)

/-- Where elements are counted but there is no array in the kernel, none can be destroyed. -/
theorem fault_mem_cleanDescriptor (cfg : Config) {count : BitVec 32} (hcount : count ≠ 0)
    (copy : MachMsgCopyOptions) (disposition : MachMsgTypeName) {address : ArrayWord R M}
    (haddress : address.objects = []) :
    .fault ∈ cleanDescriptor cfg (.oolPorts address count copy disposition) := by
  obtain ⟨n, hn⟩ : ∃ n, count.toNat = n + 1 :=
    Nat.exists_eq_succ_of_ne_zero fun h => hcount (BitVec.eq_of_toNat_eq (by simpa using h))
  rw [cleanDescriptor, if_neg hcount, haddress, hn]
  exact mem_append_left _ (mem_singleton.mpr rfl)

theorem fault_mem_of_not_counted (cfg : Config) {d : Descriptor R M} (h : ¬d.Counted) :
    .fault ∈ cleanDescriptor cfg d := by
  match d, h with
  | .port .., h => exact absurd trivial h
  | .outOfLine .., h => exact absurd trivial h
  | .oolPorts .null count copy disposition, h =>
    exact fault_mem_cleanDescriptor cfg h copy disposition rfl
  | .oolPorts (.kernel ..) .., h => exact absurd trivial h
  | .oolPorts (.user _) .., h => exact absurd trivial h
  | .other, h => exact absurd trivial h

/-- A body in the kernel releases what it carries. -/
theorem cleanBody_once (cfg : Config) {body : List (Descriptor R M)}
    (h : ∀ d ∈ body, d.InKernel) (hcounted : ∀ d ∈ body, d.Counted) :
    UsedOnce (cleanBody cfg body) (body.flatMap Descriptor.carried) := by
  induction body with
  | nil => exact .nil
  | cons d body ih =>
    rw [cleanBody_cons, flatMap_cons]
    exact (cleanDescriptor_once cfg (h d (by simp)) (hcounted d (by simp))).append
      (ih (fun e he => h e (by simp [he])) fun e he => hcounted e (by simp [he]))

end Kmsg

end MachVirtuTerm
