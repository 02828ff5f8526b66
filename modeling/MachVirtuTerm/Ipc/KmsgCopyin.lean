import MachVirtuTerm.Ipc.KmsgBody
import MachVirtuTerm.Mach.VmParam

/-!
# Copying a body in

`ipc_kmsg_copyin_body` turns the descriptors of a user message into those of a kernel message.
Memory that is copied physically goes through a region of the kernel copy map, which is
reserved in a first pass over the descriptors.
-/

namespace MachVirtuTerm

namespace Kmsg

def machMsgTypePortReceive : MachMsgTypeName := 16

def machMsgTypePortSend : MachMsgTypeName := 17

def machMsgTypePortSendOnce : MachMsgTypeName := 18

/-- `ipc_object_copyin_type`, which panics for strange rights. -/
def objectCopyinType (msgtName : MachMsgTypeName) : Option MachMsgTypeName :=
  if msgtName = 0 then some 0
  else if msgtName = 16 then some machMsgTypePortReceive
  else if msgtName = 18 ∨ msgtName = 21 then some machMsgTypePortSendOnce
  else if msgtName = 17 ∨ msgtName = 20 ∨ msgtName = 19 then some machMsgTypePortSend
  else none

/-- The codes that `ipc_kmsg_copyin_body` returns. -/
inductive CopyinError where
  | vmKernel
  | invalidRtDescriptor
  | sendMsgTooSmall
  | sendInvalidRight
  | sendInvalidMemory
  | sendNoBuffer
  | sendInvalidType
  | sendInvalidRtOolSize
  deriving DecidableEq

/-- A descriptor of a user message, word by word: a port name or an address, a size or a
count, and the bytes of the last word. -/
structure UserDescriptor where
  word : BitVec 32
  size : BitVec 32
  deallocate : BitVec 8
  copy : MachMsgCopyOptions
  disposition : MachMsgTypeName
  type : BitVec 8
  deriving DecidableEq

def machMsgPortDescriptor : BitVec 8 := 0

def machMsgOolDescriptor : BitVec 8 := 1

def machMsgOolPortsDescriptor : BitVec 8 := 2

def machMsgOolVolatileDescriptor : BitVec 8 := 3

/-- Both types of out-of-line memory. -/
def UserDescriptor.IsOutOfLine (d : UserDescriptor) : Prop :=
  d.type = machMsgOolDescriptor ∨ d.type = machMsgOolVolatileDescriptor

instance (d : UserDescriptor) : Decidable d.IsOutOfLine := inferInstanceAs (Decidable (_ ∨ _))

/-- What kind of port a message is for (`ip_kotype`). -/
inductive Ikot where
  | none
  | pagingRequest
  | device
  | other
  deriving DecidableEq

/-- `ipc_kobject_vm_page_list`. -/
def Ikot.vmPageList (ikot : Ikot) : Bool := ikot = .pagingRequest ∨ ikot = .device

/-- A user message in a kernel buffer, after its header was copied in. The descriptors are
what stands in memory at an address. -/
structure Message (R : Type*) where
  header : VmOffset
  msghSize : BitVec 32
  descriptorCount : BitVec 32
  descriptor : VmOffset → UserDescriptor
  ikot : Ikot
  remotePort : R
  remoteDisposition : MachMsgTypeName
  localPort : PortWord R
  localPort_inKernel : localPort.InKernel
  localDisposition : MachMsgTypeName

/-- What `ipc_object_copyin` gives: nothing, `IO_DEAD` or a right. -/
inductive CopiedObject (R : Type*) where
  | refused
  | dead
  | right (object : R)

/-- What the calls to other modules return: `vm_allocate` in the kernel copy map for a size;
for a descriptor, and for an element of its array, `ipc_object_copyin` and
`ipc_port_check_circularity`, and the names in the array; for a descriptor `KALLOC`, whether
`copyin` or `copyinmap` fails, `vm_map_copyin` and `vm_map_copyin_page_list`. -/
structure CopyinOracle (R M : Type*) where
  allocate : BitVec 32 → Option VmOffset
  objectCopyin : ℕ → ℕ → CopiedObject R
  checkCircularity : ℕ → ℕ → Bool
  arrayName : ℕ → ℕ → MachPort
  kalloc : ℕ → Option M
  copyinFails : ℕ → Bool
  mapCopyin : ℕ → Option M
  mapCopyinPageList : ℕ → Option M

/-- The state of the second pass: the descriptors behind it, what is left of the reserved
region, the bits for the header, and what was done with items and with the region. A part of
the region is an address and a number of bytes. -/
structure CopyinState (R M : Type*) where
  body : List (Descriptor R M)
  paddr : VmOffset
  spaceNeeded : BitVec 32
  isComplex : Bool
  isCircular : Bool
  acquired : List (Item R M)
  uses : List (Use R M)
  touched : List (VmOffset × ℕ)
  taken : List (VmOffset × ℕ)
  freed : List (VmOffset × ℕ)

variable {R M : Type*}

/-! ## One descriptor -/

/-- The next descriptor of the body, and the items that it holds now. -/
def CopyinState.push (state : CopyinState R M) (d : Descriptor R M) : CopyinState R M :=
  { state with
    body := state.body ++ [d]
    isComplex := true
    acquired := state.acquired ++ d.carried }

/-- A size rounded up to whole pages, without overflow. -/
def wholePages (size : BitVec 32) : ℕ := (size.toNat + (pageSize - 1)) / pageSize * pageSize

variable (msg : Message R)

/-- The address of the descriptors, after the header and the count. -/
def Message.saddr : VmOffset := msg.header + 24 + 4

/-- The address after the descriptors. -/
def Message.eaddr : VmOffset := msg.saddr + msg.descriptorCount * 12

/-- The addresses at which the loops stop on their way; a pointer has `2 ^ 32` values. -/
def descriptorAddresses (eaddr : VmOffset) : ℕ → VmOffset → List VmOffset
  | 0, _ => []
  | fuel + 1, sstart =>
    if sstart < eaddr then sstart :: descriptorAddresses eaddr fuel (sstart + 12) else []

/-- The addresses of the descriptors that the loops work on. -/
def Message.addresses : List VmOffset :=
  descriptorAddresses msg.eaddr (2 ^ 32) msg.saddr

/-- The descriptors that the loops work on. -/
def Message.descriptors : List UserDescriptor :=
  msg.addresses.map msg.descriptor

/-- Memory that the first pass reserves space for. -/
def UserDescriptor.NeedsSpace (cfg : Config) (d : UserDescriptor) : Prop :=
  d.IsOutOfLine ∧ d.copy = machMsgPhysicalCopy ∧ d.size ≥ cfg.msgOolSizeSmall ∧ d.deallocate = 0

instance (cfg : Config) (d : UserDescriptor) : Decidable (d.NeedsSpace cfg) :=
  inferInstanceAs (Decidable (_ ∧ _))

/-- The first pass, with the most space that a message may take (`ipc_kmsg_max_vm_space`). -/
def neededSpace (cfg : Config) (maxVmSpace : BitVec 32) :
    BitVec 32 → List UserDescriptor → Except CopyinError (BitVec 32)
  | spaceNeeded, [] => .ok spaceNeeded
  | spaceNeeded, d :: rest =>
    if d.IsOutOfLine ∧ d.copy ≠ machMsgPhysicalCopy ∧ d.copy ≠ machMsgVirtualCopy then
      .error .sendInvalidType
    else if d.NeedsSpace cfg then
      let spaceNeeded := spaceNeeded + roundPage d.size
      if spaceNeeded > maxVmSpace then .error .vmKernel
      else neededSpace cfg maxVmSpace spaceNeeded rest
    else neededSpace cfg maxVmSpace spaceNeeded rest

/-- The checks of the message and the first pass, up to the region for physical copies. -/
def reserve (cfg : Config) (maxVmSpace : BitVec 32) (env : CopyinOracle R M) (msg : Message R) :
    Except CopyinError (VmOffset × BitVec 32) :=
  if msg.eaddr ≤ msg.saddr ∨ msg.eaddr > msg.header + 24 * msg.msghSize then
    .error .sendMsgTooSmall
  else
    match neededSpace cfg maxVmSpace 0 msg.descriptors with
    | .error error => .error error
    | .ok spaceNeeded =>
      if spaceNeeded ≠ 0 then
        if cfg.rt then .error .sendInvalidRtOolSize
        else
          match env.allocate spaceNeeded with
          | none => .error .vmKernel
          | some paddr => .ok (paddr, spaceNeeded)
      else .ok (0, 0)

/-- The state before the second pass: the rights of the header are in the message. -/
def CopyinState.start (paddr : VmOffset) (spaceNeeded : BitVec 32) : CopyinState R M where
  body := []
  paddr := paddr
  spaceNeeded := spaceNeeded
  isComplex := false
  isCircular := false
  acquired := .right msg.remotePort msg.remoteDisposition ::
    msg.localPort.carried msg.localDisposition
  uses := []
  touched := []
  taken := []
  freed := []

end Kmsg

end MachVirtuTerm
