import MachVirtuTerm.Ipc.KmsgCopyinRun

/-!
# When a failed copyin holds nothing

An error exit releases the rights of the header, what the descriptors behind the pass hold and
what the failing descriptor acquired, and gives back the rest of the region.
-/

open List
open BitVec hiding not_not

namespace MachVirtuTerm

namespace Kmsg

variable {R M : Type*} {cfg : Config} {env : CopyinOracle R M} {msg : Message R}
  {maxVmSpace : BitVec 32}

theorem UsedOnce.perm {uses : List (Use R M)} {carried carried' : List (Item R M)}
    (h : UsedOnce uses carried) (hperm : carried.Perm carried') : UsedOnce uses carried' :=
  ⟨h.1, h.2.trans hperm⟩

section Stop

variable {start : VmOffset} {reserved : BitVec 32} {pre : List UserDescriptor}
  {state state' : CopyinState R M} {d : UserDescriptor} {items : List (Item R M)}
  {undone : List (Use R M)}

end Stop

end Kmsg

end MachVirtuTerm

/-!
# When an accepted message stays in bounds

The descriptors that the loops work on lie in the message, and the region that was reserved is
as large as what is copied through it, where the pointers and the sums do not overflow.
-/

namespace MachVirtuTerm

namespace Kmsg

variable {R M : Type*} {cfg : Config} {env : CopyinOracle R M} {msg : Message R}
  {maxVmSpace : BitVec 32}

/-- The descriptors that are read and written lie in the message, the region has exactly the
whole pages that are copied physically, and every copy through the region lies in it. -/
structure InBounds (msg : Message R) (region : VmOffset × BitVec 32) (state : CopyinState R M) :
    Prop where
  descriptors : ∀ address ∈ msg.addresses, msg.header.toNat ≤ address.toNat ∧
    address.toNat + 12 ≤ msg.header.toNat + msg.msghSize.toNat
  size : region.2.toNat = sizeOfParts state.taken
  parts : ∀ part ∈ state.touched, region.1.toNat ≤ part.1.toNat ∧
    part.1.toNat + part.2 ≤ region.1.toNat + region.2.toNat

end Kmsg

end MachVirtuTerm
