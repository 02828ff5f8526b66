import MachVirtuTerm.Ipc.KmsgBody

/-!
# Copying a body out

`ipc_kmsg_copyout_body` gives the receiver the rights and the memory of a message. It goes on
after errors.
-/

open List

namespace MachVirtuTerm

namespace Kmsg

def machMsgInvalidRtDescriptor : MachMsgReturn := 0x200

def machMsgVmKernel : MachMsgReturn := 0x400

def machMsgIpcKernel : MachMsgReturn := 0x800

def machMsgVmSpace : MachMsgReturn := 0x1000

def machMsgIpcSpace : MachMsgReturn := 0x2000

/-- A descriptor of the scatter list. -/
structure ScatterDescriptor where
  isPort : Bool
  copy : MachMsgCopyOptions
  address : VmOffset

/-- What the calls to other modules return: `ipc_object_copyout` for an element of a
descriptor, `vm_allocate`, `vm_map_copyout` and `vm_map_copy_overwrite` for a descriptor. -/
structure CopyoutOracle where
  objectCopyout : ℕ → ℕ → KernReturn × ValidName
  allocate : ℕ → KernReturn × VmOffset
  mapCopyout : ℕ → KernReturn × VmOffset
  copyOverwrite : ℕ → KernReturn

/-- What a piece of the work leaves: a value, the bits of the return code and what was done
with items. -/
structure Outcome (R M α : Type*) where
  value : α
  mr : MachMsgReturn
  uses : List (Use R M)

variable {R M : Type*}

/-! ## Rights -/

/-- `ipc_kmsg_copyout_object`, with what `ipc_object_copyout` returns. -/
def copyoutObject (copyout : KernReturn × ValidName) (disposition : MachMsgTypeName)
    (object : PortWord R) : Outcome R M (PortWord R) :=
  match object with
  | .null | .dead => ⟨object, 0, []⟩
  | .name _ => ⟨object, 0, [.fault]⟩
  | .right right =>
    if copyout.1 ≠ .success then
      let uses := objectDestroy object disposition
      if copyout.1 = .invalidCapability then ⟨.dead, 0, uses⟩
      else if copyout.1 = .resourceShortage then ⟨.null, machMsgIpcKernel, uses⟩
      else ⟨.null, machMsgIpcSpace, uses⟩
    else ⟨.name copyout.2, 0, [.transferred (.right right disposition)]⟩

/-- The loop over the elements of an array, from an element on. -/
def copyoutObjects (copyout : ℕ → KernReturn × ValidName) (disposition : MachMsgTypeName) :
    ℕ → ℕ → List (PortWord R) → Outcome R M Unit
  | _, 0, _ => ⟨(), 0, []⟩
  | _, _ + 1, [] => ⟨(), 0, [.fault]⟩
  | j, count + 1, object :: objects =>
    let first := copyoutObject (copyout j) disposition object
    let next := copyoutObjects copyout disposition (j + 1) count objects
    ⟨(), first.mr ||| next.mr, first.uses ++ next.uses⟩

/-! ## Memory -/

def skipPortDescriptors (scatter : List ScatterDescriptor) : List ScatterDescriptor :=
  scatter.dropWhile ScatterDescriptor.isPort

/-- The address that the first descriptor of the scatter list says to overwrite. -/
def overwriteAddress : List ScatterDescriptor → Option VmOffset
  | [] => none
  | sstart :: _ => if sstart.copy = machMsgOverwrite then some sstart.address else none

/-- The bit for a failed call to the virtual memory system. -/
def vmError (kr : KernReturn) : MachMsgReturn :=
  if kr = .resourceShortage then machMsgVmKernel else machMsgVmSpace

/-- The case of out-of-line memory, with the region to overwrite. -/
def copyoutOutOfLine (cfg : Config) (env : CopyoutOracle) (i : ℕ) (overwrite : Option VmOffset)
    (address : OolWord M) (size : BitVec 32) (copyOption : MachMsgCopyOptions) :
    Outcome R M (Descriptor R M) :=
  if address matches .null then ⟨.outOfLine address size copyOption, 0, []⟩
  else
    let copy := if overwrite.isSome then machMsgOverwrite else machMsgAllocate
    if cfg.Small size copyOption then
      match overwrite with
      | some rcvAddr => ⟨.outOfLine (.ofUser rcvAddr) size copy, 0, kfree address⟩
      | none =>
        if cfg.rt then
          ⟨.outOfLine .null size copy, machMsgInvalidRtDescriptor, kfree address⟩
        else if (env.allocate i).1 ≠ .success then
          ⟨.outOfLine .null size copy, vmError (env.allocate i).1, kfree address⟩
        else ⟨.outOfLine (.ofUser (env.allocate i).2) size copy, 0, kfree address⟩
    else
      let (kr, rcvAddr) := overwrite.elim (env.mapCopyout i) fun a => (env.copyOverwrite i, a)
      if kr ≠ .success then ⟨.outOfLine .null size copy, vmError kr, copyDiscard address⟩
      else
        match address with
        | .kernel memory =>
          ⟨.outOfLine (.ofUser rcvAddr) size copy, 0, [.transferred (.memory memory)]⟩
        | _ => ⟨.outOfLine (.ofUser rcvAddr) size copy, 0, [.fault]⟩

/-- The case of out-of-line ports, with the region to overwrite, between the descriptors
before it and those after it. -/
def copyoutOolPorts (cfg : Config) (env : CopyoutOracle) (done rest : List (Descriptor R M))
    (overwrite : Option VmOffset) (address : ArrayWord R M) (count : BitVec 32)
    (copy : MachMsgCopyOptions) (disposition : MachMsgTypeName) :
    Outcome R M (Descriptor R M) :=
  let length := count * 4
  let given := fun (addr : VmOffset) (copy : MachMsgCopyOptions) =>
    let objects := copyoutObjects (env.objectCopyout done.length) disposition 0
      count.toNat address.objects
    (⟨.oolPorts (.ofUser addr) count copy disposition, objects.mr,
      objects.uses ++ kfreeArray address⟩ : Outcome R M (Descriptor R M))
  let failed := fun (mr : MachMsgReturn) (copy : MachMsgCopyOptions) =>
    (⟨.oolPorts .null count copy disposition, mr,
      cleanBody cfg (done ++ .oolPorts address count copy disposition :: rest)⟩ :
        Outcome R M (Descriptor R M))
  if length = 0 then ⟨.oolPorts address count copy disposition, 0, []⟩
  else
    match overwrite with
    | some addr => given addr machMsgOverwrite
    | none =>
      if cfg.rt then failed machMsgInvalidRtDescriptor copy
      else if (env.allocate done.length).1 ≠ .success then
        failed (vmError (env.allocate done.length).1) machMsgAllocate
      else given (env.allocate done.length).2 machMsgAllocate

/-! ## The body -/

/-- The scatter list after a descriptor. -/
def nextScatter (d : Descriptor R M) (scatter : List ScatterDescriptor) : List ScatterDescriptor :=
  match d with
  | .port .. | .other => scatter
  | _ => (skipPortDescriptors scatter).tail

/-- One round of the loop of `ipc_kmsg_copyout_body`; a descriptor of another type is a
panic. -/
def copyoutDescriptor (cfg : Config) (env : CopyoutOracle) (done : List (Descriptor R M))
    (d : Descriptor R M) (rest : List (Descriptor R M)) (scatter : List ScatterDescriptor) :
    Outcome R M (Descriptor R M) :=
  let overwrite := overwriteAddress (skipPortDescriptors scatter)
  match d with
  | .port name disposition =>
    let object := copyoutObject (env.objectCopyout done.length 0) disposition name
    ⟨.port object.value disposition, object.mr, object.uses⟩
  | .outOfLine address size copy =>
    copyoutOutOfLine cfg env done.length overwrite address size copy
  | .oolPorts address count copy disposition =>
    copyoutOolPorts cfg env done rest overwrite address count copy disposition
  | .other => ⟨d, 0, [.fault]⟩

/-- The loop of `ipc_kmsg_copyout_body`, between the descriptors before and those to come. -/
def copyoutFrom (cfg : Config) (env : CopyoutOracle) (done : List (Descriptor R M)) :
    List (Descriptor R M) → List ScatterDescriptor → Outcome R M (List (Descriptor R M))
  | [], _ => ⟨done, 0, []⟩
  | d :: rest, scatter =>
    let first := copyoutDescriptor cfg env done d rest scatter
    let next := copyoutFrom cfg env (done ++ [first.value]) rest (nextScatter d scatter)
    ⟨next.value, first.mr ||| next.mr, first.uses ++ next.uses⟩

/-- `ipc_kmsg_copyout_body`. -/
def copyoutBody (cfg : Config) (env : CopyoutOracle) (body : List (Descriptor R M))
    (slist : List ScatterDescriptor) : Outcome R M (List (Descriptor R M)) :=
  copyoutFrom cfg env [] body slist

end Kmsg

end MachVirtuTerm

/-!
# When copying out uses everything once

The loop releases the whole body when it finds no room for an array of rights. What was
copied out before is then taken for kernel objects, and what comes after is used again.
-/

namespace MachVirtuTerm

namespace Kmsg

variable {R M : Type*} {cfg : Config} {env : CopyoutOracle}

/-! ## Which descriptors are harmless -/

section

variable (cfg : Config)

variable (env : CopyoutOracle)

/-- There is no region for an array of rights. -/
def Refused (i : ℕ) (overwrite : Option VmOffset) : Descriptor R M → Prop
  | .oolPorts _ count _ _ =>
    count * 4 ≠ 0 ∧ overwrite = none ∧ (cfg.rt = true ∨ (env.allocate i).1 ≠ .success)
  | _ => False

/-- No address for out-of-line memory: no region, a failed call, or the address 0. -/
def LandsNowhere (i : ℕ) (size : BitVec 32) (copy : MachMsgCopyOptions) : Option VmOffset → Prop
  | some rcvAddr => rcvAddr = 0 ∨ ¬cfg.Small size copy ∧ env.copyOverwrite i ≠ .success
  | none =>
    if cfg.Small size copy then
      cfg.rt = true ∨ (env.allocate i).1 ≠ .success ∨ (env.allocate i).2 = 0
    else (env.mapCopyout i).1 ≠ .success ∨ (env.mapCopyout i).2 = 0

/-- After it was copied out the descriptor holds neither a name nor an address. -/
def Spent (i : ℕ) (overwrite : Option VmOffset) : Descriptor R M → Prop
  | .port (.right _) _ => (env.objectCopyout i 0).1 ≠ .success
  | .port _ _ => True
  | .outOfLine address size copy => address = .null ∨ LandsNowhere cfg env i size copy overwrite
  | .oolPorts _ count _ _ => count = 0
  | .other => True

/-- There is nothing to release in the descriptor. -/
def Idle : Descriptor R M → Prop
  | .port (.right _) _ => False
  | .port _ _ => True
  | .outOfLine address _ _ => address = .null
  | .oolPorts _ count _ _ => count = 0
  | .other => True

variable (body : List (Descriptor R M))

/-- The scatter list before a descriptor of the body. -/
def scatterAt (slist : List ScatterDescriptor) (i : ℕ) : List ScatterDescriptor :=
  (body.take i).foldl (fun scatter d => nextScatter d scatter) slist

/-- The region to overwrite for a descriptor of the body. -/
def overwriteAt (slist : List ScatterDescriptor) (i : ℕ) : Option VmOffset :=
  overwriteAddress (skipPortDescriptors (scatterAt body slist i))

/-- The descriptors before a place are spent when the loop comes there. -/
def SpentBefore (slist : List ScatterDescriptor) (i : ℕ) : Prop :=
  ∀ j < i, ∀ e, body[j]? = some e → Spent cfg env j (overwriteAt body slist j) e

/-- Where an array of rights is refused, all before is spent and all after is idle. -/
def RefusedAlone (slist : List ScatterDescriptor) : Prop :=
  ∀ i d, body[i]? = some d → Refused cfg env i (overwriteAt body slist i) d →
    SpentBefore cfg env body slist i ∧ ∀ j > i, ∀ e, body[j]? = some e → Idle e

end

/-! ## One descriptor -/

/-- A right is transferred or released. -/
theorem copyoutObject_once (copyout : KernReturn × ValidName) (disposition : MachMsgTypeName)
    {object : PortWord R} (h : object.InKernel) :
    UsedOnce (M := M) (copyoutObject copyout disposition object).uses
      (object.carried disposition) := by
  cases object with
  | null => exact .nil
  | dead => exact .nil
  | name => exact h.elim
  | right right =>
    simp only [copyoutObject]
    split_ifs
    · exact .released _
    · exact .released _
    · exact .released _
    · exact .transferred _

/-- So are the rights of an array. -/
theorem copyoutObjects_once (copyout : ℕ → KernReturn × ValidName)
    (disposition : MachMsgTypeName) (j : ℕ) {objects : List (PortWord R)}
    (h : ∀ object ∈ objects, object.InKernel) :
    UsedOnce (M := M) (copyoutObjects copyout disposition j objects.length objects).uses
      (objects.flatMap (PortWord.carried disposition)) := by
  induction objects generalizing j with
  | nil => exact .nil
  | cons object objects ih =>
    rw [flatMap_cons]
    exact (copyoutObject_once (copyout j) disposition (h object (by simp))).append
      (ih (j + 1) fun o ho => h o (by simp [ho]))

/-- Out-of-line memory is transferred or released. -/
theorem copyoutOutOfLine_once (i : ℕ) (overwrite : Option VmOffset) {address : OolWord M}
    {size : BitVec 32} {copy : MachMsgCopyOptions}
    (h : (Descriptor.outOfLine (R := R) address size copy).InKernel) :
    UsedOnce (R := R) (copyoutOutOfLine cfg env i overwrite address size copy).uses
      address.carried := by
  cases address with
  | null => exact .nil
  | user => exact h.elim
  | kernel memory =>
    simp only [copyoutOutOfLine, Bool.false_eq_true, if_false]
    generalize (if overwrite.isSome then machMsgOverwrite else machMsgAllocate) = received
    by_cases hsmall : cfg.Small size copy
    · simp only [hsmall, if_true]
      cases overwrite with
      | some rcvAddr => exact .released _
      | none =>
        dsimp only
        split_ifs
        · exact .released _
        · exact .released _
        · exact .released _
    · simp only [hsmall, if_false]
      split_ifs
      · exact .released _
      · exact .transferred _

/-- An array of rights for which there is room. -/
theorem copyoutOolPorts_once (done rest : List (Descriptor R M)) {overwrite : Option VmOffset}
    {address : ArrayWord R M} {count : BitVec 32} {copy : MachMsgCopyOptions}
    {disposition : MachMsgTypeName}
    (h : (Descriptor.oolPorts address count copy disposition).InKernel)
    (hroom : ¬Refused cfg env done.length overwrite (.oolPorts address count copy disposition)) :
    UsedOnce (copyoutOolPorts cfg env done rest overwrite address count copy disposition).uses
      (address.carried disposition) := by
  cases address with
  | user => exact h.elim
  | null =>
    have hlength : count * 4 = 0 := h
    simp only [copyoutOolPorts, hlength, if_true]
    exact .nil
  | kernel memory objects =>
    obtain ⟨hlength, hcount, hobjects⟩ := h
    have hrights := copyoutObjects_once (M := M) (env.objectCopyout done.length) disposition 0
      hobjects
    simp only [copyoutOolPorts, hlength, if_false, hcount]
    cases overwrite with
    | some addr => exact hrights.append (.released _)
    | none =>
      simp only [Refused, true_and, not_and, not_or, not_not] at hroom
      obtain ⟨hrt, hallocate⟩ := hroom hlength
      simp only [hrt, hallocate, if_false, ne_eq, not_true_eq_false]
      exact hrights.append (.released _)

/-- One for which there is none. -/
theorem copyoutOolPorts_refused (done rest : List (Descriptor R M))
    {overwrite : Option VmOffset} {address : ArrayWord R M} {count : BitVec 32}
    {copy : MachMsgCopyOptions} {disposition : MachMsgTypeName}
    (hrefused : Refused cfg env done.length overwrite (.oolPorts address count copy disposition)) :
    (copyoutOolPorts cfg env done rest overwrite address count copy disposition).uses =
      cleanBody cfg done ++ (cleanDescriptor cfg (.oolPorts address count copy disposition) ++
        cleanBody cfg rest) := by
  obtain ⟨hlength, rfl, hfail⟩ := hrefused
  simp only [copyoutOolPorts, hlength, if_false]
  split_ifs with hrt hallocate
  · rw [cleanBody_append, cleanBody_cons]
  · rw [cleanBody_append, cleanBody_cons]
    rfl
  · exact absurd hfail (not_or_intro hrt hallocate)

/-! ## What a round leaves and uses -/

variable {done rest : List (Descriptor R M)} {d : Descriptor R M}
  {scatter : List ScatterDescriptor}

/-- A round uses once what its descriptor carries, or releases the whole body. -/
theorem copyoutDescriptor_uses (cfg : Config) (env : CopyoutOracle)
    (done rest : List (Descriptor R M)) (scatter : List ScatterDescriptor) (h : d.InKernel) :
    (¬Refused cfg env done.length (overwriteAddress (skipPortDescriptors scatter)) d →
      UsedOnce (copyoutDescriptor cfg env done d rest scatter).uses d.carried) ∧
    (Refused cfg env done.length (overwriteAddress (skipPortDescriptors scatter)) d →
      (copyoutDescriptor cfg env done d rest scatter).uses =
        cleanBody cfg done ++ (cleanDescriptor cfg d ++ cleanBody cfg rest)) := by
  cases d with
  | port name disposition => exact ⟨fun _ => copyoutObject_once _ _ h, False.elim⟩
  | outOfLine address size copy => exact ⟨fun _ => copyoutOutOfLine_once _ _ h, False.elim⟩
  | oolPorts address count copy disposition =>
    exact ⟨copyoutOolPorts_once done rest h, copyoutOolPorts_refused done rest⟩
  | other => exact h.elim

/-- Nothing of the descriptor can be released any more, or something is released that is no
item. -/
def Settled (cfg : Config) (spent : Prop) (d : Descriptor R M) : Prop :=
  (spent → cleanDescriptor cfg d = []) ∧ (¬spent → .fault ∈ cleanDescriptor cfg d)

/-- An array that is refused is in the kernel. -/
theorem Refused.counted {i : ℕ} {overwrite : Option VmOffset} (h : Refused cfg env i overwrite d)
    (hkernel : d.InKernel) : d.Counted := by
  match d, h, hkernel with
  | .oolPorts .null count copy disposition, h, hkernel => exact absurd hkernel h.1
  | .oolPorts (.kernel memory objects) count copy disposition, _, _ => trivial

/-- An idle descriptor is one that counts nothing at the null address and carries nothing. -/
theorem idle_iff (h : d.InKernel) : Idle d ↔ d.Counted ∧ d.carried = [] := by
  match d, h with
  | .port .null _, _ => simp [Idle, Descriptor.Counted, Descriptor.carried, PortWord.carried]
  | .port .dead _, _ => simp [Idle, Descriptor.Counted, Descriptor.carried, PortWord.carried]
  | .port (.right _) _, _ => simp [Idle, Descriptor.carried, PortWord.carried]
  | .outOfLine .null _ _, _ =>
    simp [Idle, Descriptor.Counted, Descriptor.carried, OolWord.carried]
  | .outOfLine (.kernel _) _ _, _ => simp [Idle, Descriptor.carried, OolWord.carried]
  | .oolPorts .null _ _ _, _ =>
    simp [Idle, Descriptor.Counted, Descriptor.carried, ArrayWord.carried]
  | .oolPorts (.kernel _ _) _ _ _, h =>
    simpa [Idle, Descriptor.carried, ArrayWord.carried] using count_ne_zero h.1

/-- A name that was copied out is no kernel object. -/
theorem settled_port (i : ℕ) (overwrite : Option VmOffset) (disposition : MachMsgTypeName)
    {name : PortWord R} (h : name.InKernel) :
    Settled cfg (Spent cfg env i overwrite (.port name disposition : Descriptor R M))
      (.port (copyoutObject (M := M) (env.objectCopyout i 0) disposition name).value
        disposition : Descriptor R M) := by
  cases name with
  | null => exact ⟨fun _ => rfl, fun hspent => absurd trivial hspent⟩
  | dead => exact ⟨fun _ => rfl, fun hspent => absurd trivial hspent⟩
  | name => exact h.elim
  | right right =>
    by_cases hkr : (env.objectCopyout i 0).1 = .success
    · refine ⟨fun hspent => absurd hkr hspent, fun _ => ?_⟩
      simp [copyoutObject, hkr, cleanDescriptor, destroyValid, objectDestroy]
    · refine ⟨fun _ => ?_, fun hspent => absurd hkr hspent⟩
      simp only [copyoutObject, ne_eq, hkr, not_false_eq_true, if_true]
      split_ifs
      · rfl
      · rfl
      · rfl

/-- Neither is an address at which memory landed. -/
theorem settled_address (cfg : Config) {size : BitVec 32} (hsize : size ≠ 0)
    {copy : MachMsgCopyOptions} (hcopy : copy ≠ machMsgPhysicalCopy) (rcvAddr : VmOffset) :
    Settled cfg (rcvAddr = 0) (.outOfLine (.ofUser rcvAddr) size copy : Descriptor R M) := by
  have hsmall : ¬cfg.Small size copy := fun h => hcopy h.1
  refine ⟨fun hzero => ?_, fun hzero => ?_⟩
  · rw [cleanDescriptor, if_neg hsize, if_neg hsmall, OolWord.ofUser, if_pos hzero, copyDiscard]
  · rw [cleanDescriptor, if_neg hsize, if_neg hsmall, OolWord.ofUser, if_neg hzero, copyDiscard]
    exact mem_singleton.mpr rfl

/-- Memory that was copied out is at an address of the receiver, 0 where it landed nowhere. -/
theorem copyoutOutOfLine_value (cfg : Config) (env : CopyoutOracle) (i : ℕ)
    (overwrite : Option VmOffset) (memory : M) (size : BitVec 32) (copy : MachMsgCopyOptions) :
    ∃ rcvAddr received, received ≠ machMsgPhysicalCopy ∧
      (rcvAddr = 0 ↔ LandsNowhere cfg env i size copy overwrite) ∧
      (copyoutOutOfLine (R := R) cfg env i overwrite (.kernel memory) size copy).value =
        .outOfLine (.ofUser rcvAddr) size received := by
  simp only [copyoutOutOfLine, Bool.false_eq_true, if_false]
  have hreceived :
      (if overwrite.isSome then machMsgOverwrite else machMsgAllocate) ≠ machMsgPhysicalCopy := by
    split
    · decide
    · decide
  generalize (if overwrite.isSome then machMsgOverwrite else machMsgAllocate) = received at *
  by_cases hsmall : cfg.Small size copy
  · simp only [hsmall, if_true]
    cases overwrite with
    | some rcvAddr => exact ⟨rcvAddr, received, hreceived, by simp [LandsNowhere, hsmall], rfl⟩
    | none =>
      dsimp only
      split_ifs with hrt hallocate
      · exact ⟨0, received, hreceived, by simp [LandsNowhere, hsmall, hrt], rfl⟩
      · exact ⟨0, received, hreceived, by simp [LandsNowhere, hsmall, hallocate], rfl⟩
      · exact ⟨_, received, hreceived, by simp_all [LandsNowhere], rfl⟩
  · simp only [hsmall, if_false]
    split_ifs with hkr
    · refine ⟨0, received, hreceived, ?_, rfl⟩
      cases overwrite with
      | some rcvAddr => simpa [LandsNowhere, hsmall] using Or.inr hkr
      | none => simpa [LandsNowhere, hsmall] using Or.inl hkr
    · refine ⟨_, received, hreceived, ?_, rfl⟩
      cases overwrite with
      | some rcvAddr => simp_all [LandsNowhere]
      | none => simp_all [LandsNowhere]

/-- An array at an address of the user has no elements in the kernel. -/
theorem ArrayWord.objects_ofUser (address : VmOffset) :
    (ArrayWord.ofUser address : ArrayWord R M).objects = [] := by
  rw [ArrayWord.ofUser]
  split
  · rfl
  · rfl

/-- What is left of an array of rights is no array in the kernel. -/
theorem copyoutOolPorts_value (cfg : Config) (env : CopyoutOracle)
    (done rest : List (Descriptor R M)) (overwrite : Option VmOffset) (address : ArrayWord R M)
    {count : BitVec 32} (hlength : count * 4 ≠ 0) (copy : MachMsgCopyOptions)
    (disposition : MachMsgTypeName) :
    ∃ left received, left.objects = [] ∧
      (copyoutOolPorts cfg env done rest overwrite address count copy disposition).value =
        .oolPorts left count received disposition := by
  simp only [copyoutOolPorts, hlength, if_false]
  cases overwrite with
  | some addr => exact ⟨_, _, ArrayWord.objects_ofUser addr, rfl⟩
  | none =>
    dsimp only
    split_ifs
    · exact ⟨.null, _, rfl, rfl⟩
    · exact ⟨.null, _, rfl, rfl⟩
    · exact ⟨_, _, ArrayWord.objects_ofUser _, rfl⟩

/-- What a round leaves is settled. -/
theorem settled_copyout (cfg : Config) (env : CopyoutOracle)
    (done rest : List (Descriptor R M)) (scatter : List ScatterDescriptor) (h : d.InKernel) :
    Settled cfg (Spent cfg env done.length (overwriteAddress (skipPortDescriptors scatter)) d)
      (copyoutDescriptor cfg env done d rest scatter).value := by
  match d, h with
  | .port name disposition, h => exact settled_port done.length _ disposition h
  | .outOfLine .null size copy, h =>
    have hsize : size = 0 := h
    subst hsize
    exact ⟨fun _ => rfl, fun hspent => absurd (Or.inl rfl) hspent⟩
  | .outOfLine (.kernel memory) size copy, h =>
    have hsize : size ≠ 0 := h
    obtain ⟨rcvAddr, received, hcopy, hnowhere, hvalue⟩ :=
      copyoutOutOfLine_value (R := R) cfg env done.length
        (overwriteAddress (skipPortDescriptors scatter)) memory size copy
    have hsettled := settled_address (R := R) (M := M) cfg hsize hcopy rcvAddr
    simp only [copyoutDescriptor, hvalue, Spent, reduceCtorEq, false_or, ← hnowhere]
    exact hsettled
  | .oolPorts .null count copy disposition, h =>
    have hlength : count * 4 = 0 := h
    have hvalue : (copyoutDescriptor cfg env done (.oolPorts .null count copy disposition) rest
        scatter).value = .oolPorts .null count copy disposition := by
      simp only [copyoutDescriptor, copyoutOolPorts, hlength, if_true]
    rw [hvalue]
    refine ⟨fun hcount => ?_, fun hcount => ?_⟩
    · have hzero : count = 0 := hcount
      rw [cleanDescriptor, if_pos hzero]
    · exact fault_mem_cleanDescriptor cfg hcount copy disposition rfl
  | .oolPorts (.kernel memory objects) count copy disposition, h =>
    obtain ⟨hlength, -, -⟩ := h
    refine ⟨fun hspent => absurd hspent (count_ne_zero hlength), fun _ => ?_⟩
    obtain ⟨left, received, hleft, hvalue⟩ :=
      copyoutOolPorts_value cfg env done rest (overwriteAddress (skipPortDescriptors scatter))
        (.kernel memory objects) hlength copy disposition
    rw [copyoutDescriptor, hvalue]
    exact fault_mem_cleanDescriptor cfg (count_ne_zero hlength) received disposition hleft

/-! ## The loop -/


variable {body : List (Descriptor R M)} {slist : List ScatterDescriptor} {i : ℕ}

/-- The rest of the body begins with a descriptor of it. -/
theorem getElem?_of_drop (h : body.drop i = d :: rest) :
    body[i]? = some d ∧ body.drop (i + 1) = rest := by
  refine ⟨?_, ?_⟩
  · have hget : (body.drop i)[0]? = body[i]? := by rw [getElem?_drop, Nat.add_zero]
    rw [← hget, h]
    rfl
  · rw [← tail_drop, h]
    rfl

theorem mem_of_drop (h : body.drop i = rest) {e : Descriptor R M} (he : e ∈ rest) : e ∈ body := by
  rw [← h] at he
  exact mem_of_mem_drop he

/-- What follows a place of the body is its rest. -/
theorem forall_after_iff (h : body.drop (i + 1) = rest) {p : Descriptor R M → Prop} :
    (∀ j > i, ∀ e, body[j]? = some e → p e) ↔ ∀ e ∈ rest, p e := by
  refine ⟨fun hafter e he => ?_, fun hrest j hj e he => hrest e ?_⟩
  · obtain ⟨k, hk⟩ := mem_iff_getElem?.mp he
    rw [← h, getElem?_drop] at hk
    exact hafter (i + 1 + k) (by omega) e hk
  · refine mem_iff_getElem?.mpr ⟨j - (i + 1), ?_⟩
    rw [← h, getElem?_drop, ← he]
    congr 1
    omega

theorem scatterAt_succ (h : body[i]? = some d) :
    scatterAt body slist (i + 1) = nextScatter d (scatterAt body slist i) := by
  simp [scatterAt, take_add_one, h]

theorem spentBefore_succ (cfg : Config) (env : CopyoutOracle)
    (slist : List ScatterDescriptor) (h : body[i]? = some d) :
    SpentBefore cfg env body slist (i + 1) ↔
      SpentBefore cfg env body slist i ∧ Spent cfg env i (overwriteAt body slist i) d := by
  refine ⟨fun hspent => ⟨fun j hj => hspent j (by omega), hspent i (by omega) d h⟩, ?_⟩
  rintro ⟨hbefore, hspent⟩ j hj e he
  rcases Nat.lt_succ_iff_lt_or_eq.mp hj with hlt | rfl
  · exact hbefore j hlt e he
  · rw [h] at he
    cases he
    exact hspent

/-- The descriptors before a place are settled. -/
structure SettledBody (cfg : Config) (env : CopyoutOracle) (body : List (Descriptor R M))
    (slist : List ScatterDescriptor) (done : List (Descriptor R M)) : Prop where
  spent : SpentBefore cfg env body slist done.length → cleanBody cfg done = []
  unspent : ¬SpentBefore cfg env body slist done.length → .fault ∈ cleanBody cfg done

theorem SettledBody.nil : SettledBody cfg env body slist [] where
  spent _ := rfl
  unspent h := absurd (fun _ hj => absurd hj (Nat.not_lt_zero _)) h

/-- One more round. -/
theorem SettledBody.snoc (h : SettledBody cfg env body slist done)
    (hd : body[done.length]? = some d) {left : Descriptor R M}
    (hleft : Settled cfg (Spent cfg env done.length (overwriteAt body slist done.length) d) left) :
    SettledBody cfg env body slist (done ++ [left]) := by
  have hsucc := spentBefore_succ cfg env slist hd
  refine ⟨fun hspent => ?_, fun hspent => ?_⟩
  · rw [length_append, length_singleton, hsucc] at hspent
    simp [h.spent hspent.1, hleft.1 hspent.2]
  · rw [length_append, length_singleton, hsucc, not_and_or] at hspent
    rw [cleanBody_append, cleanBody_cons, cleanBody_nil, append_nil, mem_append]
    exact hspent.imp h.unspent hleft.2

/-- Where arrays are refused alone, everything to come is used once. -/
theorem copyoutFrom_once (hkernel : ∀ d ∈ body, d.InKernel)
    (halone : RefusedAlone cfg env body slist) (hrest : body.drop done.length = rest)
    (hdone : SettledBody cfg env body slist done) :
    UsedOnce (copyoutFrom cfg env done rest (scatterAt body slist done.length)).uses
      (rest.flatMap Descriptor.carried) := by
  induction rest generalizing done with
  | nil => exact .nil
  | cons d rest ih =>
    obtain ⟨hd, htail⟩ := getElem?_of_drop hrest
    have hmem : d.InKernel := hkernel d (mem_of_getElem? hd)
    have hsettled :=
      settled_copyout cfg env done rest (scatterAt body slist done.length) hmem
    have hnext := ih (by simpa using htail) (hdone.snoc hd hsettled)
    rw [length_append, length_singleton, scatterAt_succ hd] at hnext
    rw [flatMap_cons]
    refine UsedOnce.append ?_ hnext
    have huses :=
      copyoutDescriptor_uses cfg env done rest (scatterAt body slist done.length) hmem
    by_cases hrefused : Refused cfg env done.length (overwriteAt body slist done.length) d
    · obtain ⟨hbefore, hafter⟩ := halone _ _ hd hrefused
      rw [forall_after_iff htail] at hafter
      have hrestKernel : ∀ e ∈ rest, e.InKernel := fun e he => hkernel e (mem_of_drop htail he)
      have hclean := cleanBody_once cfg hrestKernel fun e he =>
        ((idle_iff (hrestKernel e he)).mp (hafter e he)).1
      have hempty : rest.flatMap Descriptor.carried = [] :=
        flatMap_eq_nil_iff.mpr fun e he =>
          ((idle_iff (hrestKernel e he)).mp (hafter e he)).2
      rw [hempty] at hclean
      rw [huses.2 hrefused, hdone.spent hbefore, nil_append]
      simpa using (cleanDescriptor_once cfg hmem (hrefused.counted hmem)).append hclean
    · exact huses.1 hrefused

/-- A round uses at least what its descriptor carries. -/
theorem length_carried_le (cfg : Config) (env : CopyoutOracle) (done rest : List (Descriptor R M))
    (scatter : List ScatterDescriptor) (hkernel : d.InKernel) :
    d.carried.length ≤ (itemsOf (copyoutDescriptor cfg env done d rest scatter).uses).length := by
  have huses := copyoutDescriptor_uses cfg env done rest scatter hkernel
  by_cases hrefused : Refused cfg env done.length (overwriteAddress (skipPortDescriptors scatter)) d
  · rw [huses.2 hrefused, itemsOf_append, itemsOf_append, length_append,
      length_append,
      (cleanDescriptor_once cfg hkernel (hrefused.counted hkernel)).2.length_eq]
    omega
  · exact (huses.1 hrefused).2.length_eq.ge

/-- The loop uses at least what is to come. -/
theorem length_carried_le_copyoutFrom (cfg : Config) (env : CopyoutOracle)
    (done : List (Descriptor R M)) (scatter : List ScatterDescriptor)
    (hkernel : ∀ d ∈ rest, d.InKernel) :
    (rest.flatMap Descriptor.carried).length ≤
      (itemsOf (copyoutFrom cfg env done rest scatter).uses).length := by
  induction rest generalizing done scatter with
  | nil => exact Nat.zero_le _
  | cons d rest ih =>
    rw [copyoutFrom, flatMap_cons, length_append]
    dsimp only
    rw [itemsOf_append, length_append]
    exact Nat.add_le_add (length_carried_le cfg env done rest scatter (hkernel d (by simp)))
      (ih _ _ fun e he => hkernel e (by simp [he]))

/-- Where nothing is taken for an item and no more is used than is to come, arrays are refused
alone. -/
theorem refusedAlone_of_copyoutFrom (hkernel : ∀ d ∈ body, d.InKernel)
    (hrest : body.drop done.length = rest) (hdone : SettledBody cfg env body slist done)
    (hfault : .fault ∉ (copyoutFrom cfg env done rest (scatterAt body slist done.length)).uses)
    (hlength : (itemsOf (copyoutFrom cfg env done rest
      (scatterAt body slist done.length)).uses).length ≤ (rest.flatMap Descriptor.carried).length) :
    ∀ i ≥ done.length, ∀ d, body[i]? = some d →
      Refused cfg env i (overwriteAt body slist i) d →
        SpentBefore cfg env body slist i ∧ ∀ j > i, ∀ e, body[j]? = some e → Idle e := by
  induction rest generalizing done with
  | nil =>
    intro i hi d hd
    have hlt : i < body.length := (List.getElem?_eq_some_iff.mp hd).1
    exact absurd (drop_eq_nil_iff.mp hrest) (by omega)
  | cons d rest ih =>
    obtain ⟨hd, htail⟩ := getElem?_of_drop hrest
    have hmem : d.InKernel := hkernel d (mem_of_getElem? hd)
    have hrestKernel : ∀ e ∈ rest, e.InKernel := fun e he => hkernel e (mem_of_drop htail he)
    have hsettled :=
      settled_copyout cfg env done rest (scatterAt body slist done.length) hmem
    have huses :=
      copyoutDescriptor_uses cfg env done rest (scatterAt body slist done.length) hmem
    have hfirst :=
      length_carried_le cfg env done rest (scatterAt body slist done.length) hmem
    have hnext := length_carried_le_copyoutFrom cfg env
      (done ++ [(copyoutDescriptor cfg env done d rest (scatterAt body slist done.length)).value])
      (nextScatter d (scatterAt body slist done.length)) hrestKernel
    rw [copyoutFrom] at hfault hlength
    dsimp only at hfault hlength
    rw [mem_append, not_or] at hfault
    rw [itemsOf_append, length_append, flatMap_cons, length_append] at hlength
    intro i hi e he hrefused
    rcases Nat.eq_or_lt_of_le hi with rfl | hlt
    · obtain rfl : d = e := by simpa [hd] using he
      rw [huses.2 hrefused] at hfault hlength
      have hcounted : ∀ e ∈ rest, e.Counted := by
        intro e he
        by_contra hnot
        refine hfault.1 (mem_append_right _ (mem_append_right _ ?_))
        exact mem_flatMap.mpr ⟨e, he, fault_mem_of_not_counted cfg hnot⟩
      rw [itemsOf_append, itemsOf_append, length_append, length_append,
        (cleanDescriptor_once cfg hmem (hrefused.counted hmem)).2.length_eq,
        (cleanBody_once cfg hrestKernel hcounted).2.length_eq] at hlength
      refine ⟨?_, ?_⟩
      · by_contra hunspent
        exact hfault.1 (mem_append_left _ (hdone.unspent hunspent))
      · have hempty : rest.flatMap Descriptor.carried = [] :=
          List.length_eq_zero_iff.mp (by omega)
        rw [forall_after_iff htail]
        intro e he
        exact (idle_iff (hrestKernel e he)).mpr ⟨hcounted e he, flatMap_eq_nil_iff.mp hempty e he⟩
    · have hstep := ih (by simpa using htail) (hdone.snoc hd hsettled)
      rw [length_append, length_singleton, scatterAt_succ hd] at hstep
      exact hstep hfault.2 (by omega) i hlt e he hrefused

/-! ## The body -/

/-- Copying a body out transfers or releases every item exactly once, and takes nothing else
for an item, exactly when arrays of rights for which there is no room are refused alone: the
descriptors before are spent, and those after are idle. -/
theorem copyoutBody_usedOnce_iff (cfg : Config) (env : CopyoutOracle)
    (body : List (Descriptor R M)) (slist : List ScatterDescriptor)
    (hkernel : ∀ d ∈ body, d.InKernel) :
    UsedOnce (copyoutBody cfg env body slist).uses (body.flatMap Descriptor.carried) ↔
      RefusedAlone cfg env body slist := by
  have hnil : SettledBody cfg env body slist [] := .nil
  refine ⟨fun h => ?_, fun h => copyoutFrom_once hkernel h rfl hnil⟩
  intro i d hd hrefused
  exact refusedAlone_of_copyoutFrom hkernel rfl hnil h.1 h.2.length_eq.le i (Nat.zero_le _) d hd
    hrefused

/-- Every right gets a name, and no memory is allocated for arrays. -/
def noMemoryForArrays : CopyoutOracle :=
  ⟨fun _ _ => (.success, ⟨0x107, by decide⟩), fun _ => (.resourceShortage, 0), fun _ => (.success, 0),
    fun _ => .success⟩

/-- An array of rights that is refused after a null port: the right and its memory are released. -/
theorem copyoutBody_usedOnce_refused :
    UsedOnce (copyoutBody (R := ℕ) (M := ℕ) ⟨false, 2049⟩ noMemoryForArrays
      [.port .null 17, .oolPorts (.kernel 2 [.right 3]) 1 2 17] []).uses
      [.right 3 17, .memory 2] := by
  refine (copyoutBody_usedOnce_iff _ _ _ _ (by simp [Descriptor.InKernel, PortWord.InKernel])).mpr ?_
  rintro (_ | _ | i) d hd hrefused
  · cases hd
    cases hrefused
  · refine ⟨fun j hj e he => ?_, fun j hj e he => ?_⟩
    · obtain rfl := Nat.lt_one_iff.mp hj
      cases he
      trivial
    · cases (getElem?_eq_none hj).symm.trans he
  · cases hd

/-- A right that was copied out is destroyed under its name when a later array is refused. -/
theorem refused_array_destroys_name :
    ¬UsedOnce (copyoutBody (R := ℕ) (M := ℕ) ⟨false, 2049⟩ noMemoryForArrays
      [.port (.right 1) 17, .oolPorts (.kernel 2 [.right 3]) 1 2 17] []).uses
      [.right 1 17, .right 3 17, .memory 2] := by
  intro h
  exact h.1 (by decide)

end Kmsg

end MachVirtuTerm
