import MachVirtuTerm.Ipc.NameSpace

/-!
# Allocating a right under a name

`mach_port_allocate_full`, which allocates a right of one of three kinds under a name of the
caller's or of the kernel's choice, with the allocators it goes through. The objects are those
of the zones for ports and port sets, by address.
-/

open Function

namespace MachVirtuTerm

/-- `mach_port_right_t`. -/
inductive MachPortRight
  | send
  | receive
  | sendOnce
  | portSet
  | deadName
  | other (right : ℕ)
  deriving DecidableEq

/-- `mach_port_qos_t`. -/
structure MachPortQos where
  name : Bool
  rt : Bool

def qosTemplate : MachPortQos := ⟨false, false⟩

def machPortQlimitDefault : ℕ := 5

/-- What a new `struct ipc_port` is initialized to. -/
structure NewPort where
  ipReceiverName : MachPort
  ipMscount : ℕ
  ipSrights : ℕ
  ipSorights : ℕ
  ipNsrequest : Option ℕ
  ipPdrequest : Option ℕ
  ipDnrequests : Option ℕ
  ipPset : Option ℕ
  ipSeqno : ℕ
  ipMsgcount : ℕ
  ipQlimit : ℕ
  ipSubsystem : Option ℕ
  /-- `IPC_PORT_FLAGS_RT`. -/
  ipRt : Bool

def ipcPortInit (name : MachPort) : NewPort where
  ipReceiverName := name
  ipMscount := 0
  ipSrights := 0
  ipSorights := 0
  ipNsrequest := none
  ipPdrequest := none
  ipDnrequests := none
  ipPset := none
  ipSeqno := 0
  ipMsgcount := 0
  ipQlimit := machPortQlimitDefault
  ipSubsystem := none
  ipRt := false

/-- What a new object is. -/
inductive NewObject
  /-- An object that is allocated and cleared. -/
  | cleared
  /-- A port. -/
  | port (references : ℕ) (port : NewPort)
  /-- A port set with its `ips_local_name`. -/
  | portSet (references : ℕ) (ipsLocalName : MachPort)

/-- A space and the objects that are allocated. -/
structure PortSpace where
  space : IpcSpace
  objects : ℕ → Option NewObject

/-- What memory a call gets: an address for `io_alloc`, one for `ite_alloc`, and the sizes of
which tables can be had. -/
structure PortMemory where
  ioAlloc : Option ℕ
  iteAlloc : Option ℕ
  tables : ℕ → Bool

/-- Memory that is not in use. -/
def PortMemory.Fresh (memory : PortMemory) (s : PortSpace) : Prop :=
  (∀ object, memory.ioAlloc = some object → s.objects object = none) ∧
    ∀ ite, memory.iteAlloc = some ite → ite ∉ addrs s.space.tentries

namespace PortSpace

variable (sizes : IpcTableSizes)

def ipcEntryAlloc (tables : ℕ → Bool) :
    ℕ → IpcSpace → Option (IpcSpace × Except KernReturn (MachPort × IpcEntryPtr))
  | 0, _ => none
  | fuel + 1, space =>
    if ¬space.isActive then some (space, .error .invalidTask)
    else
      match ipcEntryGet space with
      | .ok (space, name, entry) => some (space, .ok (name, entry))
      | .error _ => do
        let (space, kr) ← ipcEntryGrowTable sizes none tables sizes.num space
        if kr ≠ .success then some (space, .error kr) else ipcEntryAlloc tables fuel space

/-- A right is stored in a new entry: `ie_bits` gains its bits. -/
def fillEntry (space : IpcSpace) (entry : IpcEntryPtr) (bits : BitVec 32) (object : Option ℕ) :
    IpcSpace :=
  space.setEntry
    { space.entry entry with ieBits := (space.entry entry).ieBits ||| bits, ieObject := object }
    entry

def ipcRightInuse (space : IpcSpace) (entry : IpcEntryPtr) : Bool :=
  ieBitsType (space.entry entry).ieBits ≠ machPortTypeNone

def ioFree (objects : ℕ → Option NewObject) (object : ℕ) : ℕ → Option NewObject :=
  update objects object none

variable (memory : PortMemory)

variable (s : PortSpace)

/-- `ipc_object_alloc_dead`: the name it allocates is returned. -/
def ipcObjectAllocDead : Option (PortSpace × Except KernReturn MachPort) := do
  let (space, result) ← ipcEntryAlloc sizes memory.tables (sizes.num + 1) s.space
  match result with
  | .error kr => some ({ s with space := space }, .error kr)
  | .ok (name, entry) =>
    let object := (space.entry entry).ieObject
    some ({ s with space := fillEntry space entry (machPortTypeDeadName ||| 1) object }, .ok name)

/-- `ipc_object_alloc`, the object becoming `init` of the name that was allocated. -/
def ipcObjectAlloc (type urefs : BitVec 32) (init : MachPort → NewObject) (memory : PortMemory)
    (s : PortSpace) : Option (PortSpace × Except KernReturn (MachPort × ℕ)) :=
  match memory.ioAlloc with
  | none => some (s, .error .resourceShortage)
  | some object => do
    let objects := update s.objects object (some .cleared)
    let (space, result) ← ipcEntryAlloc sizes memory.tables (sizes.num + 1) s.space
    match result with
    | .error kr => some (⟨space, ioFree objects object⟩, .error kr)
    | .ok (name, entry) =>
      some (⟨fillEntry space entry (type ||| urefs) (some object),
        update objects object (some (init name))⟩, .ok (name, object))

/-- `ipc_object_alloc_name`, the object becoming `init`. -/
def ipcObjectAllocName (type urefs : BitVec 32) (name : MachPort) (init : NewObject)
    (memory : PortMemory) (s : PortSpace) : Option (PortSpace × Except KernReturn ℕ) :=
  match memory.ioAlloc with
  | none => some (s, .error .resourceShortage)
  | some object => do
    let objects := update s.objects object (some .cleared)
    let (space, result) ←
      ipcEntryAllocName sizes name memory.iteAlloc memory.tables (sizes.num + 1) s.space
    match result with
    | .error kr => some (⟨space, ioFree objects object⟩, .error kr)
    | .ok entry =>
      if ipcRightInuse space entry then
        some (⟨space, ioFree objects object⟩, .error .nameExists)
      else
        some (⟨fillEntry space entry (type ||| urefs) (some object),
          update objects object (some init)⟩, .ok object)

def ipcPortAllocName (name : MachPort) (memory : PortMemory) (s : PortSpace) :
    Option (PortSpace × Except KernReturn ℕ) :=
  ipcObjectAllocName sizes machPortTypeReceive 0 name (.port 1 (ipcPortInit name)) memory s

def ipcPortAlloc : Option (PortSpace × Except KernReturn (MachPort × ℕ)) :=
  ipcObjectAlloc sizes machPortTypeReceive 0 (fun name => .port 1 (ipcPortInit name)) memory s

def ipcPsetAllocName (name : MachPort) (memory : PortMemory) (s : PortSpace) :
    Option (PortSpace × Except KernReturn ℕ) :=
  ipcObjectAllocName sizes machPortTypePortSet 0 name (.portSet 1 name) memory s

def ipcPsetAlloc : Option (PortSpace × Except KernReturn (MachPort × ℕ)) :=
  ipcObjectAlloc sizes machPortTypePortSet 0 (fun name => .portSet 1 name) memory s

/-- The rest of `mach_port_allocate_full` for a new port: its real-time flag and its
subsystem. -/
def configurePort (rt : Bool) (subsystem : Option ℕ) (object : ℕ) (s : PortSpace) : PortSpace :=
  match s.objects object with
  | some (.port references port) =>
    { s with objects := update s.objects object (some (.port references { port with
        ipRt := rt || port.ipRt
        ipSubsystem := subsystem.or port.ipSubsystem })) }
  | _ => s

/-- `mach_port_allocate_full`, with real-time ports configured: what it returns and the name
it leaves to the caller. -/
def machPortAllocateFull (right : MachPortRight) (subsystem : Option ℕ) (qos : MachPortQos)
    (name : MachPort) (memory : PortMemory) (s : PortSpace) :
    Option (PortSpace × KernReturn × MachPort) :=
  if qos.name ∧ ¬machPortValid name then some (s, .invalidValue, name)
  else if qos.name ∧ s.space.isFast then some (s, .failure, name)
  else if subsystem ≠ none ∧ right ≠ .receive then some (s, .invalidValue, name)
  else if qos.rt ∧ right ≠ .receive then some (s, .invalidValue, name)
  else
    match right with
    | .receive => do
      let (s, result) ←
        if qos.name then
          (ipcPortAllocName sizes name memory s).map fun (s, r) => (s, r.map fun o => (name, o))
        else ipcPortAlloc sizes memory s
      match result with
      | .error kr => some (s, kr, name)
      | .ok (name, object) => some (configurePort qos.rt subsystem object s, .success, name)
    | .portSet => do
      let (s, result) ←
        if qos.name then
          (ipcPsetAllocName sizes name memory s).map fun (s, r) => (s, r.map fun o => (name, o))
        else ipcPsetAlloc sizes memory s
      match result with
      | .error kr => some (s, kr, name)
      | .ok (name, _) => some (s, .success, name)
    | .deadName => do
      let (s, result) ← ipcObjectAllocDead sizes memory s
      match result with
      | .error kr => some (s, kr, name)
      | .ok name => some (s, .success, name)
    | .send | .sendOnce | .other _ => some (s, .invalidValue, name)

/-- `mach_port_allocate_name`: the name that `mach_port_allocate_full` leaves is not
returned. -/
def machPortAllocateName (right : MachPortRight) (name : MachPort) (memory : PortMemory)
    (s : PortSpace) : Option (PortSpace × KernReturn) :=
  (machPortAllocateFull sizes right none { qosTemplate with name := true } name memory s).map
    fun (s, kr, _) => (s, kr)

end PortSpace

end MachVirtuTerm

/-!
# Which right a chosen name denotes afterwards

A receive right or a port set is allocated under the name that the caller chose, and lookups
find it unless the name is that of the head of the free list. A dead name is not:
`mach_port_allocate_full` calls the allocator that chooses a name itself, so the caller's name
denotes the dead name only if it is the one the free list has next.
-/

namespace MachVirtuTerm

variable {sizes : IpcTableSizes} {space space' : IpcSpace} {name : MachPort} {p : IpcEntryPtr}

/-- `ipc_entry_grow_table` returns success or that there is no room or no memory. -/
theorem ipcEntryGrowTable_code {target : Option ℕ} {tables : ℕ → Bool} {fuel : ℕ}
    {kr : KernReturn}
    (h : ipcEntryGrowTable sizes target tables fuel space = some (space', kr)) :
    kr = .success ∨ kr = .noSpace ∨ kr = .resourceShortage := by
  induction fuel generalizing space with
  | zero => cases h
  | succ fuel ih =>
    rw [ipcEntryGrowTable] at h
    split at h
    · cases h
      exact .inl rfl
    split at h
    · rename_i kr' hsize
      cases h
      unfold growSize at hsize
      dsimp only at hsize
      split at hsize
      · cases hsize
      split at hsize
      · cases hsize
        exact .inl rfl
      split at hsize
      · cases hsize
        exact .inr (.inl rfl)
      · cases hsize
    dsimp only at h
    split at h
    · cases h
      exact .inr (.inl rfl)
    split at h
    · cases h
      exact .inr (.inr rfl)
    split at h
    · exact ih h
    · cases h
      exact .inl rfl

/-- More memory does not change a growth that succeeded. -/
theorem ipcEntryGrowTable_mono {target : Option ℕ} {tables : ℕ → Bool} {fuel : ℕ}
    (h : ipcEntryGrowTable sizes target tables fuel space = some (space', .success)) :
    ipcEntryGrowTable sizes target (fun _ => true) fuel space = some (space', .success) := by
  induction fuel generalizing space with
  | zero => cases h
  | succ fuel ih =>
    rw [ipcEntryGrowTable] at h ⊢
    split at h
    · rename_i hgrowing
      rw [if_pos hgrowing]
      exact h
    rename_i hgrowing
    rw [if_neg hgrowing]
    split at h
    · exact h
    dsimp only at h ⊢
    split at h
    · cases h
    rename_i hmore
    rw [if_neg hmore]
    split at h
    · cases h
    rw [if_neg (by simp)]
    split at h
    · rename_i hagain
      rw [if_pos hagain]
      exact ih h
    · rename_i hagain
      rw [if_neg hagain]
      exact h

/-- The name that the first free entry of the table gets, if there is one. -/
def firstFreeName (space : IpcSpace) : MachPort :=
  machPortMake (space.isTable 0).ieNext
    (ieBitsNewGen (space.isTable (space.isTable 0).ieNext).ieBits)

/-- The space once its table is grown until there is a free entry, with memory for every table:
none when the table has its last size before there is one. -/
def spaceWithRoom (sizes : IpcTableSizes) : ℕ → IpcSpace → Option IpcSpace
  | 0, _ => none
  | fuel + 1, space =>
    if (space.isTable 0).ieNext ≠ 0 then some space
    else
      match ipcEntryGrowTable sizes none (fun _ => true) sizes.num space with
      | some (space, .success) => spaceWithRoom sizes fuel space
      | _ => none

/-- The entry that `ipc_entry_alloc_name` returns: the one that holds the name, or a new one
for a name that denotes nothing. -/
def NamedEntry (sizes : IpcTableSizes) (space : IpcSpace) (name : MachPort) (space' : IpcSpace) :
    Except KernReturn IpcEntryPtr → Prop
  | .ok p =>
    SpaceInv sizes space' ∧ space'.Holds name p ∧ (∀ m c, space'.Maps m c ↔ space.Maps m c) ∨
      (∀ c, ¬space.Maps name c) ∧ ieBitsRight (space'.entry p).ieBits = 0 ∧
        (space'.entry p).index = 0
  | .error kr => kr ≠ .success ∧ kr ≠ .nameExists

/-- Allocating in a space that denotes the same. -/
theorem NamedEntry.of_maps {space₁ : IpcSpace} {res : Except KernReturn IpcEntryPtr}
    (hmaps : ∀ m c, space₁.Maps m c ↔ space.Maps m c)
    (h : NamedEntry sizes space₁ name space' res) : NamedEntry sizes space name space' res := by
  cases res with
  | error kr => exact h
  | ok p =>
    exact h.imp (fun h => ⟨h.1, h.2.1, fun m c => (h.2.2 m c).trans (hmaps m c)⟩)
      fun h => ⟨fun c => mt (hmaps name c).mpr (h.1 c), h.2⟩

/-- The loop of `ipc_entry_alloc_name` returns the entry of the name or a new one. -/
theorem allocNameLoop_named (h : SpaceInv sizes space) {iteAlloc treeEntry : Option ℕ}
    {tables : ℕ → Bool} {fuel : ℕ} {res : Except KernReturn IpcEntryPtr}
    (hfuel : sizes.num + (if treeEntry.isSome then 0 else 1) < space.isTableNext + fuel)
    (hrun : allocNameLoop sizes name iteAlloc tables fuel treeEntry space = some (space', res)) :
    NamedEntry sizes space name space' res := by
  induction fuel generalizing space treeEntry with
  | zero => cases hrun
  | succ fuel ih =>
    rw [allocNameLoop] at hrun
    dsimp only at hrun
    rw [if_neg (by simp [h.tree.isActive])] at hrun
    by_cases hheld : (0 < machPortIndex name ∧ machPortIndex name < space.isTableSize) ∧
        ieBitsType (space.isTable (machPortIndex name)).ieBits ≠ machPortTypeNone ∧
        ieBitsGen (space.isTable (machPortIndex name)).ieBits = machPortGen name
    · -- The name has an entry in the table.
      rw [if_pos hheld] at hrun
      cases hrun
      obtain ⟨⟨h0, hi⟩, ht, hg⟩ := hheld
      exact .inl ⟨h, ⟨rfl, h0, hi, ht, hg⟩, fun _ _ => Iff.rfl⟩
    rw [if_neg hheld] at hrun
    by_cases hfree : (0 < machPortIndex name ∧ machPortIndex name < space.isTableSize) ∧
        ieBitsType (space.isTable (machPortIndex name)).ieBits = machPortTypeNone
    · -- The entry with the index of the name is free.
      rw [if_pos hfree] at hrun
      obtain ⟨⟨h0, hi⟩, ht⟩ := hfree
      obtain ⟨freeIndex, hpred, hrip⟩ := h.ripSlot h0 hi ht
      rw [hpred, Option.bind_eq_bind, Option.bind_some] at hrun
      cases hrun
      refine .inr ⟨(hrip ⟨machPortTypeReceive, none, 0, by decide⟩ ⟨machPortGen name, none, 0⟩
        rfl).2.2.1, ?_, ?_⟩
      · simp only [IpcSpace.entry, IpcSpace.setTable, update_self]
        exact machPortGen_and_of_disjoint name (by decide)
      · simp only [IpcSpace.entry, IpcSpace.setTable, update_self]
    rw [if_neg hfree] at hrun
    split at hrun
    · cases hrun
      exact ⟨by decide, by decide⟩
    obtain ⟨hre, hfound⟩ := h.allocLookup name
    generalize (if 0 < space.isTreeTotal then ipcTreeLookup space name
      else (space, none)) = found at hre hfound hrun
    obtain ⟨space₁, tentry⟩ := found
    dsimp only at hre hfound hrun
    obtain ⟨tree, hspace, -, hel⟩ := hre.shape
    have hten : space₁.tentries = space.tentries := by rw [hspace]; exact hel
    cases tentry with
    | some p =>
      obtain ⟨a, rfl, ha⟩ := (hfound p).mp rfl
      cases hrun
      exact .inl ⟨hre.inv, by rw [IpcSpace.Holds, hten]; exact ha, hre.maps⟩
    | none =>
      have hfresh : ∀ c, ¬space.Maps name c := by
        rintro c ⟨q, hq, -⟩
        cases q with
        | table i =>
          obtain ⟨rfl, h0, hi, ht, hg⟩ := hq
          exact hheld ⟨⟨h0, hi⟩, ht, hg⟩
        | tree a => exact absurd ((hfound (.tree a)).mpr ⟨a, rfl, hq⟩) (by simp)
      dsimp only at hrun
      split at hrun
      · have hnext : space₁.isTableNext = space.isTableNext := by rw [hspace]
        obtain ⟨space₂, kr, hgrow, hgrown, hmore⟩ := hre.inv.ipcEntryGrowTable none
          tables fuel (by rw [hnext]; split_ifs at hfuel <;> omega)
        rw [hgrow, Option.bind_eq_bind, Option.bind_some] at hrun
        dsimp only at hrun
        split at hrun
        · rename_i hkr
          cases hrun
          rcases ipcEntryGrowTable_code hgrow with rfl | rfl | rfl
          · exact absurd rfl hkr
          · exact ⟨by decide, by decide⟩
          · exact ⟨by decide, by decide⟩
        · rename_i hkr
          have hlt := hmore rfl (not_ne_iff.mp hkr)
          exact (ih hgrown.inv (by omega) hrun).of_maps fun m c =>
            (hgrown.maps m c).trans (hre.maps m c)
      · cases treeEntry with
        | some ite =>
          cases hrun
          obtain ⟨_, _, -, -, -, heq⟩ := allocNameInTree_eq hre.inv name ite
          rw [heq]
          refine .inr ⟨hfresh, ?_, ?_⟩
          · simp only [IpcSpace.entry, update_self]
            rfl
          · simp only [IpcSpace.entry, update_self]
        | none =>
          cases hal : iteAlloc with
          | none =>
            subst hal
            cases hrun
            exact ⟨by decide, by decide⟩
          | some ite =>
            subst hal
            refine (ih hre.inv ?_ hrun).of_maps hre.maps
            rw [show space₁.isTableNext = space.isTableNext by rw [hspace]]
            simp only [Option.isSome_none, Option.isSome_some] at hfuel ⊢
            simp at hfuel ⊢
            omega

/-- With memory for a tree entry there is always an entry for the name of the head, in the tree. -/
theorem allocNameLoop_headName (h : SpaceInv sizes space) (hfast : space.isFast = false) {ite : ℕ}
    {treeEntry : Option ℕ} {tables : ℕ → Bool} {fuel : ℕ} {res : Except KernReturn IpcEntryPtr}
    (hrun : allocNameLoop sizes headName (some ite) tables fuel treeEntry space =
      some (space', res)) : ∃ p, res = .ok p := by
  induction fuel generalizing space treeEntry with
  | zero => cases hrun
  | succ fuel ih =>
    have hindex : machPortIndex headName = 0 := rfl
    rw [allocNameLoop] at hrun
    dsimp only at hrun
    simp only [hindex, h.tree.isActive, hfast, lt_irrefl, false_and, not_true_eq_false,
      Bool.false_eq_true, if_false] at hrun
    obtain ⟨hre, -⟩ := h.allocLookup headName
    generalize (if 0 < space.isTreeTotal then ipcTreeLookup space headName
      else (space, none)) = found at hre hrun
    obtain ⟨space₁, tentry⟩ := found
    dsimp only at hre hrun
    cases tentry with
    | some p =>
      cases hrun
      exact ⟨p, rfl⟩
    | none =>
      have hsize := hre.inv.tree.size_pos
      rw [if_neg fun hgrow => absurd hgrow.1 (by omega)] at hrun
      cases treeEntry with
      | some ite' =>
        cases hrun
        exact ⟨_, rfl⟩
      | none =>
        obtain ⟨tree, hspace, -, -⟩ := hre.shape
        exact ih hre.inv (by rw [hspace]; exact hfast) hrun

/-- Filling a new entry is storing a right there. -/
theorem fillEntry_eq_store {bits : BitVec 32} {object : Option ℕ}
    (hright : ieBitsRight (space.entry p).ieBits = 0) (hindex : (space.entry p).index = 0)
    (hinUse : ieBitsType bits ≠ machPortTypeNone) (hbits : ieBitsRight bits = bits) :
    PortSpace.fillEntry space p bits object = space.store p ⟨bits, object, 0, hinUse⟩ := by
  have hclear : (space.entry p).ieBits &&& ~~~ieBitsRightMask = (space.entry p).ieBits := by
    have hself := ieBitsStore_self (space.entry p).ieBits
    rw [ieBitsStore, hright] at hself
    exact BitVec.or_zero.symm.trans hself
  have hstore : ieBitsStore (space.entry p).ieBits bits = (space.entry p).ieBits ||| bits := by
    rw [ieBitsStore, hclear, hbits]
  unfold PortSpace.fillEntry IpcSpace.store
  dsimp only
  rw [hstore, hindex]

/-- What `ipc_entry_alloc` leaves to its caller: a new entry, under the name that the first
free entry of the space gets once there is room. -/
def AnyEntry (sizes : IpcTableSizes) (fuel : ℕ) (space space' : IpcSpace) :
    Except KernReturn (MachPort × IpcEntryPtr) → Prop
  | .ok (name, p) =>
    (spaceWithRoom sizes fuel space).map firstFreeName = some name ∧
      ieBitsRight (space'.entry p).ieBits = 0 ∧ (space'.entry p).index = 0 ∧
      name ≠ headName ∧ (∀ c, ¬space.Maps name c) ∧ space'.isFast = space.isFast ∧
      ∀ r : IpcRight, SpaceInv sizes (space'.store p r) ∧
        (space'.store p r).Holds name p ∧ Updated space (space'.store p r) name (some r.content)
  | .error kr => kr ≠ .success ∧ kr ≠ .nameExists

/-- `ipc_entry_get` takes the first free entry. -/
theorem ipcEntryGet_eq (space : IpcSpace) :
    if (space.isTable 0).ieNext = 0 then ipcEntryGet space = .error .noSpace
    else ∃ space', ipcEntryGet space =
        .ok (space', firstFreeName space, .table (space.isTable 0).ieNext) ∧
      ieBitsRight (space'.entry (.table (space.isTable 0).ieNext)).ieBits = 0 ∧
      (space'.entry (.table (space.isTable 0).ieNext)).index = 0 ∧
      space'.isFast = space.isFast := by
  split
  · rename_i h0
    simp only [ipcEntryGet, h0, if_true]
  · rename_i h0
    refine ⟨_, if_neg h0, ?_, ?_, rfl⟩
    · simp only [IpcSpace.entry, IpcSpace.setTable, update_self]
      exact and_and_of_disjoint (by decide)
    · simp only [IpcSpace.entry, IpcSpace.setTable, update_self]

/-- `ipc_entry_alloc` returns, with a new entry or for want of room or memory. -/
theorem ipcEntryAlloc_spec (h : SpaceInv sizes space) {tables : ℕ → Bool} {fuel : ℕ}
    (hfuel : sizes.num < space.isTableNext + fuel) :
    ∃ space' res, PortSpace.ipcEntryAlloc sizes tables fuel space = some (space', res) ∧
      AnyEntry sizes fuel space space' res := by
  induction fuel generalizing space with
  | zero =>
    have := h.tree.next_lt
    omega
  | succ fuel ih =>
    rw [PortSpace.ipcEntryAlloc, if_neg (by simp [h.tree.isActive])]
    have hget := ipcEntryGet_eq space
    by_cases h0 : (space.isTable 0).ieNext = 0
    · rw [if_pos h0] at hget
      rw [hget]
      dsimp only
      obtain ⟨space₁, kr, hgrow, hgrown, hmore⟩ :=
        h.ipcEntryGrowTable none tables sizes.num (by omega)
      rw [hgrow, Option.bind_eq_bind, Option.bind_some]
      dsimp only
      by_cases hkr : kr = .success
      · subst hkr
        have hlt := hmore rfl rfl
        rw [if_neg (not_not.mpr rfl)]
        obtain ⟨space', res, hrun, hres⟩ := ih hgrown.inv (by omega)
        refine ⟨space', res, hrun, ?_⟩
        cases res with
        | error kr => exact hres
        | ok named =>
          obtain ⟨name, p⟩ := named
          obtain ⟨hroom, hright, hindex, hne, hnew, hfast, hstore⟩ := hres
          refine ⟨?_, hright, hindex, hne, fun c => mt (hgrown.maps name c).mpr (hnew c),
            hfast.trans hgrown.fast, fun r => ?_⟩
          · rw [spaceWithRoom, if_neg (not_not.mpr h0), ipcEntryGrowTable_mono hgrow]
            exact hroom
          · obtain ⟨hinv, hholds, hup⟩ := hstore r
            exact ⟨hinv, hholds, fun m d => (hup m d).trans (by rw [hgrown.maps])⟩
      · rw [if_pos hkr]
        refine ⟨_, _, rfl, hkr, ?_⟩
        rcases ipcEntryGrowTable_code hgrow with rfl | rfl | rfl <;> decide
    · rw [if_neg h0] at hget
      obtain ⟨space', hget, hright, hindex, hfast⟩ := hget
      rw [hget]
      have hgot := h.ipcEntryGet hget ⟨machPortTypeReceive, none, 0, by decide⟩
      have hne : firstFreeName space ≠ headName := by
        intro heq
        obtain ⟨hi, hpos, -⟩ := hgot.2.1
        rw [heq] at hi
        exact hpos.ne hi
      refine ⟨_, _, rfl, ?_, hright, hindex, hne, hgot.2.2.2.1, hfast, fun r => ?_⟩
      · rw [spaceWithRoom, if_pos h0]
        rfl
      · obtain ⟨hinv, hholds, -, -, hup⟩ := h.ipcEntryGet hget r
        exact ⟨hinv, hholds, hup⟩

/-- `ipc_entry_alloc` succeeds if there is or can be room and all memory can be had. -/
theorem ipcEntryAlloc_ok {fuel : ℕ} {room : IpcSpace} (h : SpaceInv sizes space)
    (hroom : spaceWithRoom sizes fuel space = some room) :
    ∃ space' p, PortSpace.ipcEntryAlloc sizes (fun _ => true) fuel space =
      some (space', .ok (firstFreeName room, p)) := by
  induction fuel generalizing space with
  | zero => cases hroom
  | succ fuel ih =>
    rw [spaceWithRoom] at hroom
    rw [PortSpace.ipcEntryAlloc, if_neg (by simp [h.tree.isActive])]
    have hget := ipcEntryGet_eq space
    split at hroom
    · rename_i h0
      cases hroom
      rw [if_neg h0] at hget
      obtain ⟨space', hget, -⟩ := hget
      rw [hget]
      exact ⟨_, _, rfl⟩
    · rename_i h0
      rw [if_pos (not_not.mp h0)] at hget
      rw [hget]
      split at hroom
      · rename_i space₁ hgrow
        obtain ⟨space₂, kr, hgrow', hgrown, -⟩ := h.ipcEntryGrowTable none (fun _ => true)
          sizes.num (by omega)
        rw [hgrow] at hgrow'
        cases hgrow'
        dsimp only
        rw [hgrow, Option.bind_eq_bind, Option.bind_some]
        dsimp only
        rw [if_neg (not_not.mpr rfl)]
        exact ih hgrown.inv hroom
      · cases hroom

namespace PortSpace

variable {s s' : PortSpace} {right : MachPortRight} {memory : PortMemory}

/-- The contents of the entry of a new right. -/
def IsNew (right : MachPortRight) (name : MachPort) (objects : ℕ → Option NewObject)
    (c : BitVec 32 × Option ℕ) : Prop :=
  match right with
  | .receive => ∃ object, c = (machPortTypeReceive, some object) ∧
      objects object = some (.port 1 (ipcPortInit name))
  | .portSet => ∃ object, c = (machPortTypePortSet, some object) ∧
      objects object = some (.portSet 1 name)
  | .deadName => c.1 = machPortTypeDeadName ||| 1
  | _ => False

/-- What `ipc_entry_lookup` finds under a name. -/
def denotes (space : IpcSpace) (name : MachPort) : Option (BitVec 32 × Option ℕ) :=
  let (space, entry) := ipcEntryLookup space name
  entry.map space.content

/-- What the codes that `mach_port_allocate_name` returns say of the name. -/
structure CodeTrue (right : MachPortRight) (name : MachPort) (s s' : PortSpace)
    (kr : KernReturn) : Prop where
  /-- The name denoted nothing and denotes one right of the kind, all other names what they
  did. -/
  success : kr = .success → denotes s.space name = none ∧
    (∃ c, IsNew right name s'.objects c ∧ denotes s'.space name = some c) ∧
    (∃! p, s'.space.Holds name p) ∧ ∀ m ≠ name, denotes s'.space m = denotes s.space m
  /-- The name was in use, and everything is as it was. -/
  nameExists : kr = .nameExists → denotes s.space name ≠ none ∧
    (∀ m, denotes s'.space m = denotes s.space m) ∧ s'.objects = s.objects

/-- `mach_port_allocate_name` returns, whatever memory it gets, and the code is true. -/
def AllocatesName (sizes : IpcTableSizes) (right : MachPortRight) (name : MachPort)
    (s : PortSpace) : Prop :=
  ∀ memory : PortMemory, memory.Fresh s →
    ∃ s' kr, machPortAllocateName sizes right name memory s = some (s', kr) ∧
      CodeTrue right name s s' kr

/-- A code that is neither success nor `KERN_NAME_EXISTS` says nothing of the name. -/
theorem CodeTrue.of_other {kr : KernReturn} (h : kr ≠ .success ∧ kr ≠ .nameExists) :
    CodeTrue right name s s' kr :=
  ⟨fun hkr => absurd hkr h.1, fun hkr => absurd hkr h.2⟩

/-- A name is held by one entry. -/
theorem existsUnique_holds (h : SpaceInv sizes space) (hp : space.Holds name p) :
    ∃! p, space.Holds name p :=
  ⟨p, hp, fun _ hq => h.holds_unique hq hp⟩

section Denotes

variable {m : MachPort} {c : BitVec 32 × Option ℕ} (h : SpaceInv sizes space)
  (hfast : space.isFast = false)

include h hfast

theorem denotes_headName : denotes space headName = none := by
  rw [denotes, h.ipcEntryLookup_headName hfast]
  rfl

/-- Names other than that of the head are found where they are held. -/
theorem denotes_eq_some_iff (hne : name ≠ headName) :
    denotes space name = some c ↔ space.Maps name c := by
  obtain ⟨hre, hfound⟩ := h.ipcEntryLookup hfast name
  have hholds := hfound hne
  obtain ⟨tree, hspace, -, -⟩ := hre.shape
  unfold denotes
  generalize ipcEntryLookup space name = found at hholds hspace ⊢
  obtain ⟨space', entry⟩ := found
  dsimp only at hholds hspace ⊢
  have hcontent (q : IpcEntryPtr) : space'.content q = space.content q := by
    rw [hspace]
    cases q <;> rfl
  rw [Option.map_eq_some_iff]
  constructor
  · rintro ⟨q, hq, rfl⟩
    exact ⟨q, (hholds q).mp hq, (hcontent q).symm⟩
  · rintro ⟨q, hq, rfl⟩
    exact ⟨q, (hholds q).mpr hq, hcontent q⟩

theorem denotes_eq_none_iff (hne : name ≠ headName) :
    denotes space name = none ↔ ∀ c, ¬space.Maps name c := by
  rw [Option.eq_none_iff_forall_ne_some]
  exact forall_congr' fun c => not_congr (denotes_eq_some_iff h hfast hne)

/-- Lookups depend on what names denote only. -/
theorem denotes_congr (h' : SpaceInv sizes space') (hfast' : space'.isFast = false)
    (hmaps : ∀ c, space'.Maps m c ↔ space.Maps m c) : denotes space' m = denotes space m := by
  by_cases hne : m = headName
  · rw [hne, denotes_headName h hfast, denotes_headName h' hfast']
  · refine Option.ext fun c => ?_
    exact (denotes_eq_some_iff h' hfast' hne).trans
      ((hmaps c).trans (denotes_eq_some_iff h hfast hne).symm)

end Denotes

/-- What the codes say of the entries that hold names. -/
structure CodeMaps (sizes : IpcTableSizes) (right : MachPortRight) (name : MachPort)
    (s s' : PortSpace) (kr : KernReturn) : Prop where
  inv : SpaceInv sizes s'.space
  fast : s'.space.isFast = s.space.isFast
  success : kr = .success → (∀ c, ¬s.space.Maps name c) ∧
    (∃ c, IsNew right name s'.objects c ∧ Updated s.space s'.space name (some c)) ∧
    ∃! p, s'.space.Holds name p
  nameExists : kr = .nameExists → (∃ c, s.space.Maps name c) ∧
    (∀ m c, s'.space.Maps m c ↔ s.space.Maps m c) ∧ s'.objects = s.objects

section CodeMaps

variable {kr : KernReturn} (hcode : CodeMaps sizes right name s s' kr) (h : SpaceInv sizes s.space)
  (hfast : s.space.isFast = false)

include hcode h hfast

/-- The code is true of a name that lookups find. -/
theorem CodeMaps.codeTrue (hne : name ≠ headName) : CodeTrue right name s s' kr := by
  have hfast' : s'.space.isFast = false := hcode.fast.trans hfast
  constructor
  · intro hkr
    obtain ⟨hnone, ⟨c, hnew, hup⟩, hholds⟩ := hcode.success hkr
    refine ⟨(denotes_eq_none_iff h hfast hne).mpr hnone, ⟨c, hnew, ?_⟩, hholds, fun m hm => ?_⟩
    · exact (denotes_eq_some_iff hcode.inv hfast' hne).mpr ((hup name c).mpr (if_pos rfl ▸ rfl))
    · exact denotes_congr h hfast hcode.inv hfast' fun c => by rw [hup m c, if_neg hm]
  · intro hkr
    obtain ⟨⟨c, hmaps⟩, hsame, hobjects⟩ := hcode.nameExists hkr
    refine ⟨?_, fun m => denotes_congr h hfast hcode.inv hfast' (hsame m), hobjects⟩
    rw [(denotes_eq_some_iff h hfast hne).mpr hmaps]
    exact Option.some_ne_none c

/-- Neither code is true of the name of the head, which lookups do not find. -/
theorem CodeMaps.headName_not_codeTrue (hkr : kr = .success ∨ kr = .nameExists) :
    ¬CodeTrue right headName s s' kr := by
  intro htrue
  rcases hkr with hkr | hkr
  · obtain ⟨-, ⟨c, -, hc⟩, -⟩ := htrue.success hkr
    rw [denotes_headName hcode.inv (hcode.fast.trans hfast)] at hc
    cases hc
  · exact (htrue.nameExists hkr).1 (denotes_headName h hfast)

end CodeMaps

section

variable (h : SpaceInv sizes s.space)

include h

/-- `ipc_object_alloc_name`: an object under a name that denoted nothing. -/
theorem ipcObjectAllocName_spec (hname : machPortValid name)
    (hfresh : memory.Fresh s) {type : BitVec 32} {init : NewObject}
    (htype : ieBitsType type ≠ machPortTypeNone) (hbits : ieBitsRight type = type) :
    ∃ s' res, ipcObjectAllocName sizes type 0 name init memory s = some (s', res) ∧
      (memory.ioAlloc = none → res = .error .resourceShortage) ∧
      match res with
      | .ok object => SpaceInv sizes s'.space ∧ s'.space.isFast = s.space.isFast ∧
          (∀ c, ¬s.space.Maps name c) ∧ s'.objects object = some init ∧
          Updated s.space s'.space name (some (type, some object)) ∧ ∃! p, s'.space.Holds name p
      | .error kr => CodeMaps sizes right name s s' kr ∧ kr ≠ .success ∧
          (name = headName → s.space.isFast = false → memory.ioAlloc ≠ none →
            memory.iteAlloc ≠ none → kr = .nameExists) := by
  unfold ipcObjectAllocName
  cases hio : memory.ioAlloc with
  | none =>
    refine ⟨_, _, rfl, fun _ => rfl, ⟨h, rfl, nofun, nofun⟩, by decide, ?_⟩
    exact fun _ _ hne => absurd rfl hne
  | some object =>
    obtain ⟨space, res, hrun, halloc⟩ := h.ipcEntryAllocName hname hfresh.2 memory.tables
    have hnamed := allocNameLoop_named h (by have := h.tree.next_pos; simp; omega) hrun
    dsimp only
    rw [hrun, Option.bind_eq_bind, Option.bind_some]
    -- Freeing the object leaves the objects as they were.
    have hfree : ioFree (update s.objects object (some .cleared)) object = s.objects := by
      unfold ioFree
      rw [update_idem, ← hfresh.1 object hio, update_eq_self]
    cases res with
    | error kr =>
      obtain ⟨hfast, hinv, -⟩ := halloc
      refine ⟨_, _, rfl, nofun, ⟨hinv, hfast, fun hkr => absurd hkr hnamed.1,
        fun hkr => absurd hkr hnamed.2⟩, hnamed.1, ?_⟩
      rintro rfl hslow - hite
      obtain ⟨ite, hite⟩ := Option.ne_none_iff_exists'.mp hite
      rw [hite] at hrun
      obtain ⟨p, hok⟩ := allocNameLoop_headName h hslow hrun
      cases hok
    | ok p =>
      dsimp only
      rcases hnamed with ⟨hinv, hholds, hmaps⟩ | ⟨hnew, hright, hindex⟩
      · have hinUse : ipcRightInuse space p = true := by
          unfold ipcRightInuse
          simpa using hinv.inUse hholds
        rw [if_pos hinUse]
        refine ⟨_, _, rfl, nofun, ⟨hinv, halloc.1, nofun, fun _ => ⟨?_, hmaps, hfree⟩⟩, by decide,
          fun _ _ _ _ => rfl⟩
        exact ⟨_, (hmaps name _).mp ⟨p, hholds, rfl⟩⟩
      · have hunused : ¬ipcRightInuse space p = true := by
          have hnone : ieBitsType (space.entry p).ieBits = machPortTypeNone := by
            have hmask : ieBitsRightMask &&& ieBitsTypeMask = ieBitsTypeMask := by decide
            rw [ieBitsType, ← and_and_of_le hmask]
            change ieBitsRight (space.entry p).ieBits &&& ieBitsTypeMask = _
            rw [hright]
            decide
          unfold ipcRightInuse
          simpa using hnone
        rw [if_neg hunused]
        obtain ⟨hinv, hholds, hup⟩ := halloc.2 ⟨type, some object, 0, htype⟩
        have hfill : fillEntry space p (type ||| 0) (some object) =
            space.store p ⟨type, some object, 0, htype⟩ := by
          rw [← fillEntry_eq_store hright hindex htype hbits]
          exact congrArg (fillEntry space p · (some object)) BitVec.or_zero
        refine ⟨_, _, rfl, nofun, ?_⟩
        dsimp only
        rw [hfill]
        refine ⟨hinv, ?_, hnew, update_self .., ?_, existsUnique_holds hinv hholds⟩
        · rw [IpcSpace.store_isFast, halloc.1]
        · rwa [IpcRight.content, hbits] at hup

/-- A right that is allocated through `ipc_object_alloc_name` is under the chosen name. -/
theorem machPortAllocateName_object (hfast : s.space.isFast = false)
    (hname : machPortValid name) (hright : right = .receive ∨ right = .portSet)
    (hfresh : memory.Fresh s) :
    ∃ s' kr, machPortAllocateName sizes right name memory s = some (s', kr) ∧
      CodeMaps sizes right name s s' kr ∧ (memory.ioAlloc = none → kr = .resourceShortage) ∧
      (name = headName → memory.ioAlloc ≠ none → memory.iteAlloc ≠ none →
        kr = .success ∨ kr = .nameExists) := by
  unfold machPortAllocateName machPortAllocateFull
  rw [if_neg (by simp [hname]), if_neg (by simp [hfast]), if_neg (by simp),
    if_neg (by simp [qosTemplate])]
  rcases hright with rfl | rfl
  · obtain ⟨s', res, hrun, hio, hres⟩ := @ipcObjectAllocName_spec sizes name s .receive memory h
      hname hfresh machPortTypeReceive (.port 1 (ipcPortInit name)) (by decide) (by decide)
    have hrun : ipcPortAllocName sizes name memory s = some (s', res) := hrun
    simp only [if_true, hrun, Option.map_some]
    cases res with
    | error kr =>
      refine ⟨_, _, rfl, hres.1, fun hnone => ?_, fun hhead hio hite => ?_⟩
      · cases hio hnone
        rfl
      · exact .inr (hres.2.2 hhead hfast hio hite)
    | ok object =>
      obtain ⟨hinv, hslow, hnew, hobject, hup, hholds⟩ := hres
      have hconfigure : configurePort false none object s' = { s' with
          objects := update s'.objects object (some (.port 1 (ipcPortInit name))) } := by
        unfold configurePort
        rw [hobject]
        rfl
      refine ⟨_, _, rfl, ?_, fun hnone => ?_, fun _ _ _ => .inl rfl⟩
      · change CodeMaps sizes .receive name s (configurePort false none object s') .success
        rw [hconfigure]
        exact ⟨hinv, hslow, fun _ => ⟨hnew, ⟨_, ⟨object, rfl, update_self ..⟩, hup⟩, hholds⟩, nofun⟩
      · cases hio hnone
  · obtain ⟨s', res, hrun, hio, hres⟩ := @ipcObjectAllocName_spec sizes name s .portSet memory h
      hname hfresh machPortTypePortSet (.portSet 1 name) (by decide) (by decide)
    have hrun : ipcPsetAllocName sizes name memory s = some (s', res) := hrun
    simp only [if_true, hrun, Option.map_some]
    cases res with
    | error kr =>
      refine ⟨_, _, rfl, hres.1, fun hnone => ?_, fun hhead hio hite => ?_⟩
      · cases hio hnone
        rfl
      · exact .inr (hres.2.2 hhead hfast hio hite)
    | ok object =>
      obtain ⟨hinv, hslow, hnew, hobject, hup, hholds⟩ := hres
      refine ⟨_, _, rfl, ⟨hinv, hslow, fun _ => ⟨hnew, ⟨_, ⟨object, rfl, hobject⟩, hup⟩, hholds⟩,
        nofun⟩, fun hnone => ?_, fun _ _ _ => .inl rfl⟩
      cases hio hnone

/-- `ipc_object_alloc_dead` allocates the name that the free list has next. -/
theorem machPortAllocateName_dead (hfast : s.space.isFast = false)
    (hname : machPortValid name) (memory : PortMemory) :
    ∃ s' kr, machPortAllocateName sizes .deadName name memory s = some (s', kr) ∧
      (kr ≠ .success ∧ kr ≠ .nameExists ∨
        kr = .success ∧ ∃ next, next ≠ headName ∧
          (spaceWithRoom sizes (sizes.num + 1) s.space).map firstFreeName = some next ∧
          CodeMaps sizes .deadName next s s' kr) ∧
      (memory.tables = (fun _ => true) →
        (spaceWithRoom sizes (sizes.num + 1) s.space).isSome → kr = .success) := by
  obtain ⟨space, res, hrun, hres⟩ := @ipcEntryAlloc_spec sizes s.space h memory.tables
    (sizes.num + 1) (by have := h.tree.next_pos; omega)
  unfold machPortAllocateName machPortAllocateFull
  rw [if_neg (by simp [hname]), if_neg (by simp [hfast]), if_neg (by simp),
    if_neg (by simp [qosTemplate])]
  simp only [ipcObjectAllocDead, hrun, Option.bind_eq_bind, Option.bind_some]
  cases res with
  | error kr =>
    refine ⟨_, _, rfl, .inl hres, fun hall hsome => ?_⟩
    obtain ⟨room, hroom⟩ := Option.isSome_iff_exists.mp hsome
    obtain ⟨space', p, hok⟩ := ipcEntryAlloc_ok h hroom
    rw [hall, hok] at hrun
    cases hrun
  | ok named =>
    obtain ⟨next, p⟩ := named
    obtain ⟨hroom, hright, hindex, hne, hnew, hslow, hstore⟩ := hres
    have hinUse : ieBitsType (machPortTypeDeadName ||| 1) ≠ machPortTypeNone := by decide
    have hfill := @fillEntry_eq_store space p _ (space.entry p).ieObject hright hindex hinUse
      (by decide)
    obtain ⟨hinv, hholds, hup⟩ := hstore ⟨_, (space.entry p).ieObject, 0, hinUse⟩
    refine ⟨_, _, rfl, .inr ⟨rfl, next, hne, hroom, ?_⟩, fun _ _ => rfl⟩
    rw [hfill]
    refine ⟨hinv, ?_, fun _ => ⟨hnew, ⟨(machPortTypeDeadName ||| 1, (space.entry p).ieObject),
      rfl, ?_⟩, existsUnique_holds hinv hholds⟩, nofun⟩
    · exact (IpcSpace.store_isFast ..).trans hslow
    · have hbits : ieBitsRight (machPortTypeDeadName ||| 1) = machPortTypeDeadName ||| 1 := by
        decide
      rwa [IpcRight.content, hbits] at hup

/-- A port or a port set is allocated under any name that lookups find. -/
theorem allocatesName_object_iff (hfast : s.space.isFast = false) (hname : machPortValid name)
    (hright : right = .receive ∨ right = .portSet) :
    AllocatesName sizes right name s ↔ (name = headName → ∀ object, s.objects object ≠ none) := by
  constructor
  · rintro hall rfl object hfree
    obtain ⟨ite, hite⟩ := Infinite.exists_notMem_finset (addrs s.space.tentries).toFinset
    let memory : PortMemory := ⟨some object, some ite, fun _ => true⟩
    have hfresh : memory.Fresh s := by
      refine ⟨fun o ho => ?_, fun i hi => ?_⟩
      · cases ho
        exact hfree
      · cases hi
        simpa using hite
    obtain ⟨s', kr, hrun, htrue⟩ := hall memory hfresh
    obtain ⟨s'', kr', hrun', hcode, -, hkr⟩ :=
      machPortAllocateName_object h hfast hname hright hfresh
    obtain ⟨rfl, rfl⟩ := Prod.mk.inj (Option.some.inj (hrun.symm.trans hrun'))
    exact hcode.headName_not_codeTrue h hfast (hkr rfl nofun nofun) htrue
  · intro hhead memory hfresh
    obtain ⟨s', kr, hrun, hcode, hnone, -⟩ :=
      machPortAllocateName_object h hfast hname hright hfresh
    refine ⟨s', kr, hrun, ?_⟩
    by_cases hne : name = headName
    · have hio : memory.ioAlloc = none := by
        refine Option.eq_none_iff_forall_ne_some.mpr fun object ho => ?_
        exact hhead hne object (hfresh.1 object ho)
      rw [hnone hio]
      exact .of_other ⟨by decide, by decide⟩
    · exact hcode.codeTrue h hfast hne

/-- A dead name is allocated under the name that is asked for only by chance. -/
theorem allocatesName_dead_iff (hfast : s.space.isFast = false) (hname : machPortValid name) :
    AllocatesName sizes .deadName name s ↔
      ∀ room, spaceWithRoom sizes (sizes.num + 1) s.space = some room →
        firstFreeName room = name := by
  constructor
  · intro hall room hroom
    let memory : PortMemory := ⟨none, none, fun _ => true⟩
    obtain ⟨s', kr, hrun, htrue⟩ := hall memory ⟨nofun, nofun⟩
    obtain ⟨s'', kr', hrun', hres, hok⟩ := machPortAllocateName_dead h hfast hname memory
    obtain ⟨rfl, rfl⟩ := Prod.mk.inj (Option.some.inj (hrun.symm.trans hrun'))
    obtain rfl := hok rfl (by rw [hroom]; rfl)
    obtain ⟨hnone, ⟨c, -, hc⟩, -⟩ := htrue.success rfl
    obtain ⟨hbad, -⟩ | ⟨-, next, hnext, hfree, hcode⟩ := hres
    · exact absurd rfl hbad
    rw [hroom] at hfree
    obtain rfl : firstFreeName room = next := Option.some.inj hfree
    -- The chosen name denotes something, so it is the one that changed.
    by_contra hne
    have hsame := (hcode.codeTrue h hfast hnext).success rfl
    rw [hsame.2.2.2 name (Ne.symm hne), hnone] at hc
    cases hc
  · intro hnext memory _
    obtain ⟨s', kr, hrun, hres, -⟩ := machPortAllocateName_dead h hfast hname memory
    refine ⟨s', kr, hrun, ?_⟩
    rcases hres with hother | ⟨rfl, next, hne, hroom, hcode⟩
    · exact .of_other hother
    · obtain ⟨room, hsome, rfl⟩ := Option.map_eq_some_iff.mp hroom
      rw [hnext room hsome] at hcode hne
      exact hcode.codeTrue h hfast hne

end

/-- **A right is allocated under the chosen name, unless it is a dead name or the name is that of
the head of the free list.** In every space that is not fast, for every valid name and whatever
memory there is, the codes of `mach_port_allocate_name` are true of what `ipc_entry_lookup`
finds if and only if, for a dead name, the space can have no room for another name or the name
happens to be the one that the first free entry gets, and for the others the name is not that
of the head, or there is no memory for an object. -/
theorem allocatesName_iff (h : SpaceInv sizes s.space) (hfast : s.space.isFast = false)
    (hname : machPortValid name)
    (hright : right = .receive ∨ right = .portSet ∨ right = .deadName) :
    AllocatesName sizes right name s ↔
      if right = .deadName then
        ∀ room, spaceWithRoom sizes (sizes.num + 1) s.space = some room →
          firstFreeName room = name
      else name = headName → ∀ object, s.objects object ≠ none := by
  rcases or_assoc.mpr hright with hobject | rfl
  · have hne : right ≠ .deadName := by
      rintro rfl
      rcases hobject with h | h <;> cases h
    rw [if_neg hne]
    exact allocatesName_object_iff h hfast hname hobject
  · rw [if_pos rfl]
    exact allocatesName_dead_iff h hfast hname

/-- A new space. -/
def newSpace : PortSpace := ⟨ipcSpaceCreate ipcTableEntries 0 false, fun _ => none⟩

theorem allocatesName_newSpace : AllocatesName ipcTableEntries .receive 0x203 newSpace :=
  (allocatesName_iff (spaceInv_create (by decide)) rfl (by decide) (.inl rfl)).mpr
    fun hhead => absurd hhead (by decide)

/-- A dead name that is asked for under a free name of a new space gets another name. -/
theorem deadName_elsewhere : ¬AllocatesName ipcTableEntries .deadName 0x203 newSpace := by
  intro hall
  have hexec : (machPortAllocateName ipcTableEntries .deadName 0x203 ⟨none, none, fun _ => true⟩
      newSpace).map (fun r => (r.2, denotes r.1.space 0x203)) = some (.success, none) := by
    decide +kernel
  obtain ⟨s', kr, hrun, htrue⟩ := hall ⟨none, none, fun _ => true⟩ ⟨nofun, nofun⟩
  rw [hrun, Option.map_some, Option.some.injEq, Prod.mk.injEq] at hexec
  obtain ⟨-, ⟨c, -, hc⟩, -⟩ := htrue.success hexec.1
  rw [hexec.2] at hc
  cases hc

end PortSpace

end MachVirtuTerm
