import MachVirtuTerm.Vm.MapCopyOverwrite

/-!
# Copying in an entry list

A call of `vm_map_copyin_common` step by step. For each entry of the source it checks the
protection and copies the object, with the map unlocked where that may block; then it
verifies that the map has not substantially changed. The source is destroyed at the end
with a call of `vm_map_delete`.
-/

namespace MachVirtuTerm

/-- The arguments of a call. -/
structure CopyinCall where
  srcAddr : VmOffset
  len : VmOffset
  srcDestroy : Bool
  useMaxprot : Bool
  /-- `src_map == kernel_map`. -/
  kernelMap : Bool
  deriving DecidableEq

/-- `src_start`, where the region starts. -/
def CopyinCall.srcStart (call : CopyinCall) : VmOffset := truncPage call.srcAddr

def CopyinCall.srcEnd (call : CopyinCall) : VmOffset := roundPage (call.srcAddr + call.len)

/-- The call of `vm_map_delete`. -/
def CopyinCall.delete (call : CopyinCall) : DeleteCall :=
  ⟨truncPage call.srcAddr, call.srcEnd, ⟨call.kernelMap, false, false⟩⟩

/-- The region can be read. -/
def VmMapEntry.Readable (entry : VmMapEntry) (useMaxprot : Bool) : Prop :=
  (entry.protection &&& vmProtRead ≠ 0 ∨ useMaxprot) ∧ entry.maxProtection &&& vmProtRead ≠ 0

instance (entry : VmMapEntry) (useMaxprot : Bool) : Decidable (entry.Readable useMaxprot) :=
  inferInstanceAs (Decidable (_ ∧ _))

/-- `vm_map_entry_copy`. -/
def VmMapEntry.copy (entry : VmMapEntry) : VmMapEntry :=
  { entry with
    isShared := false
    needsWakeup := false
    inTransition := false
    wiredCount := 0
    userWiredCount := 0 }

/-- The integer value of a comparison. -/
def comparison (b : Bool) : VmProt := if b then 1 else 0

/-- The check of the protection after the map was unlocked: `==` binds stronger than `&`. -/
def VmMapEntry.recheckFails (entry : VmMapEntry) (useMaxprot : Bool) : Bool :=
  (entry.protection &&& comparison (vmProtRead = 0) ≠ 0 && !useMaxprot) ||
    entry.maxProtection &&& comparison (vmProtRead = 0) ≠ 0

/-- The local variables of a call while an entry is copied. -/
structure Copying where
  srcStart : VmOffset
  srcSize : VmOffset
  srcObject : Option ℕ
  srcOffset : VmOffset
  wasWired : Bool
  newEntry : VmMapEntry
  copyEntries : List VmMapEntry
  deriving DecidableEq

/-- A copy that ends where the entry it is of ends now. -/
def Copying.shrink (c : Copying) (entry : VmMapEntry) : Copying :=
  if entry.vmeEnd < c.newEntry.vmeEnd then
    { c with
      srcSize := entry.vmeEnd - c.srcStart
      newEntry := { c.newEntry with vmeEnd := entry.vmeEnd } }
  else c

@[simp] theorem Copying.shrink_srcObject (c : Copying) (entry : VmMapEntry) :
    (c.shrink entry).srcObject = c.srcObject := by
  unfold shrink
  split <;> rfl

@[simp] theorem Copying.shrink_srcOffset (c : Copying) (entry : VmMapEntry) :
    (c.shrink entry).srcOffset = c.srcOffset := by
  unfold shrink
  split <;> rfl

/-- Where a call is. -/
inductive CopyinPc
  | enter
  /-- `vm_map_copy_entry_create`, with the map unlocked. -/
  | newEntry (srcStart : VmOffset) (copyEntries : List VmMapEntry) (version : BitVec 32)
  /-- The loop through the entries, with a new entry. -/
  | loop (srcStart : VmOffset) (copyEntries : List VmMapEntry)
  | restartCopy (c : Copying)
  /-- `vm_object_copy_slowly` or `vm_object_copy_strategically`, with the map unlocked. -/
  | copying (c : Copying) (version : BitVec 32)
  /-- The call of `vm_map_delete`. -/
  | destroy (copyEntries : List VmMapEntry) (pc : DeletePc)
  | returned (kr : KernReturn) (copyEntries : List VmMapEntry)
  deriving DecidableEq

/-- What `vm_object_copy_slowly` or `vm_object_copy_strategically` returns. -/
inductive ObjectCopy
  | copied (object : Option ℕ) (offset : VmOffset) (needsCopy : Bool)
  /-- `KERN_MEMORY_RESTART_COPY`. -/
  | restart
  | failed (kr : KernReturn)
  deriving DecidableEq

/-- The copy of an object fails. -/
def ObjectCopy.fails : ObjectCopy → Bool
  | .failed _ => true
  | _ => false

/-- What the calls of a routine to other modules return, for a step. -/
structure CopyinOracle where
  /-- `object->internal`. -/
  internal : ℕ → Bool
  /-- Whether `vm_object_copy_quickly` copies an object, and whether then the source and the
  copy need to be copied. -/
  quickly : Option (Bool × Bool)
  copy : ObjectCopy
  map : MapOracle

/-- What happens next. -/
inductive CopyinAction
  | run (oracle : CopyinOracle)
  /-- Others have the lock for a while and leave these entries. -/
  | others (entries : List VmMapEntry)

/-- A map and a call of `vm_map_copyin_common`. -/
abbrev CopyinState := MapState CopyinPc

namespace CopyinState

variable (s : CopyinState)

/-- The version of the map that a call, or its call of `vm_map_delete`, has saved. -/
def version : Option (BitVec 32) :=
  match s.pc with
  | .newEntry _ _ version | .copying _ version => some version
  | .destroy _ (.faultUnwire _) => some s.lastTimestamp
  | _ => none

/-- `RETURN`. -/
def ret (kr : KernReturn) : CopyinState :=
  { s.unlock with pc := .returned kr [] }

/-- A lookup, the clip there, and the loop from there on. -/
def lookupClip (srcStart : VmOffset) (copyEntries : List VmMapEntry) : CopyinState :=
  match vmMapLookupEntry s.entries srcStart with
  | (true, before, entry :: after) =>
    let (before, entry) := vmMapClipStart before entry srcStart
    { s with
      before
      after := entry :: after
      pc := .loop srcStart copyEntries }
  | _ => ret s .invalidAddress

variable (call : CopyinCall)

/-- The beginning, up to the loop. -/
def enterStep : CopyinState :=
  if call.len = 0 then { s with pc := .returned .success [] }
  else if call.srcEnd ≤ call.srcStart ∧ (call.srcEnd < call.srcStart ∨ call.srcStart ≠ 0) then
    { s with pc := .returned .invalidAddress [] }
  else lookupClip s.lock call.srcStart []

/-- What follows `vm_map_copy_entry_create`. -/
def newEntryStep (srcStart : VmOffset) (copyEntries : List VmMapEntry)
    (version : BitVec 32) : CopyinState :=
  let s := s.lock
  if version + 1 ≠ s.timestamp then lookupClip s srcStart copyEntries
  else { s with pc := .loop srcStart copyEntries }

variable (c : Copying)

/-- `CopySuccessful`, at the entry that was copied. -/
def successStep (entry : VmMapEntry) (after : List VmMapEntry) : Option CopyinState :=
  let copyEntries := c.copyEntries ++ [c.newEntry]
  let srcStart := c.newEntry.vmeEnd
  let s := { s with after := entry :: after }
  if srcStart ≥ call.srcEnd ∧ call.srcEnd ≠ 0 then
    if call.srcDestroy then
      some { s with
        needWakeup := false
        lastTimestamp := ~~~0
        pc := .destroy copyEntries .lookup }
    else some { s.unlock with pc := .returned .success copyEntries }
  else
    match after with
    | next :: _ =>
      if next.vmeStart ≠ srcStart then some (ret s .invalidAddress)
      else some { s.advance.unlock with pc := .newEntry srcStart copyEntries s.timestamp }
    | [] => if s.minOffset ≠ srcStart then some (ret s .invalidAddress) else none

/-- `vm_object_copy_quickly` of the object of an entry. -/
def copyQuickly (oracle : CopyinOracle) (object : Option ℕ) : Option (Bool × Bool) :=
  match object with
  | none => some (false, false)
  | some _ => oracle.quickly

/-- `RestartCopy`, up to where the map is unlocked or the copy has succeeded. -/
def restartCopyStep (oracle : CopyinOracle) (c : Copying) : Option (CopyinState × List CopyEvent) :=
  match s.after with
  | [] => none
  | entry :: after =>
    match if c.wasWired then none else copyQuickly oracle c.newEntry.object with
    | some (srcNeedsCopy, newEntryNeedsCopy) =>
      let entry := { entry with needsCopy := entry.needsCopy || srcNeedsCopy }
      let c := { c with newEntry := { c.newEntry with needsCopy := newEntryNeedsCopy } }
      (s.successStep call c entry after).map (·, [.accepted entry c.newEntry])
    | none =>
      let c := { c with newEntry := { c.newEntry with needsCopy := false } }
      c.srcObject.map fun _ => ({ s.unlock with pc := .copying c s.timestamp }, [])

/-- The loop through the entries, for one entry. -/
def loopStep (oracle : CopyinOracle) (srcStart : VmOffset)
    (copyEntries : List VmMapEntry) : Option (CopyinState × List CopyEvent) :=
  match s.after with
  | [] => none
  | entry :: after =>
    if ¬entry.Readable call.useMaxprot then some (ret s .protectionFailure, [])
    else
      let (entry, after) := vmMapClipEnd entry after call.srcEnd
      let c : Copying :=
        { srcStart
          srcSize := entry.vmeEnd - srcStart
          srcObject := entry.object
          srcOffset := entry.offset
          wasWired := entry.wiredCount ≠ 0
          newEntry := entry.copy
          copyEntries }
      if call.srcDestroy ∧ entry.object.all oracle.internal then
        (s.successStep call c entry after).map (·, [.accepted entry c.newEntry])
      else some ({ s with
        after := entry :: after
        pc := .restartCopy c }, [])

/-- `VerificationSuccessful`, at the entry that was copied. -/
def verifiedStep (restart : Bool) : Option (CopyinState × List CopyEvent) :=
  match s.after with
  | [] => none
  | entry :: after =>
    if restart then some ({ s with pc := .restartCopy c }, [])
    else (s.successStep call c entry after).map (·, [.accepted entry c.newEntry])

/-- What follows the copy of an object: the verification that the map has not changed. -/
def copiedStep (version : BitVec 32) (restart : Bool) : Option (CopyinState × List CopyEvent) :=
  let s := s.lock
  if version + 1 = s.timestamp then verifiedStep s call c restart
  else
    match vmMapLookupEntry s.entries c.srcStart with
    | (true, before, entry :: after) =>
      let (before, entry) := vmMapClipStart before entry c.srcStart
      let s := { s with
        before
        after := entry :: after }
      let failed := { s with pc := CopyinPc.loop c.srcStart c.copyEntries }
      if entry.recheckFails call.useMaxprot then some (failed, [])
      else
        let c := c.shrink entry
        if entry.object ≠ c.srcObject ∨ entry.offset ≠ c.srcOffset then some (failed, [])
        else verifiedStep s call c restart
    | _ => some (ret s .invalidAddress, [])

/-- The new entry with the object that was copied; a copy of wired memory starts at 0. -/
def Copied (object : Option ℕ) (offset : VmOffset) (needsCopy : Bool) : Copying :=
  { c with
    newEntry := { c.newEntry with
      object
      offset := if c.wasWired then 0 else offset
      needsCopy := !c.wasWired && needsCopy } }

/-- The copy of an object returns. -/
def copyingStep (version : BitVec 32) : ObjectCopy → Option (CopyinState × List CopyEvent)
  | .copied object offset needsCopy =>
    s.copiedStep call (Copied c object offset needsCopy) version false
  | .restart => s.copiedStep call c version true
  | .failed kr => some (ret s.lock kr, [])

/-- The call of `vm_map_delete` goes on, or its caller returns after it. -/
def destroyStep (oracle : MapOracle) (copyEntries : List VmMapEntry) : DeletePc → Option CopyinState
  | .returned _ => some { s.unlock with pc := .returned .success copyEntries }
  | pc => (DeleteState.step (s.goto pc) call.delete (.run oracle)).map fun (s, _) =>
      s.goto (.destroy copyEntries s.pc)

/-- One step. -/
def step (s : CopyinState) : CopyinAction → Option (CopyinState × List CopyEvent)
  | .run oracle =>
    match s.pc with
    | .enter => some (s.enterStep call, [])
    | .newEntry srcStart copyEntries version =>
      some (s.newEntryStep srcStart copyEntries version, [])
    | .loop srcStart copyEntries => s.loopStep call oracle srcStart copyEntries
    | .restartCopy c => s.restartCopyStep call oracle c
    | .copying c version => s.copyingStep call c version oracle.copy
    | .destroy copyEntries pc => (s.destroyStep call oracle.map copyEntries pc).map (·, [])
    | .returned _ _ => none
  | .others entries => (s.others [] entries).map (·, [])

end CopyinState

end MachVirtuTerm
