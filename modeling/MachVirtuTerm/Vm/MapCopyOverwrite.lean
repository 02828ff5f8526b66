import MachVirtuTerm.Mach.VmParam
import MachVirtuTerm.Vm.MapState

/-!
# Overwriting with a copy

A call of `vm_map_copy_overwrite` on an entry list, step by step: the pass that checks the
destination, and the one that replaces or copies, entry by entry where source and
destination are aligned and page by page where they are not. The map is unlocked while
`vm_fault_copy` gets the pages of a part; it verifies the version of the map before it
writes each of them.
-/

namespace MachVirtuTerm

def vmProtRead : VmProt := 1

def vmProtWrite : VmProt := 2

/-- The entry can be written. -/
def VmMapEntry.Writable (entry : VmMapEntry) : Prop := entry.protection &&& vmProtWrite ≠ 0

instance (entry : VmMapEntry) : Decidable entry.Writable := inferInstanceAs (Decidable (_ ≠ _))

/-- A `vm_map_copy_t` that is an entry list. -/
structure VmMapCopy where
  offset : VmOffset
  size : VmOffset
  entries : List VmMapEntry
  deriving DecidableEq

/-- What a call that copies does to the bytes of an entry. -/
inductive CopyEvent
  /-- Bytes are written at an address of the map, into an object. -/
  | wrote (address size : VmOffset) (object : ℕ) (offset : VmOffset)
  /-- An entry gets the object of the copy in place of its own. -/
  | replaced (entry : VmMapEntry)
  /-- The copy of an entry becomes part of the result. -/
  | accepted (entry newEntry : VmMapEntry)
  deriving DecidableEq

/-- How a page of the destination and one of the source are found. -/
inductive PageFault
  /-- Both; the copy object of the destination may have changed meanwhile. -/
  | found (copyChanged : Bool)
  | failed (kr : KernReturn)
  deriving DecidableEq

/-- The arguments and local variables of `vm_fault_copy`, which copies to an address of the
destination. -/
structure FaultCopy where
  address : VmOffset
  srcOffset : VmOffset
  copySize : VmOffset
  amountLeft : VmOffset
  dstObject : ℕ
  dstOffset : VmOffset
  version : BitVec 32
  deriving DecidableEq

/-- What one round of `vm_fault_copy` leads to. -/
inductive FaultCopyStep
  | more (x : FaultCopy)
  /-- It returns, with the size that was copied. -/
  | returned (kr : KernReturn) (copySize : VmOffset)
  deriving DecidableEq

namespace FaultCopy

/-- `part_size`: what is copied of a page. -/
def partSize (x : FaultCopy) : VmOffset :=
  if ¬PageAligned x.srcOffset ∨ ¬PageAligned x.dstOffset ∨ ¬PageAligned x.amountLeft then
    let srcPo := x.srcOffset - truncPage x.srcOffset
    let dstPo := x.dstOffset - truncPage x.dstOffset
    let partSize := if dstPo > srcPo then pageMask + 1 - dstPo else pageMask + 1 - srcPo
    if partSize > x.amountLeft then x.amountLeft else partSize
  else pageMask + 1

/-- One round of the loop through the pages. -/
def step (x : FaultCopy) (timestamp : BitVec 32) : PageFault → FaultCopyStep × List CopyEvent
  | .failed kr => (.returned kr 0, [])
  | .found copyChanged =>
    if timestamp ≠ x.version ∨ copyChanged then (.returned .success (x.copySize - x.amountLeft), [])
    else
      let rest := { x with
        address := x.address + x.partSize
        srcOffset := x.srcOffset + x.partSize
        amountLeft := x.amountLeft - x.partSize
        dstOffset := x.dstOffset + x.partSize }
      (if rest.amountLeft > 0 then .more rest else .returned .success (x.copySize - rest.amountLeft),
        [.wrote x.address x.partSize x.dstObject x.dstOffset])

end FaultCopy

/-- The local variables of `vm_map_copy_overwrite_unaligned`. -/
structure Unaligned where
  start : VmOffset
  srcOffset : VmOffset
  amountLeft : VmOffset
  copyEntries : List VmMapEntry
  deriving DecidableEq

/-- After a part was copied. An entry of the copy that is all done is disposed of. -/
def Unaligned.advance (u : Unaligned) (copyEntry : VmMapEntry) (rest : List VmMapEntry)
    (copySize : VmOffset) : Unaligned :=
  if copyEntry.vmeStart + (u.srcOffset + copySize) = copyEntry.vmeEnd ∨
      u.amountLeft - copySize = 0 then
    ⟨u.start + copySize, 0, u.amountLeft - copySize, rest⟩
  else ⟨u.start + copySize, u.srcOffset + copySize, u.amountLeft - copySize, u.copyEntries⟩

/-- Where a call is. -/
inductive OverwritePc
  /-- `start_pass_1`. -/
  | enter (dstAddr : VmOffset) (copy : VmMapCopy)
  /-- The loop of `vm_map_copy_overwrite_aligned`. -/
  | aligned (start : VmOffset) (copyEntries : List VmMapEntry)
  /-- Its call of `vm_fault_copy`, with the map unlocked. -/
  | alignedCopy (start : VmOffset) (copyEntries : List VmMapEntry) (x : FaultCopy)
  /-- After that call, of a part copied with a version of the map. -/
  | alignedCopied (start : VmOffset) (copyEntries : List VmMapEntry) (version : BitVec 32)
    (copySize : VmOffset)
  /-- The loop of `vm_map_copy_overwrite_unaligned`. -/
  | unaligned (u : Unaligned)
  /-- Its call of `vm_fault_copy`, with the map unlocked. -/
  | unalignedCopy (u : Unaligned) (entryEnd : VmOffset) (x : FaultCopy)
  /-- After that call, of a part copied with a version of the map. -/
  | unalignedCopied (u : Unaligned) (entryEnd : VmOffset) (version : BitVec 32)
    (copySize : VmOffset)
  /-- `RetryLookup`, with the map unlocked. -/
  | retryLookup (u : Unaligned)
  | returned (kr : KernReturn)
  deriving DecidableEq

/-- The version of the map that a call has saved. -/
def OverwritePc.version : OverwritePc → Option (BitVec 32)
  | .alignedCopy _ _ x | .unalignedCopy _ _ x => some x.version
  | .alignedCopied _ _ version _ | .unalignedCopied _ _ version _ => some version
  | _ => none

/-- What the calls of a routine to other modules return, for a step. -/
structure OverwriteOracle where
  /-- `object->internal`. -/
  internal : ℕ → Bool
  /-- The object that `vm_object_allocate` or `vm_object_shadow` makes. -/
  object : ℕ
  /-- Whether `vm_object_shadow` makes a new object. -/
  shadows : Bool
  /-- Whether `vm_map_lock_read_to_write` keeps the lock. -/
  upgrades : Bool
  fault : PageFault

/-- What happens next. -/
inductive OverwriteAction
  | run (oracle : OverwriteOracle)
  /-- Others have the lock for a while and leave these entries. -/
  | others (entries : List VmMapEntry)

/-- A map and a call of `vm_map_copy_overwrite`. -/
abbrev OverwriteState := MapState OverwritePc

/-- What the first pass finds. -/
inductive PassOne
  | ok
  | failed (kr : KernReturn)
  /-- An entry is in transition; these are the entries with the mark for its wakeup. -/
  | wait (entries : List VmMapEntry)
  deriving DecidableEq

/-- The loop of the first pass. -/
def passOne (dstEnd : VmOffset) (before : List VmMapEntry) : List VmMapEntry → PassOne
  | [] => .failed .invalidAddress
  | entry :: after =>
    if ¬entry.Writable then .failed .protectionFailure
    else if entry.inTransition then .wait (before ++ { entry with needsWakeup := true } :: after)
    else if dstEnd ≤ entry.vmeEnd then .ok
    else if after.head?.all fun next => next.vmeStart ≠ entry.vmeEnd then
      .failed .invalidAddress
    else passOne dstEnd (before ++ [entry]) after

/-- Whether the virtual copy can be used. -/
def aligned (dstAddr : VmOffset) (copy : VmMapCopy) : Bool :=
  PageAligned copy.size ∧ PageAligned copy.offset ∧ PageAligned dstAddr

def dstEnd (dstAddr : VmOffset) (copy : VmMapCopy) : VmOffset :=
  if aligned dstAddr copy then dstAddr + copy.size else roundPage (dstAddr + copy.size)

/-- `vm_object_shadow` on the object of an entry. -/
def VmMapEntry.shadow (entry : VmMapEntry) (shadows : Bool) (object : ℕ) : VmMapEntry :=
  if shadows then
    { entry with
      object := some object
      offset := 0
      needsCopy := false }
  else { entry with needsCopy := false }

/-- The clip of an entry to a size. -/
def clipToSize (entry : VmMapEntry) (after : List VmMapEntry) (size : VmOffset) :
    VmMapEntry × List VmMapEntry :=
  if size < entry.vmeEnd - entry.vmeStart then vmMapClipEnd entry after (entry.vmeStart + size)
  else (entry, after)

/-- The entries of a copy without the region that was copied. -/
def disposeCopied (copyEntries : List VmMapEntry) (copySize : VmOffset) : List VmMapEntry :=
  match copyEntries with
  | copyEntry :: rest =>
    if copySize ≠ 0 then (vmMapClipEnd copyEntry rest (copyEntry.vmeStart + copySize)).2
    else copyEntry :: rest
  | [] => []

/-- The size that can be copied before the next entry of the destination or of the source. -/
def limitSize (dstSize srcSize amountLeft : VmOffset) : VmOffset :=
  let copySize := if dstSize < srcSize then dstSize else srcSize
  if copySize > amountLeft then amountLeft else copySize

namespace OverwriteState

variable (s : OverwriteState)

/-- The call returns. -/
def ret (kr : KernReturn) : OverwriteState :=
  { s.unlock with pc := .returned kr }

/-- The first pass. -/
def enterStep (dstAddr : VmOffset) (copy : VmMapCopy) : OverwriteState :=
  if copy.size = 0 then ret s .success
  else
    let s := s.lock
    match vmMapLookupEntry s.entries dstAddr with
    | (true, before, entry :: after) =>
      let (before, entry) :=
        if aligned dstAddr copy then vmMapClipStart before entry dstAddr else (before, entry)
      let s := { s with
        before
        after := entry :: after }
      match passOne (dstEnd dstAddr copy) before (entry :: after) with
      | .ok =>
        if aligned dstAddr copy then { s with pc := .aligned dstAddr copy.entries }
        else
          { s with
            pc := .unaligned
              ⟨dstAddr, copy.offset - truncPage copy.offset, copy.size, copy.entries⟩ }
      | .failed kr => ret s kr
      | .wait entries =>
        { s.unlock with
          before := []
          after := entries
          pc := .enter dstAddr copy }
    | _ => ret s .invalidAddress

variable (oracle : OverwriteOracle)

/-- The loop of `vm_map_copy_overwrite_aligned`, for one entry. -/
def alignedStep (start : VmOffset)
    (copyEntries : List VmMapEntry) : Option (OverwriteState × List CopyEvent) :=
  match copyEntries, s.after with
  | [], _ => some (ret s .success, [])
  | _ :: _, [] => if s.minOffset ≠ start then some (ret s .invalidAddress, []) else none
  | copyEntry :: rest, entry :: after =>
    if entry.vmeStart ≠ start then some (ret s .invalidAddress, [])
    else if ¬entry.Writable then some (ret s .protectionFailure, [])
    else
      let (entry, after) := clipToSize entry after (copyEntry.vmeEnd - copyEntry.vmeStart)
      let size := entry.vmeEnd - entry.vmeStart
      let (copyEntry, rest) := clipToSize copyEntry rest size
      if (!entry.isShared && entry.object.all oracle.internal) || entry.needsCopy then
        if entry.object = copyEntry.object ∧ entry.offset = copyEntry.offset then
          some ({ s with
            before := s.before ++ [entry]
            after
            pc := .aligned entry.vmeEnd rest }, [])
        else
          let copied := { entry with
            object := copyEntry.object
            offset := copyEntry.offset
            needsCopy := copyEntry.needsCopy
            wiredCount := 0
            userWiredCount := 0 }
          some ({ s with
            before := s.before ++ [copied]
            after
            pc := .aligned entry.vmeEnd rest }, [.replaced entry])
      else
        entry.object.map fun dstObject =>
          ({ s.unlock with
            after := entry :: after
            pc := .alignedCopy start (copyEntry :: rest)
              ⟨start, copyEntry.offset, size, size, dstObject, entry.offset, s.timestamp⟩ }, [])

/-- What follows `vm_fault_copy` there. -/
def alignedCopiedStep (start : VmOffset) (copyEntries : List VmMapEntry)
    (version : BitVec 32) (copySize : VmOffset) : OverwriteState :=
  let copyEntries := disposeCopied copyEntries copySize
  let start := start + copySize
  let s := s.lock
  if version + 1 = s.timestamp then
    match s.after with
    | entry :: after =>
      let (entry, after) := vmMapClipEnd entry after start
      { s with
        before := s.before ++ [entry]
        after
        pc := .aligned start copyEntries }
    | [] => { s with pc := .aligned start copyEntries }
  else
    match vmMapLookupEntry s.entries start with
    | (true, before, entry :: after) =>
      let (before, entry) := vmMapClipStart before entry start
      { s with
        before
        after := entry :: after
        pc := .aligned start copyEntries }
    | _ => ret s .invalidAddress

variable (u : Unaligned)

/-- `vm_map_lock_read_to_write` and a change of the entry at the place; without the lock the
place is looked up again. -/
def upgrade (entry : VmMapEntry) (after : List VmMapEntry) : OverwriteState :=
  if oracle.upgrades then
    { s with
      after := entry :: after
      timestamp := s.timestamp + 1 }
  else { s.unlock with pc := .retryLookup u }

/-- The loop of `vm_map_copy_overwrite_unaligned`, up to `vm_fault_copy`; every upgrade of
the lock is a step. -/
def unalignedStep : Option OverwriteState :=
  match u.copyEntries, s.after with
  | copyEntry :: _, entry :: after =>
    if entry.needsCopy ∧ entry.Writable then
      some (upgrade s oracle u (entry.shadow oracle.shadows oracle.object) after)
    else
      match entry.object with
      | none =>
        let entry := { entry with
          object := some oracle.object
          offset := 0 }
        some (upgrade s oracle u entry after)
      | some dstObject =>
        let dstOffset := u.start - entry.vmeStart
        let dstSize := entry.vmeEnd - u.start
        let srcSize := copyEntry.vmeEnd - (copyEntry.vmeStart + u.srcOffset)
        let copySize := limitSize dstSize srcSize u.amountLeft
        some { s.unlock with
          pc := .unalignedCopy u entry.vmeEnd
            ⟨u.start, copyEntry.offset + u.srcOffset, copySize, copySize, dstObject,
              entry.offset + dstOffset, s.timestamp⟩ }
  | _, _ => none

/-- `vm_map_lock_read` and a lookup, to work on from there. -/
def retryLookupStep : OverwriteState :=
  match vmMapLookupEntry s.entries u.start with
  | (true, before, after) =>
    { s with
      before
      after
      locked := true
      pc := .unaligned u }
  | (false, _, _) => ret s .invalidAddress

/-- What follows `vm_fault_copy` there. -/
def unalignedCopiedStep (entryEnd : VmOffset) (version : BitVec 32)
    (copySize : VmOffset) : Option OverwriteState :=
  match u.copyEntries with
  | [] => none
  | copyEntry :: rest =>
    let u := u.advance copyEntry rest copySize
    if u.copyEntries = [] ∧ u.amountLeft ≠ 0 then some (ret s .invalidAddress)
    else if u.amountLeft = 0 then some (ret s .success)
    else if version = s.timestamp then
      let s := { s with locked := true }
      if u.start = entryEnd then
        match s.after with
        | entry :: next :: after =>
          if next.vmeStart = u.start then
            some { s with
              before := s.before ++ [entry]
              after := next :: after
              pc := .unaligned u }
          else some (ret s .invalidAddress)
        | _ => if s.minOffset ≠ u.start then some (ret s .invalidAddress) else none
      else some { s with pc := .unaligned u }
    else some (retryLookupStep s u)

/-- A round of `vm_fault_copy`, and where the call is if that goes on and if it succeeds. -/
def faultCopyStep (x : FaultCopy) (fault : PageFault)
    (copying : FaultCopy → OverwritePc) (copied : VmOffset → OverwritePc) :
    OverwriteState × List CopyEvent :=
  match x.step s.timestamp fault with
  | (.more x, events) => ({ s with pc := copying x }, events)
  | (.returned .success copySize, events) => ({ s with pc := copied copySize }, events)
  | (.returned kr _, events) => (ret s kr, events)

/-- One step. -/
def step : OverwriteAction → Option (OverwriteState × List CopyEvent)
  | .run oracle =>
    match s.pc with
    | .enter dstAddr copy => some (s.enterStep dstAddr copy, [])
    | .aligned start copyEntries => s.alignedStep oracle start copyEntries
    | .alignedCopy start copyEntries x =>
      some (faultCopyStep s x oracle.fault (.alignedCopy start copyEntries)
        (.alignedCopied start copyEntries x.version))
    | .alignedCopied start copyEntries version copySize =>
      some (s.alignedCopiedStep start copyEntries version copySize, [])
    | .unaligned u => (s.unalignedStep oracle u).map (·, [])
    | .unalignedCopy u entryEnd x =>
      some (faultCopyStep s x oracle.fault (.unalignedCopy u entryEnd)
        (.unalignedCopied u entryEnd x.version))
    | .unalignedCopied u entryEnd version copySize =>
      (s.unalignedCopiedStep u entryEnd version copySize).map (·, [])
    | .retryLookup u => some (s.retryLookupStep u, [])
    | .returned _ => none
  | .others entries => (s.others [] entries).map (·, [])

end OverwriteState

end MachVirtuTerm
