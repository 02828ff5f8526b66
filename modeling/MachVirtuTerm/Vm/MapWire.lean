import MachVirtuTerm.Vm.MapState

/-!
# Wiring and unwiring

Calls of `vm_map_wire` and `vm_map_unwire` step by step. Both work on one entry after the
other with the map locked and unlock it while the pages of an entry are wired or unwired;
`vm_map_wire` also waits for entries in transition, and what it cannot finish it undoes
with a call of `vm_map_unwire`. A panic is no step.
-/

namespace MachVirtuTerm

def maxWireCount : BitVec 16 := 65535

/-- There is a hole between an entry and the one after it. -/
def VmMapEntry.HoleAfter (entry : VmMapEntry) (after : List VmMapEntry) : Prop :=
  ∀ next ∈ after.head?, next.vmeStart > entry.vmeEnd

instance (entry : VmMapEntry) (after : List VmMapEntry) : Decidable (entry.HoleAfter after) :=
  inferInstanceAs (Decidable (∀ _ ∈ _, _))

/-- The arguments of a call of `vm_map_unwire`. -/
structure UnwireCall where
  start : VmOffset
  «end» : VmOffset
  userWire : Bool
  deriving DecidableEq

/-- Where a call of `vm_map_unwire` is. After its first step its bounds are in the map. -/
inductive UnwirePc
  /-- The lookup of the start of the region. -/
  | enter (call : UnwireCall)
  /-- The loop through the region. -/
  | loop (call : UnwireCall)
  /-- `vm_fault_unwire` with the map unlocked and the entry copied. -/
  | faultUnwire (call : UnwireCall) (tmpEntry : VmMapEntry)
  /-- After the loop, with the map unlocked. -/
  | finish
  | returned (kr : KernReturn)
  deriving DecidableEq

/-- The entry a call has in transition. -/
def UnwirePc.held : UnwirePc → Option VmMapEntry
  | .faultUnwire _ tmpEntry => some tmpEntry
  | _ => none

/-- A map and a call of `vm_map_unwire`. -/
abbrev UnwireState := MapState UnwirePc

namespace UnwireState

variable (s : UnwireState)

variable (call : UnwireCall)

/-- The lock, the range check and the lookup of the start. -/
def enterStep : UnwireState × List MapEvent :=
  let s := s.lock
  let (start, «end») := s.rangeCheck call.start call.end
  match vmMapLookupEntry s.entries start with
  | (true, before, after) =>
    ({ s with
      before
      after
      needWakeup := false
      lastTimestamp := s.timestamp
      pc := .loop ⟨start, «end», call.userWire⟩ }, [])
  | (false, _, _) =>
    ({ s.unlock with pc := .returned .invalidAddress },
      [.returned .vmMapUnwire .invalidAddress false])

/-- The user's wirings of an entry, and all its wirings, without those of a call. -/
def unwire (entry : VmMapEntry) : VmMapEntry :=
  let userWiredCount := if call.userWire then entry.userWiredCount - 1 else entry.userWiredCount
  { entry with
    userWiredCount
    wiredCount :=
      if !call.userWire ∨ userWiredCount = 0 then entry.wiredCount - 1 else entry.wiredCount }

/-- The loop through the region, for one entry. -/
def loopStep : Option (UnwireState × List MapEvent) :=
  match s.after with
  | [] => some ({ s.unlock with pc := .finish }, [])
  | entry :: after =>
    if entry.vmeStart < call.end then
      if entry.inTransition then
        if call.userWire then some (s.advance, []) else none
      else if entry.wiredCount = 0 ∨ (call.userWire ∧ entry.userWiredCount = 0) then
        if call.userWire then some (s.advance, []) else none
      else
        let (before, entry) := vmMapClipStart s.before entry call.start
        let (entry, after) := vmMapClipEnd entry after call.end
        if entry.vmeEnd < call.end ∧ entry.HoleAfter after then
          if call.userWire then
            some ({ s with
              before := before ++ [entry]
              after }, [])
          else none
        else
          let unwired := unwire call entry
          let event := MapEvent.unwired entry !call.userWire
          if unwired.wiredCount ≠ 0 then
            some ({ s with
              before := before ++ [unwired]
              after }, [event])
          else
            let tmpEntry := { unwired with inTransition := true }
            some ({ s.unlock with
              before
              after := tmpEntry :: after
              pc := .faultUnwire call tmpEntry }, [event])
    else some ({ s.unlock with pc := .finish }, [])

/-- What follows `vm_fault_unwire`: the entry is found again and no longer in transition. -/
def unwiredStep (tmpEntry : VmMapEntry) : Option (UnwireState × List MapEvent) :=
  if s.RelookupFails tmpEntry.vmeStart ∧ !call.userWire then none
  else
    let s := s.relock tmpEntry.vmeStart
    some ({ s.clearPast tmpEntry.vmeEnd id with
      lastTimestamp := s.timestamp
      pc := .loop call }, [.cleared (s.constituents tmpEntry.vmeEnd)])

/-- One step. -/
def step : MapAction → Option (UnwireState × List MapEvent)
  | .run _ =>
    match s.pc with
    | .enter call => some (s.enterStep call)
    | .loop call => s.loopStep call
    | .faultUnwire call tmpEntry => s.unwiredStep call tmpEntry
    | .finish =>
      some ({ s with pc := .returned .success },
        wakeupIf s.needWakeup ++ [.returned .vmMapUnwire .success false])
    | .returned _ => none
  | .interrupt => none
  | .others before after => (s.others before after).map (·, [])

end UnwireState

/-- The arguments of a call of `vm_map_wire`. -/
structure WireCall where
  start : VmOffset
  «end» : VmOffset
  accessType : VmProt
  userWire : Bool
  deriving DecidableEq

/-- Where a call of `vm_map_wire` is. After its first step its bounds are in the map. -/
inductive WirePc
  /-- The lookup of the start of the region. -/
  | enter (call : WireCall)
  /-- The loop through the region. -/
  | loop (call : WireCall)
  /-- `vm_map_entry_wait` on an entry in transition, at `s` in it. -/
  | waitTransition (call : WireCall) (s : VmOffset)
  /-- `vm_fault_wire` with the map unlocked and the entry copied. -/
  | faultWire (call : WireCall) (tmpEntry : VmMapEntry)
  /-- `vm_fault_wire` has failed, and the map is unlocked again. -/
  | failed (call : WireCall) (s : VmOffset) (rc : KernReturn)
  /-- The call of `vm_map_unwire` after which the result is returned. -/
  | undo (kr : KernReturn) (pc : UnwirePc)
  /-- After the loop, with the map unlocked. -/
  | finish
  | returned (kr : KernReturn)
  deriving DecidableEq

/-- The entry a call has in transition. -/
def WirePc.held : WirePc → Option VmMapEntry
  | .faultWire _ tmpEntry => some tmpEntry
  | .undo _ pc => pc.held
  | _ => none

/-- A map and a call of `vm_map_wire`. -/
abbrev WireState := MapState WirePc

/-- `vm_map_unwire(map, start, s, user_wire)`. -/
def WireCall.undo (call : WireCall) (s : VmOffset) (kr : KernReturn) : WirePc :=
  .undo kr (.enter ⟨call.start, s, call.userWire⟩)

namespace WireState

variable (s : WireState)

variable (call : WireCall)

/-- The lock, the range check and the lookup of the start. -/
def enterStep : WireState × List MapEvent :=
  let s := s.lock
  let (start, «end») := s.rangeCheck call.start call.end
  match vmMapLookupEntry s.entries start with
  | (true, before, after) =>
    ({ s with
      before
      after
      needWakeup := false
      lastTimestamp := s.timestamp
      pc := .loop ⟨start, «end», call.accessType, call.userWire⟩ }, [])
  | (false, _, _) =>
    ({ s.unlock with pc := .returned .invalidAddress },
      [.returned .vmMapWire .invalidAddress false])

variable (entry : VmMapEntry)

/-- A wired entry with one more wiring. -/
def wire : VmMapEntry :=
  { entry with
    userWiredCount := if call.userWire then entry.userWiredCount + 1 else entry.userWiredCount
    wiredCount :=
      if !call.userWire ∨ entry.userWiredCount = 0 then entry.wiredCount + 1
      else entry.wiredCount }

/-- An unwired entry with its first wiring, in transition. -/
def wireFirst : VmMapEntry :=
  { entry with
    userWiredCount := if call.userWire then entry.userWiredCount + 1 else entry.userWiredCount
    wiredCount := entry.wiredCount + 1
    inTransition := true }

/-- An entry that was just wired, without that wiring. -/
def unwire : VmMapEntry :=
  { entry with
    userWiredCount := if call.userWire then entry.userWiredCount - 1 else entry.userWiredCount
    wiredCount := entry.wiredCount - 1 }

/-- An entry with an object of its own: a shadow object for a copy-on-write region, or an
object for a zero-fill region. -/
def ownObject (oracle : MapOracle) (entry : VmMapEntry) : VmMapEntry :=
  if entry.needsCopy then
    if oracle.shadows then
      { entry with
        object := some oracle.object
        offset := 0
        needsCopy := false }
    else { entry with needsCopy := false }
  else if entry.object.isNone then
    { entry with
      object := some oracle.object
      offset := 0 }
  else entry

/-- An unwired entry of the region, clipped: the checks for a hole after it and for its
protection, and its mark. -/
def unwiredEntryStep (before : List VmMapEntry)
    (entry : VmMapEntry) (after : List VmMapEntry) : WireState × List MapEvent :=
  let denied := entry.protection &&& call.accessType ≠ call.accessType
  if (entry.vmeEnd < call.end ∧ entry.HoleAfter after) ∨ denied then
    let kr := if denied then KernReturn.protectionFailure else .invalidAddress
    let s := { s.unlock with
      before
      after := entry :: after }
    if call.start ≠ entry.vmeStart then ({ s with pc := call.undo entry.vmeStart kr }, [])
    else ({ s with pc := .returned kr }, [.returned .vmMapWire kr false])
  else
    let tmpEntry := wireFirst call entry
    ({ s.unlock with
      before
      after := tmpEntry :: after
      pc := .faultWire call tmpEntry }, [.wired entry !call.userWire])

/-- The loop through the region, for one entry. -/
def loopStep (oracle : MapOracle) : Option (WireState × List MapEvent) :=
  match s.after with
  | [] => some ({ s.unlock with pc := .finish }, [])
  | entry :: after =>
    if entry.vmeStart < call.end then
      if entry.inTransition then
        let address := if entry.vmeStart < call.start then call.start else entry.vmeStart
        some ({ s.unlock with
          after := { entry with needsWakeup := true } :: after
          needWakeup := false
          pc := .waitTransition call address }, wakeupIf s.needWakeup ++ [.waits address])
      else if entry.wiredCount ≠ 0 then
        if entry.wiredCount ≥ maxWireCount then none
        else if call.userWire ∧ entry.userWiredCount ≥ maxWireCount then
          some ({ s.unlock with pc := call.undo entry.vmeStart .failure }, [])
        else
          let (before, entry) := vmMapClipStart s.before entry call.start
          let (entry, after) := vmMapClipEnd entry after call.end
          some ({ s with
            before := before ++ [wire call entry]
            after }, [.wired entry !call.userWire])
      else
        let (before, entry) := vmMapClipStart s.before (ownObject oracle entry) call.start
        let (entry, after) := vmMapClipEnd entry after call.end
        some (s.unwiredEntryStep call before entry after)
    else some ({ s.unlock with pc := .finish }, [])

/-- What follows a wait that was not interrupted. -/
def wokenStep (address : VmOffset) : Option (WireState × List MapEvent) :=
  let s := s.lock
  match vmMapLookupEntry s.entries address with
  | (true, before, after) =>
    some ({ s with
      before
      after
      lastTimestamp := s.timestamp
      pc := .loop call }, [])
  | (false, _, _) =>
    if call.userWire then some ({ s.unlock with pc := call.undo address .failure }, []) else none

/-- What follows `vm_fault_wire`: the entry is found again and no longer in transition. -/
def wiredStep (tmpEntry : VmMapEntry) (rc : KernReturn) : Option (WireState × List MapEvent) :=
  if s.RelookupFails tmpEntry.vmeStart then none
  else
    let s := s.relock tmpEntry.vmeStart
    let s := { s with lastTimestamp := s.timestamp }
    let event := MapEvent.cleared (s.constituents tmpEntry.vmeEnd)
    if rc = .success then
      some ({ s.clearPast tmpEntry.vmeEnd id with pc := .loop call }, [event])
    else
      some ({ (s.clearPast tmpEntry.vmeEnd (unwire call)).unlock with
        pc := .failed call tmpEntry.vmeStart rc }, [event])

/-- The call of `vm_map_unwire` goes on, or its caller returns after it. -/
def undoStep (kr : KernReturn) (pc : UnwirePc) (action : MapAction) :
    Option (WireState × List MapEvent) :=
  match pc with
  | .returned _ => some ({ s with pc := .returned kr }, [.returned .vmMapWire kr false])
  | _ => (UnwireState.step (s.goto pc) action).map fun (s, events) =>
      (s.goto (.undo kr s.pc), events)

/-- One step. -/
def step : MapAction → Option (WireState × List MapEvent)
  | .run oracle =>
    match s.pc with
    | .enter call => some (s.enterStep call)
    | .loop call => s.loopStep call oracle
    | .waitTransition call address => s.wokenStep call address
    | .faultWire call tmpEntry => s.wiredStep call tmpEntry oracle.kr
    | .failed call address rc =>
      some ({ s with pc := call.undo address rc }, wakeupIf s.needWakeup)
    | .undo kr pc => s.undoStep kr pc (.run oracle)
    | .finish =>
      some ({ s with pc := .returned .success },
        wakeupIf s.needWakeup ++ [.returned .vmMapWire .success false])
    | .returned _ => none
  | .interrupt =>
    match s.pc with
    | .waitTransition call address =>
      if call.userWire then some ({ s with pc := call.undo address .failure }, []) else none
    | _ => none
  | .others before after => (s.others before after).map (·, [])

end WireState

end MachVirtuTerm
