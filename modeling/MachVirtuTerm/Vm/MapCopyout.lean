import MachVirtuTerm.Mach.VmParam
import MachVirtuTerm.Vm.MapState

/-!
# Copying out a page list

A call of `vm_map_copyout_page_list` step by step, as far as it works on the map: it finds
space, makes or extends an entry, and holds the entry in transition while it inserts the
pages; a continuation of the copy is invoked with the map unlocked. If that fails the range
is deleted again with a call of `vm_map_delete`. The pages are counted only.
-/

namespace MachVirtuTerm

/-- `VM_PROT_DEFAULT`, `VM_PROT_ALL`, `VM_BEHAVIOR_DEFAULT` and `VM_INHERIT_DEFAULT`. -/
def vmProtDefault : VmProt := 3

@[inherit_doc vmProtDefault]
def vmProtAll : VmProt := 7

@[inherit_doc vmProtDefault]
def vmBehaviorDefault : BitVec 2 := 0

@[inherit_doc vmProtDefault]
def vmInheritDefault : BitVec 2 := 1

/-- `first_free` as the place after it: the entries in one run from an address on. -/
def firstFree (address : VmOffset) : List VmMapEntry → List VmMapEntry × List VmMapEntry
  | [] => ([], [])
  | entry :: after =>
    if entry.vmeStart = address then
      let (before, after) := firstFree entry.vmeEnd after
      (entry :: before, after)
    else ([], entry :: after)

/-- The place after `first_free` is one in the map. -/
theorem firstFree_append (address : VmOffset) (entries : List VmMapEntry) :
    (firstFree address entries).1 ++ (firstFree address entries).2 = entries := by
  induction entries generalizing address with
  | nil => rfl
  | cons entry entries ih =>
    unfold firstFree
    split
    · simpa using ih entry.vmeEnd
    · rfl

/-- The copy: the size of its pages, which is not 0, the number of pages in the list and
whether it has a continuation. -/
structure CopyoutCall where
  size : VmOffset
  npages : ℕ
  hasCont : Bool
  size_ne : size ≠ 0
  deriving DecidableEq

/-- The local variables of a call from `insert_pages` on. `last` is as the call has put it
in transition. -/
structure CopyoutLocals where
  start : VmOffset
  «end» : VmOffset
  size : VmOffset
  offset : VmOffset
  last : VmMapEntry
  npages : ℕ
  hasCont : Bool
  contInvoked : Bool
  deriving DecidableEq

/-- Where a call is. -/
inductive CopyoutPc
  | startAgain (call : CopyoutCall)
  /-- Waiting for space. -/
  | waitSpace (call : CopyoutCall)
  /-- The loop through the pages. -/
  | insertPages (x : CopyoutLocals)
  /-- The continuation, with the map unlocked. -/
  | continuation (x : CopyoutLocals)
  /-- `error`, which is also where the call goes on without one. -/
  | error (x : CopyoutLocals) (result : KernReturn)
  /-- The call of `vm_map_delete`; `needsWakeup` is the caller's. -/
  | delete (result : KernReturn) (needsWakeup : Bool) (call : DeleteCall) (pc : DeletePc)
  /-- The map is unlocked. -/
  | finish (result : KernReturn)
  | returned (kr : KernReturn)
  deriving DecidableEq

/-- The entry a call has in transition. -/
def CopyoutPc.held : CopyoutPc → Option VmMapEntry
  | .insertPages x | .continuation x | .error x _ => some x.last
  | .delete _ _ _ pc => pc.held
  | _ => none

/-- A map and a call of `vm_map_copyout_page_list`. -/
abbrev CopyoutState := MapState CopyoutPc

namespace CopyoutState

/-- The search for space from a place on. -/
def findSpace (maxOffset size start : VmOffset) (before : List VmMapEntry) :
    List VmMapEntry → Option (VmOffset × List VmMapEntry × List VmMapEntry)
  | [] => if start + size > maxOffset ∨ start + size < start then none else some (start, before, [])
  | next :: after =>
    if start + size > maxOffset ∨ start + size < start then none
    else if next.vmeStart ≥ start + size then some (start, before, next :: after)
    else findSpace maxOffset size next.vmeEnd (before ++ [next]) after

/-- Whether an entry can be extended, before its object is looked at. -/
def Extensible (last : VmMapEntry) (start : VmOffset) (mustWire : Bool) : Prop :=
  last.vmeEnd = start ∧ last.isShared = false ∧ last.isSubMap = false ∧
    last.inheritance = vmInheritDefault ∧ last.protection = vmProtDefault ∧
    last.maxProtection = vmProtAll ∧ last.behavior = vmBehaviorDefault ∧
    last.inTransition = false ∧
    if mustWire then last.wiredCount = 1 ∧ last.userWiredCount = 0 else last.wiredCount = 0

instance (last : VmMapEntry) (start : VmOffset) (mustWire : Bool) :
    Decidable (Extensible last start mustWire) :=
  have : Decidable (if mustWire then last.wiredCount = 1 ∧ last.userWiredCount = 0
      else last.wiredCount = 0) := by
    cases mustWire <;> infer_instance
  inferInstanceAs (Decidable (_ ∧ _))

variable (oracle : MapOracle)

/-- The entry before the space, extended to its end, if it and its object can be. -/
def extend (last : VmMapEntry) (start «end» : VmOffset) : Option VmMapEntry :=
  if Extensible last start oracle.wiringRequired then
    if last.object.isNone then
      some { last with
        object := some oracle.object
        offset := 0
        vmeEnd := «end» }
    else if oracle.coalesces then some { last with vmeEnd := «end» }
    else none
  else none

/-- The entry that is made if none is extended. -/
def newEntry (start «end» : VmOffset) : VmMapEntry where
  vmeStart := start
  vmeEnd := «end»
  object := some oracle.object
  offset := 0
  isShared := false
  isSubMap := false
  inTransition := true
  needsWakeup := false
  behavior := vmBehaviorDefault
  needsCopy := false
  protection := vmProtDefault
  maxProtection := vmProtAll
  inheritance := vmInheritDefault
  wiredCount := if oracle.wiringRequired then 1 else 0
  userWiredCount := 0

/-- The entry for the pages: that before the space is extended, or one is made. -/
def enter (before : List VmMapEntry) (start «end» : VmOffset) : List VmMapEntry × VmMapEntry :=
  match before.getLast?.bind fun last => extend oracle last start «end» with
  | some last => (before.dropLast, { last with inTransition := true })
  | none => (before, newEntry oracle start «end»)

variable (s : CopyoutState)

/-- The lock, the search for space, and the entry for the pages. -/
def startStep (call : CopyoutCall) (oracle : MapOracle) : CopyoutState × List MapEvent :=
  let s := s.lock
  let (before, after) := firstFree s.minOffset s.entries
  let start := (before.getLast?.map (·.vmeEnd)).getD s.minOffset
  match findSpace s.maxOffset call.size start before after with
  | none =>
    if oracle.waitForSpace ∧ call.size ≤ s.maxOffset - s.minOffset then
      ({ s.unlock with pc := .waitSpace call }, [])
    else
      ({ s.unlock with pc := .returned .noSpace }, [.returned .vmMapCopyoutPageList .noSpace false])
  | some (start, before, after) =>
    let «end» := start + call.size
    let (before, last) := enter oracle before start «end»
    ({ s with
      before
      after := last :: after
      pc := .insertPages {
        start
        «end»
        size := call.size
        offset := 0
        last
        npages := call.npages
        hasCont := call.hasCont
        contInvoked := false } }, [])

variable (x : CopyoutLocals)

/-- The loop through the pages, for one page. -/
def insertStep : Option (CopyoutState × List MapEvent) :=
  if x.offset < x.size then
    if x.npages = 0 then none
    else if x.npages = 1 ∧ x.hasCont then
      some ({ s.unlock with pc := .continuation { x with
        npages := 0
        contInvoked := true } }, [])
    else
      some ({ s with pc := .insertPages { x with
        npages := x.npages - 1
        offset := x.offset + BitVec.ofNat 32 pageSize } }, [])
  else some ({ s with pc := .error x .success }, [])

/-- The continuation has returned. -/
def continueStep (oracle : MapOracle) : CopyoutState :=
  let s := s.lock
  if oracle.kr = .success then
    { s with pc := .insertPages { x with
      npages := oracle.copyNpages
      hasCont := oracle.copyHasCont
      offset := x.offset + BitVec.ofNat 32 pageSize } }
  else { s with pc := .error x oracle.kr }

/-- `vm_map_delete(dst_map, start, end, VM_MAP_NO_FLAGS)`. -/
def deleteCall : DeleteCall := ⟨x.start, x.end, ⟨false, false, false⟩⟩

variable (result : KernReturn)

/-- When the transition bits are cleared, the range is deleted or the map unlocked. -/
def clearedStep (needsWakeup : Bool) : CopyoutState :=
  if result ≠ .success then
    { s with
      needWakeup := false
      lastTimestamp := ~~~0
      pc := .delete result needsWakeup (deleteCall x) .lookup }
  else
    { s.unlock with
      needWakeup := needsWakeup
      pc := .finish result }

/-- The transition bits are cleared. -/
def errorStep : Option (CopyoutState × List MapEvent) :=
  if x.contInvoked then
    match vmMapLookupEntry s.entries x.start with
    | (true, before, after) =>
      let s := { s with
        before
        after
        needWakeup := false }
      let event := MapEvent.cleared (s.constituents x.end)
      let s := s.clearPast x.end id
      some (clearedStep s x result s.needWakeup, [event])
    | (false, _, _) => none
  else
    match s.after with
    | last :: after =>
      some (clearedStep { s with after := { last with inTransition := false } :: after } x result
        false, [.cleared [last]])
    | [] => none

/-- The call of `vm_map_delete` goes on, or its caller unlocks the map after it, if it has
the lock. -/
def deleteStep (needsWakeup : Bool) (call : DeleteCall)
    (pc : DeletePc) (action : MapAction) : Option (CopyoutState × List MapEvent) :=
  match pc with
  | .returned _ =>
    if s.locked then
      some ({ s.unlock with
        needWakeup := needsWakeup
        pc := .finish result }, [])
    else none
  | _ => (DeleteState.step (s.goto pc) call action).map fun (s, events) =>
      (s.goto (.delete result needsWakeup call s.pc), events)

/-- One step. -/
def step : MapAction → Option (CopyoutState × List MapEvent)
  | .run oracle =>
    match s.pc with
    | .startAgain call => some (s.startStep call oracle)
    | .waitSpace call => some ({ s with pc := .startAgain call }, [])
    | .insertPages x => s.insertStep x
    | .continuation x => some (s.continueStep x oracle, [])
    | .error x result => s.errorStep x result
    | .delete result needsWakeup call pc => s.deleteStep result needsWakeup call pc (.run oracle)
    | .finish result =>
      some ({ s with pc := .returned result },
        wakeupIf s.needWakeup ++ [.returned .vmMapCopyoutPageList result false])
    | .returned _ => none
  | .interrupt =>
    match s.pc with
    | .delete result needsWakeup call pc => s.deleteStep result needsWakeup call pc .interrupt
    | _ => none
  | .others before after => (s.others before after).map (·, [])

end CopyoutState

end MachVirtuTerm
