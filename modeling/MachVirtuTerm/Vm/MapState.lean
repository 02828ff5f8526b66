import MachVirtuTerm.Vm.MapEntry

/-!
# A routine at work on a map

What the routines that mark entries as in transition have in common: the place they have
reached in the entries, the version of the map and their local variables, what they do to
entries and waiting threads, and what others do to the map while it is unlocked: anything,
except that an entry in transition may be clipped and waited for, but neither changed
otherwise nor removed.
-/

namespace MachVirtuTerm

/-- The routines that mark entries as in transition, and their callers. -/
inductive MapRoutine
  | vmMapWire
  | vmMapUnwire
  | vmMapDelete
  | vmMapRemove
  | vmMapCopyoutPageList
  deriving DecidableEq

/-- What a routine does to entries and waiting threads. -/
inductive MapEvent
  /-- `vm_map_entry_delete`. -/
  | deleted (entry : VmMapEntry)
  /-- An entry gets a wiring, the kernel's or the user's. -/
  | wired (entry : VmMapEntry) (kernel : Bool)
  /-- Wirings of an entry are taken away; `kernel` says that one of them is not the user's. -/
  | unwired (entry : VmMapEntry) (kernel : Bool)
  /-- The transition bits of these entries are cleared. -/
  | cleared (entries : List VmMapEntry)
  /-- `needs_wakeup` is set in the entry at the address, and the routine begins to wait. -/
  | waits (address : VmOffset)
  /-- `vm_map_entry_wakeup`. -/
  | wakeup
  /-- A routine returns, with or without the lock of the map. -/
  | returned (routine : MapRoutine) (kr : KernReturn) (locked : Bool)
  /-- The routine that was called from outside has returned. -/
  | finished
  deriving DecidableEq

/-- A map and a routine at work on it: the place in the entries, the bounds and the version
of the map, whether the routine has it locked, and the local variables. `moved` is no variable:
others have had the lock since the routine had it. -/
structure MapState (Pc : Type*) where
  before : List VmMapEntry
  after : List VmMapEntry
  minOffset : VmOffset
  maxOffset : VmOffset
  timestamp : BitVec 32
  locked : Bool
  moved : Bool
  needWakeup : Bool
  lastTimestamp : BitVec 32
  pc : Pc
  deriving DecidableEq

/-- What the calls of a routine to other modules return, for a step, and what it reads of
the map that no routine here changes. -/
structure MapOracle where
  /-- The object that `vm_object_allocate` or `vm_object_shadow` makes. -/
  object : ℕ
  /-- The result of `vm_fault_wire` or of a continuation. -/
  kr : KernReturn
  /-- The number of pages a continuation returns, and whether it has another one. -/
  copyNpages : ℕ
  copyHasCont : Bool
  /-- Whether `vm_object_shadow` makes a new object. -/
  shadows : Bool
  /-- Whether the object before a new range can be extended to it. -/
  coalesces : Bool
  /-- `wiring_required` and `wait_for_space` of the map. -/
  wiringRequired : Bool
  waitForSpace : Bool
  deriving DecidableEq

/-- Calls that succeed and make or copy nothing. -/
def MapOracle.quiet : MapOracle := ⟨0, .success, 0, false, false, false, false, false⟩

/-- What happens next. -/
inductive MapAction
  /-- The routine goes on; after a wait it takes the lock again. -/
  | run (oracle : MapOracle)
  /-- A wait ends by an interruption. -/
  | interrupt
  /-- Others have the lock for a while and leave these entries, before the place of the routine
  and from there on. -/
  | others (before after : List VmMapEntry)
  deriving DecidableEq

/-- The entries others leave. -/
def MapAction.entries : MapAction → Option (List VmMapEntry)
  | .others before after => some (before ++ after)
  | _ => none

/-- The routine goes on. -/
def MapAction.runs : MapAction → Bool
  | .run _ => true
  | _ => false

/-- An entry in the range of one in transition. -/
def VmMapEntry.Within (entry outer : VmMapEntry) : Prop :=
  outer.vmeStart ≤ entry.vmeStart ∧ entry.vmeEnd ≤ outer.vmeEnd

/-- What others can do to the entries in one go, except to those a call holds in
transition. -/
inductive OthersStep (held : Option VmMapEntry) :
    List VmMapEntry → List VmMapEntry → Prop
  /-- Entries that are not held are removed, changed or clipped, and others are made. -/
  | replace {before mid mid' after : List VmMapEntry}
    (hheld : ∀ e ∈ mid, ∀ outer, held = some outer → ¬e.Within outer)
    (hsorted : EntriesSorted (before ++ mid' ++ after)) :
    OthersStep held (before ++ mid ++ after) (before ++ mid' ++ after)
  /-- A clip of any entry. -/
  | clip {before after : List VmMapEntry} {entry : VmMapEntry} {address : VmOffset}
    (hstart : entry.vmeStart < address) (hend : address < entry.vmeEnd) :
    OthersStep held (before ++ entry :: after)
      (before ++ entry.front address :: entry.back address :: after)
  /-- Somebody waits for an entry. -/
  | wait {before after : List VmMapEntry} {entry : VmMapEntry} :
    OthersStep held (before ++ entry :: after)
      (before ++ { entry with needsWakeup := true } :: after)

/-- What others leave, and where the place of a routine is then: at what is left of the entry
that it holds in transition. -/
structure OthersLeave (held : Option VmMapEntry) (entries before after : List VmMapEntry) :
    Prop where
  step : OthersStep held entries (before ++ after)
  place : ∀ tmpEntry ∈ held, ∃ entry ∈ after.head?, entry.Within tmpEntry

namespace MapState

variable {Pc : Type*} (s : MapState Pc)

/-- The entries of the map. -/
def entries : List VmMapEntry := s.before ++ s.after

/-- `vm_map_lock`. -/
def lock : MapState Pc :=
  { s with
    locked := true
    moved := false
    timestamp := s.timestamp + 1 }

variable (address : VmOffset)

/-- A lookup, to work on from there. -/
def lookup : MapState Pc :=
  let (_, before, after) := vmMapLookupEntry s.entries address
  { s with before, after }

/-- `vm_map_lock` and a lookup. -/
def lockLookup : MapState Pc := s.lock.lookup address

/-- `vm_map_unlock`. -/
def unlock : MapState Pc := { s with locked := false }

/-- The version of the map is not the one that was saved. It can be that one although others
have had the lock, if they have had it a multiple of 2 ^ 32 times. -/
def Stale : Prop := s.lastTimestamp + 1 ≠ s.timestamp + 1

instance : Decidable s.Stale := inferInstanceAs (Decidable (_ ≠ _))

/-- `vm_map_lock` after the map was unlocked with an entry in transition, and a lookup if the
version has changed. -/
def relock : MapState Pc :=
  if s.Stale then s.lockLookup address else s.lock

/-- The lookup after `vm_map_lock`, if there is one, finds no entry. -/
def RelookupFails : Prop :=
  s.Stale ∧ (vmMapLookupEntry s.entries address).1 = false

instance (address : VmOffset) : Decidable (s.RelookupFails address) :=
  inferInstanceAs (Decidable (_ ∧ _))

/-- `entry->vme_next`. -/
def advance : MapState Pc :=
  { s with
    before := s.before ++ s.after.take 1
    after := s.after.drop 1 }

/-- The entries from the place on that start before an address. -/
def constituents (vmeEnd : VmOffset) : List VmMapEntry := s.after.takeWhile (·.vmeStart < vmeEnd)

/-- The loop that clears the transition bits of all entries that were one before, and ends
after them; `change` is what else it does to an entry. -/
def clearPast (vmeEnd : VmOffset) (change : VmMapEntry → VmMapEntry) : MapState Pc :=
  { s with
    before := s.before ++ (s.constituents vmeEnd).map fun entry => change entry.unmark
    after := s.after.dropWhile (·.vmeStart < vmeEnd)
    needWakeup := s.needWakeup || (s.constituents vmeEnd).any (·.needsWakeup) }

/-- Another routine is called, or has returned. -/
def goto {Pc' : Type*} (pc : Pc') : MapState Pc' where
  before := s.before
  after := s.after
  minOffset := s.minOffset
  maxOffset := s.maxOffset
  timestamp := s.timestamp
  locked := s.locked
  moved := s.moved
  needWakeup := s.needWakeup
  lastTimestamp := s.lastTimestamp
  pc := pc

/-- Others have the lock for a while. -/
def others (before after : List VmMapEntry) : Option (MapState Pc) :=
  if s.locked then none
  else some { s with
    before
    after
    moved := true
    timestamp := s.timestamp + 1 }

/-- `VM_MAP_RANGE_CHECK`. -/
def rangeCheck (start «end» : VmOffset) : VmOffset × VmOffset :=
  let start := if start < s.minOffset then s.minOffset else start
  let «end» := if «end» > s.maxOffset then s.maxOffset else «end»
  let start := if start > «end» then «end» else start
  (start, «end»)

end MapState

/-- `vm_map_entry_wakeup` if somebody is to be woken. -/
def wakeupIf (needed : Bool) : List MapEvent := if needed then [.wakeup] else []

/-- Nothing else happens there. -/
theorem eq_wakeup_of_mem {needed : Bool} {event : MapEvent} (h : event ∈ wakeupIf needed) :
    event = .wakeup := by
  unfold wakeupIf at h
  split at h
  · exact List.mem_singleton.mp h
  · cases h

/-- A step of a run: the state before it, what happened and what the routine did to
entries and waiting threads. -/
structure MapStep (Pc : Type*) where
  state : MapState Pc
  action : MapAction
  events : List MapEvent

/-- The runs of a routine: the steps, the last first, and where they led. -/
inductive MapRun {Pc : Type*}
    (step : MapState Pc → MapAction → Option (MapState Pc × List MapEvent))
    (held : Pc → Option VmMapEntry) (init : MapState Pc) : List (MapStep Pc) → MapState Pc → Prop
  | nil : MapRun step held init [] init
  | cons {trace : List (MapStep Pc)} {s s' : MapState Pc} {action : MapAction}
    {events : List MapEvent} (h : MapRun step held init trace s)
    (hstep : step s action = some (s', events))
    (hothers : ∀ before after, action = .others before after →
      OthersLeave (held s.pc) s.entries before after) :
    MapRun step held init (⟨s, action, events⟩ :: trace) s'

/-- What others do leaves the entries sorted. -/
theorem OthersStep.sorted {held : Option VmMapEntry} {entries entries' : List VmMapEntry}
    (h : OthersStep held entries entries') (hs : EntriesSorted entries) :
    EntriesSorted entries' := by
  cases h with
  | replace _ hsorted => exact hsorted
  | clip hstart hend => exact hs.split hstart hend
  | wait => exact hs.congr (by simp [VmMapEntry.range])

/-- Others may leave any entries in order while none is held. -/
theorem othersStep_of_sorted {entries entries' : List VmMapEntry} (h : EntriesSorted entries') :
    OthersStep none entries entries' := by
  have hstep := @OthersStep.replace none [] entries entries' [] (by simp) (by simpa using h)
  simpa using hstep

section Follow

variable {Pc : Type*} (step : MapState Pc → MapAction → Option (MapState Pc × List MapEvent))
  (held : Pc → Option VmMapEntry)

/-- Let a routine and others act, the last first; others only while the routine holds no
entry in transition. -/
def follow (s : MapState Pc) : List MapAction → Option (List (MapStep Pc) × MapState Pc)
  | [] => some ([], s)
  | action :: actions => do
    let (trace, s) ← follow s actions
    let (s', events) ← step s action
    if ∀ entries, entries ∈ action.entries → held s.pc = none ∧ EntriesSorted entries then
      some (⟨s, action, events⟩ :: trace, s')
    else none

variable {step held}

/-- Following actions is a run. -/
theorem mapRun_of_follow {init s : MapState Pc} {actions : List MapAction}
    {trace : List (MapStep Pc)} (h : follow step held init actions = some (trace, s)) :
    MapRun step held init trace s := by
  induction actions generalizing trace s with
  | nil =>
    cases h
    exact .nil
  | cons action actions ih =>
    simp only [follow, Option.bind_eq_bind, Option.bind_eq_some_iff] at h
    obtain ⟨⟨trace₁, s₁⟩, hfollow, ⟨s₂, events⟩, hstep, hif⟩ := h
    split at hif
    · rename_i hothers
      cases hif
      refine .cons (ih hfollow) hstep fun before after haction => ?_
      obtain ⟨hheld, hsorted⟩ := hothers (before ++ after) (by rw [haction]; rfl)
      rw [hheld]
      exact ⟨othersStep_of_sorted hsorted, by simp⟩
    · cases hif

end Follow

end MachVirtuTerm

/-!
# Deletion from a map

A call of `vm_map_delete` step by step: with the map locked it works on one entry after
the other, and it unlocks the map to wait and while it unwires the pages of an entry.
-/

namespace MachVirtuTerm

/-- `VM_MAP_REMOVE_KUNWIRE`, `VM_MAP_REMOVE_INTERRUPTIBLE` and
`VM_MAP_REMOVE_WAIT_FOR_KWIRE`. -/
structure RemoveFlags where
  kunwire : Bool
  interruptible : Bool
  waitForKwire : Bool
  deriving DecidableEq

/-- The arguments of a call. -/
structure DeleteCall where
  start : VmOffset
  «end» : VmOffset
  flags : RemoveFlags
  deriving DecidableEq

/-- Where a call is. -/
inductive DeletePc
  /-- The lookup of the start of the region. -/
  | lookup
  /-- The test of the loop through the region. -/
  | loop
  | retryEntry
  /-- `vm_map_entry_wait` on an entry in transition that starts at `s`. -/
  | waitTransition (s : VmOffset)
  /-- `vm_map_entry_wait` for a kernel wiring of an entry that starts at `s` to go away. -/
  | waitKwire (s : VmOffset)
  /-- `vm_fault_unwire` with the map unlocked and the entry copied. -/
  | faultUnwire (tmpEntry : VmMapEntry)
  /-- After the loop. -/
  | finish
  | returned (kr : KernReturn)
  deriving DecidableEq

/-- The address a call waits at. -/
def DeletePc.waitsAt : DeletePc → Option VmOffset
  | .waitTransition address | .waitKwire address => some address
  | _ => none

/-- A map and a call of `vm_map_delete`. -/
abbrev DeleteState := MapState DeletePc

/-- The entry a call has in transition. -/
def DeletePc.held : DeletePc → Option VmMapEntry
  | .faultUnwire tmpEntry => some tmpEntry
  | _ => none

namespace DeleteState

variable (s : DeleteState)

variable (call : DeleteCall)

/-- The lookup of the start of the region, and the clip there. -/
def lookupStep : DeleteState :=
  match vmMapLookupEntry s.entries call.start with
  | (true, before, entry :: after) =>
    let (before, entry) := vmMapClipStart before entry call.start
    { s with before, after := entry :: after, pc := .loop }
  | (_, before, after) => { s with before, after, pc := .loop }

/-- The test of the loop, and the clip of an entry in the region. -/
def loopStep : DeleteState :=
  match s.after with
  | [] => { s with pc := .finish }
  | entry :: after =>
    if entry.vmeStart < call.end then
      let (entry, after) := vmMapClipEnd entry after call.end
      { s with after := entry :: after, pc := .retryEntry }
    else { s with pc := .finish }

/-- An entry without the wirings that a call takes away. -/
def unwire (entry : VmMapEntry) : VmMapEntry :=
  { entry with
    wiredCount :=
      if call.flags.kunwire ∨ 0 < entry.userWiredCount then entry.wiredCount - 1
      else entry.wiredCount
    userWiredCount := 0 }

/-- Whether a call takes away a wiring that is not the user's. -/
def unwiresKernel (entry : VmMapEntry) : Bool :=
  call.flags.kunwire && !decide (0 < entry.userWiredCount)

/-- `retry_entry` up to where the map is unlocked or the entry deleted. The header is no
entry; nothing is said of a call that takes it for one. -/
def retryStep : Option (DeleteState × List MapEvent) :=
  match s.after with
  | [] => none
  | entry :: after =>
    if entry.inTransition then
      let waiting := { entry with needsWakeup := true }
      some ({ s with
        after := waiting :: after
        needWakeup := false
        locked := false
        pc := .waitTransition entry.vmeStart }, wakeupIf s.needWakeup ++ [.waits entry.vmeStart])
    else if entry.wiredCount ≠ 0 then
      let unwired := unwire call entry
      let event := MapEvent.unwired entry (unwiresKernel call entry)
      if unwired.wiredCount ≠ 0 then
        if call.flags.waitForKwire then
          let waiting := { unwired with needsWakeup := true }
          some ({ s with
            after := waiting :: after
            locked := false
            pc := .waitKwire entry.vmeStart }, [event, .waits entry.vmeStart])
        else
          some ({ s with
            after := unwired :: after
            pc := .returned .failure }, [event, .returned .vmMapDelete .failure s.locked])
      else
        let tmpEntry := { unwired with inTransition := true }
        some ({ s with
          after := tmpEntry :: after
          locked := false
          pc := .faultUnwire tmpEntry }, [event])
    else some ({ s with after, pc := .loop }, [.deleted entry])

/-- What follows `vm_fault_unwire`: the entry is found again and no longer in transition. -/
def unwiredStep (tmpEntry : VmMapEntry) : DeleteState × List MapEvent :=
  let s := s.relock tmpEntry.vmeStart
  let cleared := s.constituents tmpEntry.vmeEnd
  let (after, needed) := clearTransition tmpEntry.vmeEnd s.after
  ({ s with
    after
    lastTimestamp := s.timestamp
    needWakeup := s.needWakeup || needed
    pc := .retryEntry }, [.cleared cleared])

/-- What follows a wait that was not interrupted. -/
def wokenStep (address : VmOffset) : DeleteState :=
  let s := s.lockLookup address
  { s with lastTimestamp := s.timestamp, pc := .retryEntry }

/-- One step. -/
def step : MapAction → Option (DeleteState × List MapEvent)
  | .run _ =>
    match s.pc with
    | .lookup => some (s.lookupStep call, [])
    | .loop => some (s.loopStep call, [])
    | .retryEntry => s.retryStep call
    | .waitTransition address | .waitKwire address => some (s.wokenStep address, [])
    | .faultUnwire tmpEntry => some (s.unwiredStep tmpEntry)
    | .finish =>
      some ({ s with pc := .returned .success },
        wakeupIf s.needWakeup ++ [.returned .vmMapDelete .success s.locked])
    | .returned _ => none
  | .interrupt =>
    match s.pc with
    | .waitTransition _ | .waitKwire _ =>
      if call.flags.interruptible then
        some ({ s with pc := .returned .aborted }, [.returned .vmMapDelete .aborted s.locked])
      else none
    | _ => none
  | .others before after => (s.others before after).map (·, [])

/-- A call begins with the map locked, on entries in order. -/
structure Initial (s : DeleteState) : Prop where
  sorted : EntriesSorted s.entries
  locked : s.locked = true
  needWakeup : s.needWakeup = false
  lastTimestamp : s.lastTimestamp = ~~~0
  pc : s.pc = .lookup

end DeleteState

/-- A step of a run of a call. -/
abbrev DeleteEvent := MapStep DeletePc

/-- The runs of a call: the steps, the last first, and where they led. -/
abbrev DeleteRun (call : DeleteCall) : DeleteState → List DeleteEvent → DeleteState → Prop :=
  MapRun (fun s action => DeleteState.step s call action) DeletePc.held

end MachVirtuTerm
