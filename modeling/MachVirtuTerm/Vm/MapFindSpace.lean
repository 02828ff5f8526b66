import MachVirtuTerm.Lib.RoundUp
import MachVirtuTerm.Mach.VmParam
import MachVirtuTerm.Vm.MapLookup

/-!
# Finding space in a map

`vm_map_enter`, `vm_map_find_space` and `vm_remap_range_allocate` search the gaps between the
entries of a map for the first place where a region fits.
-/

namespace MachVirtuTerm

namespace VmMapRing

open RoundUp

/-! ## The search -/

/-- How a search ends: with the entry before the region and the bounds of the region, by
an alignment that wraps around, or by a region that goes beyond the map. -/
inductive Space where
  | found (entry : ℕ) (start «end» : VmOffset)
  | wraps
  | beyond
  deriving DecidableEq

/-- The loop of the search over the entries after one. -/
def searchGaps (maxOffset size mask : VmOffset) : ℕ → VmOffset → List VmMapEntry → Space
  | entry, start, after =>
    let «end» := roundUp start mask
    if «end» < start then .wraps
    else
      let start := «end»
      let «end» := «end» + size
      if «end» > maxOffset ∨ «end» < start then .beyond
      else
        match after with
        | [] => .found entry start «end»
        | next :: after =>
          if next.vmeStart ≥ «end» then .found entry start «end»
          else searchGaps maxOffset size mask (entry + 1) next.vmeEnd after

/-- Where the search begins: the entry before, and the first address that may be free. The
map gets a new hint. -/
def firstPossible (map : VmMapRing) (start : VmOffset) : Option (ℕ × VmOffset × VmMapRing) :=
  if start = map.minOffset then
    some (map.firstFree, if map.firstFree ≠ 0 then map.vmeEnd map.firstFree else start, map)
  else
    (map.lookupEntry start).map fun (found, entry, map) =>
      (entry, if found then map.vmeEnd entry else start, map)

/-- The search from the first possible address on. -/
def findGap (map : VmMapRing) (start size mask : VmOffset) : Option (Space × VmMapRing) :=
  (map.firstPossible start).map fun (entry, start, map) =>
    (searchGaps map.maxOffset size mask entry start (map.entries.drop entry), map)

/-! ## Entering a region -/

/-- The steps of `UPDATE_FIRST_FREE` from an entry, over those after it. -/
def advanceFirstFree (map : VmMapRing) : ℕ → List VmMapEntry → ℕ
  | firstFree, [] =>
    if truncPage map.minOffset = truncPage (map.vmeEnd firstFree) then 0 else firstFree
  | firstFree, next :: after =>
    if truncPage next.vmeStart = truncPage (map.vmeEnd firstFree) ∨
        truncPage next.vmeStart = truncPage (map.vmeStart firstFree) then
      advanceFirstFree map (firstFree + 1) after
    else firstFree

def updateFirstFree (map : VmMapRing) (newFirstFree : ℕ) : VmMapRing :=
  { map with
    firstFree := advanceFirstFree map newFirstFree (map.entries.drop newFirstFree) }

/-- `vm_map_entry_link`. -/
def entryLink (map : VmMapRing) (afterWhere : ℕ) (entry : VmMapEntry) : VmMapRing :=
  let shift := fun cell => if cell > afterWhere then cell + 1 else cell
  let map := { map with
    entries := map.entries.take afterWhere ++ entry :: map.entries.drop afterWhere
    hint := shift map.hint
    firstFree := shift map.firstFree }
  map.updateFirstFree map.firstFree

/-- The arguments of `vm_map_enter` besides the region. -/
structure EnterCall where
  object : Option ℕ
  offset : VmOffset
  needsCopy : Bool
  curProtection : VmProt
  maxProtection : VmProt
  inheritance : BitVec 2
  deriving DecidableEq

/-- `vm_map_entry_insert`, with the arguments that `vm_map_enter` gives it. -/
def entryInsert (map : VmMapRing) (inspEntry : ℕ) (start «end» : VmOffset) (call : EnterCall) :
    VmMapRing :=
  let map := map.entryLink inspEntry {
    vmeStart := start
    vmeEnd := «end»
    object := call.object
    offset := call.offset
    isShared := false
    isSubMap := false
    needsCopy := call.needsCopy
    inTransition := false
    needsWakeup := false
    inheritance := call.inheritance
    protection := call.curProtection
    maxProtection := call.maxProtection
    behavior := 0
    wiredCount := 0
    userWiredCount := 0 }
  { map with size := map.size + («end» - start), hint := inspEntry + 1 }

/-- What a routine leaves when it returns: the code, the address, the map and whether it is
locked. -/
structure Reply where
  kr : KernReturn
  address : VmOffset
  map : VmMapRing
  locked : Bool

/-- A routine returns, or waits for space and will start again. -/
inductive Outcome where
  | returned (reply : Reply)
  | waits (map : VmMapRing)

/-- The calls of `vm_map_enter` to other modules: whether the object of an entry can be
extended by a region of this size, and what `vm_map_wire` makes of the unlocked map. -/
structure EnterOracle where
  coalesce : VmMapEntry → VmOffset → Bool
  wire : VmMapRing → VmOffset → VmOffset → VmProt → VmMapRing × KernReturn

/-- An entry that may be extended by the new region. -/
def Extendable (entry : VmMapEntry) (start : VmOffset) (call : EnterCall) : Prop :=
  call.object = none ∧ entry.vmeEnd = start ∧ entry.isShared = false ∧
    entry.isSubMap = false ∧ entry.inheritance = call.inheritance ∧
    entry.protection = call.curProtection ∧ entry.maxProtection = call.maxProtection ∧
    entry.behavior = 0 ∧ entry.inTransition = false ∧ entry.wiredCount = 0

instance (entry : VmMapEntry) (start : VmOffset) (call : EnterCall) :
    Decidable (Extendable entry start call) := inferInstanceAs (Decidable (_ ∧ _))

variable (oracle : EnterOracle)

/-- The end of `vm_map_enter`: the region is entered after an entry. -/
def enterAt (map : VmMapRing) (entry : ℕ) (start «end» : VmOffset) (call : EnterCall) : Reply :=
  let before := if entry = 0 then none else map.entries[entry - 1]?
  match before.filter fun e => Extendable e start call ∧
      oracle.coalesce e («end» - e.vmeEnd) with
  | some e =>
    let map := { map with
      size := map.size + («end» - e.vmeEnd)
      entries := map.entries.set (entry - 1) { e with vmeEnd := «end» } }
    ⟨.success, start, map.updateFirstFree map.firstFree, false⟩
  | none =>
    let map := map.entryInsert entry start «end» call
    if map.wiringRequired then
      let (map, kr) := oracle.wire map start «end» call.curProtection
      ⟨kr, start, map, false⟩
    else ⟨.success, start, map, false⟩

/-- A region that goes beyond the map: a reply of the routine, or a wait. -/
def noSpace (map : VmMapRing) (size : VmOffset) (reply : Reply) : Outcome :=
  if map.waitForSpace ∧ size ≤ map.maxOffset - map.minOffset then .waits map
  else .returned reply

/-- `vm_map_enter` anywhere. -/
def vmMapEnterAnywhere (map : VmMapRing) (address size mask : VmOffset)
    (call : EnterCall) : Option Outcome :=
  let start := if address < map.minOffset then map.minOffset else address
  if start > map.maxOffset then some (.returned ⟨.noSpace, address, map, false⟩)
  else
    (map.findGap start size mask).map fun (space, map) =>
      match space with
      -- This return leaves the lock.
      | .wraps => .returned ⟨.noSpace, address, map, true⟩
      | .beyond => map.noSpace size ⟨.noSpace, address, map, false⟩
      | .found entry start «end» => .returned (enterAt oracle map entry start «end» call)

/-- The checks of a region at a given address: its code, or the entry before it. -/
def checkRegion (map : VmMapRing) (start size mask : VmOffset) :
    Option (Except KernReturn ℕ × VmMapRing) :=
  let «end» := start + size
  if start &&& mask ≠ 0 then some (.error .noSpace, map)
  else if start < map.minOffset ∨ «end» > map.maxOffset ∨ start ≥ «end» then
    some (.error .invalidAddress, map)
  else
    (map.lookupEntry start).map fun (found, entry, map) =>
      if found then (.error .noSpace, map)
      else if ∃ next ∈ map.entries[entry]?, next.vmeStart < «end» then (.error .noSpace, map)
      else (.ok entry, map)

def vmMapEnter (map : VmMapRing) (address size mask : VmOffset)
    (anywhere : Bool) (call : EnterCall) : Option Outcome :=
  if anywhere then vmMapEnterAnywhere oracle map address size mask call
  else
    (map.checkRegion address size mask).map fun (result, map) =>
      match result with
      | .error kr => .returned ⟨kr, address, map, false⟩
      | .ok entry => .returned (enterAt oracle map entry address (address + size) call)

/-- The entry that `vm_map_find_space` makes. -/
def spaceEntry (start «end» : VmOffset) : VmMapEntry where
  vmeStart := start
  vmeEnd := «end»
  isShared := false
  isSubMap := false
  object := none
  offset := 0
  needsCopy := false
  inheritance := 1
  protection := 3
  maxProtection := 7
  behavior := 0
  wiredCount := 0
  userWiredCount := 0
  inTransition := false
  needsWakeup := false

/-- `vm_map_find_space`: the map stays locked on success. The address is not set otherwise. -/
def vmMapFindSpace (map : VmMapRing) (address size mask : VmOffset) : Reply :=
  let start := if map.firstFree = 0 then map.minOffset else map.vmeEnd map.firstFree
  match searchGaps map.maxOffset size mask map.firstFree start (map.entries.drop map.firstFree) with
  | .wraps | .beyond => ⟨.noSpace, address, map, false⟩
  | .found entry start «end» =>
    let map := map.entryLink entry (spaceEntry start «end»)
    ⟨.success, start, { map with size := map.size + size, hint := entry + 1 }, true⟩

end VmMapRing

end MachVirtuTerm
