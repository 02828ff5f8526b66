import MachVirtuTerm.Vm.MapCopyout

/-!
# Attributes of mapped pages

The routines that change attributes in a range of a map: the range is checked if it has to be,
its ends are clipped, and the attribute is set in the entries between. Neighbours that agree in
everything are put together again. What a map has at its addresses does not depend on how the
entries are cut. The protections in an entry come from `vm_map_enter`, from these routines or
from another entry.
-/

namespace MachVirtuTerm

/-- What a map has at an address. -/
structure PageAttributes where
  object : Option ℕ
  offset : VmOffset
  needsCopy : Bool
  protection : VmProt
  maxProtection : VmProt
  inheritance : BitVec 2
  behavior : BitVec 2
  wiredCount : BitVec 16
  userWiredCount : BitVec 16
  deriving DecidableEq

/-- What an entry has at an address in its range. -/
def VmMapEntry.attributesAt (entry : VmMapEntry) (address : VmOffset) : PageAttributes where
  object := entry.object
  offset := entry.offset + (address - entry.vmeStart)
  needsCopy := entry.needsCopy
  protection := entry.protection
  maxProtection := entry.maxProtection
  inheritance := entry.inheritance
  behavior := entry.behavior
  wiredCount := entry.wiredCount
  userWiredCount := entry.userWiredCount

/-- What entries have at an address. -/
def attributesAt (entries : List VmMapEntry) (address : VmOffset) : Option PageAttributes :=
  (entries.find? fun e => e.Contains address).map (·.attributesAt address)

/-- The bounds of a map and its entries. -/
structure VmMap where
  minOffset : VmOffset
  maxOffset : VmOffset
  /-- The entries in the order of the links. -/
  entries : List VmMapEntry
  deriving DecidableEq

/-- The loop that sets an attribute in the entries that start before `end`. The last one is
clipped to it; what is clipped off starts there, where the loop ends. -/
def setBefore (set : VmMapEntry → VmMapEntry) («end» : VmOffset) : List VmMapEntry → List VmMapEntry
  | [] => []
  | entry :: after =>
    if entry.vmeStart < «end» then
      if «end» < entry.vmeEnd then set (entry.front «end») :: entry.back «end» :: after
      else set entry :: setBefore set «end» after
    else entry :: after

/-- Protections of three bits as they are compared with others. -/
def protBits (prot : VmProt) : BitVec 32 := prot.setWidth 32

/-- The first pass of `vm_map_protect`. -/
def protectPass (newProt : BitVec 32) («end» prev : VmOffset) : List VmMapEntry → KernReturn
  | [] => if «end» > prev then .invalidAddress else .success
  | current :: after =>
    if current.vmeStart < «end» then
      if current.isSubMap then .invalidArgument
      else if current.vmeStart ≠ prev then .invalidAddress
      else if newProt &&& protBits current.maxProtection ≠ newProt then .protectionFailure
      else protectPass newProt «end» current.vmeEnd after
    else if «end» > prev then .invalidAddress
    else .success

/-- The protections that `vm_map_protect` gives an entry. -/
def VmMapEntry.protect (newProt : VmProt) (setMax : Bool) (entry : VmMapEntry) : VmMapEntry :=
  if setMax then
    { entry with
      maxProtection := newProt
      protection := newProt &&& entry.protection }
  else { entry with protection := newProt }

/-- The attributes of a range are set: from the entry that contains its start on, or from the
next one. -/
def setRange (set : VmMapEntry → VmMapEntry) (start «end» : VmOffset) (entries : List VmMapEntry) :
    List VmMapEntry :=
  match vmMapLookupEntry entries start with
  | (true, before, entry :: after) =>
    let (before, entry) := vmMapClipStart before entry start
    before ++ setBefore set «end» (entry :: after)
  | (_, before, after) => before ++ setBefore set «end» after

def vmMapProtect (map : VmMap) (start «end» : VmOffset) (newProt : BitVec 32) (setMax : Bool) :
    KernReturn × VmMap :=
  match vmMapLookupEntry map.entries start with
  | (true, _, entry :: after) =>
    match protectPass newProt «end» entry.vmeStart (entry :: after) with
    | .success =>
      (.success, { map with
        entries := setRange (·.protect (newProt.setWidth 3) setMax) start «end» map.entries })
    | kr => (kr, map)
  | _ => (.invalidAddress, map)

/-- `VM_MAP_RANGE_CHECK`. -/
def vmMapClampRange (map : VmMap) (start «end» : VmOffset) : VmOffset × VmOffset :=
  let start := if start < map.minOffset then map.minOffset else start
  let «end» := if «end» > map.maxOffset then map.maxOffset else «end»
  (if start > «end» then «end» else start, «end»)

def vmMapInherit (map : VmMap) (start «end» : VmOffset) (newInheritance : BitVec 2) :
    KernReturn × VmMap :=
  let (start, «end») := vmMapClampRange map start «end»
  (.success, { map with
    entries := setRange ({ · with inheritance := newInheritance }) start «end» map.entries })

/-- The loop of `vm_map_range_check`, from the second entry on. -/
def rangeCheckLoop («end» prev : VmOffset) : List VmMapEntry → Bool
  | [] => false
  | cur :: after =>
    if prev = cur.vmeStart then
      if «end» ≤ cur.vmeEnd then true else rangeCheckLoop «end» cur.vmeEnd after
    else false

def vmMapRangeCheck (map : VmMap) (start «end» : VmOffset) : Bool :=
  if start < map.minOffset ∨ «end» > map.maxOffset ∨ start > «end» then false
  else
    match vmMapLookupEntry map.entries start with
    | (true, _, cur :: after) =>
      if «end» ≤ cur.vmeEnd then true else rangeCheckLoop «end» cur.vmeEnd after
    | _ => false

def vmMapBehaviorSet (map : VmMap) (start «end» : VmOffset) (newBehavior : BitVec 32) :
    KernReturn × VmMap :=
  if newBehavior < 4 then
    if vmMapRangeCheck map start «end» then
      (.success, { map with
        entries := setRange ({ · with behavior := newBehavior.setWidth 2 }) start «end» map.entries })
    else (.invalidAddress, map)
  else (.invalidArgument, map)

/-- What `vm_map_simplify` compares in two neighbours: all but their ranges, the wakeup bit and
whether one of them, which is the same for the other, is shared or a map. -/
def VmMapEntry.Agrees (prev this : VmMapEntry) : Prop :=
  prev.vmeEnd = this.vmeStart ∧ prev.inheritance = this.inheritance ∧
    prev.protection = this.protection ∧ prev.maxProtection = this.maxProtection ∧
    prev.behavior = this.behavior ∧ prev.wiredCount = this.wiredCount ∧
    prev.userWiredCount = this.userWiredCount ∧ prev.inTransition = false ∧
    this.inTransition = false ∧ prev.needsCopy = this.needsCopy ∧ prev.object = this.object ∧
    prev.offset + (prev.vmeEnd - prev.vmeStart) = this.offset

instance (prev this : VmMapEntry) : Decidable (prev.Agrees this) :=
  inferInstanceAs (Decidable (_ ∧ _))

/-- The first half of `vm_map_simplify`: the entry is put together with the one before it. -/
def simplifyLower (entries : List VmMapEntry) (start : VmOffset) : List VmMapEntry :=
  match vmMapLookupEntry entries start with
  | (true, before, this :: after) =>
    match before.getLast? with
    | some prev =>
      if prev.Agrees this ∧ prev.isShared = false ∧ prev.isSubMap = false ∧
          this.isShared = false ∧ this.isSubMap = false then
        before.dropLast ++ prev.front this.vmeEnd :: after
      else entries
    | none => entries
  | _ => entries

/-- The second half of `vm_map_simplify`: the entry is put together with the one after it. Of
that one only it is tested, twice, whether it is shared or a map. -/
def simplifyUpper (entries : List VmMapEntry) (start : VmOffset) : List VmMapEntry :=
  match vmMapLookupEntry entries start with
  | (true, before, this :: next :: after) =>
    if this.Agrees next ∧ next.isShared = false ∧ next.isSubMap = false then
      before ++ this.front next.vmeEnd :: after
    else entries
  | _ => entries

def vmMapSimplify (map : VmMap) (start : VmOffset) : VmMap :=
  { map with entries := simplifyUpper (simplifyLower map.entries start) start }

/-- The arguments of `vm_map_enter`. -/
structure EnterArgs where
  address : VmOffset
  size : VmOffset
  mask : VmOffset
  anywhere : Bool
  object : Option ℕ
  offset : VmOffset
  needsCopy : Bool
  curProtection : VmProt
  maxProtection : VmProt
  inheritance : BitVec 2
  deriving DecidableEq

namespace EnterArgs

variable (x : EnterArgs)

/-- Where the new region starts if it is to start from an address on, unless it then goes beyond
the end of the map. -/
def place (maxOffset start : VmOffset) : Option VmOffset :=
  let aligned := (start + x.mask) &&& ~~~x.mask
  if aligned < start then none
  else if aligned + x.size > maxOffset ∨ aligned + x.size < aligned then none
  else some aligned

/-- The loop that looks for space from a place on. -/
def findSpace (maxOffset start : VmOffset) (before : List VmMapEntry) :
    List VmMapEntry → Option (VmOffset × List VmMapEntry × List VmMapEntry)
  | [] => (x.place maxOffset start).map fun start => (start, before, [])
  | next :: after =>
    (x.place maxOffset start).bind fun start =>
      if next.vmeStart ≥ start + x.size then some (start, before, next :: after)
      else findSpace maxOffset next.vmeEnd (before ++ [next]) after

/-- The place for a new region anywhere. -/
def anywherePlace (map : VmMap) : Option (VmOffset × List VmMapEntry × List VmMapEntry) :=
  let start := if x.address < map.minOffset then map.minOffset else x.address
  if start > map.maxOffset then none
  else if start = map.minOffset then
    let (before, after) := firstFree map.minOffset map.entries
    x.findSpace map.maxOffset ((before.getLast?.map (·.vmeEnd)).getD start) before after
  else
    match vmMapLookupEntry map.entries start with
    | (true, before, entry :: after) =>
      x.findSpace map.maxOffset entry.vmeEnd (before ++ [entry]) after
    | (_, before, after) => x.findSpace map.maxOffset start before after

/-- The place for a new region at its address. -/
def fixedPlace (map : VmMap) : Except KernReturn (VmOffset × List VmMapEntry × List VmMapEntry) :=
  if x.address &&& x.mask ≠ 0 then .error .noSpace
  else if x.address < map.minOffset ∨ x.address + x.size > map.maxOffset ∨
      x.address ≥ x.address + x.size then .error .invalidAddress
  else
    match vmMapLookupEntry map.entries x.address with
    | (true, _, _) => .error .noSpace
    | (false, before, after) =>
      if after.head?.any fun next => next.vmeStart < x.address + x.size then .error .noSpace
      else .ok (x.address, before, after)

/-- Whether the entry before the new region can be extended, before its object is looked at. -/
def Extends (entry : VmMapEntry) (start : VmOffset) : Prop :=
  x.object = none ∧ entry.vmeEnd = start ∧ entry.isShared = false ∧ entry.isSubMap = false ∧
    entry.inheritance = x.inheritance ∧ entry.protection = x.curProtection ∧
    entry.maxProtection = x.maxProtection ∧ entry.behavior = vmBehaviorDefault ∧
    entry.inTransition = false ∧ entry.wiredCount = 0

instance (entry : VmMapEntry) (start : VmOffset) : Decidable (x.Extends entry start) :=
  inferInstanceAs (Decidable (_ ∧ _))

/-- The call of `vm_map_entry_insert`. -/
def newEntry (start : VmOffset) : VmMapEntry where
  vmeStart := start
  vmeEnd := start + x.size
  object := x.object
  offset := x.offset
  isShared := false
  isSubMap := false
  inTransition := false
  needsWakeup := false
  behavior := vmBehaviorDefault
  needsCopy := x.needsCopy
  protection := x.curProtection
  maxProtection := x.maxProtection
  inheritance := x.inheritance
  wiredCount := 0
  userWiredCount := 0

/-- The entry before the new region is extended, or one is inserted. -/
def insert (coalesces : Bool) (start : VmOffset) (before after : List VmMapEntry) : List VmMapEntry :=
  match before.getLast? with
  | some entry =>
    if x.Extends entry start ∧ coalesces then before.dropLast ++ entry.front (start + x.size) :: after
    else before ++ x.newEntry start :: after
  | none => before ++ x.newEntry start :: after

end EnterArgs

/-- `vm_map_enter`, up to where it wires the region or enters pages: `coalesces` is what
`vm_object_coalesce` returns. A call that waits for space does nothing until it starts again. -/
def vmMapEnter (map : VmMap) (x : EnterArgs) (coalesces : Bool) : KernReturn × VmMap :=
  let enter : VmOffset × List VmMapEntry × List VmMapEntry → KernReturn × VmMap :=
    fun (start, before, after) =>
      (.success, { map with entries := x.insert coalesces start before after })
  if x.anywhere then
    match x.anywherePlace map with
    | some place => enter place
    | none => (.noSpace, map)
  else
    match x.fixedPlace map with
    | .ok place => enter place
    | .error kr => (kr, map)

/-- What `vm_map` gets from the port and from copying the object. -/
structure VmMapOracle where
  /-- The port is valid, and the object that `vm_object_enter` finds, if any. -/
  port : Option (Option ℕ)
  /-- What copying the object returns, the new object and offset and whether it needs a copy. -/
  copied : KernReturn × ℕ × VmOffset × Bool
  /-- The object before the new region can be extended to it. -/
  coalesces : Bool
  deriving DecidableEq

/-- The arguments of `vm_map`. -/
structure VmMapArgs where
  address : VmOffset
  size : VmOffset
  mask : VmOffset
  anywhere : Bool
  offset : VmOffset
  copy : Bool
  curProtection : BitVec 32
  maxProtection : BitVec 32
  inheritance : BitVec 32
  deriving DecidableEq

/-- The call of `vm_map_enter` that `vm_map` makes. -/
def VmMapArgs.enterArgs (x : VmMapArgs) (object : Option ℕ) (offset : VmOffset) (needsCopy : Bool) :
    EnterArgs where
  address := truncPage x.address
  size := roundPage x.size
  mask := x.mask
  anywhere := x.anywhere
  object := object
  offset := offset
  needsCopy := needsCopy
  curProtection := x.curProtection.setWidth 3
  maxProtection := x.maxProtection.setWidth 3
  inheritance := x.inheritance.setWidth 2

def vmMap (map : VmMap) (x : VmMapArgs) (oracle : VmMapOracle) : KernReturn × VmMap :=
  if x.curProtection &&& ~~~protBits vmProtAll ≠ 0 ∨ x.maxProtection &&& ~~~protBits vmProtAll ≠ 0 ∨
      x.inheritance > 2 ∨ x.size = 0 then (.invalidArgument, map)
  else
    match oracle.port with
    | none => vmMapEnter map (x.enterArgs none 0 false) oracle.coalesces
    | some none => (.invalidObject, map)
    | some (some object) =>
      if x.copy then
        match oracle.copied with
        | (.success, object, offset, needsCopy) =>
          vmMapEnter map (x.enterArgs (some object) offset needsCopy) oracle.coalesces
        | (kr, _) => (kr, map)
      else vmMapEnter map (x.enterArgs (some object) x.offset false) oracle.coalesces

/-- The maps, and the headers of entries on their way from one map to another. -/
abbrev VmMaps := ℕ → VmMap

/-- What is done to a map with its lock held. -/
inductive MapAttributeAction
  /-- `vm_map_clip_start` of an entry that ends after the address. -/
  | clipStart (i : ℕ) (startaddr : VmOffset)
  /-- `vm_map_clip_end` of an entry that starts before the address. -/
  | clipEnd (i : ℕ) (endaddr : VmOffset)
  /-- `vm_map_simplify`. -/
  | simplify (start : VmOffset)
  /-- `vm_map_protect`. -/
  | protect (start «end» : VmOffset) (newProt : BitVec 32) (setMax : Bool)
  /-- `vm_map_inherit`. -/
  | inherit (start «end» : VmOffset) (newInheritance : BitVec 2)
  /-- `vm_map_behavior_set`. -/
  | behaviorSet (start «end» : VmOffset) (newBehavior : BitVec 32)
  | vmMap (x : VmMapArgs) (oracle : VmMapOracle)
  /-- A call of `vm_map_enter` from the kernel, which allows every protection or just the
  current one. -/
  | enter (x : EnterArgs) (coalesces : Bool)
  /-- Anything else: entries are removed, wired, copied or moved from another map, given another
  object, or made with the default protections. -/
  | others (entries : List VmMapEntry)
  deriving DecidableEq

/-- Entries by address and disjoint; one may be empty. -/
structure EntriesOrdered (entries : List VmMapEntry) : Prop where
  pairwise : entries.Pairwise fun a b => a.vmeEnd ≤ b.vmeStart
  le : ∀ e ∈ entries, e.vmeStart ≤ e.vmeEnd

instance (entries : List VmMapEntry) : Decidable (EntriesOrdered entries) :=
  decidable_of_iff ((entries.Pairwise fun a b => a.vmeEnd ≤ b.vmeStart) ∧
    ∀ e ∈ entries, e.vmeStart ≤ e.vmeEnd) ⟨fun h => ⟨h.1, h.2⟩, fun h => ⟨h.1, h.2⟩⟩

/-- The entries of a map lie in order within its bounds. -/
structure VmMap.Ok (map : VmMap) : Prop where
  ordered : EntriesOrdered map.entries
  min_le : ∀ e ∈ map.entries, map.minOffset ≤ e.vmeStart
  le_max : ∀ e ∈ map.entries, e.vmeEnd ≤ map.maxOffset

instance (map : VmMap) : Decidable map.Ok :=
  decidable_of_iff (EntriesOrdered map.entries ∧ (∀ e ∈ map.entries, map.minOffset ≤ e.vmeStart) ∧
    ∀ e ∈ map.entries, e.vmeEnd ≤ map.maxOffset)
    ⟨fun h => ⟨h.1, h.2.1, h.2.2⟩, fun h => ⟨h.1, h.2, h.3⟩⟩

namespace VmMaps

/-- Where the entries that others leave have their protections from: a default, or an entry of a
map. -/
def ProtectionsFrom (maps : VmMaps) (e : VmMapEntry) : Prop :=
  e.protection = vmProtDefault ∧ e.maxProtection = vmProtAll ∨
    ∃ m, ∃ e' ∈ (maps m).entries, e.protection = e'.protection ∧ e.maxProtection = e'.maxProtection

/-- What becomes of a map. -/
inductive ActStep (maps : VmMaps) (map : VmMap) : MapAttributeAction → VmMap → Prop
  | clipStart {before after : List VmMapEntry} {entry : VmMapEntry} {i : ℕ} {startaddr : VmOffset}
    (hmap : map.entries = before ++ entry :: after) (hi : before.length = i)
    (hend : startaddr < entry.vmeEnd) :
    ActStep maps map (.clipStart i startaddr) { map with
      entries := (vmMapClipStart before entry startaddr).1 ++
        (vmMapClipStart before entry startaddr).2 :: after }
  | clipEnd {before after : List VmMapEntry} {entry : VmMapEntry} {i : ℕ} {endaddr : VmOffset}
    (hmap : map.entries = before ++ entry :: after) (hi : before.length = i)
    (hstart : entry.vmeStart < endaddr) :
    ActStep maps map (.clipEnd i endaddr) { map with
      entries := before ++ (vmMapClipEnd entry after endaddr).1 ::
        (vmMapClipEnd entry after endaddr).2 }
  | simplify {start : VmOffset} : ActStep maps map (.simplify start) (vmMapSimplify map start)
  | protect {start «end» : VmOffset} {newProt : BitVec 32} {setMax : Bool} :
    ActStep maps map (.protect start «end» newProt setMax)
      (vmMapProtect map start «end» newProt setMax).2
  | inherit {start «end» : VmOffset} {newInheritance : BitVec 2} :
    ActStep maps map (.inherit start «end» newInheritance)
      (vmMapInherit map start «end» newInheritance).2
  | behaviorSet {start «end» : VmOffset} {newBehavior : BitVec 32} :
    ActStep maps map (.behaviorSet start «end» newBehavior)
      (vmMapBehaviorSet map start «end» newBehavior).2
  | vmMap {x : VmMapArgs} {oracle : VmMapOracle} :
    ActStep maps map (.vmMap x oracle) (MachVirtuTerm.vmMap map x oracle).2
  | enter {x : EnterArgs} {coalesces : Bool}
    (hprot : x.maxProtection = vmProtAll ∨ x.maxProtection = x.curProtection) :
    ActStep maps map (.enter x coalesces) (vmMapEnter map x coalesces).2
  | others {entries : List VmMapEntry} (hok : VmMap.Ok { map with entries := entries })
    (hprot : ∀ e ∈ entries, maps.ProtectionsFrom e) :
    ActStep maps map (.others entries) { map with entries := entries }

/-- Something is done to one of the maps. -/
def Step (maps : VmMaps) (l : ℕ × MapAttributeAction) (maps' : VmMaps) : Prop :=
  ∃ map', ActStep maps (maps l.1) l.2 map' ∧ maps' = Function.update maps l.1 map'

end VmMaps

end MachVirtuTerm
