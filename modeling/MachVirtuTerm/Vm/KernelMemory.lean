import MachVirtuTerm.Mach.KernReturn
import MachVirtuTerm.Mach.VmParam
import Mathlib.Algebra.Group.Nat.Defs

/-!
# Allocation of kernel memory

Kernel memory is allocated in steps: a range of the map, an object for it, pages in the object,
and the wiring of the pages. A state here says what a call has taken and not given back. Where
the code uses an entry that it does not have, gives back what it does not hold, takes a lock
that it has, or panics, a function comes to `none`.
-/

open List BitVec Option

namespace MachVirtuTerm

namespace KernelMemory

/-- An entry of the map. -/
structure MapRange where
  start : BitVec 32
  size : BitVec 32
  /-- The object has been entered. -/
  object : Bool
  offset : BitVec 32
  wiredCount : ℕ
  deriving DecidableEq

/-- What a call holds. -/
structure Held where
  mapLocked : Bool
  objectLocked : Bool
  entry : Option MapRange
  /-- References to the object. -/
  refs : ℕ
  /-- Offsets of pages in the object. -/
  pages : List (BitVec 32)
  /-- The number of contiguous pages that are in no object. -/
  loose : ℕ
  /-- Offsets of pages that are wired. -/
  wired : List (BitVec 32)
  /-- Addresses at which the pages of some offsets are mapped. -/
  mapped : List (BitVec 32 × BitVec 32)
  deriving DecidableEq

/-- Nothing is held. -/
def Held.nothing : Held := ⟨false, false, none, 0, [], 0, [], []⟩

/-- The offsets of some pages from an offset on. -/
def offsets (offset : BitVec 32) (n : ℕ) : List (BitVec 32) :=
  (List.range n).map fun i => offset + 4096 * BitVec.ofNat 32 i

/-- The number of pages in some bytes. -/
def atop (size : BitVec 32) : ℕ := size.toNat / pageSize

namespace Held

variable (s : Held)

/-! ## Steps -/

/-- `vm_object_reference`. The first reference to an object of its own is that of
`vm_object_allocate`. -/
def vmObjectReference : Held := { s with refs := s.refs + 1 }

/-- `vm_object_deallocate`. An object of its own goes away with its last reference. -/
def vmObjectDeallocate (kobject : Bool) : Option Held :=
  if s.refs = 0 then none
  else if s.refs = 1 ∧ kobject = false then
    some { s with refs := 0, pages := [], wired := [] }
  else some { s with refs := s.refs - 1 }

/-- `vm_map_find_space` with success, which leaves the map locked. -/
def vmMapFindSpace (start size : BitVec 32) : Held :=
  { s with mapLocked := true, entry := some ⟨start, size, false, 0, 0⟩ }

def vmMapUnlock : Option Held := if s.mapLocked then some { s with mapLocked := false } else none

def vmObjectLock : Option Held :=
  if s.objectLocked then none else some { s with objectLocked := true }

def vmObjectUnlock : Option Held :=
  if s.objectLocked then some { s with objectLocked := false } else none

variable (offset : BitVec 32)

/-- The object is entered in the entry that was found. -/
def enterObject : Option Held :=
  s.entry.map fun r => { s with entry := some { r with object := true, offset := offset } }

/-- `vm_map_remove` of the range. A range that is empty stays, and one that is wired. -/
def vmMapRemove (kobject : Bool) : Option Held :=
  if s.mapLocked then none
  else
    match s.entry with
    | none => some s
    | some r =>
      if r.size = 0 ∨ r.wiredCount ≠ 0 then some s
      else
        let s := { s with entry := none, mapped := [] }
        if r.object then s.vmObjectDeallocate kobject else some s

/-- `vm_map_wire` with success. The pages are mapped when they are wired. It does not come to an
entry that is empty. -/
def vmMapWire : Option Held :=
  if s.mapLocked then none
  else
    s.entry.map fun r =>
      { s with
        entry := some { r with wiredCount := if r.size = 0 then r.wiredCount else r.wiredCount + 1 }
        wired := offsets r.offset (atop r.size)
        mapped := (offsets r.start (atop r.size)).zip (offsets r.offset (atop r.size)) }

/-- `vm_object_page_remove` of some pages from an offset on. -/
def vmObjectPageRemove (n : ℕ) : Held :=
  { s with pages := s.pages.filter fun o => o ∉ offsets offset n }

/-- A page is put in the object. -/
def vmPageInsert : Held := { s with pages := s.pages ++ [offset] }

end Held

/-! ## kmem_alloc_contig -/

def kmaKobject : BitVec 32 := 4

/-- A call of `kmem_alloc_contig`, with the results of the calls that it makes. -/
structure ContigCall where
  /-- There is a map. -/
  map : Bool
  size : BitVec 32
  flags : BitVec 32
  findSpace : Option (BitVec 32)
  cpmAllocate : KernReturn
  wire : KernReturn

def vmMinKernelAddress : BitVec 32 := 0

/-- The loop that puts contiguous pages in the object. -/
def insertLoose (offset : BitVec 32) : ℕ → ℕ → Held → Option Held
  | _, 0, s => some s
  | i, n + 1, s =>
    if s.loose = 0 then none
    else
      insertLoose offset (i + 1) n
        ({ s with loose := s.loose - 1 }.vmPageInsert (offset + 4096 * BitVec.ofNat 32 i))

/-- The object is made, or is the kernel object. -/
def takeObject (kobject : Bool) (s : Held) : Held := if kobject then s else s.vmObjectReference

/-- The object is entered in the entry of the range. -/
def fillEntry (kobject : Bool) (offset : BitVec 32) (s : Held) : Option Held :=
  if kobject then s.vmObjectReference.enterObject offset else s.enterObject offset

/-- The wiring, and what follows if it fails. -/
def wireRange (kobject : Bool) (offset addr : BitVec 32) (n : ℕ) (wire : KernReturn) (s : Held) :
    Option (KernReturn × BitVec 32 × Held) :=
  if wire ≠ .success then do
    let s ← if kobject then
        s.vmObjectLock.bind fun s => (s.vmObjectPageRemove offset n).vmObjectUnlock
      else some s
    let s ← s.vmMapRemove kobject
    return (wire, 0, s)
  else do
    let s ← s.vmMapWire
    return (.success, addr, s)

/-- `kmem_alloc_contig`: the code, the address and what is held. -/
def kmemAllocContig (x : ContigCall) : Option (KernReturn × BitVec 32 × Held) :=
  let kobject := decide (x.flags &&& kmaKobject ≠ 0)
  if ¬x.map ∨ x.flags ≠ 0 ∧ x.flags ^^^ kmaKobject ≠ 0 then
    some (.invalidArgument, 0, .nothing)
  else if x.size = 0 then some (.invalidArgument, 0, .nothing)
  else
    let size := roundPage x.size
    let s := takeObject kobject .nothing
    match x.findSpace with
    -- The entry is used all the same.
    | none => do
      let s ← fillEntry kobject 0 s
      let s ← if kobject then some s else s.vmObjectDeallocate false
      return (.noSpace, 0, s)
    | some addr => do
      let offset := if kobject then addr - vmMinKernelAddress else 0
      let s ← fillEntry kobject offset (s.vmMapFindSpace addr size)
      let s ← s.vmMapUnlock
      if x.cpmAllocate ≠ .success then
        let s ← s.vmMapRemove kobject
        return (x.cpmAllocate, 0, s)
      else
        let s ← { s with loose := atop size }.vmObjectLock
        let s ← insertLoose offset 0 (atop size) s
        let s ← s.vmObjectUnlock
        wireRange kobject offset addr (atop size) x.wire s

/-! ## kernel_memory_allocate -/

/-- A call of `kernel_memory_allocate`. -/
structure AllocateCall where
  size : BitVec 32
  flags : BitVec 32
  findSpace : Option (BitVec 32)
  /-- Whether `vm_page_alloc` finds a page, each time that it is called. -/
  pageAlloc : List Bool
  wire : KernReturn

def kmaNopagewait : BitVec 32 := 2

/-- What a loop that allocates pages comes to. -/
inductive Pages
  | done (s : Held)
  | waiting
  /-- No page was found, after some others. -/
  | shortage (i : ℕ) (s : Held)

/-- The loop that allocates pages, of which there are some already. -/
def allocPages (nowait : Bool) (offset : BitVec 32) : List Bool → ℕ → ℕ → Held → Pages
  | _, _, 0, s => .done s
  | [], _, _ + 1, _ => .waiting
  | true :: found, i, n + 1, s =>
    allocPages nowait offset found (i + 1) n (s.vmPageInsert (offset + 4096 * BitVec.ofNat 32 i))
  | false :: found, i, n + 1, s =>
    if nowait then .shortage i s else allocPages nowait offset found i (n + 1) s

/-- What a call comes to: it has returned, or waits for pages. -/
inductive Outcome
  | waiting
  | returned (kr : KernReturn) (addr : BitVec 32) (s : Held)

def kernelMemoryAllocate (x : AllocateCall) : Option Outcome :=
  let kobject := decide (x.flags &&& kmaKobject ≠ 0)
  let size := roundPage x.size
  let s := takeObject kobject .nothing
  match x.findSpace with
  | none => do
    let s ← if kobject then some s else s.vmObjectDeallocate false
    return .returned .noSpace 0 s
  | some addr => do
    let offset := if kobject then addr - vmMinKernelAddress else 0
    let s ← fillEntry kobject offset (s.vmMapFindSpace addr size)
    let s ← s.vmMapUnlock
    let s ← s.vmObjectLock
    let nowait := decide (x.flags &&& kmaNopagewait ≠ 0)
    match allocPages nowait offset x.pageAlloc 0 (atop size) s with
    | .waiting => return .waiting
    | .shortage i s =>
      let s := if kobject then s.vmObjectPageRemove offset i else s
      let s ← s.vmObjectUnlock
      let s ← s.vmMapRemove kobject
      return .returned .resourceShortage 0 s
    | .done s =>
      let s ← s.vmObjectUnlock
      let r ← wireRange kobject offset addr (atop size) x.wire s
      return .returned r.1 r.2.1 r.2.2

/-! ## kmem_realloc -/

/-- A call of `kmem_realloc`, for a region that was allocated with `kmem_alloc`: its object has
the size of the region. -/
structure ReallocCall where
  oldaddr : BitVec 32
  oldsize : BitVec 32
  newsize : BitVec 32
  findSpace : Option (BitVec 32)

/-- `oldsize`, from page to page. -/
def ReallocCall.roundedOldsize (x : ReallocCall) : BitVec 32 :=
  roundPage (x.oldaddr + x.oldsize) - truncPage x.oldaddr

/-- The number of turns of a loop from an address to another one. -/
def turns (start stop : BitVec 32) : ℕ := if start < stop then atop (stop - start) else 0

/-- Some pages are wired and mapped. -/
def Held.mapPages (start offset : BitVec 32) (n : ℕ) (s : Held) : Held :=
  { s with
    wired := s.wired ++ offsets offset n
    mapped := s.mapped ++ (offsets start n).zip (offsets offset n) }

/-- `kmem_realloc`. The object is that of the old region. -/
def kmemRealloc (x : ReallocCall) (pageAlloc : List Bool) : Option Outcome :=
  let oldsize := x.roundedOldsize
  let newsize := roundPage x.newsize
  match x.findSpace with
  | none => some (.returned .noSpace 0 .nothing)
  | some newaddr => do
    let s := (Held.nothing.vmMapFindSpace newaddr newsize).vmObjectReference
    let s ← s.vmObjectLock
    let s ← s.vmObjectUnlock
    let s ← s.enterObject 0
    let s : Held := { s with entry := s.entry.map fun r => { r with wiredCount := 1 } }
    let s ← s.vmMapUnlock
    -- `kmem_remap_pages`, of the pages that the old region has
    let s := s.mapPages newaddr 0 (turns newaddr (newaddr + oldsize))
    -- `kmem_alloc_pages`
    let n := turns (newaddr + oldsize) (newaddr + newsize)
    match allocPages false oldsize pageAlloc 0 n s with
    | .waiting => return .waiting
    | .shortage _ _ => none
    | .done s => return .returned .success newaddr (s.mapPages (newaddr + oldsize) oldsize n)

end KernelMemory

end MachVirtuTerm

/-!
# Kernel memory is allocated as a whole

A call returns a range with all of its pages, or an error with nothing held. The exceptions are
the allocation of contiguous pages, which goes on without an entry if there is no space in the
map, a reallocation to a smaller size, and a size that is rounded to no pages: its entry stays in
the map when a later step fails.
-/

namespace MachVirtuTerm

namespace KernelMemory

variable {s : Held} {offset addr size : BitVec 32} {n : ℕ} {kobject : Bool}

/-- A range is allocated: its pages, of which some were there before, are in the object, wired
and mapped, and nothing else is held. -/
structure Held.Allocated (s : Held) (addr size : BitVec 32) (old : ℕ) : Prop where
  mapLocked : s.mapLocked = false
  objectLocked : s.objectLocked = false
  refs : s.refs = 1
  loose : s.loose = 0
  old_le : old ≤ atop size
  entry : ∃ offset wiredCount, s.entry = some ⟨addr, size, true, offset, wiredCount⟩ ∧
    (size ≠ 0 → wiredCount = 1) ∧
    s.pages = (offsets offset (atop size)).drop old ∧
    s.wired = offsets offset (atop size) ∧
    s.mapped = (offsets addr (atop size)).zip (offsets offset (atop size))

/-- A return: a range, or an error and nothing. -/
def Whole (size : BitVec 32) (old : ℕ) (kr : KernReturn) (addr : BitVec 32) (s : Held) : Prop :=
  (kr = .success → s.Allocated addr size old) ∧ (kr ≠ .success → s = .nothing)

/-- A call that has returned leaves a range, or an error and nothing. -/
def ReturnsWhole (size : BitVec 32) (old : ℕ) (o : Option Outcome) : Prop :=
  ∃ outcome, o = some outcome ∧
    ∀ kr addr s, outcome = .returned kr addr s → Whole size old kr addr s

def ContigCall.Atomic (x : ContigCall) : Prop :=
  ∃ kr addr s, kmemAllocContig x = some (kr, addr, s) ∧ Whole (roundPage x.size) 0 kr addr s

def AllocateCall.Atomic (x : AllocateCall) : Prop :=
  ReturnsWhole (roundPage x.size) 0 (kernelMemoryAllocate x)

/-- The pages of the old region are the first ones. -/
def ReallocCall.Atomic (x : ReallocCall) : Prop :=
  ∀ pageAlloc, ReturnsWhole (roundPage x.newsize) (atop x.roundedOldsize) (kmemRealloc x pageAlloc)

/-! ## Offsets -/

@[simp] theorem length_offsets (offset : BitVec 32) (n : ℕ) : (offsets offset n).length = n := by
  rw [offsets, length_map, length_range]

theorem offsets_succ (offset : BitVec 32) (n : ℕ) :
    offsets offset (n + 1) = offsets offset n ++ [offset + 4096 * BitVec.ofNat 32 n] := by
  rw [offsets, range_succ, map_append]
  rfl

theorem offsets_add (offset : BitVec 32) (m n : ℕ) :
    offsets offset (m + n) = offsets offset m ++ offsets (offset + 4096 * BitVec.ofNat 32 m) n := by
  rw [offsets, range_add, map_append, List.map_map]
  refine congrArg _ (map_congr_left fun i _ => ?_)
  rw [Function.comp_apply, ofNat_add, BitVec.mul_add, BitVec.add_assoc]

/-! ## Loops -/

/-- What the state is once the range has its pages. -/
def filled (offset addr size : BitVec 32) (pages : List (BitVec 32)) : Held :=
  ⟨false, false, some ⟨addr, size, true, offset, 0⟩, 1, pages, 0, [], []⟩

/-- All contiguous pages come to the object. -/
theorem insertLoose_eq {i : ℕ} (hloose : s.loose = n) (hpages : s.pages = offsets offset i) :
    insertLoose offset i n s = some { s with loose := 0, pages := offsets offset (i + n) } := by
  induction n generalizing i s with
  | zero =>
    rw [insertLoose, Nat.add_zero, ← hpages, ← hloose]
  | succ n ih =>
    rw [insertLoose, if_neg (by omega), ih]
    · rw [Nat.add_right_comm, Nat.add_assoc]
      rfl
    · change s.loose - 1 = n
      omega
    · change s.pages ++ _ = _
      rw [hpages, offsets_succ]

/-- The loop waits, gives up after some pages, or has all pages. -/
theorem allocPages_cases {nowait : Bool} {base : List (BitVec 32)} (found : List Bool) :
    ∀ {i n : ℕ} {s : Held}, s.pages = base ++ offsets offset i →
      allocPages nowait offset found i n s = .waiting ∧ n ≠ 0 ∨
      (∃ k, allocPages nowait offset found i n s =
        .shortage k { s with pages := base ++ offsets offset k } ∧ nowait = true ∧ n ≠ 0) ∨
      allocPages nowait offset found i n s =
        .done { s with pages := base ++ offsets offset (i + n) } := by
  induction found with
  | nil =>
    intro i n s hpages
    cases n with
    | zero => exact Or.inr (Or.inr (by rw [allocPages, Nat.add_zero, ← hpages]))
    | succ n => exact Or.inl ⟨by rw [allocPages], Nat.succ_ne_zero n⟩
  | cons b found ih =>
    intro i n s hpages
    cases n with
    | zero => exact Or.inr (Or.inr (by rw [allocPages, Nat.add_zero, ← hpages]))
    | succ n =>
      cases b with
      | true =>
        have hnext : (s.vmPageInsert (offset + 4096 * BitVec.ofNat 32 i)).pages =
            base ++ offsets offset (i + 1) := by
          change s.pages ++ _ = _
          rw [hpages, offsets_succ, List.append_assoc]
        rw [allocPages, ← Nat.add_assoc, Nat.add_right_comm]
        obtain ⟨hwait, -⟩ | ⟨k, hshort, hnowait, -⟩ | hdone := ih hnext
        · exact Or.inl ⟨hwait, Nat.succ_ne_zero n⟩
        · exact Or.inr (Or.inl ⟨k, hshort, hnowait, Nat.succ_ne_zero n⟩)
        · exact Or.inr (Or.inr hdone)
      | false =>
        rw [allocPages]
        split
        next hnowait => exact Or.inr (Or.inl ⟨i, by rw [← hpages], hnowait, Nat.succ_ne_zero n⟩)
        next => exact ih hpages

/-- With pages enough there is no waiting. -/
theorem allocPages_replicate {nowait : Bool} {base : List (BitVec 32)} {i : ℕ}
    (hpages : s.pages = base ++ offsets offset i) :
    allocPages nowait offset (List.replicate n true) i n s =
      .done { s with pages := base ++ offsets offset (i + n) } := by
  induction n generalizing i s with
  | zero => rw [allocPages, Nat.add_zero, ← hpages]
  | succ n ih =>
    rw [List.replicate_succ, allocPages, ← Nat.add_assoc, Nat.add_right_comm]
    refine ih ?_
    change s.pages ++ _ = _
    rw [hpages, offsets_succ, List.append_assoc]

/-! ## The end of a call -/

/-- The pages of a range leave the object. -/
theorem vmObjectPageRemove_offsets (hpages : s.pages = offsets offset n) :
    s.vmObjectPageRemove offset n = { s with pages := [] } := by
  have hnone : s.pages.filter (fun o => o ∉ offsets offset n) = [] := by
    rw [filter_eq_nil_iff, hpages]
    intro o ho
    simpa using ho
  rw [Held.vmObjectPageRemove, hnone]

/-- The object with its lock. -/
def locked (s : Held) : Held := { s with objectLocked := true }

/-- A range goes away, with the object and its pages if it is one of its own. -/
theorem vmMapRemove_filled {pages : List (BitVec 32)} (hsize : size ≠ 0)
    (hpages : kobject = true → pages = []) :
    (filled offset addr size pages).vmMapRemove kobject = some .nothing := by
  change (if size = 0 ∨ (0 : ℕ) ≠ 0 then _ else _) = _
  rw [if_neg fun hor => hor.elim hsize fun hne => hne rfl]
  cases kobject with
  | true =>
    rw [hpages rfl]
    rfl
  | false => rfl

/-- The pages of the kernel object are removed before the range is. -/
theorem vmObjectPageRemove_filled (offset addr size : BitVec 32) (n : ℕ) :
    ((locked (filled offset addr size (offsets offset n))).vmObjectPageRemove
      offset n).vmObjectUnlock = some (filled offset addr size []) := by
  rw [vmObjectPageRemove_offsets rfl]
  rfl

/-- When a range cannot be wired, all that belongs to it goes away, unless it is empty. -/
theorem wireRange_failed {wire : KernReturn} (hfail : wire ≠ .success) :
    wireRange kobject offset addr (atop size) wire
        (filled offset addr size (offsets offset (atop size))) =
      some (wire, 0, if size = 0 then filled offset addr size [] else .nothing) := by
  have hremove : (filled offset addr size []).vmMapRemove kobject =
      some (if size = 0 then filled offset addr size [] else .nothing) := by
    split
    next hsize =>
      subst hsize
      rfl
    next hsize => exact vmMapRemove_filled hsize fun _ => rfl
  rw [wireRange, if_pos hfail]
  cases kobject with
  | true =>
    have hlock : (filled offset addr size (offsets offset (atop size))).vmObjectLock =
        some (locked (filled offset addr size (offsets offset (atop size)))) := rfl
    rw [if_pos rfl, hlock, bind_some, vmObjectPageRemove_filled]
    change Option.bind ((filled offset addr size []).vmMapRemove true) _ = _
    rw [hremove]
    rfl
  | false =>
    by_cases hsize : size = 0
    · subst hsize
      rfl
    · have hgone : (filled offset addr size (offsets offset (atop size))).vmMapRemove false =
          some .nothing := vmMapRemove_filled hsize fun hfalse => absurd hfalse Bool.false_ne_true
      change Option.bind ((filled offset addr size (offsets offset (atop size))).vmMapRemove
        false) _ = _
      rw [hgone, if_neg hsize]
      rfl

/-- A range with its pages is wired, or goes away with all that belongs to it, unless it is empty:
then it stays. -/
theorem wireRange_whole_iff (wire : KernReturn) :
    ∃ kr addr' s, wireRange kobject offset addr (atop size) wire
      (filled offset addr size (offsets offset (atop size))) = some (kr, addr', s) ∧
      (Whole size 0 kr addr' s ↔ size ≠ 0 ∨ wire = .success) := by
  by_cases hfail : wire = .success
  · subst hfail
    refine ⟨_, _, _, rfl, iff_of_true ⟨fun _ => ?_, fun hne => absurd rfl hne⟩ (.inr rfl)⟩
    exact ⟨rfl, rfl, rfl, rfl, Nat.zero_le _, offset, _, rfl, fun hsize => if_neg hsize, rfl, rfl,
      rfl⟩
  rw [wireRange_failed hfail]
  refine ⟨_, _, _, rfl, ?_⟩
  by_cases hsize : size = 0
  · rw [if_pos hsize]
    refine iff_of_false (fun hwhole => ?_) (by simp [hfail, hsize])
    cases hwhole.2 hfail
  · rw [if_neg hsize]
    exact iff_of_true ⟨fun hsuccess => absurd hsuccess hfail, fun _ => rfl⟩ (.inl hsize)

/-! ## Contiguous pages -/

/-- The arguments are refused. -/
def ContigCall.Refused (x : ContigCall) : Prop :=
  (¬x.map ∨ x.flags ≠ 0 ∧ x.flags ^^^ kmaKobject ≠ 0) ∨ x.size = 0

/-- The map with its lock. -/
def mapLocked (s : Held) : Held := { s with mapLocked := true }

/-- The entry of the range has its object. -/
theorem fillEntry_found (kobject : Bool) (offset addr size : BitVec 32) :
    fillEntry kobject offset ((takeObject kobject .nothing).vmMapFindSpace addr size) =
      some (mapLocked (filled offset addr size [])) := by
  cases kobject <;> rfl

theorem vmMapUnlock_mapLocked (offset addr size : BitVec 32) (pages : List (BitVec 32)) :
    (mapLocked (filled offset addr size pages)).vmMapUnlock =
      some (filled offset addr size pages) :=
  rfl

/-- There is no entry to use. -/
theorem fillEntry_missing (kobject : Bool) (offset : BitVec 32) :
    fillEntry kobject offset (takeObject kobject .nothing) = none := by
  cases kobject <;> rfl

theorem kmemAllocContig_refused {x : ContigCall} (hrefused : x.Refused) :
    kmemAllocContig x = some (.invalidArgument, 0, .nothing) := by
  rw [kmemAllocContig]
  split
  · rfl
  next hargs => rw [if_pos (hrefused.resolve_left hargs)]

/-- Without space in the map, an entry is used that is not there. -/
theorem kmemAllocContig_noSpace {x : ContigCall} (hargs : ¬x.Refused) (hfind : x.findSpace = none) :
    kmemAllocContig x = none := by
  rw [kmemAllocContig, if_neg fun h => hargs (Or.inl h), if_neg fun h => hargs (Or.inr h), hfind]
  change (fillEntry _ 0 _).bind _ = none
  rw [fillEntry_missing, bind_none]

/-- Contiguous pages all come to the object, whose lock is taken and left. -/
theorem insertLoose_filled (offset addr size : BitVec 32) :
    insertLoose offset 0 (atop size)
        (locked { filled offset addr size [] with loose := atop size }) =
      some (locked (filled offset addr size (offsets offset (atop size)))) := by
  have hinsert := @insertLoose_eq
    (locked { filled offset addr size [] with loose := atop size }) offset (atop size) 0 rfl rfl
  rw [Nat.zero_add] at hinsert
  exact hinsert

/-- The range that was found is empty, and a step after that fails. -/
def ContigCall.Strands (x : ContigCall) : Prop :=
  roundPage x.size = 0 ∧ ¬(x.cpmAllocate = .success ∧ x.wire = .success)

theorem ContigCall.atomic_of_space {x : ContigCall} (hargs : ¬x.Refused) {addr : BitVec 32}
    (hfind : x.findSpace = some addr) : x.Atomic ↔ ¬x.Strands := by
  rw [Strands]
  rw [ContigCall.Atomic, kmemAllocContig, if_neg fun h => hargs (Or.inl h),
    if_neg fun h => hargs (Or.inr h), hfind]
  generalize decide (x.flags &&& kmaKobject ≠ 0) = kobject
  generalize hoffset : (if kobject = true then addr - vmMinKernelAddress else 0) = offset
  generalize roundPage x.size = size
  simp only [hoffset, fillEntry_found, vmMapUnlock_mapLocked, bind_eq_bind, bind_some]
  split
  next hfail =>
    by_cases hsize : size = 0
    · subst hsize
      refine iff_of_false (fun hatomic => ?_) fun hwhole => hwhole ⟨rfl, fun hboth => hfail hboth.1⟩
      obtain ⟨kr, addr, s, hreturn, hwhole⟩ := hatomic
      cases hreturn
      cases hwhole.2 hfail
    · rw [vmMapRemove_filled hsize fun _ => rfl]
      exact iff_of_true ⟨_, _, _, rfl, fun hsuccess => absurd hsuccess hfail, fun _ => rfl⟩
        fun hstrands => hsize hstrands.1
  next hpages =>
    have hlock : ({ filled offset addr size [] with loose := atop size } : Held).vmObjectLock =
        some (locked { filled offset addr size [] with loose := atop size }) := rfl
    rw [hlock, bind_some, insertLoose_filled, bind_some]
    obtain ⟨kr, addr', s, hwire, hiff⟩ := @wireRange_whole_iff offset addr size kobject x.wire
    have hunlock : (locked (filled offset addr size (offsets offset (atop size)))).vmObjectUnlock =
        some (filled offset addr size (offsets offset (atop size))) := rfl
    rw [hunlock, bind_some, hwire]
    have hsuccess := Decidable.of_not_not hpages
    constructor
    · rintro ⟨_, _, _, hreturn, hwhole⟩ ⟨hsize, hnot⟩
      cases hreturn
      exact (hiff.mp hwhole).elim (fun hne => hne hsize) fun hwire => hnot ⟨hsuccess, hwire⟩
    · intro hnot
      refine ⟨kr, addr', s, rfl, hiff.mpr ?_⟩
      by_cases hsize : size = 0
      · exact .inr (Decidable.of_not_not fun hwire => hnot ⟨hsize, fun hboth => hwire hboth.2⟩)
      · exact .inl hsize

/-- A contiguous allocation is a whole just if it does not get to look for space, or finds it and
does not leave an empty range. -/
theorem ContigCall.atomic_iff (x : ContigCall) :
    x.Atomic ↔ x.Refused ∨ x.findSpace ≠ none ∧ ¬x.Strands := by
  constructor
  · intro hatomic
    by_cases hargs : x.Refused
    · exact Or.inl hargs
    · refine Or.inr ?_
      cases hfind : x.findSpace with
      | none =>
        obtain ⟨kr, addr, s, hreturn, -⟩ := hatomic
        rw [kmemAllocContig_noSpace hargs hfind] at hreturn
        cases hreturn
      | some addr => exact ⟨some_ne_none _, (atomic_of_space hargs hfind).mp hatomic⟩
  · intro hspace
    by_cases hargs : x.Refused
    · exact ⟨_, _, _, kmemAllocContig_refused hargs, fun hsuccess => (by cases hsuccess),
        fun _ => rfl⟩
    · obtain ⟨hfound, hnot⟩ := hspace.resolve_left hargs
      obtain ⟨addr, hfind⟩ := ne_none_iff_exists'.mp hfound
      exact (ContigCall.atomic_of_space hargs hfind).mpr hnot

/-! ## Pages one by one -/

/-- Too few pages: those there are go away with the range. -/
theorem shortage_released (offset addr : BitVec 32) (hsize : size ≠ 0) (kobject : Bool) (k : ℕ) :
    ((if kobject then (locked (filled offset addr size (offsets offset k))).vmObjectPageRemove
        offset k else locked (filled offset addr size (offsets offset k))).vmObjectUnlock.bind
      fun s => s.vmMapRemove kobject) = some .nothing := by
  cases kobject with
  | true =>
    rw [if_pos rfl, vmObjectPageRemove_filled, bind_some]
    exact vmMapRemove_filled hsize fun _ => rfl
  | false => exact vmMapRemove_filled hsize fun hfalse => absurd hfalse Bool.false_ne_true

/-- An allocation of pages one by one is a whole, whatever fails, unless an empty range is found
and not wired. -/
theorem AllocateCall.atomic_iff (x : AllocateCall) :
    x.Atomic ↔ x.findSpace = none ∨ roundPage x.size ≠ 0 ∨ x.wire = .success := by
  rw [AllocateCall.Atomic, kernelMemoryAllocate]
  generalize decide (x.flags &&& kmaKobject ≠ 0) = kobject
  generalize roundPage x.size = size
  cases x.findSpace with
  | none =>
    refine iff_of_true ⟨.returned .noSpace 0 .nothing, ?_, fun kr addr s hreturn => ?_⟩ (.inl rfl)
    · cases kobject <;> rfl
    · cases hreturn
      exact ⟨fun hsuccess => (by cases hsuccess), fun _ => rfl⟩
  | some addr =>
    rw [or_iff_right (some_ne_none addr)]
    generalize hoffset : (if kobject = true then addr - vmMinKernelAddress else 0) = offset
    have hlock : (filled offset addr size []).vmObjectLock =
        some (locked (filled offset addr size [])) := rfl
    simp only [hoffset, fillEntry_found, vmMapUnlock_mapLocked, hlock, bind_eq_bind, bind_some]
    have hstart : (locked (filled offset addr size [])).pages = [] ++ offsets offset 0 := rfl
    have hcases := @allocPages_cases offset (decide (x.flags &&& kmaNopagewait ≠ 0)) []
      x.pageAlloc 0 (atop size) _ hstart
    have hsome (hn : atop size ≠ 0) : size ≠ 0 := fun hzero => hn (by rw [hzero]; rfl)
    obtain ⟨hwait, hn⟩ | ⟨k, hshort, -, hn⟩ | hdone := hcases
    · rw [hwait]
      exact iff_of_true ⟨.waiting, rfl, fun kr addr s hreturn => (by cases hreturn)⟩
        (.inl (hsome hn))
    · rw [hshort]
      refine iff_of_true ⟨.returned .resourceShortage 0 .nothing, ?_, fun kr addr s hreturn => ?_⟩
        (.inl (hsome hn))
      · have hreleased := shortage_released offset addr (hsome hn) kobject k
        obtain ⟨s, hunlock, hremove⟩ := bind_eq_some_iff.mp hreleased
        change Option.bind _ (fun s => Option.bind _ _) = _
        refine bind_eq_some_iff.mpr ⟨s, hunlock, ?_⟩
        rw [hremove]
        rfl
      · cases hreturn
        exact ⟨fun hsuccess => (by cases hsuccess), fun _ => rfl⟩
    · rw [hdone, Nat.zero_add]
      obtain ⟨kr, addr', s, hwire, hwhole⟩ :=
        @wireRange_whole_iff offset addr size kobject x.wire
      change ReturnsWhole size 0 (Option.bind
        (some (filled offset addr size (offsets offset (atop size)))) _) ↔ _
      rw [bind_some, hwire, ← hwhole]
      refine ⟨fun ⟨outcome, hreturn, hall⟩ => hall _ _ _ (some_inj.mp hreturn).symm,
        fun hwhole => ⟨_, rfl, fun kr addr s hreturn => ?_⟩⟩
      cases hreturn
      exact hwhole

/-! ## Reallocation -/

theorem toNat_truncPage_mod (x : BitVec 32) : (truncPage x).toNat % pageSize = 0 := by
  have htrunc := toNat_truncPage x
  have hle := Nat.mod_le x.toNat pageSize
  rw [htrunc, pageSize]
  omega

theorem ReallocCall.roundedOldsize_mod (x : ReallocCall) :
    x.roundedOldsize.toNat % pageSize = 0 := by
  have hmin := toNat_truncPage_mod x.oldaddr
  have hmax := toNat_truncPage_mod (x.oldaddr + x.oldsize + pageMask)
  rw [pageSize] at *
  rw [ReallocCall.roundedOldsize, roundPage, toNat_sub]
  omega

/-- A number of whole pages is the pages in it. -/
theorem mul_atop (hsize : size.toNat % pageSize = 0) :
    4096 * BitVec.ofNat 32 (atop size) = size := by
  refine eq_of_toNat_eq ?_
  have hlt := size.isLt
  rw [toNat_mul, toNat_ofNat, atop]
  simp only [pageSize] at *
  change 4096 * (size.toNat / 4096 % 2 ^ 32) % 2 ^ 32 = _
  omega

theorem turns_add {start : BitVec 32} (hroom : start.toNat + size.toNat < 2 ^ 32) :
    turns start (start + size) = atop size := by
  have hadd : (start + size).toNat = start.toNat + size.toNat := by
    rw [toNat_add, Nat.mod_eq_of_lt hroom]
  have hsub : start + size - start = size := by bv_omega
  rw [turns, hsub]
  split
  · rfl
  next hempty =>
    rw [lt_def] at hempty
    rw [atop, show size.toNat = 0 by omega, Nat.zero_div]

/-- The first bytes of a range and its last bytes are its pages. -/
theorem atop_add_sub {old : BitVec 32} (hold : old.toNat % pageSize = 0)
    (hle : old ≤ size) : atop old + atop (size - old) = atop size := by
  rw [le_def] at hle
  rw [atop, atop, atop, toNat_sub_of_le (by rwa [le_def])]
  simp only [pageSize] at *
  omega

/-- A range that is mapped, as a reallocation finds it. -/
def remapped (newaddr oldsize newsize : BitVec 32) : Held :=
  { filled 0 newaddr newsize [] with entry := some ⟨newaddr, newsize, true, 0, 1⟩ }.mapPages
    newaddr 0 (turns newaddr (newaddr + oldsize))

/-- What a reallocation comes to once there is space. -/
theorem kmemRealloc_found {x : ReallocCall} {newaddr : BitVec 32}
    (hfind : x.findSpace = some newaddr) (pageAlloc : List Bool) :
    kmemRealloc x pageAlloc =
      let n := turns (newaddr + x.roundedOldsize) (newaddr + roundPage x.newsize)
      match allocPages false x.roundedOldsize pageAlloc 0 n
        (remapped newaddr x.roundedOldsize (roundPage x.newsize)) with
      | .waiting => some .waiting
      | .shortage _ _ => none
      | .done s => some (.returned .success newaddr
          (s.mapPages (newaddr + x.roundedOldsize) x.roundedOldsize n)) := by
  rw [kmemRealloc, hfind]
  rfl

/-- The old pages and the new ones are those of the range. -/
theorem mapPages_allocated {newaddr old new : BitVec 32} (hold : old.toNat % pageSize = 0)
    (hle : old ≤ new) (hroom : newaddr.toNat + new.toNat < 2 ^ 32) {n : ℕ}
    (hn : n = turns (newaddr + old) (newaddr + new)) :
    ({ remapped newaddr old new with pages := offsets old n }.mapPages
      (newaddr + old) old n).Allocated newaddr new (atop old) := by
  have hle' := le_def.mp hle
  have hsub : (new - old).toNat = new.toNat - old.toNat := toNat_sub_of_le hle
  have hadd : (newaddr + old).toNat = newaddr.toNat + old.toNat := by
    rw [toNat_add, Nat.mod_eq_of_lt (by omega)]
  have hn : n = atop (new - old) := by
    rw [hn, show newaddr + new = newaddr + old + (new - old) from by bv_omega]
    exact turns_add (by omega)
  have hm : turns newaddr (newaddr + old) = atop old := turns_add (by omega)
  have hpages := atop_add_sub hold hle
  have hoffsets (offset : BitVec 32) :
      offsets offset (atop new) = offsets offset (atop old) ++ offsets (offset + old) n := by
    rw [← hpages, offsets_add, mul_atop hold, hn]
  have hzero : (0 : BitVec 32) + old = old := BitVec.zero_add old
  refine ⟨rfl, rfl, rfl, rfl, by omega, 0, 1, rfl, fun _ => rfl, ?_, ?_, ?_⟩
  · rw [hoffsets, drop_left' (length_offsets _ _), hzero]
    rfl
  · rw [hoffsets, hzero, ← hm]
    rfl
  · rw [hoffsets, hoffsets, hzero, ← hm, zip_append (by simp)]
    rfl

theorem ReallocCall.atomic_iff (x : ReallocCall)
    (hroom : ∀ addr ∈ x.findSpace, addr.toNat + (roundPage x.newsize).toNat < 2 ^ 32) :
    x.Atomic ↔ x.findSpace = none ∨ x.roundedOldsize ≤ roundPage x.newsize := by
  have hold := x.roundedOldsize_mod
  constructor
  · intro hatomic
    match hfind : x.findSpace with
    | none => exact Or.inl rfl
    | some newaddr =>
      refine Or.inr ?_
      obtain ⟨outcome, hreturn, hwhole⟩ := hatomic (List.replicate
        (turns (newaddr + x.roundedOldsize) (newaddr + roundPage x.newsize)) true)
      rw [kmemRealloc_found hfind] at hreturn
      dsimp only at hreturn
      have hdone := @allocPages_replicate
        (remapped newaddr x.roundedOldsize (roundPage x.newsize)) x.roundedOldsize
        (turns (newaddr + x.roundedOldsize) (newaddr + roundPage x.newsize)) false [] 0 rfl
      rw [hdone] at hreturn
      have hle := ((hwhole _ _ _ (some_inj.mp hreturn).symm).1 rfl).old_le
      rw [atop, atop] at hle
      rw [le_def]
      simp only [pageSize] at *
      omega
  · intro hcond pageAlloc
    match hfind : x.findSpace with
    | none =>
      refine ⟨.returned .noSpace 0 .nothing, ?_, fun kr addr s hreturn => ?_⟩
      · rw [kmemRealloc, hfind]
      cases hreturn
      exact ⟨fun hsuccess => (by cases hsuccess), fun _ => rfl⟩
    | some newaddr =>
      have hle := hcond.resolve_left (by rw [hfind]; exact some_ne_none _)
      rw [ReturnsWhole, kmemRealloc_found hfind]
      dsimp only
      generalize hn : turns (newaddr + x.roundedOldsize) (newaddr + roundPage x.newsize) = n
      have hcases := @allocPages_cases x.roundedOldsize false [] pageAlloc 0 n
        (remapped newaddr x.roundedOldsize (roundPage x.newsize)) rfl
      obtain ⟨hwait, -⟩ | ⟨k, -, hnowait, -⟩ | hdone := hcases
      · rw [hwait]
        exact ⟨.waiting, rfl, fun kr addr s hreturn => (by cases hreturn)⟩
      · cases hnowait
      · rw [hdone, Nat.zero_add]
        refine ⟨_, rfl, fun kr addr s hreturn => ?_⟩
        cases hreturn
        exact ⟨fun _ => mapPages_allocated hold hle (hroom _ hfind) hn.symm,
          fun hne => absurd rfl hne⟩

/-! ## All calls -/

/-- Kernel memory is allocated as a whole by `kernel_memory_allocate` just if no empty range is
found and not wired, by `kmem_alloc_contig` just if there is space, which does not become an empty
range that a later step leaves, and by `kmem_realloc` just if the region does not get smaller. -/
theorem allocations_atomic_iff (x : ContigCall) (y : AllocateCall) (z : ReallocCall)
    (hroom : ∀ addr ∈ z.findSpace, addr.toNat + (roundPage z.newsize).toNat < 2 ^ 32) :
    (x.Atomic ↔ x.Refused ∨ x.findSpace ≠ none ∧ ¬x.Strands) ∧
      (y.Atomic ↔ y.findSpace = none ∨ roundPage y.size ≠ 0 ∨ y.wire = .success) ∧
      (z.Atomic ↔ z.findSpace = none ∨ z.roundedOldsize ≤ roundPage z.newsize) :=
  ⟨x.atomic_iff, y.atomic_iff, z.atomic_iff hroom⟩

/-- Two contiguous pages of the kernel object that are not wired in the end, three pages of which
the last one is not found, and a region that grows from one page to three. -/
theorem allocations_atomic_iff_failing :
    (⟨true, 8192, 4, some 0x10000, .success, .resourceShortage⟩ : ContigCall).Atomic ∧
      (⟨12288, 2, some 0x20000, [true, true, false], .success⟩ : AllocateCall).Atomic ∧
      (⟨0x30000, 4096, 12288, some 0x40000⟩ : ReallocCall).Atomic := by
  obtain ⟨hcontig, hallocate, hrealloc⟩ := allocations_atomic_iff
    ⟨true, 8192, 4, some 0x10000, .success, .resourceShortage⟩
    ⟨12288, 2, some 0x20000, [true, true, false], .success⟩
    ⟨0x30000, 4096, 12288, some 0x40000⟩ fun addr haddr => by
      cases haddr
      decide
  refine ⟨hcontig.mpr (.inr ⟨some_ne_none _, fun hstrands => absurd hstrands.1 (by decide)⟩),
    hallocate.mpr (.inr (.inl (by decide))), hrealloc.mpr (.inr (by decide))⟩

/-- A contiguous page is asked for in a map without space, a region is to get smaller, and no page
is asked for and not wired: an entry is used that is not there, pages past the end of the range are
wired, and an entry stays. -/
theorem calls_not_atomic :
    ¬(⟨true, 4096, 0, none, .success, .success⟩ : ContigCall).Atomic ∧
      ¬(⟨0x30000, 8192, 4096, some 0x40000⟩ : ReallocCall).Atomic ∧
      ¬(⟨0, 0, some 0x20000, [], .resourceShortage⟩ : AllocateCall).Atomic := by
  refine ⟨fun hatomic => ?_, fun hatomic => ?_, fun hatomic => ?_⟩
  · obtain hrefused | ⟨hfound, -⟩ := (ContigCall.atomic_iff _).mp hatomic
    · exact absurd hrefused (by unfold ContigCall.Refused; decide)
    · exact hfound rfl
  · have hroom : ∀ addr ∈ some (0x40000 : BitVec 32),
        addr.toNat + (roundPage 4096).toNat < 2 ^ 32 := fun addr haddr => by
      cases haddr
      decide
    obtain hnone | hle := (ReallocCall.atomic_iff _ hroom).mp hatomic
    · cases hnone
    · exact absurd hle (by decide)
  · obtain hnone | hsize | hwire := (AllocateCall.atomic_iff _).mp hatomic
    · cases hnone
    · exact hsize (by decide)
    · cases hwire

end KernelMemory

end MachVirtuTerm
