import MachVirtuTerm.Ipc.EntryBits
import MachVirtuTerm.Ipc.SplayRefinement
import MachVirtuTerm.Ipc.Table
import MachVirtuTerm.Lib.LinkedList
import MachVirtuTerm.Lib.SplayTraverse
import MachVirtuTerm.Mach.KernReturn

/-!
# The name space of `ipc_entry.c`

A space keeps the entries of small names in a table, whose free entries are linked
into a list from entry 0 on, and the others in a splay tree. The tree is the
unassembled splay tree its memory denotes, and `ites` are the entries inside the
tree entries, by address. Whether allocating memory succeeds is an input: an
address for `ite_alloc` or none, and for every table size whether a table of that
size can be had. Loops take fuel, and `none` is a loop that runs out of it.
-/

namespace MachVirtuTerm

open SplayTree LinkedList

/-- A pointer to an entry: to an element of the table or into a tree entry. -/
inductive IpcEntryPtr
  | table (index : ℕ)
  | tree (ite : ℕ)
  deriving DecidableEq

/-- `struct ipc_space`, with the entries inside tree entries. -/
structure IpcSpace where
  isActive : Bool
  isGrowing : Bool
  isTable : ℕ → IpcEntry
  isTableSize : ℕ
  /-- The position of `is_table_next` in the array of table sizes. -/
  isTableNext : ℕ
  isTree : SplaySet
  isTreeTotal : ℕ
  isTreeSmall : ℕ
  isFast : Bool
  ites : ℕ → IpcEntry

namespace IpcSpace

variable (space : IpcSpace)

/-- The entry at a pointer. -/
def entry : IpcEntryPtr → IpcEntry
  | .table index => space.isTable index
  | .tree ite => space.ites ite

/-- Store an element of the table. -/
def setTable (index : ℕ) (entry : IpcEntry) : IpcSpace :=
  { space with isTable := Function.update space.isTable index entry }

/-- Store the entry at a pointer. -/
def setEntry (entry : IpcEntry) : IpcEntryPtr → IpcSpace
  | .table index => space.setTable index entry
  | .tree ite => { space with ites := Function.update space.ites ite entry }

end IpcSpace

variable (sizes : IpcTableSizes)

/-- `ipc_space_create` with the table size at position `initial`, and the `is_fast`
flag `ipc_task_init` sets afterwards. -/
def ipcSpaceCreate (initial : ℕ) (fast : Bool) : IpcSpace where
  isActive := true
  isGrowing := false
  isTable index :=
    ⟨ieBitsGenMask, none, if index = sizes.itsSize initial - 1 then 0 else index + 1⟩
  isTableSize := sizes.itsSize initial
  isTableNext := initial + 1
  isTree := .empty 0
  isTreeTotal := 0
  isTreeSmall := 0
  isFast := fast
  ites _ := default

variable (space : IpcSpace)

def ipcEntryTreeCollision (name : MachPort) : IpcSpace × Bool :=
  let (tree, lower, upper) := bounds Prod.snd name space.isTree
  let index := machPortIndex name
  ({ space with isTree := tree },
    (lower != BitVec.allOnes 32 && machPortIndex lower == index) ||
      (upper != 0 && machPortIndex upper == index))

/-- A lookup in the splay tree of a space. -/
def ipcTreeLookup (name : MachPort) : IpcSpace × Option IpcEntryPtr :=
  let (tree, tentry) := lookup Prod.snd name space.isTree
  ({ space with isTree := tree }, tentry.map fun e => .tree e.1)

/-- `ipc_entry_lookup`. `IE_NULL` is `none`. -/
def ipcEntryLookup (name : MachPort) : IpcSpace × Option IpcEntryPtr :=
  let index := machPortIndex name
  let bits := (space.isTable index).ieBits
  if space.isFast then
    if ieBitsGen bits ≠ machPortGen name ∨ ieBitsType bits = machPortTypeNone then (space, none)
    else (space, some (.table index))
  else if index < space.isTableSize then
    if ieBitsGen bits ≠ machPortGen name then
      if ieBitsCollides bits then ipcTreeLookup space name else (space, none)
    else if ieBitsType bits = machPortTypeNone then (space, none)
    else (space, some (.table index))
  else if space.isTreeTotal = 0 then (space, none)
  else ipcTreeLookup space name

def ipcEntryGet : Except KernReturn (IpcSpace × MachPort × IpcEntryPtr) :=
  let head := space.isTable 0
  let firstFree := head.ieNext
  if firstFree = 0 then .error .noSpace
  else
    let freeEntry := space.isTable firstFree
    let gen := ieBitsNewGen freeEntry.ieBits
    let space := space.setTable 0 { head with index := freeEntry.ieNext }
    let space := space.setTable firstFree { freeEntry with ieBits := gen, index := 0 }
    .ok (space, machPortMake firstFree gen, .table firstFree)

section Growth

/-- The search for the table size of `ipc_entry_grow_table`: the previous size and
the position found. -/
def growSearch (target : ℕ) : ℕ → ℕ → ℕ → ℕ × ℕ
  | 0, psize, its => (psize, its)
  | fuel + 1, psize, its =>
    if psize ≠ sizes.itsSize its ∧ sizes.itsSize its < target then
      growSearch target fuel (sizes.itsSize its) (its + 1)
    else (psize, its)

/-- The position of the table size to grow to. Without a target size it is the next one. -/
def growSize (target : Option ℕ) (space : IpcSpace) : Except KernReturn ℕ :=
  let its := space.isTableNext
  let osize := sizes.itsSize (its - 1)
  match target with
  | none => .ok its
  | some target =>
    if target ≤ osize then .error .success
    else
      let (psize, its) := growSearch sizes target sizes.num osize its
      if psize = sizes.itsSize its then .error .noSpace else .ok its

/-- The visit of an entry that the table has room for now: it moves into the table
and out of the tree, unless another one has already moved to the same place. -/
def growMove (space : IpcSpace) (tentry : TreeNode) : IpcSpace × Bool :=
  let (ite, name) := tentry
  let index := machPortIndex name
  let entry := space.isTable index
  if entry.ieBits ≠ 0 then
    (space.setTable index { entry with ieBits := entry.ieBits ||| ieBitsCollision }, false)
  else
    let t := space.ites ite
    let space := space.setTable index { t with ieBits := t.ieBits ||| machPortGen name }
    ({ space with isTreeTotal := space.isTreeTotal - 1 }, true)

/-- The visit of an entry that the next table has room for: the number of different
indices so far and the last one. -/
def growCount (s : ℕ × ℕ) (tentry : TreeNode) : (ℕ × ℕ) × Bool :=
  let nindex := machPortIndex tentry.2
  (if nindex ≠ s.2 then (s.1 + 1, nindex) else s, false)

/-- The loop that adds unused entries from `osize` on to the free list, the last one
first. -/
def growFree (osize : ℕ) : ℕ → (ℕ → IpcEntry) → ℕ → (ℕ → IpcEntry) × ℕ
  | 0, table, freeIndex => (table, freeIndex)
  | n + 1, table, freeIndex =>
    let i := osize + n
    if (table i).ieBits = 0 then
      growFree osize n
        (Function.update table i { table i with ieBits := ieBitsGenMask, index := freeIndex }) i
    else growFree osize n table freeIndex

/-- Transfer entries from the tree to the table and update `isTreeSmall`. -/
def growTree (osize size nsize : ℕ) (space : IpcSpace) : IpcSpace :=
  -- The tree divides into four regions, based on the index of the entries.
  let (tree, small) := split Prod.snd (machPortMake nsize 0) space.isTree
  let (small, move) := split Prod.snd (machPortMake size 0) small
  let (move, ignore) := split Prod.snd (machPortMake osize 0) move
  let (move, space) := traverse Prod.snd growMove move space
  let (small, nosmall, _) := traverse Prod.snd growCount small (0, 0)
  { space with
    isTreeSmall := nosmall
    isTree := join Prod.snd (join Prod.snd (join Prod.snd tree small) move) ignore }

/-- The work of `ipc_entry_grow_table` once the new table is allocated. -/
def growTable (its : ℕ) (space : IpcSpace) : IpcSpace :=
  let osize := sizes.itsSize (space.isTableNext - 1)
  let size := sizes.itsSize its
  let nsize := sizes.itsSize (its + 1)
  let space := { space with
    isTable := fun i => if i < osize then space.isTable i else ⟨0, none, 0⟩
    isTableSize := size
    isTableNext := its + 1 }
  let space := if 0 < space.isTreeTotal then growTree osize size nsize space else space
  let (table, freeIndex) := growFree osize (size - osize) space.isTable (space.isTable 0).ieNext
  { space with isTable := Function.update table 0 { table 0 with index := freeIndex } }

/-- `ipc_entry_grow_table`. `ITS_SIZE_NONE` is the target `none`. -/
def ipcEntryGrowTable (target : Option ℕ) (tables : ℕ → Bool) :
    ℕ → IpcSpace → Option (IpcSpace × KernReturn)
  | 0, _ => none
  | fuel + 1, space =>
    if space.isGrowing then some (space, .success)
    else
      match growSize sizes target space with
      | .error kr => some (space, kr)
      | .ok its =>
        let size := sizes.itsSize its
        let nsize := sizes.itsSize (its + 1)
        if sizes.itsSize (space.isTableNext - 1) = size then some (space, .noSpace)
        else if ¬tables its then some (space, .resourceShortage)
        else
          let space := growTable sizes its space
          -- The table may be profitably grown again.
          if 0 < space.isTreeSmall ∧
              (nsize - size) * sizeofIpcEntry < space.isTreeSmall * sizeofIpcTreeEntry then
            ipcEntryGrowTable target tables fuel space
          else some (space, .success)

end Growth

/-- Insert an allocated tree entry for a name that is not in the space. -/
def allocNameInTree (name : MachPort) (ite : ℕ) (space : IpcSpace) : IpcSpace × IpcEntryPtr :=
  let index := machPortIndex name
  let space := { space with isTreeTotal := space.isTreeTotal + 1 }
  let space :=
    if index < space.isTableSize then
      let entry := space.isTable index
      space.setTable index { entry with ieBits := entry.ieBits ||| ieBitsCollision }
    else if index < sizes.itsSize space.isTableNext then
      let (space, collision) := ipcEntryTreeCollision space name
      if ¬collision then { space with isTreeSmall := space.isTreeSmall + 1 } else space
    else space
  let space := { space with isTree := SplayTree.insert Prod.snd (ite, name) space.isTree }
  (space.setEntry ⟨0, none, 0⟩ (.tree ite), .tree ite)

/-- The loop of `ipc_entry_alloc_name`. `treeEntry` is the tree entry allocated in an
earlier turn. -/
def allocNameLoop (name : MachPort) (iteAlloc : Option ℕ) (tables : ℕ → Bool) :
    ℕ → Option ℕ → IpcSpace → Option (IpcSpace × Except KernReturn IpcEntryPtr)
  | 0, _, _ => none
  | fuel + 1, treeEntry, space =>
    let index := machPortIndex name
    let gen := machPortGen name
    let entry := space.isTable index
    if ¬space.isActive then some (space, .error .invalidTask)
    else if (0 < index ∧ index < space.isTableSize) ∧ ieBitsType entry.ieBits ≠ machPortTypeNone ∧
        ieBitsGen entry.ieBits = gen then
      some (space, .ok (.table index))
    else if (0 < index ∧ index < space.isTableSize) ∧ ieBitsType entry.ieBits = machPortTypeNone then do
      -- Rip the entry out of the free list.
      let freeIndex ← pred (fun i => (space.isTable i).ieNext) index space.isTableSize 0
      let space := space.setTable freeIndex
        { space.isTable freeIndex with index := (space.isTable index).ieNext }
      let space := space.setTable index { space.isTable index with ieBits := gen, index := 0 }
      some (space, .ok (.table index))
    else if space.isFast then some (space, .error .failure)
    else
      let (space, tentry) :=
        if 0 < space.isTreeTotal then ipcTreeLookup space name else (space, none)
      match tentry with
      | some p => some (space, .ok p)
      | none =>
        let nsize := sizes.itsSize space.isTableNext
        if space.isTableSize ≤ index ∧ index < nsize ∧
            (nsize - space.isTableSize) * sizeofIpcEntry <
              (space.isTreeSmall + 1) * sizeofIpcTreeEntry then do
          let (space, kr) ← ipcEntryGrowTable sizes none tables fuel space
          if kr ≠ .success then some (space, .error kr)
          else allocNameLoop name iteAlloc tables fuel treeEntry space
        else
          match treeEntry with
          | some ite =>
            let (space, p) := allocNameInTree sizes name ite space
            some (space, .ok p)
          | none =>
            match iteAlloc with
            | none => some (space, .error .resourceShortage)
            | some ite => allocNameLoop name iteAlloc tables fuel (some ite) space

def ipcEntryAllocName (name : MachPort) (iteAlloc : Option ℕ) (tables : ℕ → Bool) (fuel : ℕ)
    (space : IpcSpace) : Option (IpcSpace × Except KernReturn IpcEntryPtr) :=
  allocNameLoop sizes name iteAlloc tables fuel none space

/-- Move a colliding entry from the tree into the deallocated place of the table. -/
def deallocMove (index : ℕ) (space : IpcSpace) : Option IpcSpace := do
  let (tree, collisions) := split Prod.snd (machPortMake (index + 1) 0) space.isTree
  let (collisions, small) := split Prod.snd (machPortMake index 0) collisions
  let (ite, tname) ← pick collisions
  let t := space.ites ite
  let entry := { t with ieBits := t.ieBits ||| machPortGen tname }
  let collisions := delete Prod.snd tname collisions
  -- Check if the collision bit should still be on.
  let (entry, tree) :=
    match pick collisions with
    | some _ =>
      ({ entry with ieBits := entry.ieBits ||| ieBitsCollision }, join Prod.snd tree collisions)
    | none => (entry, tree)
  let space := space.setTable index entry
  some { space with isTreeTotal := space.isTreeTotal - 1, isTree := join Prod.snd tree small }

/-- Put an entry of the table at the front of the free list. -/
def deallocFree (index : ℕ) (space : IpcSpace) : IpcSpace :=
  let entry := space.isTable index
  let space := space.setTable index
    { entry with ieBits := entry.ieBits &&& ieBitsGenMask, index := (space.isTable 0).ieNext }
  space.setTable 0 { space.isTable 0 with index := index }

/-- `ipc_entry_dealloc` of the entry at a pointer. -/
def ipcEntryDealloc (name : MachPort) (entry : IpcEntryPtr) (space : IpcSpace) : Option IpcSpace :=
  let index := machPortIndex name
  let size := space.isTableSize
  if space.isFast then some (deallocFree index space)
  else if index < size ∧ entry = .table index then
    if ieBitsCollides (space.isTable index).ieBits then deallocMove index space
    else some (deallocFree index space)
  else
    let space := { space with
      isTree := delete Prod.snd name space.isTree, isTreeTotal := space.isTreeTotal - 1 }
    if index < size then
      let (space, collision) := ipcEntryTreeCollision space name
      let ientry := space.isTable index
      if ¬collision then
        some (space.setTable index { ientry with ieBits := ientry.ieBits &&& ~~~ieBitsCollision })
      else some space
    else if index < sizes.itsSize space.isTableNext then
      let (space, collision) := ipcEntryTreeCollision space name
      if ¬collision then some { space with isTreeSmall := space.isTreeSmall - 1 }
      else some space
    else some space

end MachVirtuTerm

/-!
# What every operation on a name space keeps

The invariant has a part for the tree and its counters and a part for the table: its
free list, the collision bits and the generations of the entries that the tree
holds beside them. A name is held by the table entry with its index and generation
or by the tree entry with its name, and by no two.
-/

namespace MachVirtuTerm

open SplayTree LinkedList

/-- The entries of the tree. -/
def IpcSpace.tentries (space : IpcSpace) : List TreeNode := space.isTree.elements

/-- The different indices of tree entries from `size` up to `nsize`. -/
def smallIndices (xs : List TreeNode) (size nsize : ℕ) : Finset ℕ :=
  (xs.map fun e => machPortIndex e.2).toFinset.filter fun i => size ≤ i ∧ i < nsize

theorem mem_smallIndices {xs : List TreeNode} {size nsize i : ℕ} :
    i ∈ smallIndices xs size nsize ↔
      (∃ e ∈ xs, machPortIndex e.2 = i) ∧ size ≤ i ∧ i < nsize := by
  simp only [smallIndices, Finset.mem_filter, List.mem_toFinset, List.mem_map]

/-- The part of the invariant on the tree, the sizes and the counters. -/
structure TreeInv (sizes : IpcTableSizes) (space : IpcSpace) : Prop where
  isActive : space.isActive = true
  isGrowing : space.isGrowing = false
  next_pos : 0 < space.isTableNext
  next_lt : space.isTableNext < sizes.num
  size_eq : space.isTableSize = sizes.itsSize (space.isTableNext - 1)
  /-- The tree is a search tree by name. -/
  wf : WellFormed Prod.snd space.isTree
  /-- No tree entry is in it twice. -/
  nodup : (addrs space.tentries).Nodup
  /-- The names in it are valid. -/
  valid : ∀ e ∈ space.tentries, machPortValid e.2
  /-- Its entries are in use and have the bits of their rights only. -/
  right : ∀ e ∈ space.tentries, ieBitsType (space.ites e.1).ieBits ≠ machPortTypeNone ∧
    ieBitsRight (space.ites e.1).ieBits = (space.ites e.1).ieBits
  total : space.isTreeTotal = space.tentries.length
  small : space.isTreeSmall = (smallIndices space.tentries space.isTableSize
    (sizes.itsSize space.isTableNext)).card
  fast : space.isFast = true → space.tentries = []

/-- The free list from the head of a table visits the cells of a list. -/
def FreeList (table : ℕ → IpcEntry) (free : List ℕ) : Prop :=
  Path (fun i => (table i).ieNext) (table 0).ieNext free ∧ free.Nodup

/-- The part of the invariant on a table of some size beside the tree entries `xs`.
The free list covers the entries below `bound`. -/
structure TableInv (table : ℕ → IpcEntry) (size bound : ℕ) (xs : List TreeNode) : Prop where
  /-- The first entry is always free. -/
  head_type : ieBitsType (table 0).ieBits = machPortTypeNone
  head_gen : ieBitsGen (table 0).ieBits = ieBitsGenMask
  /-- A free entry collides with no tree entry. -/
  free_slot : ∀ i, 0 < i → i < size → ieBitsType (table i).ieBits = machPortTypeNone →
    ¬ieBitsCollides (table i).ieBits
  /-- The collision bit says whether there are tree entries with the index. -/
  collision : ∀ i < size, ieBitsCollides (table i).ieBits ↔ ∃ e ∈ xs, machPortIndex e.2 = i
  /-- A tree entry differs in generation from the table entry with its index. -/
  gens : ∀ e ∈ xs, 0 < machPortIndex e.2 → machPortIndex e.2 < size →
    ieBitsGen (table (machPortIndex e.2)).ieBits ≠ machPortGen e.2
  /-- The free entries are linked. -/
  free : ∃ free, FreeList table free ∧
    ∀ i, i ∈ free ↔ 0 < i ∧ i < bound ∧ ieBitsType (table i).ieBits = machPortTypeNone

/-- The invariant of a space. -/
structure SpaceInv (sizes : IpcTableSizes) (space : IpcSpace) : Prop where
  tree : TreeInv sizes space
  table : TableInv space.isTable space.isTableSize space.isTableSize space.tentries

namespace IpcSpace

variable (space : IpcSpace)

/-- An entry holds a name. -/
def Holds (name : MachPort) : IpcEntryPtr → Prop
  | .table i => machPortIndex name = i ∧ 0 < i ∧ i < space.isTableSize ∧
      ieBitsType (space.isTable i).ieBits ≠ machPortTypeNone ∧
      ieBitsGen (space.isTable i).ieBits = machPortGen name
  | .tree a => (a, name) ∈ space.tentries

/-- The right in an entry: the bits that belong to it and the object. -/
def content (p : IpcEntryPtr) : BitVec 32 × Option ℕ :=
  (ieBitsRight (space.entry p).ieBits, (space.entry p).ieObject)

/-- A name denotes the right in the entry that holds it. -/
def Maps (name : MachPort) (c : BitVec 32 × Option ℕ) : Prop :=
  ∃ p, space.Holds name p ∧ space.content p = c

end IpcSpace

variable {sizes : IpcTableSizes} {space space' : IpcSpace} {name m : MachPort}
  {p q : IpcEntryPtr} {c : BitVec 32 × Option ℕ} {xs xs' : List TreeNode}
  {table table' : ℕ → IpcEntry} {size bound i : ℕ}

section

variable (h : TreeInv sizes space)

include h

/-- The current size of the table is a positive index. -/
theorem TreeInv.size_pos : 0 < space.isTableSize := by
  have := h.next_lt
  rw [h.size_eq]
  exact sizes.itsSize_pos (by omega)

/-- The size of the table fits in an index. -/
theorem TreeInv.size_lt : space.isTableSize < 2 ^ 24 := by
  have := h.next_lt
  rw [h.size_eq]
  exact sizes.itsSize_lt (by omega)

/-- The index of `MACH_PORT_DEAD` is beyond the table. -/
theorem TreeInv.size_le_dead : space.isTableSize ≤ machPortIndex machPortDead := by
  have := h.next_lt
  rw [h.size_eq]
  exact (sizes.le_of_le (by omega) (by omega)).trans sizes.le_index

/-- Names in the tree are different. -/
theorem TreeInv.names_inj {e f : TreeNode} (he : e ∈ space.tentries)
    (hf : f ∈ space.tentries) (hn : e.2 = f.2) : e = f := by
  have hs : space.tentries.Pairwise fun x y => x.2 ≠ y.2 := h.wf.sorted.imp fun hlt => hlt.ne
  exact List.inj_on_of_nodup_map (List.pairwise_map.mpr hs) he hf hn

/-- Tree entries at one address are the same. -/
theorem TreeInv.addrs_inj {e f : TreeNode} (he : e ∈ space.tentries)
    (hf : f ∈ space.tentries) (ha : e.1 = f.1) : e = f :=
  List.inj_on_of_nodup_map h.nodup he hf ha

end

/-- A name is held by one entry only. -/
theorem SpaceInv.holds_unique (h : SpaceInv sizes space) (hp : space.Holds name p)
    (hq : space.Holds name q) : p = q := by
  cases p with
  | table i =>
    obtain ⟨rfl, hi, hsize, -, hgen⟩ := hp
    cases q with
    | table j => rw [hq.1]
    | tree a =>
      have hmem : (a, name) ∈ space.tentries := hq
      exact absurd hgen (h.table.gens (a, name) hmem hi hsize)
  | tree a =>
    have hmem : (a, name) ∈ space.tentries := hp
    cases q with
    | table j =>
      obtain ⟨rfl, hi, hsize, -, hgen⟩ := hq
      exact absurd hgen (h.table.gens (a, name) hmem hi hsize)
    | tree b =>
      have hmem' : (b, name) ∈ space.tentries := hq
      exact congrArg IpcEntryPtr.tree (congrArg Prod.fst (h.tree.names_inj hmem hmem' rfl))

/-- An entry holds one name only. -/
theorem SpaceInv.holds_inj (h : SpaceInv sizes space) (hp : space.Holds name p)
    (hm : space.Holds m p) : name = m := by
  cases p with
  | table i => exact machPort_ext (hp.1.trans hm.1.symm) (hp.2.2.2.2.symm.trans hm.2.2.2.2)
  | tree a =>
    have hmem : (a, name) ∈ space.tentries := hp
    have hmem' : (a, m) ∈ space.tentries := hm
    exact congrArg Prod.snd (h.tree.addrs_inj hmem hmem' rfl)

/-- The part on the table depends on the names in the tree only. -/
theorem TableInv.congr (h : TableInv table size bound xs) (hxs : ∀ e, e ∈ xs' ↔ e ∈ xs) :
    TableInv table size bound xs' := by
  refine ⟨h.head_type, h.head_gen, h.free_slot, fun i hi => ?_, fun e he => ?_, h.free⟩
  · simp only [hxs]
    exact h.collision i hi
  · exact h.gens e ((hxs e).mp he)

/-- Rearranging the tree keeps the invariant. -/
theorem SpaceInv.rearrange (h : SpaceInv sizes space) {tree : SplaySet}
    (hwf : WellFormed Prod.snd tree) (hel : tree.elements = space.tentries) :
    SpaceInv sizes { space with isTree := tree } := by
  obtain ⟨ht, htab⟩ := h
  have hx : ({ space with isTree := tree } : IpcSpace).tentries = space.tentries := hel
  refine ⟨⟨ht.isActive, ht.isGrowing, ht.next_pos, ht.next_lt, ht.size_eq, hwf, ?_, ?_, ?_, ?_, ?_,
    ?_⟩, ?_⟩
  · rw [hx]; exact ht.nodup
  · rw [hx]; exact ht.valid
  · rw [hx]; exact ht.right
  · rw [hx]; exact ht.total
  · rw [hx]; exact ht.small
  · rw [hx]; exact ht.fast
  · rw [hx]; exact htab

/-- Rearranging the tree keeps what names denote. -/
theorem maps_rearrange {tree : SplaySet} (hel : tree.elements = space.tentries) :
    ({ space with isTree := tree } : IpcSpace).Maps name c ↔ space.Maps name c := by
  have hx : ({ space with isTree := tree } : IpcSpace).tentries = space.tentries := hel
  have hh (p : IpcEntryPtr) :
      ({ space with isTree := tree } : IpcSpace).Holds name p ↔ space.Holds name p := by
    cases p with
    | table i => exact Iff.rfl
    | tree a => simp only [IpcSpace.Holds, hx]
  have hc (p : IpcEntryPtr) :
      ({ space with isTree := tree } : IpcSpace).content p = space.content p := by
    cases p <;> rfl
  simp only [IpcSpace.Maps, hh, hc]

/-- What a routine that only searches the tree does to a space. -/
structure Rearranged (sizes : IpcTableSizes) (space space' : IpcSpace) : Prop where
  /-- Only the shape of the tree changes. -/
  shape : ∃ tree : SplaySet, space' = { space with isTree := tree } ∧
    WellFormed Prod.snd tree ∧ tree.elements = space.tentries
  inv : SpaceInv sizes space'
  maps : ∀ name c, space'.Maps name c ↔ space.Maps name c

/-- Doing nothing rearranges nothing. -/
theorem SpaceInv.rearranged_refl (h : SpaceInv sizes space) : Rearranged sizes space space :=
  ⟨⟨space.isTree, rfl, h.tree.wf, rfl⟩, h, fun _ _ => Iff.rfl⟩

/-- Replacing the tree by one with the same elements. -/
theorem SpaceInv.rearranged (h : SpaceInv sizes space) {tree : SplaySet}
    (hwf : WellFormed Prod.snd tree) (hel : tree.elements = space.tentries) :
    Rearranged sizes space { space with isTree := tree } :=
  ⟨⟨tree, rfl, hwf, hel⟩, h.rearrange hwf hel, fun _ _ => maps_rearrange hel⟩

/-- Looking up in the tree finds the tree entry that holds the name. -/
theorem SpaceInv.ipcTreeLookup (h : SpaceInv sizes space) (name : MachPort) :
    Rearranged sizes space (ipcTreeLookup space name).1 ∧
      ∀ p, (MachVirtuTerm.ipcTreeLookup space name).2 = some p ↔
        ∃ a, p = .tree a ∧ (a, name) ∈ space.tentries := by
  have hwf := h.tree.wf
  constructor
  · simp only [MachVirtuTerm.ipcTreeLookup, lookup_fst]
    exact h.rearranged hwf.find (elements_find _)
  · intro p
    simp only [MachVirtuTerm.ipcTreeLookup, Option.map_eq_some_iff, lookup_eq_some hwf]
    constructor
    · rintro ⟨e, ⟨he, rfl⟩, rfl⟩
      exact ⟨e.1, rfl, he⟩
    · rintro ⟨a, rfl, ha⟩
      exact ⟨(a, name), ⟨ha, rfl⟩, rfl⟩

/-- The one name `ipc_entry_lookup` gets wrong: its index is that of the head of the
free list and its generation the one the head always has. -/
def headName : MachPort := 0xff

/-- The generation of the head belongs to no other name with its index. -/
theorem eq_headName (hi : machPortIndex name = 0) (hg : machPortGen name = ieBitsGenMask) :
    name = headName := machPort_ext hi hg

/-- The name of the head of the free list is not found. -/
theorem SpaceInv.ipcEntryLookup_headName (h : SpaceInv sizes space) (hfast : space.isFast = false) :
    ipcEntryLookup space headName = (space, none) := by
  have hi : machPortIndex headName = 0 := rfl
  have hg : machPortGen headName = ieBitsGenMask := rfl
  simp only [ipcEntryLookup, hfast, Bool.false_eq_true, if_false, hi, hg,
    if_pos h.tree.size_pos, h.table.head_gen, h.table.head_type, ne_eq, not_true_eq_false, if_true]

/-- Looking up keeps what names denote and finds exactly the entry that holds the
name, unless it is that of the head. -/
theorem SpaceInv.ipcEntryLookup (h : SpaceInv sizes space) (hfast : space.isFast = false)
    (name : MachPort) :
    Rearranged sizes space (ipcEntryLookup space name).1 ∧
      (name ≠ headName →
        ∀ p, (MachVirtuTerm.ipcEntryLookup space name).2 = some p ↔ space.Holds name p) := by
  obtain ⟨htree, hfound⟩ := h.ipcTreeLookup name
  have hrefl := h.rearranged_refl
  -- Where the table entry is another one, only the tree can hold the name.
  have htreeOnly (hno : ∀ i, ¬space.Holds name (.table i)) (p : IpcEntryPtr) :
      (MachVirtuTerm.ipcTreeLookup space name).2 = some p ↔ space.Holds name p := by
    rw [hfound]
    cases p with
    | table i => simp [hno i]
    | tree a => simp [IpcSpace.Holds]
  have hnone (hno : ∀ p, ¬space.Holds name p) (p : IpcEntryPtr) :
      False ↔ space.Holds name p := by simp [hno p]
  rw [MachVirtuTerm.ipcEntryLookup, if_neg (by simp [hfast])]
  split_ifs with hsize hgen hcol htype htotal
  · refine ⟨htree, fun _ => htreeOnly ?_⟩
    rintro i ⟨rfl, -, -, -, hg⟩
    exact hgen hg
  · refine ⟨hrefl, fun _ => hnone ?_⟩
    rintro (i | a) hp
    · obtain ⟨rfl, -, -, -, hg⟩ := hp
      exact hgen hg
    · exact hcol ((h.table.collision _ hsize).mpr ⟨(a, name), hp, rfl⟩)
  · refine ⟨hrefl, fun hne => hnone ?_⟩
    have hpos : 0 < machPortIndex name := by
      refine Nat.pos_of_ne_zero fun h0 => hne (eq_headName h0 ?_)
      rw [← not_ne_iff.mp hgen, h0, h.table.head_gen]
    rintro (i | a) hp
    · obtain ⟨rfl, -, -, ht, -⟩ := hp
      exact ht htype
    · exact h.table.free_slot _ hpos hsize htype
        ((h.table.collision _ hsize).mpr ⟨(a, name), hp, rfl⟩)
  · refine ⟨hrefl, fun _ p => ?_⟩
    have hpos : 0 < machPortIndex name := by
      refine Nat.pos_of_ne_zero fun h0 => htype ?_
      rw [h0, h.table.head_type]
    have hholds : space.Holds name (.table (machPortIndex name)) :=
      ⟨rfl, hpos, hsize, htype, not_ne_iff.mp hgen⟩
    rw [Option.some.injEq]
    constructor
    · rintro rfl
      exact hholds
    · exact h.holds_unique hholds
  · refine ⟨hrefl, fun _ => hnone ?_⟩
    have hempty : space.tentries = [] := List.eq_nil_of_length_eq_zero (h.tree.total ▸ htotal)
    rintro (i | a) hp
    · obtain ⟨rfl, -, hlt, -, -⟩ := hp
      exact hsize hlt
    · simp [IpcSpace.Holds, hempty] at hp
  · refine ⟨htree, fun _ => htreeOnly ?_⟩
    rintro i ⟨rfl, -, hlt, -, -⟩
    exact hsize hlt

/-- Testing for a collision tells whether the tree holds a name with the index. -/
theorem ipcEntryTreeCollision_eq (space : IpcSpace) (hwf : WellFormed Prod.snd space.isTree)
    (hvalid : ∀ e ∈ space.tentries, machPortValid e.2) (name : MachPort) :
    ∃ tree : SplaySet, WellFormed Prod.snd tree ∧ tree.elements = space.tentries ∧
      ipcEntryTreeCollision space name = ({ space with isTree := tree },
        decide (∃ e ∈ space.tentries, machPortIndex e.2 = machPortIndex name)) := by
  have hfst : (bounds Prod.snd name space.isTree).1 = find Prod.snd name space.isTree := by
    simp only [bounds]
    cases (find Prod.snd name space.isTree).pieces.mid <;> rfl
  refine ⟨find Prod.snd name space.isTree, hwf.find, elements_find _, Prod.ext ?_ ?_⟩
  · simp only [ipcEntryTreeCollision, hfst]
  rw [Bool.eq_iff_iff, decide_eq_true_iff]
  simp only [ipcEntryTreeCollision, Bool.or_eq_true, Bool.and_eq_true, bne_iff_ne, beq_iff_eq]
  constructor
  · rintro (⟨hne, hi⟩ | ⟨hne, hi⟩)
    · rcases bounds_lower (k := name) hwf with ⟨htop, -⟩ | hgreatest
      · exact absurd htop hne
      · obtain ⟨-, e, he, hen⟩ := hgreatest.1
        exact ⟨e, he, by rw [hen, hi]⟩
    · rcases bounds_upper (k := name) hwf with ⟨hbot, -⟩ | hleast
      · exact absurd hbot hne
      · obtain ⟨-, e, he, hen⟩ := hleast.1
        exact ⟨e, he, by rw [hen, hi]⟩
  · rintro ⟨e, he, hei⟩
    rcases le_total e.2 name with hle | hle
    · left
      rcases bounds_lower (k := name) hwf with ⟨-, hall⟩ | hgreatest
      · exact absurd hle (hall e he).not_ge
      · obtain ⟨hle', f, hf, hfn⟩ := hgreatest.1
        have hbetween := hgreatest.2 ⟨hle, e, he, rfl⟩
        refine ⟨hfn ▸ (hvalid f hf).2, ?_⟩
        exact le_antisymm (machPortIndex_mono hle') (hei ▸ machPortIndex_mono hbetween)
    · right
      rcases bounds_upper (k := name) hwf with ⟨-, hall⟩ | hleast
      · exact absurd hle (hall e he).not_ge
      · obtain ⟨hle', f, hf, hfn⟩ := hleast.1
        have hbetween := hleast.2 ⟨hle, e, he, rfl⟩
        refine ⟨hfn ▸ (hvalid f hf).1, ?_⟩
        exact le_antisymm (hei ▸ machPortIndex_mono hbetween) (machPortIndex_mono hle')

end MachVirtuTerm
