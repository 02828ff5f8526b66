import MachVirtuTerm.Mach.Port

/-!
# The splay trees of `ipc_splay.c`

Tree entries live in a heap and point to each other. A tree is kept unassembled:
`istRoot` points to the middle tree and `istLtree` and `istRtree` to the left
and right trees, whose last links are holes. `istLtreep` and `istRtreep` are
pointers to these holes: the field of an entry or, when the left (right) tree is
empty, the field `istLtree` (`istRtree`) itself. The content of a hole is
whatever was there before. Dereferencing a null pointer and exhausting the fuel
of a loop both give `none`.
-/

namespace MachVirtuTerm

/-- The links of a `struct ipc_tree_entry`. `ITE_NULL` is `none`. -/
structure IpcTreeEntry where
  iteName : MachPort
  iteLchild : Option ℕ
  iteRchild : Option ℕ
  deriving DecidableEq, Inhabited

/-- The tree entries, by address. -/
abbrev TreeHeap := ℕ → IpcTreeEntry

/-- Store into the `ite_lchild` field at an address. -/
def TreeHeap.setLchild (h : TreeHeap) (a : ℕ) (p : Option ℕ) : TreeHeap :=
  fun b => if b = a then { h a with iteLchild := p } else h b

/-- Store into the `ite_rchild` field at an address. -/
def TreeHeap.setRchild (h : TreeHeap) (a : ℕ) (p : Option ℕ) : TreeHeap :=
  fun b => if b = a then { h a with iteRchild := p } else h b

/-- Store into the `ite_name` field at an address. -/
def TreeHeap.setName (h : TreeHeap) (a : ℕ) (name : MachPort) : TreeHeap :=
  fun b => if b = a then { h a with iteName := name } else h b

/-- `struct ipc_splay_tree`. A pointer to the `ite_rchild` (`ite_lchild`) field of
an entry is the entry's address; a pointer to `istLtree` (`istRtree`) is `none`. -/
structure IpcSplayTree where
  /-- Name used in last lookup. -/
  istName : MachPort
  /-- Root of middle tree. -/
  istRoot : Option ℕ
  /-- Root of left tree. -/
  istLtree : Option ℕ
  /-- Pointer into left tree. -/
  istLtreep : Option ℕ
  /-- Root of right tree. -/
  istRtree : Option ℕ
  /-- Pointer into right tree. -/
  istRtreep : Option ℕ
  deriving DecidableEq, Inhabited

/-- The variables of `ipc_splay_prim_lookup`, with the memory they point into. -/
structure SplayCursor where
  heap : TreeHeap
  tree : Option ℕ
  ltree : Option ℕ
  ltreep : Option ℕ
  rtree : Option ℕ
  rtreep : Option ℕ

variable (c : SplayCursor)

/-- `*ltreep = p`. -/
def SplayCursor.storeLtreep (p : Option ℕ) : SplayCursor :=
  match c.ltreep with
  | none => { c with ltree := p }
  | some a => { c with heap := c.heap.setRchild a p }

/-- `*rtreep = p`. -/
def SplayCursor.storeRtreep (p : Option ℕ) : SplayCursor :=
  match c.rtreep with
  | none => { c with rtree := p }
  | some a => { c with heap := c.heap.setLchild a p }

/-- The macro `link_left`. -/
def linkLeft : Option SplayCursor := do
  let tree ← c.tree
  let c := c.storeLtreep (some tree)
  some { c with ltreep := some tree, tree := (c.heap tree).iteRchild }

/-- The macro `link_right`. -/
def linkRight : Option SplayCursor := do
  let tree ← c.tree
  let c := c.storeRtreep (some tree)
  some { c with rtreep := some tree, tree := (c.heap tree).iteLchild }

/-- The macro `rotate_left`. -/
def rotateLeft : Option SplayCursor := do
  let temp ← c.tree
  let tree ← (c.heap temp).iteRchild
  let heap := c.heap.setRchild temp (c.heap tree).iteLchild
  some { c with heap := heap.setLchild tree (some temp), tree := some tree }

/-- The macro `rotate_right`. -/
def rotateRight : Option SplayCursor := do
  let temp ← c.tree
  let tree ← (c.heap temp).iteLchild
  let heap := c.heap.setLchild temp (c.heap tree).iteRchild
  some { c with heap := heap.setRchild tree (some temp), tree := some tree }

/-- The loop of `ipc_splay_prim_lookup`. -/
def ipcSplayPrimLookup (name : MachPort) : ℕ → SplayCursor → Option SplayCursor
  | 0, _ => none
  | fuel + 1, c => do
    let tree ← c.tree
    let tname := (c.heap tree).iteName
    if name = tname then some c
    else if name < tname then
      -- descend to left
      match (c.heap tree).iteLchild with
      | none => some c
      | some lchild =>
        let tname := (c.heap lchild).iteName
        let c ← if name < tname ∧ (c.heap lchild).iteLchild ≠ none then rotateRight c else some c
        let c ← linkRight c
        let c ← if tname < name ∧ (c.heap lchild).iteRchild ≠ none then linkLeft c else some c
        ipcSplayPrimLookup name fuel c
    else
      -- descend to right
      match (c.heap tree).iteRchild with
      | none => some c
      | some rchild =>
        let tname := (c.heap rchild).iteName
        let c ← if tname < name ∧ (c.heap rchild).iteRchild ≠ none then rotateLeft c else some c
        let c ← linkLeft c
        let c ← if name < tname ∧ (c.heap rchild).iteLchild ≠ none then linkRight c else some c
        ipcSplayPrimLookup name fuel c

/-- `ipc_splay_prim_assemble` of the three trees around the root `c.tree`. -/
def ipcSplayPrimAssemble : Option SplayCursor := do
  let tree ← c.tree
  let c := c.storeLtreep (c.heap tree).iteLchild
  let c := c.storeRtreep (c.heap tree).iteRchild
  some { c with heap := (c.heap.setLchild tree c.ltree).setRchild tree c.rtree }

def ipcSplayTreeInit (splay : IpcSplayTree) : IpcSplayTree :=
  { splay with istRoot := none }

/-- The variables of a tree around its root. -/
def IpcSplayTree.cursor (splay : IpcSplayTree) (heap : TreeHeap) : SplayCursor :=
  ⟨heap, splay.istRoot, splay.istLtree, splay.istLtreep, splay.istRtree, splay.istRtreep⟩

variable (fuel : ℕ)

/-- The call of `ipc_splay_prim_lookup` on the assembled tree at `root` with the
fields `istLtree` and `istRtree` for its results. -/
def primLookupIn (name : MachPort) (c : SplayCursor) (root : ℕ) : Option SplayCursor :=
  ipcSplayPrimLookup name fuel { c with tree := some root, ltreep := none, rtreep := none }

/-- The lookup that most operations begin with: unless `name` is the one looked up
last, assemble the tree and take it apart along the way to `name`. -/
def splayTo (name : MachPort) (heap : TreeHeap) (splay : IpcSplayTree) (root : ℕ) :
    Option SplayCursor :=
  if splay.istName ≠ name then do
    let c ← ipcSplayPrimAssemble (splay.cursor heap)
    primLookupIn fuel name c root
  else some (splay.cursor heap)

variable (heap : TreeHeap)

include heap

variable (splay : IpcSplayTree)

def ipcSplayTreePick : Option (MachPort × ℕ) :=
  match splay.istRoot with
  | none => none
  | some root => some ((heap root).iteName, root)

def ipcSplayTreeLookup (name : MachPort) : Option (TreeHeap × IpcSplayTree × Option ℕ) :=
  match splay.istRoot with
  | none => some (heap, splay, none)
  | some root => do
    let c ← splayTo fuel name heap splay root
    let root ← c.tree
    let splay : IpcSplayTree := ⟨name, some root, c.ltree, c.ltreep, c.rtree, c.rtreep⟩
    some (c.heap, splay, if name ≠ (c.heap root).iteName then none else some root)

def ipcSplayTreeInsert (name : MachPort) (entry : ℕ) : Option (TreeHeap × IpcSplayTree) := do
  let c ← match splay.istRoot with
    | none =>
      let heap := (heap.setLchild entry none).setRchild entry none
      some { splay.cursor heap with heap := heap }
    | some root => do
      let c ← splayTo fuel name heap splay root
      let root ← c.tree
      let c :=
        if name < (c.heap root).iteName then (c.storeLtreep none).storeRtreep (some root)
        else (c.storeLtreep (some root)).storeRtreep none
      some { c with heap := (c.heap.setLchild entry c.ltree).setRchild entry c.rtree }
  some (c.heap.setName entry name, ⟨name, some entry, c.ltree, none, c.rtree, none⟩)

/-- `ipc_splay_tree_delete`. Freeing the entry leaves the memory as it is. -/
def ipcSplayTreeDelete (name : MachPort) : Option (TreeHeap × IpcSplayTree) := do
  let root ← splay.istRoot
  let c ← splayTo fuel name heap splay root
  let root ← c.tree
  let c := c.storeLtreep (c.heap root).iteLchild
  let c := c.storeRtreep (c.heap root).iteRchild
  let saved := c.rtree
  let (heap, root, c) ← match c.ltree, saved with
    | none, saved => some (c.heap, saved, c)
    | some root, none => some (c.heap, some root, c)
    | some root, some saved => do
      -- Find the largest node in the left subtree, and splay it to the root.
      let c ← primLookupIn fuel (BitVec.allOnes 32) c root
      let c ← ipcSplayPrimAssemble c
      let root ← c.tree
      some (c.heap.setRchild root (some saved), some root, c)
  match root with
  | none => some (heap, ⟨splay.istName, none, c.ltree, c.ltreep, c.rtree, c.rtreep⟩)
  | some root =>
    some (heap, ⟨(heap root).iteName, some root, c.ltree, none, c.rtree, none⟩)

/-- `ipc_splay_tree_split`: the trees `splay` and `small` afterwards. -/
def ipcSplayTreeSplit (name : MachPort)
    (small : IpcSplayTree) : Option (TreeHeap × IpcSplayTree × IpcSplayTree) :=
  let small := ipcSplayTreeInit small
  match splay.istRoot with
  | none => some (heap, splay, small)
  | some root => do
    let c ← splayTo fuel name heap splay root
    let root ← c.tree
    if (c.heap root).iteName < name then
      -- root goes into small, rtree goes into splay
      let c := c.storeLtreep (c.heap root).iteLchild
      let c := c.storeRtreep none
      let heap := c.heap.setLchild root c.ltree
      let small := { small with
        istRoot := some root, istName := (heap root).iteName, istLtreep := none, istRtreep := none }
      match c.rtree with
      | none =>
        some (heap, ⟨splay.istName, none, c.ltree, c.ltreep, c.rtree, c.rtreep⟩, small)
      | some r =>
        some (heap, ⟨(heap r).iteName, some r, c.ltree, none, c.rtree, none⟩, small)
    else
      -- root stays in splay, ltree goes into small
      let c := c.storeLtreep (c.heap root).iteLchild
      let heap := c.heap.setLchild root none
      let splay : IpcSplayTree := ⟨name, some root, c.ltree, none, c.rtree, c.rtreep⟩
      match c.ltree with
      | none => some (heap, splay, small)
      | some r =>
        some (heap, splay, { small with
          istRoot := some r, istName := (heap r).iteName, istLtreep := none, istRtreep := none })

/-- `ipc_splay_tree_join`: the trees `splay` and `small` afterwards. -/
def ipcSplayTreeJoin (splay small : IpcSplayTree) :
    Option (TreeHeap × IpcSplayTree × IpcSplayTree) :=
  match small.istRoot with
  | none => some (heap, splay, small)
  | some sroot => do
    let c ← ipcSplayPrimAssemble (small.cursor heap)
    let heap := c.heap
    let small : IpcSplayTree := ⟨small.istName, none, c.ltree, c.ltreep, c.rtree, c.rtreep⟩
    match splay.istRoot with
    | none =>
      some (heap, { splay with
        istRoot := some sroot, istName := (heap sroot).iteName,
        istLtreep := none, istRtreep := none }, small)
    | some root => do
      -- get smallest entry in splay tree to top
      let c ← splayTo fuel 0 heap splay root
      let c ← ipcSplayPrimAssemble c
      let root ← c.tree
      let heap := c.heap.setLchild root (some sroot)
      some (heap, ⟨(heap root).iteName, some root, c.ltree, none, c.rtree, none⟩, small)

/-- The name of the entry `istLtreep` points into, or `MACH_PORT_LARGEST`. -/
def nameAtLtreep : Option ℕ → MachPort
  | none => BitVec.allOnes 32
  | some entry => (heap entry).iteName

/-- The name of the entry `istRtreep` points into, or `MACH_PORT_SMALLEST`. -/
def nameAtRtreep : Option ℕ → MachPort
  | none => 0
  | some entry => (heap entry).iteName

/-- `ipc_splay_tree_bounds`: the memory and tree afterwards, and the two bounds. -/
def ipcSplayTreeBounds (name : MachPort) : Option (TreeHeap × IpcSplayTree × MachPort × MachPort) :=
  match splay.istRoot with
  | none => some (heap, splay, BitVec.allOnes 32, 0)
  | some root => do
    let c ← splayTo fuel name heap splay root
    let root ← c.tree
    let splay : IpcSplayTree := ⟨name, some root, c.ltree, c.ltreep, c.rtree, c.rtreep⟩
    let rname := (c.heap root).iteName
    let lower := if rname ≤ name then rname else nameAtLtreep c.heap splay.istLtreep
    let upper := if name ≤ rname then rname else nameAtRtreep c.heap splay.istRtreep
    some (c.heap, splay, lower, upper)

end MachVirtuTerm

/-!
# Traversing a splay tree in memory

`ipc_splay_traverse_start`, `ipc_splay_traverse_next` and `ipc_splay_traverse_finish` of
`ipc_splay.c`. On the way down the link to the next entry is replaced by one to the entry above;
on the way up it is put back. Between two calls `istLtree` is the entry visited last and `istRtree`
the one above it. What is in an entry after `ite_free` is anything.
-/

namespace MachVirtuTerm

/-- `ite_free`: the entry is overwritten. -/
def TreeHeap.iteFree (h : TreeHeap) (poison : ℕ → IpcTreeEntry) (a : ℕ) : TreeHeap :=
  fun b => if b = a then poison a else h b

/-- The memory, the tree and the entry that `ipc_splay_traverse_next` returns. -/
abbrev Traversal := TreeHeap × IpcSplayTree × Option ℕ

/-- The label `traverse_entry`. -/
def traverseEntry (h : TreeHeap) (splay : IpcSplayTree) (current : ℕ) (parent : Option ℕ) :
    Traversal :=
  (h, { splay with istLtree := some current, istRtree := parent }, some current)

/-- The label `traverse_left`. -/
def traverseLeft (splay : IpcSplayTree) : ℕ → TreeHeap → ℕ → Option ℕ → Option Traversal
  | 0, _, _, _ => none
  | fuel + 1, h, current, parent =>
    match (h current).iteLchild with
    | some next => traverseLeft splay fuel (h.setLchild current parent) next (some current)
    | none => some (traverseEntry h splay current parent)

/-- The label `traverse_back`. -/
def traverseBack (splay : IpcSplayTree) : ℕ → TreeHeap → ℕ → Option ℕ → Option Traversal
  | 0, _, _, _ => none
  | fuel + 1, h, current, parent =>
    match parent with
    | none => some (h, { splay with istRoot := some current }, none)
    | some above =>
      if (h current).iteName < (h above).iteName then
        some (traverseEntry (h.setLchild above (some current)) splay above (h above).iteLchild)
      else
        traverseBack splay fuel (h.setRchild above (some current)) above (h above).iteRchild

/-- The label `traverse_right`. -/
def traverseRight (splay : IpcSplayTree) (fuel : ℕ) (h : TreeHeap) (current : ℕ)
    (parent : Option ℕ) : Option Traversal :=
  match (h current).iteRchild with
  | some next => traverseLeft splay fuel (h.setRchild current parent) next (some current)
  | none => traverseBack splay fuel h current parent

/-- The part of `ipc_splay_traverse_next` that deletes `current` and patches the tree. -/
def traverseDelete (poison : ℕ → IpcTreeEntry) (splay : IpcSplayTree) (fuel : ℕ) (h : TreeHeap)
    (current : ℕ) (parent : Option ℕ) : Option Traversal :=
  match (h current).iteLchild, (h current).iteRchild with
  | none, none =>
    -- like traverse_back, but with deletion
    match parent with
    | none => some (h.iteFree poison current, { splay with istRoot := none }, none)
    | some above =>
      if (h current).iteName < (h above).iteName then
        let h := h.iteFree poison current
        some (traverseEntry (h.setLchild above none) splay above (h above).iteLchild)
      else
        let h := h.iteFree poison current
        traverseBack splay fuel (h.setRchild above none) above (h above).iteRchild
  | none, some rchild => traverseLeft splay fuel (h.iteFree poison current) rchild parent
  | some lchild, none => traverseBack splay fuel (h.iteFree poison current) lchild parent
  | some lchild, some rchild => do
    -- replace current with largest of left children
    let c ← primLookupIn fuel (BitVec.allOnes 32) ⟨h, none, none, none, none, none⟩ lchild
    let c ← ipcSplayPrimAssemble c
    let next ← c.tree
    let h := (c.heap.setRchild next (some rchild)).iteFree poison current
    traverseRight splay fuel h next parent

def ipcSplayTraverseNext (poison : ℕ → IpcTreeEntry) (fuel : ℕ) (h : TreeHeap)
    (splay : IpcSplayTree) (delete : Bool) : Option Traversal := do
  let current ← splay.istLtree
  if delete then traverseDelete poison splay fuel h current splay.istRtree
  else traverseRight splay fuel h current splay.istRtree

def ipcSplayTraverseStart (fuel : ℕ) (h : TreeHeap) (splay : IpcSplayTree) : Option Traversal :=
  match splay.istRoot with
  | none => some (h, splay, none)
  | some root => do
    let c ← ipcSplayPrimAssemble (splay.cursor h)
    let splay : IpcSplayTree := ⟨splay.istName, some root, c.ltree, c.ltreep, c.rtree, c.rtreep⟩
    traverseLeft splay fuel c.heap root none

def ipcSplayTraverseFinish (h : TreeHeap) (splay : IpcSplayTree) : IpcSplayTree :=
  match splay.istRoot with
  | none => splay
  | some root =>
    { splay with istName := (h root).iteName, istLtreep := none, istRtreep := none }

/-- An entry that was visited, its address and its name, and whether it was to be deleted. -/
abbrev Visit := (ℕ × MachPort) × Bool

/-- The loop that the comment on `ipc_splay_traverse_next` prescribes. Whether an entry is deleted
may depend on all visits before. -/
def traverseLoop (poison : ℕ → IpcTreeEntry) (fuel : ℕ)
    (choose : List Visit → ℕ × MachPort → Bool) :
    ℕ → Traversal → List Visit → Option (TreeHeap × IpcSplayTree × List Visit)
  | _, (h, splay, none), visits => some (h, splay, visits)
  | 0, (_, _, some _), _ => none
  | n + 1, (h, splay, some entry), visits => do
    let element := (entry, (h entry).iteName)
    let delete := choose visits element
    let next ← ipcSplayTraverseNext poison fuel h splay delete
    traverseLoop poison fuel choose n next (visits ++ [(element, delete)])

/-- A whole traversal: the memory and the tree afterwards, and the visits. -/
def ipcSplayTraverse (poison : ℕ → IpcTreeEntry) (fuel : ℕ)
    (choose : List Visit → ℕ × MachPort → Bool) (h : TreeHeap) (splay : IpcSplayTree) :
    Option (TreeHeap × IpcSplayTree × List Visit) := do
  let first ← ipcSplayTraverseStart fuel h splay
  let (h, splay, visits) ← traverseLoop poison fuel choose fuel first []
  some (h, ipcSplayTraverseFinish h splay, visits)

end MachVirtuTerm
