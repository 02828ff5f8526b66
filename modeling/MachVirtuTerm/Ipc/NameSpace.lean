import MachVirtuTerm.Ipc.EntryGrow

/-!
# Allocating names

Growing repeats as long as it pays, and allocating a chosen name starts over after
it has grown the table or allocated a tree entry. The position in the array of
table sizes bounds both loops.
-/

open Function Option

namespace MachVirtuTerm

open SplayTree LinkedList

variable {sizes : IpcTableSizes} {space space' : IpcSpace} {name m : MachPort}
  {p q : IpcEntryPtr} {c : BitVec 32 × Option ℕ} {target fuel psize its : ℕ}
  {tables : ℕ → Bool} {iteAlloc treeEntry : Option ℕ}

/-- The search for a table size stays inside the array. -/
theorem growSearch_range (target fuel : ℕ) (hpsize : psize = sizes.itsSize (its - 1)) (h0 : 0 < its)
    (hlt : its < sizes.num) :
    (growSearch sizes target fuel psize its).1 =
        sizes.itsSize ((growSearch sizes target fuel psize its).2 - 1) ∧
      its ≤ (growSearch sizes target fuel psize its).2 ∧
      (growSearch sizes target fuel psize its).2 < sizes.num := by
  induction fuel generalizing psize its with
  | zero => exact ⟨hpsize, le_rfl, hlt⟩
  | succ fuel ih =>
    rw [growSearch]
    split_ifs with hgo
    · have hnext := sizes.lt_of_size_lt hlt h0 (hpsize ▸ hgo.1)
      obtain ⟨h1, h2, h3⟩ := ih rfl (Nat.succ_pos its) hnext
      exact ⟨h1, (Nat.le_succ its).trans h2, h3⟩
    · exact ⟨hpsize, le_rfl, hlt⟩

/-- The table size to grow to is not before the next one. -/
theorem growSize_range (h : TreeInv sizes space) {target : Option ℕ}
    (hits : growSize sizes target space = .ok its) :
    space.isTableNext ≤ its ∧ its < sizes.num ∧
      (sizes.itsSize (space.isTableNext - 1) ≠ sizes.itsSize its →
        sizes.itsSize (its - 1) ≠ sizes.itsSize its) := by
  have hlt := h.next_lt
  cases target with
  | none =>
    simp only [growSize, Except.ok.injEq] at hits
    subst hits
    exact ⟨le_rfl, hlt, id⟩
  | some target =>
    simp only [growSize] at hits
    obtain ⟨h1, h2, h3⟩ := growSearch_range target sizes.num
      (rfl : sizes.itsSize (space.isTableNext - 1) = _) h.next_pos hlt
    split_ifs at hits with _ hne
    simp only [Except.ok.injEq] at hits
    subst hits
    exact ⟨h2, h3, fun _ => h1 ▸ hne⟩

/-- A space is a grown version of itself. -/
theorem SpaceInv.grown_refl (h : SpaceInv sizes space) : Grown sizes space space :=
  ⟨h, fun _ _ => Iff.rfl, rfl, le_rfl, List.Sublist.refl _⟩

/-- Growing further. -/
theorem Grown.trans {space'' : IpcSpace} (h : Grown sizes space space')
    (h' : Grown sizes space' space'') : Grown sizes space space'' :=
  ⟨h'.inv, fun m c => (h'.maps m c).trans (h.maps m c), h'.fast.trans h.fast,
    h.next.trans h'.next, h'.sub.trans h.sub⟩

/-- `ipc_entry_grow_table` returns, and growing keeps what names denote. -/
theorem SpaceInv.ipcEntryGrowTable (h : SpaceInv sizes space) (target : Option ℕ)
    (tables : ℕ → Bool) (fuel : ℕ) (hfuel : sizes.num ≤ space.isTableNext + fuel) :
    ∃ space' kr, ipcEntryGrowTable sizes target tables fuel space = some (space', kr) ∧
      Grown sizes space space' ∧
      (target = none → kr = .success → space.isTableNext < space'.isTableNext) := by
  induction fuel generalizing space with
  | zero =>
    have := h.tree.next_lt
    omega
  | succ fuel ih =>
    rw [MachVirtuTerm.ipcEntryGrowTable, if_neg (by simp [h.tree.isGrowing])]
    cases hits : growSize sizes target space with
    | error kr =>
      refine ⟨space, kr, rfl, h.grown_refl, ?_⟩
      rintro rfl
      simp [growSize] at hits
    | ok its =>
      obtain ⟨hle, hlt, hnext⟩ := growSize_range h.tree hits
      dsimp only
      split_ifs with hsame htable hagain
      · exact ⟨space, _, rfl, h.grown_refl, fun _ hkr => by cases hkr⟩
      · have hpos := h.tree.next_pos
        have hits' := sizes.lt_of_size_lt hlt (by omega) (hnext hsame)
        have hsize := (sizes.le_of_le (show space.isTableNext - 1 ≤ its by omega) hlt).lt_of_ne hsame
        obtain ⟨hgrown, hn⟩ := h.growTable hits' hle hsize
        obtain ⟨space', kr, hrun, hgrown', -⟩ := ih hgrown.inv (by omega)
        refine ⟨space', kr, hrun, hgrown.trans hgrown', fun _ _ => ?_⟩
        have := hgrown'.next
        omega
      · have hpos := h.tree.next_pos
        have hits' := sizes.lt_of_size_lt hlt (by omega) (hnext hsame)
        have hsize := (sizes.le_of_le (show space.isTableNext - 1 ≤ its by omega) hlt).lt_of_ne hsame
        obtain ⟨hgrown, hn⟩ := h.growTable hits' hle hsize
        exact ⟨_, _, rfl, hgrown, fun _ _ => by omega⟩
      · exact ⟨space, _, rfl, h.grown_refl, fun _ hkr => by cases hkr⟩

/-- What a routine that allocates a name leaves to its caller: an entry to store the
right in, or a space as before. -/
def Allocated (sizes : IpcTableSizes) (space : IpcSpace) (name : MachPort) (space' : IpcSpace) :
    Except KernReturn IpcEntryPtr → Prop
  | .ok p => space'.isFast = space.isFast ∧ ∀ r : IpcRight, SpaceInv sizes (space'.store p r) ∧
      (space'.store p r).Holds name p ∧ Updated space (space'.store p r) name (some r.content)
  | .error _ => space'.isFast = space.isFast ∧ SpaceInv sizes space' ∧
      ∀ m c, space'.Maps m c ↔ space.Maps m c

/-- Allocating in a space that denotes the same. -/
theorem Allocated.of_maps {space₁ : IpcSpace} {res : Except KernReturn IpcEntryPtr}
    (hmaps : ∀ m c, space₁.Maps m c ↔ space.Maps m c) (hfast : space₁.isFast = space.isFast)
    (h : Allocated sizes space₁ name space' res) : Allocated sizes space name space' res := by
  cases res with
  | error kr => exact ⟨h.1.trans hfast, h.2.1, fun m c => (h.2.2 m c).trans (hmaps m c)⟩
  | ok p =>
    refine ⟨h.1.trans hfast, fun r => ?_⟩
    obtain ⟨hinv, hholds, hup⟩ := h.2 r
    refine ⟨hinv, hholds, fun m d => ?_⟩
    rw [hup m d, hmaps]

variable (h : SpaceInv sizes space)

include h

/-- What the tree lookup of `ipc_entry_alloc_name` finds. -/
theorem SpaceInv.allocLookup (name : MachPort) : Rearranged sizes space
        (if 0 < space.isTreeTotal then MachVirtuTerm.ipcTreeLookup space name
          else (space, none)).1 ∧
      ∀ p, (if 0 < space.isTreeTotal then MachVirtuTerm.ipcTreeLookup space name
          else (space, none)).2 = some p ↔
        ∃ a, p = .tree a ∧ (a, name) ∈ space.tentries := by
  split_ifs with htotal
  · exact h.ipcTreeLookup name
  · have hnil : space.tentries = [] :=
      List.eq_nil_of_length_eq_zero (by rw [← h.tree.total]; omega)
    exact ⟨h.rearranged_refl, by simp [hnil]⟩

/-- The loop of `ipc_entry_alloc_name` returns, with an entry for the name or with
everything as it was. -/
theorem SpaceInv.allocNameLoop (hvalid : machPortValid name)
    (hite : ∀ ite, iteAlloc = some ite ∨ treeEntry = some ite → ite ∉ addrs space.tentries)
    (tables : ℕ → Bool)
    (hfuel : sizes.num + (if treeEntry.isSome then 0 else 1) < space.isTableNext + fuel) :
    ∃ space' res, allocNameLoop sizes name iteAlloc tables fuel treeEntry space =
      some (space', res) ∧ Allocated sizes space name space' res := by
  induction fuel generalizing space treeEntry with
  | zero =>
    have := h.tree.next_lt
    omega
  | succ fuel ih =>
    rw [MachVirtuTerm.allocNameLoop]
    dsimp only
    rw [if_neg (by simp [h.tree.isActive])]
    by_cases hheld : (0 < machPortIndex name ∧ machPortIndex name < space.isTableSize) ∧
        ieBitsType (space.isTable (machPortIndex name)).ieBits ≠ machPortTypeNone ∧
        ieBitsGen (space.isTable (machPortIndex name)).ieBits = machPortGen name
    · -- The name has an entry in the table.
      rw [if_pos hheld]
      obtain ⟨⟨h0, hi⟩, ht, hg⟩ := hheld
      exact ⟨space, _, rfl, rfl, fun r => h.store ⟨rfl, h0, hi, ht, hg⟩⟩
    rw [if_neg hheld]
    by_cases hfree : (0 < machPortIndex name ∧ machPortIndex name < space.isTableSize) ∧
        ieBitsType (space.isTable (machPortIndex name)).ieBits = machPortTypeNone
    · rw [if_pos hfree]
      obtain ⟨⟨h0, hi⟩, ht⟩ := hfree
      obtain ⟨freeIndex, hpred, hrip⟩ := h.ripSlot h0 hi ht
      rw [hpred, bind_eq_bind, bind_some]
      refine ⟨_, .ok (.table (machPortIndex name)), rfl, rfl, fun r => ?_⟩
      obtain ⟨hinv, hholds, -, hup⟩ := hrip r { (space.setTable freeIndex
        { space.isTable freeIndex with
          index := (space.isTable (machPortIndex name)).ieNext }).isTable (machPortIndex name) with
            ieBits := machPortGen name, index := 0 } rfl
      exact ⟨hinv, hholds, hup⟩
    rw [if_neg hfree]
    cases hfast : space.isFast with
    | true =>
      rw [if_pos rfl]
      exact ⟨space, _, rfl, rfl, h, fun _ _ => Iff.rfl⟩
    | false =>
    rw [if_neg (by simp)]
    obtain ⟨hre, hfound⟩ := h.allocLookup name
    generalize (if 0 < space.isTreeTotal then MachVirtuTerm.ipcTreeLookup space name
      else (space, none)) = found at hre hfound ⊢
    obtain ⟨space₁, tentry⟩ := found
    dsimp only at hre hfound ⊢
    obtain ⟨tree, hspace, -, hel⟩ := hre.shape
    have hten : space₁.tentries = space.tentries := by rw [hspace]; exact hel
    have hfast₁ : space₁.isFast = space.isFast := by rw [hspace]
    cases tentry with
    | some p =>
      obtain ⟨a, rfl, ha⟩ := (hfound p).mp rfl
      refine ⟨space₁, _, rfl, Allocated.of_maps hre.maps hfast₁ ⟨rfl, fun r => ?_⟩⟩
      exact hre.inv.store (by rw [IpcSpace.Holds, hten]; exact ha)
    | none =>
      -- The name is not in the space.
      have hslot (h0 : 0 < machPortIndex name) (hi : machPortIndex name < space.isTableSize) :
          ieBitsType (space.isTable (machPortIndex name)).ieBits ≠ machPortTypeNone :=
        fun ht => hfree ⟨⟨h0, hi⟩, ht⟩
      have hfresh (q : IpcEntryPtr) : ¬space₁.Holds name q := by
        cases q with
        | table i =>
          rw [hspace]
          rintro ⟨rfl, h0, hi, ht, hg⟩
          exact hheld ⟨⟨h0, hi⟩, ht, hg⟩
        | tree a =>
          intro ha
          rw [IpcSpace.Holds, hten] at ha
          exact absurd ((hfound (.tree a)).mpr ⟨a, rfl, ha⟩) (by simp)
      dsimp only
      split_ifs with hgrow
      · have hnext : space₁.isTableNext = space.isTableNext := by rw [hspace]
        obtain ⟨space₂, kr, hrun, hgrown, hmore⟩ := hre.inv.ipcEntryGrowTable none
          tables fuel (by rw [hnext]; split_ifs at hfuel <;> omega)
        rw [hrun, bind_eq_bind, bind_some]
        dsimp only
        have hmaps₂ (m : MachPort) (c : BitVec 32 × Option ℕ) :
            space₂.Maps m c ↔ space.Maps m c := (hgrown.maps m c).trans (hre.maps m c)
        have hfast₂ : space₂.isFast = space.isFast := hgrown.fast.trans hfast₁
        split_ifs with hkr
        · exact ⟨space₂, _, rfl, hfast₂, hgrown.inv, hmaps₂⟩
        · have hlt := hmore rfl (not_ne_iff.mp hkr)
          obtain ⟨space', res, hrun', halloc⟩ := @ih space₂ treeEntry hgrown.inv
            (fun ite hi hmem => hite ite hi (hten ▸ (hgrown.sub.map Prod.fst).subset hmem))
            (by omega)
          exact ⟨space', res, hrun', halloc.of_maps hmaps₂ hfast₂⟩
      · cases treeEntry with
        | some ite =>
          refine ⟨_, _, rfl, Allocated.of_maps hre.maps hfast₁ ⟨?_, fun r => ?_⟩⟩
          · obtain ⟨_, _, -, -, -, heq⟩ := allocNameInTree_eq hre.inv name ite
            rw [heq]
          · refine hre.inv.allocNameInTree (hfast₁.trans hfast) hvalid hfresh ?_ ?_ r rfl
            · rw [hspace]
              exact hslot
            · rw [hten]
              exact hite ite (Or.inr rfl)
        | none =>
          cases hal : iteAlloc with
          | none => exact ⟨space₁, _, rfl, hfast₁, hre.inv, hre.maps⟩
          | some ite =>
            subst hal
            obtain ⟨space', res, hrun', halloc⟩ := @ih space₁ (some ite)
              hre.inv (fun i hi => hten ▸ hite i (Or.inl (hi.elim id id))) (by
                rw [show space₁.isTableNext = space.isTableNext by rw [hspace]]
                simp only [isSome_none, isSome_some] at hfuel ⊢
                simp at hfuel ⊢
                omega)
            exact ⟨space', res, hrun', halloc.of_maps hre.maps hfast₁⟩

/-- `ipc_entry_alloc_name` returns in at most as many turns as there are table sizes,
and one more. -/
theorem SpaceInv.ipcEntryAllocName (hvalid : machPortValid name)
    (hite : ∀ ite, iteAlloc = some ite → ite ∉ addrs space.tentries) (tables : ℕ → Bool) :
    ∃ space' res, ipcEntryAllocName sizes name iteAlloc tables (sizes.num + 1) space =
      some (space', res) ∧ Allocated sizes space name space' res := by
  refine h.allocNameLoop hvalid (fun ite hi => ?_) tables ?_
  · rcases hi with hi | hi
    · exact hite ite hi
    · cases hi
  · have := h.tree.next_pos
    simp only [isSome_none, Bool.false_eq_true, if_false]
    omega

end MachVirtuTerm

/-!
# A name space as a map

Runs of a name space: names are got, allocated and deallocated, rights are stored,
the table grows and names are looked up, in any order. Beside the space a map from
names to rights records what was stored last under each name. In every reachable
state the bookkeeping is exact, and a lookup finds what the map has, with one
exception: a name whose index and generation are those of the head of the free list.
-/

namespace MachVirtuTerm

open SplayTree LinkedList

/-- The operations on a name space, with the right the caller stores. -/
inductive SpaceOp
  /-- `ipc_entry_get`. -/
  | get (right : IpcRight)
  /-- `ipc_entry_alloc_name`. -/
  | allocName (name : MachPort) (iteAlloc : Option ℕ) (tables : ℕ → Bool) (right : IpcRight)
  /-- `ipc_entry_dealloc`. -/
  | dealloc (name : MachPort) (entry : IpcEntryPtr)
  /-- `ipc_entry_grow_table`. -/
  | growTable (target : Option ℕ) (tables : ℕ → Bool)
  /-- `ipc_entry_lookup`. -/
  | lookup (name : MachPort)
  /-- Storing another right in the entry of a name. -/
  | store (name : MachPort) (entry : IpcEntryPtr) (right : IpcRight)

open SpaceOp

/-- What an operation returns. -/
inductive SpaceResult
  | named (name : MachPort) (entry : IpcEntryPtr)
  | found (entry : Option IpcEntryPtr)
  | code (kr : KernReturn)
  deriving DecidableEq

/-- A map from names to rights. -/
abbrev NameMap := MachPort → Option (BitVec 32 × Option ℕ)

variable (sizes : IpcTableSizes)

namespace SpaceOp

/-- What `ipc_entry_dealloc` demands of its caller: no object and no request. -/
def clear (space : IpcSpace) (p : IpcEntryPtr) : IpcSpace :=
  space.setEntry { space.entry p with ieObject := none, index := 0 } p

/-- Execute an operation and its caller's store. -/
def exec (space : IpcSpace) : SpaceOp → Option (IpcSpace × SpaceResult)
  | get right =>
    match ipcEntryGet space with
    | .error kr => some (space, .code kr)
    | .ok (space, name, p) => some (space.store p right, .named name p)
  | allocName name iteAlloc tables right => do
    let (space, res) ← ipcEntryAllocName sizes name iteAlloc tables (sizes.num + 1) space
    match res with
    | .error kr => some (space, .code kr)
    | .ok p => some (space.store p right, .named name p)
  | dealloc name entry => do
    let space ← ipcEntryDealloc sizes name entry (clear space entry)
    some (space, .code .success)
  | growTable target tables => do
    let (space, kr) ← ipcEntryGrowTable sizes target tables sizes.num space
    some (space, .code kr)
  | lookup name =>
    let (space, p) := ipcEntryLookup space name
    some (space, .found p)
  | store _ entry right => some (space.store entry right, .code .success)

/-- What callers must respect: names are valid, new tree entries are not in use, and
an entry passed in is that of the name. -/
def Valid (space : IpcSpace) : SpaceOp → Prop
  | get _ | growTable _ _ | lookup _ => True
  | allocName name iteAlloc _ _ =>
    machPortValid name ∧ ∀ ite, iteAlloc = some ite → ite ∉ addrs space.tentries
  | dealloc name entry | store name entry _ => space.Holds name entry

/-- The map after an operation. -/
def after (M : NameMap) : SpaceOp → SpaceResult → NameMap
  | get right, .named name _ | allocName _ _ _ right, .named name _ =>
    update M name (some right.content)
  | dealloc name _, _ => update M name none
  | store name _ right, _ => update M name (some right.content)
  | _, _ => M

/-- A name returned by `ipc_entry_get` is valid and was not in use. -/
def Fresh (M : NameMap) : SpaceOp → SpaceResult → Prop
  | get _, .named name _ => machPortValid name ∧ M name = none
  | _, _ => True

end SpaceOp

/-- The states a space can get into, with the map of its names. -/
inductive Reachable (fast : Bool) : IpcSpace → NameMap → Prop
  | create {initial : ℕ} (h : initial + 1 < sizes.num) :
    Reachable fast (ipcSpaceCreate sizes initial fast) fun _ => none
  | step {space space' : IpcSpace} {M : NameMap} {op : SpaceOp} {res : SpaceResult}
    (h : Reachable fast space M) (hvalid : op.Valid space)
    (hexec : op.exec sizes space = some (space', res)) :
    Reachable fast space' (op.after M res)

variable {sizes} {space space' : IpcSpace} {name m : MachPort} {p : IpcEntryPtr} {M : NameMap}
  {op : SpaceOp} {res : SpaceResult} {fast : Bool}

/-- A map lists what the names of a space denote. -/
def Describes (M : NameMap) (space : IpcSpace) : Prop :=
  ∀ name c, space.Maps name c ↔ M name = some c

/-- The map follows the change of one name. -/
theorem Describes.updated {c : Option (BitVec 32 × Option ℕ)} (h : Describes M space)
    (hup : Updated space space' name c) : Describes (update M name c) space' := by
  intro m d
  rw [hup m d]
  by_cases hm : m = name
  · subst hm
    rw [if_pos rfl, update_self]
  · rw [if_neg hm, update_of_ne hm, h]

/-- The map stays where nothing changes. -/
theorem Describes.congr (h : Describes M space)
    (hmaps : ∀ m c, space'.Maps m c ↔ space.Maps m c) : Describes M space' :=
  fun m c => (hmaps m c).trans (h m c)

section Create

/-- A new space satisfies the invariant. -/
theorem spaceInv_create {initial : ℕ} (h : initial + 1 < sizes.num) :
    SpaceInv sizes (ipcSpaceCreate sizes initial fast) := by
  have hpos := sizes.itsSize_pos (show initial < sizes.num by omega)
  have hnil : (ipcSpaceCreate sizes initial fast).tentries = [] := elements_empty _
  have hbits (i : ℕ) : ((ipcSpaceCreate sizes initial fast).isTable i).ieBits = ieBitsGenMask := rfl
  have hnext : (fun i => ((ipcSpaceCreate sizes initial fast).isTable i).ieNext) =
      fun i => if i = sizes.itsSize initial - 1 then 0 else i + 1 := rfl
  have htype : ieBitsType ieBitsGenMask = machPortTypeNone := by decide
  have hcol : ¬ieBitsCollides ieBitsGenMask := by decide
  refine ⟨⟨rfl, rfl, Nat.succ_pos _, h, rfl, wellFormed_empty _, ?_, ?_, ?_, ?_, ?_, fun _ => hnil⟩,
    ⟨?_, ?_, fun i _ _ _ => ?_, fun i _ => ?_, ?_, ?_⟩⟩
  · rw [hnil]
    exact List.nodup_nil
  · simp [hnil]
  · simp [hnil]
  · rw [hnil]
    rfl
  · rw [hnil]
    simp [smallIndices, ipcSpaceCreate]
  · rw [hbits, htype]
  · rw [hbits]
    decide
  · rw [hbits]
    exact hcol
  · rw [hbits, hnil]
    simp [hcol]
  · simp [hnil]
  · have hsize : (ipcSpaceCreate sizes initial fast).isTableSize = sizes.itsSize initial := rfl
    refine ⟨List.range' 1 (sizes.itsSize initial - 1), ⟨?_, List.nodup_range'⟩, fun i => ?_⟩
    · rw [hnext, show ((ipcSpaceCreate sizes initial fast).isTable 0).ieNext =
        if 0 = sizes.itsSize initial - 1 then 0 else 1 from rfl]
      cases hn : sizes.itsSize initial - 1 with
      | zero => exact rfl
      | succ n =>
        rw [if_neg (by omega)]
        exact path_range' (fun j _ hj => if_neg (by omega)) (if_pos (by omega))
    · rw [List.mem_range'_1, hbits, hsize, htype]
      simp only [and_true]
      omega

/-- Nothing has a name in a new space. -/
theorem describes_create (initial : ℕ) :
    Describes (fun _ => none) (ipcSpaceCreate sizes initial fast) := by
  intro name c
  refine iff_of_false ?_ (by simp)
  rintro ⟨i | a, hp, -⟩
  · exact hp.2.2.2.1 (by decide : ieBitsType ieBitsGenMask = machPortTypeNone)
  · simp [IpcSpace.Holds, IpcSpace.tentries, ipcSpaceCreate] at hp

end Create

/-- Deallocating leaves the kind of a space alone. -/
theorem ipcEntryDealloc_isFast (h : ipcEntryDealloc sizes name p space = some space') :
    space'.isFast = space.isFast := by
  have hcollision (s : IpcSpace) : (ipcEntryTreeCollision s name).1.isFast = s.isFast := rfl
  simp only [ipcEntryDealloc] at h
  split_ifs at h with hfast htable hcol
  · cases h
    rfl
  · simp only [deallocMove, bind_eq_bind, bind_eq_some_iff] at h
    obtain ⟨x, -, h⟩ := h
    cases h
    rfl
  · cases h
    rfl
  all_goals
    cases h
    rfl

/-- Clearing an entry in use is storing a right without object and request. -/
theorem SpaceInv.clear_eq_store (h : SpaceInv sizes space) (hp : space.Holds name p) :
    ∃ r : IpcRight, clear space p = space.store p r := by
  have hinUse : ieBitsType (space.entry p).ieBits ≠ machPortTypeNone := by
    cases p with
    | table i => exact hp.2.2.2.1
    | tree a => exact (h.tree.right (a, name) hp).1
  refine ⟨⟨(space.entry p).ieBits, none, 0, hinUse⟩, ?_⟩
  rw [clear, IpcSpace.store, ieBitsStore_self]

/-- Looking up keeps the invariant and what names denote. -/
theorem SpaceInv.lookup (h : SpaceInv sizes space) (name : MachPort) :
    Rearranged sizes space (MachVirtuTerm.ipcEntryLookup space name).1 := by
  cases hfast : space.isFast with
  | true =>
    have heq : (MachVirtuTerm.ipcEntryLookup space name).1 = space := by
      simp only [MachVirtuTerm.ipcEntryLookup, hfast, if_true]
      split_ifs <;> rfl
    rw [heq]
    exact h.rearranged_refl
  | false => exact (h.ipcEntryLookup hfast name).1

/-- Every operation returns, keeps the invariant and does to the map what it should. -/
theorem SpaceInv.exec (h : SpaceInv sizes space) (hM : Describes M space) (hvalid : op.Valid space) :
    ∃ space' res, op.exec sizes space = some (space', res) ∧ SpaceInv sizes space' ∧
      Describes (op.after M res) space' ∧ space'.isFast = space.isFast ∧ op.Fresh M res := by
  cases op with
  | get right =>
    cases hget : MachVirtuTerm.ipcEntryGet space with
    | error kr =>
      refine ⟨space, .code kr, ?_, h, hM, rfl, trivial⟩
      simp only [exec, hget]
    | ok found =>
      obtain ⟨space₁, name, p⟩ := found
      obtain ⟨hinv, -, hname, hfresh, hup⟩ := h.ipcEntryGet hget right
      refine ⟨space₁.store p right, .named name p, ?_, hinv, hM.updated hup, ?_, hname, ?_⟩
      · simp only [exec, hget]
      · rw [IpcSpace.store_isFast]
        simp only [MachVirtuTerm.ipcEntryGet] at hget
        split_ifs at hget
        cases hget
        rfl
      · exact eq_none_iff_forall_ne_some.mpr fun c hc => hfresh c ((hM name c).mpr hc)
  | allocName name iteAlloc tables right =>
    obtain ⟨space₁, res, hexec, halloc⟩ := h.ipcEntryAllocName hvalid.1 hvalid.2 tables
    cases res with
    | error kr =>
      refine ⟨space₁, .code kr, ?_, halloc.2.1, hM.congr halloc.2.2, halloc.1, trivial⟩
      simp only [exec, hexec, bind_eq_bind, bind_some]
    | ok p =>
      obtain ⟨hinv, -, hup⟩ := halloc.2 right
      refine ⟨space₁.store p right, .named name p, ?_, hinv, hM.updated hup, ?_, trivial⟩
      · simp only [exec, hexec, bind_eq_bind, bind_some]
      · rw [IpcSpace.store_isFast, halloc.1]
  | dealloc name entry =>
    obtain ⟨r, hr⟩ := h.clear_eq_store hvalid
    obtain ⟨hinv, hholds, hup⟩ := h.store (r := r) hvalid
    obtain ⟨space₁, hrun, hinv', hup'⟩ := hinv.ipcEntryDealloc hholds
    refine ⟨space₁, .code .success, ?_, hinv', ?_, ?_, trivial⟩
    · simp only [exec, hr, hrun, bind_eq_bind, bind_some]
    · have hdes := (hM.updated hup).updated hup'
      rwa [update_idem] at hdes
    · rw [ipcEntryDealloc_isFast hrun, IpcSpace.store_isFast]
  | growTable target tables =>
    obtain ⟨space₁, kr, hrun, hgrown, -⟩ := h.ipcEntryGrowTable target tables sizes.num (by omega)
    refine ⟨space₁, .code kr, ?_, hgrown.inv, hM.congr hgrown.maps, hgrown.fast, trivial⟩
    simp only [exec, hrun, bind_eq_bind, bind_some]
  | lookup name =>
    refine ⟨(MachVirtuTerm.ipcEntryLookup space name).1,
      .found (MachVirtuTerm.ipcEntryLookup space name).2, rfl, ?_⟩
    have hre := h.lookup name
    obtain ⟨tree, hspace, -, -⟩ := hre.shape
    exact ⟨hre.inv, hM.congr hre.maps, by rw [hspace], trivial⟩
  | store name entry right =>
    obtain ⟨hinv, -, hup⟩ := h.store (r := right) hvalid
    exact ⟨_, .code .success, rfl, hinv, hM.updated hup, by simp, trivial⟩

/-- The invariant holds in every reachable state, and the map is right. -/
theorem Reachable.inv (h : Reachable sizes fast space M) :
    SpaceInv sizes space ∧ Describes M space ∧ space.isFast = fast := by
  induction h with
  | create h => exact ⟨spaceInv_create h, describes_create _, rfl⟩
  | step h hvalid hexec ih =>
    obtain ⟨hinv, hM, hf⟩ := ih
    obtain ⟨space', res, hexec', hinv', hM', hf', -⟩ := hinv.exec hM hvalid
    rw [hexec', Option.some.injEq, Prod.mk.injEq] at hexec
    obtain ⟨rfl, rfl⟩ := hexec
    exact ⟨hinv', hM', hf'.trans hf⟩

/-- A lookup finds a live entry with what the map has under a name, or nothing where
the map has nothing. -/
def LookupAgrees (space : IpcSpace) (M : NameMap) (name : MachPort) : Prop :=
  match ipcEntryLookup space name with
  | (_, none) => M name = none
  | (space', some p) =>
    ieBitsType (space'.entry p).ieBits ≠ machPortTypeNone ∧ M name = some (space'.content p)

/-- An entry that holds a name is in use. -/
theorem SpaceInv.inUse (h : SpaceInv sizes space) (hp : space.Holds name p) :
    ieBitsType (space.entry p).ieBits ≠ machPortTypeNone := by
  cases p with
  | table i => exact hp.2.2.2.1
  | tree a => exact (h.tree.right (a, name) hp).1

/-- Where the lookup is right about who holds a name, it agrees with the map. -/
theorem SpaceInv.lookupAgrees (h : SpaceInv sizes space) (hM : Describes M space)
    (hfound : ∀ p, (MachVirtuTerm.ipcEntryLookup space name).2 = some p ↔ space.Holds name p) :
    LookupAgrees space M name := by
  have hre := h.lookup name
  have hshape := hre.shape
  have hinv := hre.inv
  have hmaps := hre.maps
  rw [LookupAgrees]
  generalize MachVirtuTerm.ipcEntryLookup space name = found at hfound hshape hinv hmaps ⊢
  obtain ⟨space', entry⟩ := found
  dsimp only at hfound hshape hinv hmaps ⊢
  cases entry with
  | none =>
    refine eq_none_iff_forall_ne_some.mpr fun c hc => ?_
    obtain ⟨p, hp, -⟩ := (hM name c).mpr hc
    exact absurd ((hfound p).mpr hp) (by simp)
  | some p =>
    have hp : space'.Holds name p := by
      obtain ⟨tree, hspace, -, hel⟩ := hshape
      have hp := (hfound p).mp rfl
      cases p with
      | table i => rw [hspace]; exact hp
      | tree a =>
        have ha : (a, name) ∈ space.tentries := hp
        rw [← hel] at ha
        rw [hspace]
        exact ha
    exact ⟨hinv.inUse hp, (hM name _).mp ((hmaps name _).mp ⟨p, hp, rfl⟩)⟩

/-- A name space is a map, up to the name of the head of the free list: in every
reachable state every operation returns and a new name was not in use, lookups of all
other names agree with the map, and lookups of all names do if and only if the name
of the head is not allocated. -/
theorem name_space_is_map (h : Reachable sizes false space M) :
    (∀ op : SpaceOp, op.Valid space → ∃ space' res, op.exec sizes space = some (space', res) ∧
      op.Fresh M res) ∧
    (∀ name ≠ headName, LookupAgrees space M name) ∧
    ((∀ name, LookupAgrees space M name) ↔ M headName = none) := by
  obtain ⟨hinv, hM, hfast⟩ := h.inv
  have hothers : ∀ name ≠ headName, LookupAgrees space M name := fun name hne =>
    hinv.lookupAgrees hM ((hinv.ipcEntryLookup hfast name).2 hne)
  have hhead : LookupAgrees space M headName ↔ M headName = none := by
    rw [LookupAgrees, hinv.ipcEntryLookup_headName hfast]
  refine ⟨fun op hvalid => ?_, hothers, fun hall => hhead.mp (hall headName), fun hno name => ?_⟩
  · obtain ⟨space', res, hexec, -, -, -, hfresh⟩ := hinv.exec hM hvalid
    exact ⟨space', res, hexec, hfresh⟩
  · by_cases hne : name = headName
    · rw [hne]
      exact hhead.mpr hno
    · exact hothers name hne

/-- A receive right. -/
def receiveRight (port : ℕ) : IpcRight := ⟨0x00020000, some port, 0, by decide⟩

/-- A name in the table and one in the tree with the same index, after the table has grown. -/
theorem name_space_is_map_got :
    ∃ space M, Reachable ipcTableEntries false space M ∧ M 0x103 = some (0x00020000, some 7) ∧
      M 0x107 = some (0x00020000, some 8) ∧ space.tentries = [(5, 0x107)] ∧
      (ipcSpaceCreate ipcTableEntries 0 false).isTableSize < space.isTableSize ∧
      ∀ name, LookupAgrees space M name := by
  have h : ((get (receiveRight 7)).exec ipcTableEntries
      (ipcSpaceCreate ipcTableEntries 0 false)).bind (fun r₁ =>
        ((allocName 0x107 (some 5) (fun _ => true) (receiveRight 8)).exec ipcTableEntries r₁.1).bind
          fun r₂ => ((SpaceOp.growTable none fun _ => true).exec ipcTableEntries r₂.1).map fun r₃ =>
            decide (r₁.2 = .named 0x103 (.table 1) ∧ r₁.1.tentries = [] ∧
              r₂.2 = .named 0x107 (.tree 5) ∧ r₃.1.tentries = [(5, 0x107)] ∧
              (ipcSpaceCreate ipcTableEntries 0 false).isTableSize < r₃.1.isTableSize)) =
        some true := by
    decide +kernel
  obtain ⟨⟨s₁, r₁⟩, hget, h⟩ := bind_eq_some_iff.mp h
  obtain ⟨⟨s₂, r₂⟩, halloc, h⟩ := bind_eq_some_iff.mp h
  obtain ⟨⟨s₃, r₃⟩, hgrow, heq⟩ := map_eq_some_iff.mp h
  obtain ⟨rfl, hnone, rfl, htree, hsize⟩ := of_decide_eq_true heq
  have hnew : Reachable ipcTableEntries false (ipcSpaceCreate ipcTableEntries 0 false) _ :=
    .create (by decide)
  have hvalid : (allocName 0x107 (some 5) (fun _ => true) (receiveRight 8)).Valid s₁ :=
    ⟨by decide, fun ite _ => by simp [hnone]⟩
  have hgot := hnew.step (show (get (receiveRight 7)).Valid _ from trivial) hget
  have hreach := (hgot.step hvalid halloc).step
    (show (SpaceOp.growTable none fun _ => true).Valid _ from trivial) hgrow
  exact ⟨s₃, _, hreach, rfl, rfl, htree, hsize, (name_space_is_map hreach).2.2.mpr rfl⟩

/-- Lookups do not agree with the map in every reachable state: the name of the head
can be allocated and is not found. -/
theorem lookup_headName_fails :
    ¬∀ space M, Reachable ipcTableEntries false space M → ∀ name, LookupAgrees space M name := by
  intro hall
  have hexec : ((allocName headName (some 1) (fun _ => true) (receiveRight 7)).exec
      ipcTableEntries (ipcSpaceCreate ipcTableEntries 0 false)).map
        (fun s => (s.2, (ipcEntryLookup s.1 headName).2)) =
          some (.named headName (.tree 1), none) := by decide +kernel
  obtain ⟨⟨space, res⟩, hexec, hs⟩ := map_eq_some_iff.mp hexec
  obtain ⟨rfl, hlost⟩ := Prod.mk.inj hs
  have hnew : Reachable ipcTableEntries false (ipcSpaceCreate ipcTableEntries 0 false) _ :=
    .create (by decide)
  have hreach := Reachable.step hnew ?_ hexec
  · have hagrees := hall space _ hreach headName
    rw [LookupAgrees] at hagrees
    dsimp only at hlost
    generalize ipcEntryLookup space headName = found at hlost hagrees
    obtain ⟨space', entry⟩ := found
    subst hlost
    simp [after] at hagrees
  · exact ⟨by decide, fun ite _ => by simp [IpcSpace.tentries, ipcSpaceCreate]⟩

/-- The bookkeeping of every reachable space is exact: the free list visits the free
entries once each, the collision bit says whether the tree has names with the index,
and the counters count the tree entries and their indices in the next table. -/
theorem bookkeeping_exact (h : Reachable sizes fast space M) :
    (∃ free, Path (fun i => (space.isTable i).ieNext) (space.isTable 0).ieNext free ∧ free.Nodup ∧
      ∀ i, i ∈ free ↔ 0 < i ∧ i < space.isTableSize ∧
        ieBitsType (space.isTable i).ieBits = machPortTypeNone) ∧
    (∀ i < space.isTableSize, ieBitsCollides (space.isTable i).ieBits ↔
      ∃ e ∈ space.tentries, machPortIndex e.2 = i) ∧
    space.isTreeTotal = space.tentries.length ∧
    space.isTreeSmall = (smallIndices space.tentries space.isTableSize
      (sizes.itsSize space.isTableNext)).card := by
  obtain ⟨⟨htree, htable⟩, -, -⟩ := h.inv
  obtain ⟨free, hfree, hmem⟩ := htable.free
  exact ⟨⟨free, hfree.1, hfree.2, hmem⟩, htable.collision, htree.total, htree.small⟩

/-- The bookkeeping after a name goes to the tree. -/
theorem bookkeeping_exact_tree :
    ∃ space M, Reachable ipcTableEntries false space M ∧
      space.tentries.length = 1 ∧ ieBitsCollides (space.isTable 0).ieBits := by
  have hexec : ((allocName headName (some 1) (fun _ => true) (receiveRight 7)).exec
      ipcTableEntries (ipcSpaceCreate ipcTableEntries 0 false)).map
        (fun s => (s.1.isTreeTotal, decide (ieBitsCollides (s.1.isTable 0).ieBits))) =
          some (1, true) := by decide +kernel
  obtain ⟨⟨space, res⟩, hexec, hs⟩ := map_eq_some_iff.mp hexec
  obtain ⟨htotal, hcol⟩ := Prod.mk.inj hs
  have hnew : Reachable ipcTableEntries false (ipcSpaceCreate ipcTableEntries 0 false) _ :=
    .create (by decide)
  have hreach := Reachable.step hnew ?_ hexec
  · exact ⟨space, _, hreach, (bookkeeping_exact hreach).2.2.1 ▸ htotal, of_decide_eq_true hcol⟩
  · exact ⟨by decide, fun ite _ => by simp [IpcSpace.tentries, ipcSpaceCreate]⟩

end MachVirtuTerm
