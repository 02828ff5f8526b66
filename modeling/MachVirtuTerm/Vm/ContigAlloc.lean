import MachVirtuTerm.Lib.LinkSlots
import MachVirtuTerm.Mach.KernReturn
import MachVirtuTerm.Mach.VmParam

/-!
# Allocation of contiguous pages

The free pages are sorted by their physical addresses, in place, and then searched for a run of
neighbours, which is cut out of their list. Where the code goes through a list, a number of
turns says how far it is followed. A function comes to `none` where a null pointer is followed,
where it panics, or where the turns do not suffice.
-/

open List Function

namespace MachVirtuTerm

open LinkSlots

/-- The free pages and what is counted of all pages. -/
structure FreePages (P : Type) where
  /-- `vm_page_queue_free`, and the link of each page. -/
  queue : LinkSlots.Links P
  physAddr : P → BitVec 32
  free : P → Bool
  gobbled : P → Bool
  wireCount : P → ℕ
  /-- `vm_page_free_count`, `vm_page_wire_count` and `vm_page_gobble_count`. -/
  freeCount : BitVec 32
  wiredPages : BitVec 32
  gobbledPages : BitVec 32
  freeCountMinimum : BitVec 32
  freeReserved : BitVec 32
  /-- The locks of the page queues and of the free list are held. -/
  queuesLocked : Bool
  freeLocked : Bool

namespace FreePages

variable {P : Type} [DecidableEq P]

/-! ## The sort -/

/-- The search for the first page with a larger address, behind which a page is put. -/
def insertBefore (physAddr : P → BitVec 32) (m : P) :
    ℕ → LinkSlots.Links P → Slot P → Option P → Option (LinkSlots.Links P)
  | _, sorted, _, none => some sorted
  | 0, _, _, some _ => none
  | turns + 1, sorted, prev, some m1 =>
    if physAddr m < physAddr m1 then
      if sorted.get prev ≠ some m1 then none
      else some ((sorted.set (sorted.get prev) (.next m)).set (some m) prev)
    else insertBefore physAddr m turns sorted (.next m1) (sorted.next m1)

/-- One page is put to the sorted ones: the head and the links, and the last sorted page. -/
def insertPage (physAddr : P → BitVec 32) (turns : ℕ) (sorted : LinkSlots.Links P)
    (sortListEnd m : P) :
    Option (LinkSlots.Links P × P) :=
  match sorted.head with
  | none => none
  | some sortList =>
    if physAddr m < physAddr sortList then
      some ((sorted.set (some sortList) (.next m)).set (some m) .head, sortListEnd)
    else if physAddr sortListEnd < physAddr m then
      some ((sorted.set (some m) (.next sortListEnd)).set none (.next m), m)
    else
      (insertBefore physAddr m turns sorted .head sorted.head).map fun sorted =>
        (sorted, sortListEnd)

/-- The loop of the sort, with turns of its own. -/
def sortPages (physAddr : P → BitVec 32) (turns : ℕ) :
    ℕ → LinkSlots.Links P → P → Option P → Option (LinkSlots.Links P)
  | _, sorted, _, none => some sorted
  | 0, _, _, some _ => none
  | n + 1, sorted, sortListEnd, some m =>
    let nextM := sorted.next m
    match insertPage physAddr turns sorted sortListEnd m with
    | none => none
    | some (sorted, sortListEnd) => sortPages physAddr turns n sorted sortListEnd nextM

def vmPageFreeListSort (st : FreePages P) (turns : ℕ) : Option (FreePages P) :=
  match st.queue.head with
  | none => none
  | some first =>
    let m := st.queue.next first
    (sortPages st.physAddr turns turns (st.queue.set none (.next first)) first m).map fun sorted =>
      { st with queue := sorted }

/-! ## The search -/

/-- Pages that are cut out are gobbled. -/
def gobble : ℕ → FreePages P → Option P → Option (FreePages P)
  | _, st, none => some st
  | 0, _, some _ => none
  | turns + 1, st, some m =>
    gobble turns
      { st with
        free := update st.free m false
        gobbled := update st.gobbled m true }
      (st.queue.next m)

/-- Pages from behind a place up to a page are cut out. -/
def cutOut (st : FreePages P) (turns : ℕ) (contigPrev : Slot P) (m : P) (npages : ℕ) :
    Option (Option P × FreePages P) :=
  let list := st.queue.get contigPrev
  let queue := (st.queue.set (st.queue.next m) contigPrev).set none (.next m)
  (gobble turns { st with queue := queue } list).map fun st =>
    let freeCount := st.freeCount - BitVec.ofNat 32 npages
    (list, { st with
      freeCount := freeCount
      freeCountMinimum :=
        if freeCount < st.freeCountMinimum then freeCount else st.freeCountMinimum
      gobbledPages := st.gobbledPages + BitVec.ofNat 32 npages })

/-- The loop of the search. At first no run has started. -/
def searchPages (st : FreePages P) (npages : ℕ) :
    ℕ → Option P → BitVec 32 → Slot P → Option (Slot P × ℕ) → Option (Option P × FreePages P)
  | _, none, _, _, _ => some (none, st)
  | 0, some _, _, _, _ => none
  | turns + 1, some m, prevAddr, prevPtr, contig =>
    let contig :=
      if st.physAddr m ≠ prevAddr + BitVec.ofNat 32 pageSize then some (prevPtr, 0) else contig
    match contig with
    | none => none
    | some (contigPrev, contigNpages) =>
      if contigNpages + 1 = npages then st.cutOut npages contigPrev m npages
      else
        searchPages st npages turns (st.queue.next m) (st.physAddr m) (.next m)
          (some (contigPrev, contigNpages + 1))

def vmPageFindContiguous (st : FreePages P) (turns npages : ℕ) : Option (Option P × FreePages P) :=
  if npages < 1 then some (none, st)
  else
    match st.queue.head with
    | none => none
    | some first =>
      searchPages st npages turns st.queue.head
        (st.physAddr first - (BitVec.ofNat 32 pageSize + 1)) .head none

/-! ## Allocation -/

/-- Gobbled pages are wired. -/
def wirePages : ℕ → FreePages P → Option P → Option (FreePages P)
  | _, st, none => some st
  | 0, _, some _ => none
  | turns + 1, st, some m =>
    wirePages turns
      { st with
        gobbled := update st.gobbled m false
        wireCount := update st.wireCount m (st.wireCount m + 1)
        wiredPages := st.wiredPages + 1
        gobbledPages := st.gobbledPages - 1 }
      (st.queue.next m)

/-- `vm_pages_available`, in bytes. -/
def available (st : FreePages P) : BitVec 32 :=
  (st.freeCount - st.freeReserved) * BitVec.ofNat 32 pageSize

/-- Both locks are taken. -/
def lock (st : FreePages P) : FreePages P := { st with queuesLocked := true, freeLocked := true }

def unlockFree (st : FreePages P) : FreePages P := { st with freeLocked := false }

def unlockQueues (st : FreePages P) : FreePages P := { st with queuesLocked := false }

/-- The end of `cpm_allocate`, with what the search has found. -/
def handOut (turns : ℕ) (wire : Bool) :
    Option P × FreePages P → Option (KernReturn × Option P × FreePages P)
  | (none, st) => some (.noSpace, none, st.unlockFree)
  | (some pages, st) =>
    let wired := if wire then wirePages turns st.unlockFree (some pages) else some st.unlockFree
    wired.map fun st => (.success, some pages, st.unlockQueues)

/-- `cpm_allocate`: the code that is returned and the list. -/
def cpmAllocate (st : FreePages P) (turns : ℕ) (size : BitVec 32) (wire : Bool) :
    Option (KernReturn × Option P × FreePages P) :=
  if size.toNat % pageSize ≠ 0 then some (.invalidArgument, none, st)
  else
    let st := st.lock
    if st.available < size then some (.resourceShortage, none, st.unlockFree)
    else
      match st.vmPageFreeListSort turns with
      | none => none
      | some st =>
        (st.vmPageFindContiguous turns (size.toNat / pageSize)).bind (handOut turns wire)

end FreePages

end MachVirtuTerm

/-!
# The sort of the free pages

Pages with different addresses are put to a sorted list one by one. Every page stays in the
list.
-/

namespace MachVirtuTerm

open LinkSlots

namespace FreePages

variable {P : Type} {physAddr : P → BitVec 32} {sorted sorted' : LinkSlots.Links P}
  {m : P} {pre post l l' l₁ l₂ rest : List P} {turns : ℕ}

/-- Pages in ascending order of their addresses. -/
def Ascending (physAddr : P → BitVec 32) (l : List P) : Prop :=
  l.Pairwise fun m m' => physAddr m < physAddr m'

theorem Ascending.nodup (h : Ascending physAddr l) : l.Nodup := by
  refine h.imp ?_
  rintro m _ hlt rfl
  exact BitVec.lt_irrefl _ hlt

/-- The page with the highest address is the last one. -/
theorem Ascending.getLast_eq (h : Ascending physAddr l) (hm : m ∈ l)
    (hmax : ∀ m' ∈ l, ¬physAddr m < physAddr m') : l.getLast? = some m := by
  obtain ⟨l₁, l₂, rfl⟩ := append_of_mem hm
  obtain ⟨-, h₂, -⟩ := pairwise_append.mp h
  cases l₂ with
  | nil => exact getLast?_concat
  | cons m' l₂ =>
    have hlt := (pairwise_cons.mp h₂).1 m' mem_cons_self
    exact absurd hlt (hmax m' (by simp))

/-- A page has come to a sorted list. -/
structure Inserted (physAddr : P → BitVec 32) (sorted sorted' : LinkSlots.Links P) (l l' : List P)
    (m : P) : Prop where
  chain : sorted'.Chain l'
  perm : l'.Perm (m :: l)
  ascending : Ascending physAddr l'
  frame : ∀ m' ∉ m :: l, sorted'.next m' = sorted.next m'

variable [DecidableEq P]

/-- A page is put between the lower and the higher ones. -/
theorem inserted_between (hchain : sorted.Chain (l₁ ++ l₂)) (hasc : Ascending physAddr (l₁ ++ l₂))
    (hlower : ∀ m' ∈ l₁, physAddr m' < physAddr m)
    (hhigher : ∀ m' ∈ l₂, physAddr m < physAddr m') :
    Inserted physAddr sorted
      ((sorted.set (sorted.get (slotAfter l₁)) (.next m)).set (some m) (slotAfter l₁))
      (l₁ ++ l₂) (l₁ ++ m :: l₂) m := by
  have hm : m ∉ l₁ ++ l₂ := by
    intro hmem
    rcases mem_append.mp hmem with h | h
    · exact BitVec.lt_irrefl _ (hlower m h)
    · exact BitVec.lt_irrefl _ (hhigher m h)
  refine ⟨hchain.insert hasc.nodup hm, perm_middle, ?_, ?_⟩
  · obtain ⟨h₁, h₂, h₁₂⟩ := pairwise_append.mp hasc
    refine pairwise_append.mpr ⟨h₁, pairwise_cons.mpr ⟨hhigher, h₂⟩, ?_⟩
    intro m' hm' m'' hm''
    rcases mem_cons.mp hm'' with rfl | hm''
    · exact hlower m' hm'
    · exact h₁₂ m' hm' m'' hm''
  · intro m' hm'
    rw [LinkSlots.Links.set_next_of_ne, LinkSlots.Links.set_next_of_ne]
    · rintro ⟨⟩
      exact hm' mem_cons_self
    · exact slotAfter_ne_of_notMem fun hmem =>
        hm' (mem_cons_of_mem m (mem_append_left l₂ hmem))

/-- The search goes on to the first higher page. -/
theorem insertBefore_inserted (hchain : sorted.Chain (pre ++ post))
    (hasc : Ascending physAddr (pre ++ post)) (hlower : ∀ m' ∈ pre, physAddr m' < physAddr m)
    (hlast : ∃ m' ∈ post, physAddr m < physAddr m')
    (hne : ∀ m' ∈ post, physAddr m' ≠ physAddr m) (hturns : post.length ≤ turns) :
    ∃ sorted' l',
      insertBefore physAddr m turns sorted (slotAfter pre) (sorted.get (slotAfter pre)) =
        some sorted' ∧
      Inserted physAddr sorted sorted' (pre ++ post) l' m := by
  induction post generalizing pre turns with
  | nil =>
    obtain ⟨_, hmem, -⟩ := hlast
    cases hmem
  | cons m1 post ih =>
    obtain ⟨turns, rfl⟩ : ∃ t, turns = t + 1 := by
      rw [length_cons] at hturns
      exact ⟨turns - 1, by omega⟩
    obtain ⟨c, hpre, rfl, hpost⟩ := segment_append_iff.mp hchain
    have hget : sorted.get (slotAfter pre) = some m1 := LinkSlots.Links.get_slotAfter hpre
    have hnext : sorted.get (slotAfter (pre ++ [m1])) = sorted.next m1 := by
      rw [slotAfter, getLast?_concat]
      rfl
    rw [hget, insertBefore, hget]
    by_cases hlt : physAddr m < physAddr m1
    · rw [if_pos hlt, if_neg (not_not.mpr rfl)]
      rw [← hget]
      refine ⟨_, pre ++ m :: m1 :: post, rfl, ?_⟩
      refine inserted_between hchain hasc hlower fun m' hm' => ?_
      rcases mem_cons.mp hm' with rfl | hm'
      · exact hlt
      · have hpost := pairwise_cons.mp (pairwise_append.mp hasc).2.1
        exact BitVec.lt_trans hlt (hpost.1 m' hm')
    · rw [if_neg hlt]
      have hm1 : physAddr m1 < physAddr m :=
        BitVec.lt_of_le_ne (BitVec.not_lt.mp hlt) (hne m1 mem_cons_self)
      have happend : pre ++ m1 :: post = pre ++ [m1] ++ post := by simp
      rw [happend] at hchain hasc ⊢
      rw [length_cons] at hturns
      have hstep := ih hchain hasc
        (by
          intro m' hm'
          rcases mem_append.mp hm' with hm' | hm'
          · exact hlower m' hm'
          · rw [mem_singleton.mp hm']
            exact hm1)
        (by
          obtain ⟨m', hm', hm'lt⟩ := hlast
          rcases mem_cons.mp hm' with rfl | hm'
          · exact absurd hm'lt hlt
          · exact ⟨m', hm', hm'lt⟩)
        (fun m' hm' => hne m' (mem_cons_of_mem m1 hm'))
        (show post.length ≤ turns by omega)
      rw [hnext, slotAfter, getLast?_concat] at hstep
      exact hstep

/-- A page comes to a sorted list, which keeps its last page at hand. -/
theorem insertPage_inserted {sortListEnd : P} (hchain : sorted.Chain l)
    (hasc : Ascending physAddr l) (hend : l.getLast? = some sortListEnd)
    (hne : ∀ m' ∈ l, physAddr m' ≠ physAddr m) (hturns : l.length ≤ turns) :
    ∃ sorted' sortListEnd' l',
      insertPage physAddr turns sorted sortListEnd m = some (sorted', sortListEnd') ∧
      Inserted physAddr sorted sorted' l l' m ∧ l'.getLast? = some sortListEnd' := by
  obtain ⟨l₀, rfl⟩ := getLast?_eq_some_iff.mp hend
  obtain ⟨first, tail, hl⟩ : ∃ first tail, l₀ ++ [sortListEnd] = first :: tail :=
    exists_cons_of_ne_nil (by simp)
  have hhead : sorted.head = some first := by
    rw [LinkSlots.Segment.head_eq hchain, hl]
    rfl
  have hbelow := (pairwise_append.mp hasc).2.2
  rw [insertPage, hhead]
  dsimp only
  by_cases hfirst : physAddr m < physAddr first
  · rw [if_pos hfirst]
    refine ⟨_, sortListEnd, m :: (l₀ ++ [sortListEnd]), rfl, ?_, ?_⟩
    · have hinserted := @inserted_between P physAddr sorted m [] (l₀ ++ [sortListEnd]) _
        hchain hasc (by simp) (by
          intro m' hm'
          rw [hl] at hm' hasc
          rcases mem_cons.mp hm' with rfl | hm'
          · exact hfirst
          · exact BitVec.lt_trans hfirst ((pairwise_cons.mp hasc).1 m' hm'))
      rw [← hhead]
      exact hinserted
    · rw [← cons_append, getLast?_concat]
  rw [if_neg hfirst]
  by_cases hlast : physAddr sortListEnd < physAddr m
  · rw [if_pos hlast]
    refine ⟨_, m, l₀ ++ [sortListEnd] ++ [m], rfl, ?_, getLast?_concat⟩
    have hinserted := @inserted_between P physAddr sorted m (l₀ ++ [sortListEnd]) [] _
      (by rwa [append_nil]) (by rwa [append_nil]) (by
        intro m' hm'
        rcases mem_append.mp hm' with hm' | hm'
        · exact BitVec.lt_trans (hbelow m' hm' _ mem_cons_self) hlast
        · rw [mem_singleton.mp hm']
          exact hlast) (by simp)
    have hslot : slotAfter (l₀ ++ [sortListEnd]) = .next sortListEnd := by
      rw [slotAfter, getLast?_concat]
    have hm : sortListEnd ≠ m := by
      rintro rfl
      exact BitVec.lt_irrefl _ hlast
    rw [append_nil, LinkSlots.Links.get_slotAfter hchain, hslot] at hinserted
    rw [LinkSlots.Links.set, LinkSlots.Links.set, update_comm hm]
    exact hinserted
  · rw [if_neg hlast]
    have hsorted : physAddr m < physAddr sortListEnd :=
      BitVec.lt_of_le_ne (BitVec.not_lt.mp hlast) fun heq => hne sortListEnd (by simp) heq.symm
    obtain ⟨sorted', l', heq, hinserted⟩ := @insertBefore_inserted P physAddr sorted m [] _ turns _
      hchain hasc (by simp) ⟨sortListEnd, by simp, hsorted⟩ hne hturns
    have hget : sorted.get (slotAfter []) = some first := hhead
    rw [hget] at heq
    refine ⟨sorted', sortListEnd, l', ?_, hinserted, ?_⟩
    · change (insertBefore physAddr m turns sorted (slotAfter []) (some first)).map _ = _
      rw [heq]
      rfl
    · rw [nil_append] at hinserted
      refine hinserted.ascending.getLast_eq (hinserted.perm.mem_iff.mpr (by simp)) ?_
      intro m' hm' hlt
      rcases mem_cons.mp (hinserted.perm.mem_iff.mp hm') with rfl | hm'
      · exact hlast hlt
      · rcases mem_append.mp hm' with hm' | hm'
        · exact BitVec.lt_irrefl _ (BitVec.lt_trans hlt (hbelow m' hm' _ mem_cons_self))
        · rw [mem_singleton.mp hm'] at hlt
          exact BitVec.lt_irrefl _ hlt

/-- The pages that are not sorted yet come to the sorted ones. -/
theorem sortPages_sorted {sortListEnd : P} {a : Option P} (hchain : sorted.Chain l)
    (hasc : Ascending physAddr l) (hend : l.getLast? = some sortListEnd)
    (hrest : LinkSlots.Segment sorted.next a rest none)
    (hdistinct : ((l ++ rest).map physAddr).Nodup)
    (hturns : l.length + rest.length ≤ turns) {n : ℕ} (hn : rest.length ≤ n) :
    ∃ sorted' l', sortPages physAddr turns n sorted sortListEnd a = some sorted' ∧
      sorted'.Chain l' ∧ l'.Perm (l ++ rest) ∧ Ascending physAddr l' := by
  induction rest generalizing n sorted l sortListEnd a with
  | nil =>
    obtain rfl : a = none := hrest
    exact ⟨sorted, l, by rw [sortPages], hchain, by rw [append_nil], hasc⟩
  | cons m rest ih =>
    obtain ⟨rfl, hrest⟩ := hrest
    rw [length_cons] at hturns hn
    obtain ⟨n, rfl⟩ : ∃ k, n = k + 1 := ⟨n - 1, by omega⟩
    rw [map_append, map_cons] at hdistinct
    have hsplit := nodup_append.mp hdistinct
    have hne : ∀ m' ∈ l, physAddr m' ≠ physAddr m := fun m' hm' =>
      hsplit.2.2 _ (mem_map_of_mem hm') _ mem_cons_self
    obtain ⟨sorted', sortListEnd', l', heq, hinserted, hend'⟩ :=
      insertPage_inserted hchain hasc hend hne (show l.length ≤ turns by omega)
    have hperm : (l' ++ rest).Perm (l ++ m :: rest) :=
      (hinserted.perm.append_right rest).trans perm_middle.symm
    have hrest' : LinkSlots.Segment sorted'.next (sorted.next m) rest none := by
      refine hrest.congr fun m' hm' => hinserted.frame m' fun hmem => ?_
      rcases mem_cons.mp hmem with rfl | hmem
      · exact (nodup_cons.mp hsplit.2.1).1 (mem_map_of_mem hm')
      · exact hsplit.2.2 _ (mem_map_of_mem hmem) _ (mem_cons_of_mem _ (mem_map_of_mem hm')) rfl
    have hdistinct' : ((l' ++ rest).map physAddr).Nodup := by
      rw [(hperm.map physAddr).nodup_iff, map_append, map_cons]
      exact hdistinct
    have hlength := hinserted.perm.length_eq
    rw [length_cons] at hlength
    obtain ⟨sorted'', l'', heq', hchain', hperm', hasc'⟩ :=
      ih hinserted.chain hinserted.ascending hend' hrest' hdistinct' (by omega)
        (show rest.length ≤ n by omega)
    refine ⟨sorted'', l'', ?_, hchain', hperm'.trans hperm, hasc'⟩
    rw [sortPages, heq]
    exact heq'

/-- The free pages are sorted if there are any. -/
theorem vmPageFreeListSort_sorted {st : FreePages P} (hchain : st.queue.Chain l) (hl : l ≠ [])
    (hdistinct : (l.map st.physAddr).Nodup) (hturns : l.length ≤ turns) :
    ∃ queue l', st.vmPageFreeListSort turns = some { st with queue := queue } ∧
      queue.Chain l' ∧ l'.Perm l ∧ Ascending st.physAddr l' := by
  obtain ⟨first, rest, rfl⟩ := exists_cons_of_ne_nil hl
  obtain ⟨hhead, hrest⟩ := hchain
  have hnodup : first ∉ rest := fun hmem =>
    (nodup_cons.mp hdistinct).1 (mem_map_of_mem hmem)
  have hfirst : (st.queue.set none (.next first)).Chain [first] :=
    ⟨hhead, update_self _ _ _⟩
  rw [length_cons, Nat.add_comm] at hturns
  obtain ⟨queue, l', heq, hchain', hperm, hasc⟩ := sortPages_sorted
    hfirst (pairwise_singleton _ _) (show [first].getLast? = some first from rfl)
    (LinkSlots.Links.Segment.set_next hrest hnodup none)
    hdistinct (show [first].length + rest.length ≤ turns from hturns)
    (show rest.length ≤ turns by omega)
  refine ⟨queue, l', ?_, hchain', hperm, hasc⟩
  rw [vmPageFreeListSort, hhead]
  dsimp only
  rw [heq]
  rfl

/-- Without free pages a null pointer is followed. -/
theorem vmPageFreeListSort_nil {st : FreePages P} (hchain : st.queue.Chain []) :
    st.vmPageFreeListSort turns = none := by
  have hhead : st.queue.head = none := hchain
  rw [vmPageFreeListSort, hhead]

end FreePages

end MachVirtuTerm
