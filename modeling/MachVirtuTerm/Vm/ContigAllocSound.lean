import MachVirtuTerm.Vm.ContigAlloc
import MachVirtuTerm.Lib.ConsecutiveRuns

/-!
# The search for contiguous pages

The sorted list is searched for the first run of neighbours that is long enough. The run is cut
out of the list, and if none is found then there is none.
-/

open List Function

namespace MachVirtuTerm

open LinkSlots ConsecutiveRuns

namespace FreePages

variable {P : Type} {st st' : FreePages P} {m : P} {run pre post l done rest : List P}
  {turns npages : ℕ}

/-- Pages whose addresses follow each other. -/
def Contiguous (physAddr : P → BitVec 32) (run : List P) : Prop :=
  Consecutive (fun m => (physAddr m).toNat) pageSize run

/-- No such number of free pages follow each other. -/
def NoneContiguous (physAddr : P → BitVec 32) (npages : ℕ) (l : List P) : Prop :=
  NoRun (fun m => (physAddr m).toNat) pageSize npages l

theorem Ascending.keys {physAddr : P → BitVec 32} (h : FreePages.Ascending physAddr l) :
    ConsecutiveRuns.Ascending (fun m => (physAddr m).toNat) l :=
  h.imp BitVec.lt_def.mp

/-- Pages have been cut out of the free list. -/
structure CutOut (st st' : FreePages P) (run rest : List P) : Prop where
  queue : st'.queue.Chain rest
  pages : LinkSlots.Segment st'.queue.next run.head? run none
  physAddr : st'.physAddr = st.physAddr
  free : ∀ m, st'.free m = true ↔ st.free m = true ∧ m ∉ run
  gobbled : ∀ m, st'.gobbled m = true ↔ st.gobbled m = true ∨ m ∈ run
  wireCount : st'.wireCount = st.wireCount
  freeCount : st'.freeCount = st.freeCount - BitVec.ofNat 32 run.length
  wiredPages : st'.wiredPages = st.wiredPages
  gobbledPages : st'.gobbledPages = st.gobbledPages + BitVec.ofNat 32 run.length
  freeReserved : st'.freeReserved = st.freeReserved
  queuesLocked : st'.queuesLocked = st.queuesLocked
  freeLocked : st'.freeLocked = st.freeLocked

variable [DecidableEq P]

/-- All pages of a list are gobbled. -/
theorem gobble_eq {a : Option P} (hrun : LinkSlots.Segment st.queue.next a run none)
    (hturns : run.length ≤ turns) :
    ∃ free gobbled, gobble turns st a = some { st with free := free, gobbled := gobbled } ∧
      (∀ m, free m = true ↔ st.free m = true ∧ m ∉ run) ∧
      (∀ m, gobbled m = true ↔ st.gobbled m = true ∨ m ∈ run) := by
  induction run generalizing turns st a with
  | nil =>
    obtain rfl : a = none := hrun
    exact ⟨st.free, st.gobbled, by rw [gobble], by simp, by simp⟩
  | cons m run ih =>
    obtain ⟨rfl, hrun⟩ := hrun
    rw [length_cons] at hturns
    obtain ⟨turns, rfl⟩ : ∃ t, turns = t + 1 := ⟨turns - 1, by omega⟩
    obtain ⟨free, gobbled, heq, hfree, hgobbled⟩ := @ih
      { st with
        free := update st.free m false
        gobbled := update st.gobbled m true } turns _ hrun (by omega)
    refine ⟨free, gobbled, heq, ?_, ?_⟩
    · intro m'
      rw [hfree, mem_cons, not_or]
      by_cases hm : m' = m
      · subst hm
        simp
      · simp [hm]
    · intro m'
      rw [hgobbled, mem_cons]
      by_cases hm : m' = m
      · subst hm
        simp
      · simp [hm]

/-- A run is cut out of the list. -/
theorem cutOut_eq (hchain : st.queue.Chain (pre ++ (run ++ post)))
    (hnodup : (pre ++ (run ++ post)).Nodup) (hlast : run.getLast? = some m)
    (hnpages : run.length = npages) :
    ∃ st', st.cutOut npages (slotAfter pre) m npages = some (run.head?, st') ∧
      CutOut st st' run (pre ++ post) := by
  obtain ⟨c, hpre, htail⟩ := segment_append_iff.mp hchain
  obtain ⟨d, hrun, hpost⟩ := segment_append_iff.mp htail
  obtain ⟨r, rfl⟩ := getLast?_eq_some_iff.mp hlast
  obtain ⟨hr, rfl⟩ := segment_concat_iff.mp hrun
  have hsplit := nodup_append.mp hnodup
  have hsplit' := nodup_append.mp hsplit.2.1
  have hm : ∀ m' ∈ r ++ [m], m' ∉ pre ++ post := by
    intro m' hm' hmem
    rcases mem_append.mp hmem with h | h
    · exact hsplit.2.2 m' h m' (mem_append_left _ hm') rfl
    · exact hsplit'.2.2 m' hm' m' h rfl
  -- The place behind what comes before the run leads to what comes after it.
  have hcut : (st.queue.set (st.queue.next m) (slotAfter pre)).Chain (pre ++ post) :=
    LinkSlots.Links.Chain.redirect hchain hsplit.1 hpost fun m' hm' hmem =>
      hsplit.2.2 m' hmem m' (mem_append_right _ hm') rfl
  have hrun' : LinkSlots.Segment (st.queue.set (st.queue.next m) (slotAfter pre)).next c r
      (some m) :=
    hr.congr fun m' hm' => LinkSlots.Links.set_next_of_ne (slotAfter_ne_of_notMem fun hmem =>
      hm m' (mem_append_left _ hm') (mem_append_left _ hmem))
  have hmr : m ∉ r := fun hmem =>
    (nodup_append.mp hsplit'.1).2.2 m hmem m mem_cons_self rfl
  have hpages : LinkSlots.Segment ((st.queue.set (st.queue.next m) (slotAfter pre)).set none
      (.next m)).next c (r ++ [m]) none :=
    segment_concat_iff.mpr ⟨LinkSlots.Links.Segment.set_next hrun' hmr none, update_self _ _ _⟩
  have hhead : c = (r ++ [m]).head? := LinkSlots.Segment.head_eq hpages
  obtain ⟨free, gobbled, hgobble, hfree, hgobbled⟩ := @gobble_eq P
    { st with queue := (st.queue.set (st.queue.next m) (slotAfter pre)).set none (.next m) }
    (r ++ [m]) npages _ _ hpages hnpages.le
  have hget : st.queue.get (slotAfter pre) = c := LinkSlots.Links.get_slotAfter hpre
  rw [cutOut, hget]
  dsimp only
  rw [hgobble, hhead]
  refine ⟨_, rfl, ?_⟩
  exact {
    queue := LinkSlots.Links.Segment.set_next hcut (hm m (by simp)) none
    pages := hhead ▸ hpages
    physAddr := rfl
    free := hfree
    gobbled := hgobbled
    wireCount := rfl
    freeCount := by rw [hnpages]
    wiredPages := rfl
    gobbledPages := by rw [hnpages]
    freeReserved := rfl
    queuesLocked := rfl
    freeLocked := rfl }

/-- What the search comes to. -/
inductive Found (st : FreePages P) (npages : ℕ) (l : List P) : Option P × FreePages P → Prop
  | pages {pre run post : List P} {st' : FreePages P} (hl : l = pre ++ (run ++ post))
      (hrun : Contiguous st.physAddr run) (hlength : run.length = npages)
      (hcut : CutOut st st' run (pre ++ post)) : Found st npages l (run.head?, st')
  | none (hnone : NoneContiguous st.physAddr npages l) : Found st npages l (none, st)

/-- The pages that have been searched end with the run that is counted. -/
structure Searched (st : FreePages P) (npages : ℕ) (done : List P) (prevAddr : BitVec 32)
    (contig : Option (Slot P × ℕ)) : Prop where
  run : ∃ pre run a, done = pre ++ run ∧ run.getLast? = some a ∧ prevAddr = st.physAddr a ∧
    contig = some (slotAfter pre, run.length) ∧
    LastRun (fun m => (st.physAddr m).toNat) pageSize done run
  none : NoneContiguous st.physAddr npages done

/-- Once the run of a page is known it is either long enough or the search goes on. -/
theorem searchPages_step (hchain : st.queue.Chain (done ++ m :: rest))
    (hasc : Ascending st.physAddr (done ++ m :: rest)) (hl : done ++ [m] = pre ++ (run ++ [m]))
    (hlast : LastRun (fun m => (st.physAddr m).toNat) pageSize (done ++ [m]) (run ++ [m]))
    (hnone : NoneContiguous st.physAddr npages done) (hlength : run.length < npages) :
    (run.length + 1 = npages ∧ ∃ r, st.cutOut npages (slotAfter pre) m npages = some r ∧
      Found st npages (done ++ m :: rest) r) ∨
    (run.length + 1 < npages ∧ Searched st npages (done ++ [m]) (st.physAddr m)
      (some (slotAfter pre, run.length + 1))) := by
  have happend : done ++ m :: rest = pre ++ ((run ++ [m]) ++ rest) := by
    rw [← append_assoc, ← hl, append_assoc, singleton_append]
  by_cases hfull : run.length + 1 = npages
  · refine Or.inl ⟨hfull, ?_⟩
    have hlen : (run ++ [m]).length = npages := by
      rw [length_append, length_singleton, hfull]
    have hnodup := hasc.nodup
    rw [happend] at hchain hnodup ⊢
    obtain ⟨st', heq, hcut⟩ := cutOut_eq hchain hnodup getLast?_concat hlen
    exact ⟨_, heq, .pages rfl hlast.consecutive hlen hcut⟩
  · refine Or.inr ⟨by omega, ⟨pre, run ++ [m], m, hl, getLast?_concat, rfl, ?_, hlast⟩, ?_⟩
    · rw [length_append, length_singleton]
    · have hasc' : Ascending st.physAddr (done ++ [m]) :=
        List.Pairwise.sublist (List.Sublist.append_left (by simp) done) hasc
      refine hnone.concat hlast hasc'.keys (by decide) ?_
      rw [length_append, length_singleton]
      omega

/-- The next address is the next one also where addresses wrap around. -/
theorem physAddr_eq_add_iff {x y : BitVec 32} (hlt : x < y) :
    y = x + BitVec.ofNat 32 pageSize ↔ y.toNat = x.toNat + pageSize := by
  rw [BitVec.lt_def] at hlt
  rw [← BitVec.toNat_inj, BitVec.toNat_add, BitVec.toNat_ofNat]
  have hy := y.isLt
  simp only [pageSize]
  omega

/-- The search goes on from pages that have no run that is long enough. -/
theorem searchPages_found {a : Option P} {prevAddr : BitVec 32} {contig : Option (Slot P × ℕ)}
    (hchain : st.queue.Chain (done ++ rest)) (hasc : Ascending st.physAddr (done ++ rest))
    (hdvd : ∀ m ∈ done ++ rest, pageSize ∣ (st.physAddr m).toNat)
    (hsearched : Searched st npages done prevAddr contig)
    (ha : LinkSlots.Segment st.queue.next a rest none) (hturns : rest.length ≤ turns) :
    ∃ r, searchPages st npages turns a prevAddr (slotAfter done) contig = some r ∧
      Found st npages (done ++ rest) r := by
  induction rest generalizing done turns a prevAddr contig with
  | nil =>
    obtain rfl : a = none := ha
    refine ⟨(none, st), by rw [searchPages], .none ?_⟩
    rw [append_nil]
    exact hsearched.none
  | cons m rest ih =>
    obtain ⟨rfl, hrest⟩ := ha
    rw [length_cons] at hturns
    obtain ⟨turns, rfl⟩ : ∃ t, turns = t + 1 := ⟨turns - 1, by omega⟩
    obtain ⟨⟨pre, run, b, hdone, hb, rfl, rfl, hlast⟩, hnone⟩ := hsearched
    have hsub : (done ++ [m]).Sublist (done ++ m :: rest) :=
      List.Sublist.append_left (by simp) done
    have hasc' : Ascending st.physAddr (done ++ [m]) := List.Pairwise.sublist hsub hasc
    have hdvd' : ∀ m' ∈ done ++ [m], pageSize ∣ (st.physAddr m').toNat := fun m' hm' =>
      hdvd m' (hsub.subset hm')
    have hbdone : done.getLast? = some b := by
      obtain ⟨r, rfl⟩ := getLast?_eq_some_iff.mp hb
      rw [hdone, ← append_assoc, getLast?_concat]
    have hlt : st.physAddr b < st.physAddr m :=
      (pairwise_append.mp hasc').2.2 b (mem_of_getLast? hbdone) m mem_cons_self
    have hslot : slotAfter (done ++ [m]) = .next m := by rw [slotAfter, getLast?_concat]
    have happend : done ++ m :: rest = done ++ [m] ++ rest := by simp
    have hrunlt : run.length < npages :=
      hnone run hlast.consecutive (hdone ▸ subset_append_right pre run)
    -- The run goes on if the page is a neighbour, and starts again with it if not.
    obtain ⟨pre', run', hl, hlast', hnone', hcontig⟩ : ∃ pre' run',
        done ++ [m] = pre' ++ (run' ++ [m]) ∧
        LastRun (fun m => (st.physAddr m).toNat) pageSize (done ++ [m]) (run' ++ [m]) ∧
        run'.length < npages ∧
        (if st.physAddr m ≠ st.physAddr b + BitVec.ofNat 32 pageSize then
          some (slotAfter done, 0) else some (slotAfter pre, run.length)) =
          some (slotAfter pre', run'.length) := by
      by_cases hnext : st.physAddr m = st.physAddr b + BitVec.ofNat 32 pageSize
      · refine ⟨pre, run, by rw [hdone, append_assoc], ?_, hrunlt, ?_⟩
        · exact hlast.extend hasc'.keys hdvd' (by decide) hb ((physAddr_eq_add_iff hlt).mp hnext)
        · rw [if_neg (not_not.mpr hnext)]
      · refine ⟨done, [], by simp, ?_, Nat.zero_lt_of_lt hrunlt, ?_⟩
        · refine LastRun.restart hasc'.keys hdvd' (by decide) fun c hc heq => ?_
          rw [hbdone, Option.mem_some_iff] at hc
          subst hc
          exact hnext ((physAddr_eq_add_iff hlt).mpr heq)
        · rw [if_pos hnext]
          rfl
    rw [searchPages, hcontig]
    dsimp only
    rcases searchPages_step hchain hasc hl hlast' hnone hnone' with
      ⟨hfull, hfound⟩ | ⟨hgo, hsearched'⟩
    · rw [if_pos hfull]
      exact hfound
    · rw [if_neg hgo.ne, ← hslot]
      rw [happend] at hchain hasc hdvd ⊢
      exact ih hchain hasc hdvd hsearched' hrest (by omega)

/-- The search finds a run if there is one. -/
theorem vmPageFindContiguous_found (hchain : st.queue.Chain l) (hl : l ≠ [])
    (hasc : Ascending st.physAddr l) (hdvd : ∀ m ∈ l, pageSize ∣ (st.physAddr m).toNat)
    (hnpages : 1 ≤ npages) (hturns : l.length ≤ turns) :
    ∃ r, st.vmPageFindContiguous turns npages = some r ∧ Found st npages l r := by
  obtain ⟨m, rest, rfl⟩ := exists_cons_of_ne_nil hl
  obtain ⟨hhead, hrest⟩ := hchain
  have hchain' : st.queue.Chain ([] ++ m :: rest) := ⟨hhead, hrest⟩
  rw [length_cons] at hturns
  obtain ⟨turns, rfl⟩ : ∃ t, turns = t + 1 := ⟨turns - 1, by omega⟩
  have hfirst : st.physAddr m ≠ st.physAddr m - (BitVec.ofNat 32 pageSize + 1) +
      BitVec.ofNat 32 pageSize := by
    simp only [pageSize]
    bv_omega
  have hlast : LastRun (fun m => (st.physAddr m).toNat) pageSize ([] ++ [m]) ([] ++ [m]) := by
    refine LastRun.restart (pairwise_singleton _ _) ?_ (by decide) (by simp)
    intro m' hm'
    rw [mem_singleton.mp hm']
    exact hdvd m mem_cons_self
  rw [vmPageFindContiguous, if_neg (by omega), hhead]
  dsimp only
  rw [searchPages, if_pos hfirst]
  dsimp only
  rcases @searchPages_step P st m [] [] [] rest npages _ hchain' hasc rfl hlast
      (noRun_nil hnpages) hnpages with ⟨hfull, hfound⟩ | ⟨hgo, hsearched⟩
  · rw [if_pos (show 0 + 1 = npages from hfull)]
    exact hfound
  · rw [if_neg (show ¬0 + 1 = npages from hgo.ne)]
    have hchain₁ : st.queue.Chain ([m] ++ rest) := hchain'
    exact searchPages_found hchain₁ hasc hdvd hsearched hrest (by omega)

end FreePages

end MachVirtuTerm

/-!
# Contiguous pages are allocated exactly

An allocation that succeeds takes the first run of free pages that is long enough, and one that
fails changes nothing. The failing ones leave the page queues locked, though, and the reserve is
only kept where the subtraction of the counts does not wrap around.
-/

namespace MachVirtuTerm

open LinkSlots ConsecutiveRuns

namespace FreePages

variable {P : Type} {st st' : FreePages P} {run rest l l' : List P} {turns npages : ℕ}
  {size : BitVec 32} {wire : Bool}

/-- The free pages are the pages of a list, at different addresses, and no lock is held. -/
structure Ok (st : FreePages P) (l : List P) : Prop where
  chain : st.queue.Chain l
  distinct : (l.map st.physAddr).Nodup
  aligned : ∀ m ∈ l, PageAligned (st.physAddr m)
  free : ∀ m ∈ l, st.free m = true
  freeCount : st.freeCount = BitVec.ofNat 32 l.length
  queuesLocked : st.queuesLocked = false
  freeLocked : st.freeLocked = false

/-- The same pages are free, and the counts are the same. -/
structure Unchanged (st st' : FreePages P) (l : List P) : Prop where
  queue : ∃ l', st'.queue.Chain l' ∧ l'.Perm l
  free : st'.free = st.free
  gobbled : st'.gobbled = st.gobbled
  wireCount : st'.wireCount = st.wireCount
  freeCount : st'.freeCount = st.freeCount
  wiredPages : st'.wiredPages = st.wiredPages
  gobbledPages : st'.gobbledPages = st.gobbledPages

/-- There are free pages that follow each other. -/
def HasRun (st : FreePages P) (l : List P) (npages : ℕ) : Prop :=
  ∃ run ⊆ l, Contiguous st.physAddr run ∧ run.length = npages

theorem HasRun.not_none (h : HasRun st l npages) (hperm : l'.Perm l) :
    ¬NoneContiguous st.physAddr npages l' := by
  obtain ⟨run, hsub, hrun, hlength⟩ := h
  intro hnone
  exact absurd (hnone run hrun fun m hm => hperm.symm.subset (hsub hm)) (by omega)

theorem hasRun_of_not_none (hperm : l'.Perm l) (hnone : NoneContiguous st.physAddr npages l') :
    ¬HasRun st l npages := fun h => h.not_none hperm hnone

/-- What is left of the free pages is what is not in the run. -/
theorem length_of_perm (hperm : (run ++ rest).Perm l) : run.length + rest.length = l.length := by
  rw [← length_append, hperm.length_eq]

variable [DecidableEq P]

/-- A run of free pages has been allocated. -/
structure Allocated (st st' : FreePages P) (l : List P) (pages : Option P) (npages : ℕ)
    (wire : Bool) (run rest : List P) : Prop where
  pages : LinkSlots.Segment st'.queue.next pages run none
  length : run.length = npages
  contiguous : Contiguous st.physAddr run
  /-- They were free, and the other free pages are still in the free list. -/
  perm : (run ++ rest).Perm l
  queue : st'.queue.Chain rest
  free : ∀ m, st'.free m = true ↔ st.free m = true ∧ m ∉ run
  gobbled : ∀ m, st'.gobbled m = true ↔
    if m ∈ run then wire = false else st.gobbled m = true
  wireCount : ∀ m, st'.wireCount m =
    if m ∈ run ∧ wire = true then st.wireCount m + 1 else st.wireCount m
  freeCount : st'.freeCount = st.freeCount - BitVec.ofNat 32 npages
  wiredPages : st'.wiredPages =
    if wire then st.wiredPages + BitVec.ofNat 32 npages else st.wiredPages
  gobbledPages : st'.gobbledPages =
    if wire then st.gobbledPages else st.gobbledPages + BitVec.ofNat 32 npages

/-- Whatever number of turns the loops may take, an allocation returns without locks, has
allocated what was asked for or changed nothing, and fails for lack of space only if there is
none. -/
def Allocates (st : FreePages P) (l : List P) (size : BitVec 32) (wire : Bool) : Prop :=
  ∀ turns, l.length ≤ turns → ∃ code pages st',
    st.cpmAllocate turns size wire = some (code, pages, st') ∧
    st'.queuesLocked = false ∧ st'.freeLocked = false ∧
    (code = .success → size ≠ 0 →
      ∃ run rest, Allocated st st' l pages (size.toNat / pageSize) wire run rest ∧
        st.freeReserved.toInt ≤ rest.length) ∧
    (code ≠ .success → Unchanged st st' l) ∧
    (code = .noSpace → ¬HasRun st l (size.toNat / pageSize))

/-- What is asked for is there, above the reserve. -/
structure Granted (st : FreePages P) (l : List P) (size : BitVec 32) : Prop where
  pos : size ≠ 0
  /-- The test of the code, in unsigned arithmetic. -/
  available : size ≤ st.available
  reserved : (size.toNat / pageSize : ℕ) + st.freeReserved.toInt ≤ l.length
  hasRun : HasRun st l (size.toNat / pageSize)

/-- Gobbled pages have been wired. -/
structure Wired (st st' : FreePages P) (run : List P) : Prop where
  queue : st'.queue = st.queue
  free : st'.free = st.free
  gobbled : ∀ m, st'.gobbled m = true ↔ st.gobbled m = true ∧ m ∉ run
  wireCount : ∀ m, st'.wireCount m = if m ∈ run then st.wireCount m + 1 else st.wireCount m
  freeCount : st'.freeCount = st.freeCount
  wiredPages : st'.wiredPages = st.wiredPages + BitVec.ofNat 32 run.length
  gobbledPages : st'.gobbledPages = st.gobbledPages - BitVec.ofNat 32 run.length
  freeLocked : st'.freeLocked = st.freeLocked

/-- All pages of a list are wired. -/
theorem wirePages_eq {a : Option P} (hrun : LinkSlots.Segment st.queue.next a run none)
    (hnodup : run.Nodup) (hturns : run.length ≤ turns) :
    ∃ st', wirePages turns st a = some st' ∧ Wired st st' run := by
  induction run generalizing turns st a with
  | nil =>
    obtain rfl : a = none := hrun
    refine ⟨st, by rw [wirePages], rfl, rfl, by simp, by simp, rfl, ?_, ?_, rfl⟩
    · exact (BitVec.add_zero _).symm
    · exact (BitVec.sub_zero _).symm
  | cons m run ih =>
    obtain ⟨rfl, hrun⟩ := hrun
    rw [length_cons] at hturns
    obtain ⟨turns, rfl⟩ : ∃ t, turns = t + 1 := ⟨turns - 1, by omega⟩
    have hm := (nodup_cons.mp hnodup).1
    obtain ⟨st', heq, hwired⟩ := @ih
      { st with
        gobbled := update st.gobbled m false
        wireCount := update st.wireCount m (st.wireCount m + 1)
        wiredPages := st.wiredPages + 1
        gobbledPages := st.gobbledPages - 1 } turns _ hrun (nodup_cons.mp hnodup).2 (by omega)
    refine ⟨st', heq, hwired.queue, hwired.free, ?_, ?_, hwired.freeCount, ?_, ?_,
      hwired.freeLocked⟩
    · intro m'
      rw [hwired.gobbled, mem_cons]
      by_cases hm' : m' = m
      · subst hm'
        simp
      · simp [hm']
    · intro m'
      rw [hwired.wireCount]
      by_cases hm' : m' = m
      · subst hm'
        simp [hm]
      · simp [hm']
    · rw [hwired.wiredPages, length_cons, BitVec.ofNat_add]
      change st.wiredPages + 1 + _ = _
      rw [BitVec.add_assoc, BitVec.add_comm 1]
      rfl
    · rw [hwired.gobbledPages, length_cons, BitVec.ofNat_add]
      change st.gobbledPages - 1 - BitVec.ofNat 32 run.length = _
      bv_omega

/-! ## Allocation -/

/-- What was cut out of the sorted list is a run of the free pages. -/
theorem CutOut.allocated {pre post : List P} {pages : Option P} {queue : LinkSlots.Links P}
    (h : CutOut { st.lock with queue := queue } st' run (pre ++ post))
    (hperm : (pre ++ (run ++ post)).Perm l) (hrun : Contiguous st.physAddr run)
    (hlength : run.length = npages) (hpages : LinkSlots.Segment st'.queue.next pages run none) :
    Allocated st st' l pages npages false run (pre ++ post) where
  pages := hpages
  length := hlength
  contiguous := hrun
  perm := by
    rw [← append_assoc] at hperm
    rw [← append_assoc]
    exact (perm_append_comm.append_right post).trans hperm
  queue := h.queue
  free := h.free
  gobbled m := by
    rw [show st'.gobbled m = true ↔ st.gobbled m = true ∨ m ∈ run from h.gobbled m]
    by_cases hm : m ∈ run <;> simp [hm]
  wireCount m := by
    rw [show st'.wireCount m = st.wireCount m from congrFun h.wireCount m]
    simp
  freeCount := hlength ▸ h.freeCount
  wiredPages := h.wiredPages
  gobbledPages := hlength ▸ h.gobbledPages

/-- Allocated pages are wired. -/
theorem Allocated.wired {st₁ : FreePages P} {pages : Option P}
    (h : Allocated st st₁ l pages npages false run rest) (hwired : Wired st₁ st' run) :
    Allocated st st' l pages npages true run rest where
  pages := hwired.queue ▸ h.pages
  length := h.length
  contiguous := h.contiguous
  perm := h.perm
  queue := hwired.queue ▸ h.queue
  free := hwired.free ▸ h.free
  gobbled m := by
    rw [hwired.gobbled, h.gobbled]
    by_cases hm : m ∈ run <;> simp [hm]
  wireCount m := by
    rw [hwired.wireCount, h.wireCount]
    simp
  freeCount := hwired.freeCount.trans h.freeCount
  wiredPages := by
    rw [hwired.wiredPages, h.wiredPages, h.length]
    simp
  gobbledPages := by
    rw [hwired.gobbledPages, h.gobbledPages, h.length, if_neg Bool.false_ne_true, if_pos rfl]
    exact BitVec.add_sub_cancel _ _

theorem Allocated.unlockFree {pages : Option P}
    (h : Allocated st st' l pages npages wire run rest) :
    Allocated st st'.unlockFree l pages npages wire run rest :=
  ⟨h.pages, h.length, h.contiguous, h.perm, h.queue, h.free, h.gobbled, h.wireCount, h.freeCount,
    h.wiredPages, h.gobbledPages⟩

theorem Allocated.unlockQueues {pages : Option P}
    (h : Allocated st st' l pages npages wire run rest) :
    Allocated st st'.unlockQueues l pages npages wire run rest :=
  ⟨h.pages, h.length, h.contiguous, h.perm, h.queue, h.free, h.gobbled, h.wireCount, h.freeCount,
    h.wiredPages, h.gobbledPages⟩

/-- Allocation once the test has been passed: some run is allocated, or there is none. -/
theorem cpmAllocate_cases (h : st.Ok l) (hl : l ≠ []) (hsize : size.toNat % pageSize = 0)
    (hpos : size ≠ 0) (havailable : ¬st.available < size) (hturns : l.length ≤ turns)
    (wire : Bool) :
    (∃ pages st' run rest, st.cpmAllocate turns size wire = some (.success, pages, st') ∧
      st'.queuesLocked = false ∧ st'.freeLocked = false ∧
      Allocated st st' l pages (size.toNat / pageSize) wire run rest) ∨
    (∃ st', st.cpmAllocate turns size wire = some (.noSpace, none, st') ∧
      st'.queuesLocked = true ∧ ¬HasRun st l (size.toNat / pageSize)) := by
  have hnpages : 1 ≤ size.toNat / pageSize := by
    have hne : size.toNat ≠ 0 := fun hzero => hpos (BitVec.eq_of_toNat_eq hzero)
    simp only [pageSize] at hsize ⊢
    omega
  obtain ⟨queue, l', hsort, hchain, hperm, hasc⟩ :=
    @vmPageFreeListSort_sorted P l turns _ st.lock h.chain hl h.distinct hturns
  have hl' : l' ≠ [] := by
    rintro rfl
    exact hl (nil_perm.mp hperm)
  have hdvd : ∀ m ∈ l', pageSize ∣ (st.physAddr m).toNat := fun m hm =>
    Nat.dvd_of_mod_eq_zero ((pageAligned_iff _).mp (h.aligned m (hperm.subset hm)))
  obtain ⟨r, hfind, hfound⟩ := @vmPageFindContiguous_found P { st.lock with queue := queue } l'
    turns _ _ hchain hl' hasc hdvd hnpages (hperm.length_eq.trans_le hturns)
  have hcode : st.cpmAllocate turns size wire = handOut turns wire r := by
    rw [cpmAllocate, if_neg (not_not.mpr hsize)]
    dsimp only
    rw [if_neg (show ¬st.lock.available < size from havailable), hsort]
    dsimp only
    rw [hfind, Option.bind_some]
  rw [hcode]
  cases hfound with
  | none hnone => exact Or.inr ⟨_, rfl, rfl, hasRun_of_not_none hperm hnone⟩
  | @pages pre run post st₁ hpre hrun hlength hcut =>
    left
    obtain ⟨first, tail, rfl⟩ : ∃ first tail, run = first :: tail :=
      exists_cons_of_length_pos (by omega)
    rw [hpre] at hperm
    have hallocated := CutOut.allocated hcut hperm hrun hlength hcut.pages
    have hlen := length_of_perm hallocated.perm
    have hnodup : (first :: tail).Nodup := by
      have hl := (hallocated.perm.map st.physAddr).nodup_iff.mpr h.distinct
      rw [map_append] at hl
      exact List.Nodup.of_map _ (nodup_append.mp hl).1
    cases wire with
    | false =>
      exact ⟨some first, _, _, _, rfl, rfl, rfl, hallocated.unlockFree.unlockQueues⟩
    | true =>
      have hpages : LinkSlots.Segment st₁.unlockFree.queue.next (some first) (first :: tail) none :=
        hcut.pages
      obtain ⟨st₂, heq, hwired⟩ := wirePages_eq hpages hnodup (show _ ≤ turns by omega)
      refine ⟨some first, st₂.unlockQueues, first :: tail, pre ++ post, ?_, rfl, ?_, ?_⟩
      · change (wirePages turns st₁.unlockFree (some first)).map _ = _
        rw [heq]
        rfl
      · exact hwired.freeLocked
      · exact (hallocated.unlockFree.wired hwired).unlockQueues

/-- Nothing is asked for, which the search does not find. -/
theorem cpmAllocate_zero (h : st.Ok l) (hl : l ≠ []) (hturns : l.length ≤ turns) (wire : Bool) :
    ∃ st', st.cpmAllocate turns 0 wire = some (.noSpace, none, st') ∧ st'.queuesLocked = true := by
  obtain ⟨queue, l', hsort, -, -, -⟩ :=
    @vmPageFreeListSort_sorted P l turns _ st.lock h.chain hl h.distinct hturns
  refine ⟨({ st.lock with queue := queue } : FreePages P).unlockFree, ?_, rfl⟩
  rw [cpmAllocate, if_neg (by decide)]
  dsimp only
  rw [if_neg (show ¬st.lock.available < 0 from BitVec.not_lt_zero), hsort]
  rfl

/-- An allocation does what it should if and only if it is refused at once, or if what is asked
for is there. -/
theorem allocates_iff (h : st.Ok l) :
    st.Allocates l size wire ↔ size.toNat % pageSize ≠ 0 ∨ st.Granted l size := by
  constructor
  · intro hall
    by_cases hsize : size.toNat % pageSize = 0
    · right
      obtain ⟨code, pages, st', heq, hqueues, -, hsuccess, -, -⟩ := hall l.length le_rfl
      have havailable : ¬st.available < size := by
        intro hlt
        rw [cpmAllocate, if_neg (not_not.mpr hsize)] at heq
        dsimp only at heq
        rw [if_pos (show st.lock.available < size from hlt)] at heq
        cases heq
        cases hqueues
      have hl : l ≠ [] := by
        rintro rfl
        rw [cpmAllocate, if_neg (not_not.mpr hsize)] at heq
        dsimp only at heq
        rw [if_neg (show ¬st.lock.available < size from havailable),
          vmPageFreeListSort_nil (show st.lock.queue.Chain [] from h.chain)] at heq
        cases heq
      have hpos : size ≠ 0 := by
        rintro rfl
        obtain ⟨st₁, heq₁, hqueues₁⟩ := cpmAllocate_zero h hl le_rfl wire
        rw [heq] at heq₁
        cases heq₁
        exact absurd (hqueues.symm.trans hqueues₁) (by decide)
      rcases cpmAllocate_cases h hl hsize hpos havailable le_rfl wire with
        ⟨pages', st₁, -, -, heq₁, -⟩ | ⟨st₁, heq₁, hqueues₁, -⟩
      · rw [heq] at heq₁
        cases heq₁
        obtain ⟨run, rest, hallocated, hreserved⟩ := hsuccess rfl hpos
        have hlen := length_of_perm hallocated.perm
        have hlength := hallocated.length
        refine ⟨hpos, BitVec.not_lt.mp havailable, by omega, run, ?_, hallocated.contiguous,
          hlength⟩
        exact fun m hm => hallocated.perm.subset (mem_append_left _ hm)
      · rw [heq] at heq₁
        cases heq₁
        exact absurd (hqueues.symm.trans hqueues₁) (by decide)
    · exact Or.inl hsize
  · rintro hcond turns hturns
    by_cases hsize : size.toNat % pageSize = 0
    · rcases hcond with hne | hgranted
      · exact absurd hsize hne
      have hl : l ≠ [] := by
        rintro rfl
        obtain ⟨run, hsub, -, hlength⟩ := hgranted.hasRun
        rw [subset_nil.mp hsub] at hlength
        have hzero : size.toNat = 0 := by
          simp only [pageSize, length_nil] at hsize hlength
          omega
        exact hgranted.pos (BitVec.eq_of_toNat_eq hzero)
      rcases cpmAllocate_cases h hl hsize hgranted.pos (BitVec.not_lt.mpr hgranted.available) hturns
          wire with
        ⟨pages, st', run, rest, heq, hqueues, hfree, hallocated⟩ | ⟨-, -, -, hnone⟩
      · have hlen := length_of_perm hallocated.perm
        have hlength := hallocated.length
        have hreserved := hgranted.reserved
        exact ⟨_, pages, st', heq, hqueues, hfree,
          fun _ _ => ⟨run, rest, hallocated, by omega⟩, fun hne => absurd rfl hne, by rintro ⟨⟩⟩
      · exact absurd hgranted.hasRun hnone
    · refine ⟨.invalidArgument, none, st, ?_, h.queuesLocked, h.freeLocked, by rintro ⟨⟩,
        fun _ => ?_, by rintro ⟨⟩⟩
      · rw [cpmAllocate, if_pos hsize]
      · exact ⟨⟨l, h.chain, List.Perm.refl l⟩, rfl, rfl, rfl, rfl, rfl, rfl⟩

/-- Free pages at the start of memory, and nothing else. -/
def firstPages (n : ℕ) (reserved : BitVec 32) : FreePages ℕ where
  queue := ⟨if n = 0 then none else some 0, fun m => if m + 1 < n then some (m + 1) else none⟩
  physAddr m := BitVec.ofNat 32 (4096 * m)
  free m := decide (m < n)
  gobbled _ := false
  wireCount _ := 0
  freeCount := BitVec.ofNat 32 n
  wiredPages := 0
  gobbledPages := 0
  freeCountMinimum := BitVec.ofNat 32 n
  freeReserved := reserved
  queuesLocked := false
  freeLocked := false

theorem ok_firstPages_two (reserved : BitVec 32) : (firstPages 2 reserved).Ok [0, 1] where
  chain := ⟨rfl, rfl, rfl⟩
  distinct := by
    show [BitVec.ofNat 32 0, BitVec.ofNat 32 4096].Nodup
    decide
  aligned m hm := by
    have hm' : m = 0 ∨ m = 1 := by simpa using hm
    rcases hm' with rfl | rfl
    · exact (show PageAligned (BitVec.ofNat 32 0) by decide)
    · exact (show PageAligned (BitVec.ofNat 32 4096) by decide)
  free m hm := by
    have hm' : m = 0 ∨ m = 1 := by simpa using hm
    rcases hm' with rfl | rfl <;> rfl
  freeCount := rfl
  queuesLocked := rfl
  freeLocked := rfl

/-- Two pages are asked for and there. -/
theorem firstPages_allocates : (firstPages 2 0).Allocates [0, 1] 8192 true := by
  refine (allocates_iff (ok_firstPages_two 0)).mpr (Or.inr ⟨by decide, by decide, by decide, ?_⟩)
  refine ⟨[0, 1], List.Subset.refl _, ?_, rfl⟩
  exact isChain_cons_cons.mpr ⟨rfl, isChain_singleton 1⟩

/-- A request that is too large leaves the page queues locked. -/
theorem firstPages_not_allocates : ¬(firstPages 2 0).Allocates [0, 1] 12288 true := by
  intro hall
  obtain ⟨code, pages, st', heq, hqueues, -⟩ := hall 2 le_rfl
  have hshort : (firstPages 2 0).cpmAllocate 2 12288 true =
      some (.resourceShortage, none, (firstPages 2 0).lock.unlockFree) := rfl
  rw [hshort] at heq
  cases heq
  cases hqueues

end FreePages

end MachVirtuTerm
