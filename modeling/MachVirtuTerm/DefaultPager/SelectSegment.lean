import Mathlib.Order.Fin.Basic
import MachVirtuTerm.DefaultPager.Cluster
import MachVirtuTerm.Mach.KernReturn
import MachVirtuTerm.Mach.VmParam

/-!
# The choice of a paging segment

Paging segments are entered into an array. For each priority another array holds the index of
the segment that was chosen last, from which the next search goes around, or a marker: there is
no segment of this priority, or all of them were full. Both markers are below the indices.
-/

open Function Option

namespace MachVirtuTerm

def maxNumPagingSegments : ℕ := 31

def bsNopri : ℤ := -1

def bsFullpri : ℤ := -2

/-- A priority, from `BS_MINPRI` to `BS_MAXPRI`. -/
abbrev BsPriority := Fin 5

/-- `struct backing_store`: what new segments take over. -/
structure BackingStore where
  priority : BsPriority
  /-- `bs_clsize`, in pages. -/
  clsize : ℕ

/-- `struct paging_segment`. -/
structure Segment where
  device : ℕ
  offset : BitVec 32
  recnum : BitVec 32
  recordShift : ℕ
  clshift : ℕ
  /-- `ps_bs->bs_priority`. -/
  priority : BsPriority
  goingAway : Bool
  clusters : PagingSegment

/-- The segment has a free cluster of the size. -/
def Segment.HasRoom (ps : Segment) (shift : ℕ) : Prop :=
  ps.goingAway = false ∧ ps.clusters.clcount ≠ 0 ∧ shift ≤ ps.clshift

instance (ps : Segment) (shift : ℕ) : Decidable (ps.HasRoom shift) :=
  inferInstanceAs (Decidable (_ ∧ _ ∧ _))

/-- `ps_clcount--`. -/
def Segment.reserve (ps : Segment) : Segment :=
  { ps with clusters := { ps.clusters with clcount := ps.clusters.clcount - 1 } }

/-- The paging segments. -/
structure Segments where
  /-- `paging_segments`. -/
  segment : ℕ → Option Segment
  /-- `paging_segment_max`. -/
  max : ℕ
  /-- `paging_segment_count`. -/
  count : ℕ
  /-- `ps_select_array`. -/
  select : BsPriority → ℤ

/-- What `ps_select_segment` comes to. -/
inductive Selected
  | segment (psindex : ℕ)
  /-- `PAGING_SEGMENT_NULL`. -/
  | null
  /-- An index outside of `0 .. paging_segment_max` is read. -/
  | outside
  /-- The search does not end. -/
  | endless
  deriving DecidableEq

/-- What the search through a priority comes to. -/
inductive SearchEnd
  | found (psindex : ℕ)
  | full
  | outside
  | endless
  deriving DecidableEq

namespace Segments

/-- No segments. -/
def initial : Segments := ⟨fun _ => none, 0, 0, fun _ => bsNopri⟩

/-- A segment at an index can be taken. -/
def Fits (s : Segments) (shift : ℕ) (i : BsPriority) (j : ℕ) : Prop :=
  ∃ ps, s.segment j = some ps ∧ ps.priority = i ∧ ps.HasRoom shift

instance (s : Segments) (shift : ℕ) (i : BsPriority) (j : ℕ) : Decidable (s.Fits shift i j) :=
  match h : s.segment j with
  | none => .isFalse (by rintro ⟨ps, heq, -⟩; rw [h] at heq; cases heq)
  | some ps => decidable_of_iff (ps.priority = i ∧ ps.HasRoom shift) (by
      constructor
      · exact fun hps => ⟨ps, h, hps⟩
      · rintro ⟨ps', heq, hps⟩
        rw [h] at heq
        cases heq
        exact hps)

/-- `ps_clcount--` of a segment. -/
def reserve (s : Segments) (j : ℕ) : Segments :=
  { s with segment := update s.segment j ((s.segment j).map Segment.reserve) }

/-- `ps_select_array[i] = j`. -/
def setSelect (s : Segments) (i : BsPriority) (j : ℤ) : Segments :=
  { s with select := update s.select i j }

/-- The loop through the segments of a priority, with the number of rounds that it may make. -/
def search (s : Segments) (shift : ℕ) (i : BsPriority) (startIndex : ℤ) : ℕ → ℤ → SearchEnd
  | 0, _ => .endless
  | rounds + 1, j =>
    let j := if j > s.max then 0 else j
    if 0 ≤ j then
      if s.Fits shift i j.toNat then .found j.toNat
      else if j = startIndex then .full
      else search s shift i startIndex rounds (j + 1)
    else .outside

/-- The loop through the priorities. -/
def selectFrom (shift : ℕ) : List BsPriority → Segments → Selected × Segments
  | [], s => (.null, s)
  | i :: rest, s =>
    if s.select i = bsNopri then selectFrom shift rest s
    else
      match s.search shift i (s.select i) (s.max + 2) (s.select i + 1) with
      | .found j => (.segment j, (s.reserve j).setSelect i j)
      | .full => selectFrom shift rest (s.setSelect i bsFullpri)
      | .outside => (.outside, s)
      | .endless => (.endless, s)

/-- The priorities, from `BS_MAXPRI` down to `BS_MINPRI`. -/
def priorities : List BsPriority := [4, 3, 2, 1, 0]

def psSelectSegment (s : Segments) (shift : ℕ) : Selected × Segments :=
  if s.count = 1 then
    match s.segment s.max with
    | none => (.outside, s)
    | some ps =>
      -- that the cluster size suffices is only asserted
      if ps.goingAway = false ∧ ps.clusters.clcount ≠ 0 then (.segment s.max, s.reserve s.max)
      else (.null, s)
  else if s.count = 0 then (.null, s)
  else selectFrom shift priorities s

def psEnter (s : Segments) (ps : Segment) : Option Segments :=
  match (List.range maxNumPagingSegments).find? fun i => (s.segment i).isNone with
  | none => none
  | some i =>
    some { s with
      segment := update s.segment i (some ps)
      max := if i > s.max then i else s.max
      count := s.count + 1
      select :=
        if s.select ps.priority = bsNopri then update s.select ps.priority 0
        else s.select }

/-- The arguments of `default_pager_add_segment`. -/
structure AddSegment where
  /-- The backing store that the port names. -/
  bs : Option BackingStore
  device : ℕ
  offset : BitVec 32
  count : BitVec 32
  recordSize : ℕ

/-- Records of a device are in use. -/
def Overlaps (ps : Segment) (x : AddSegment) : Prop :=
  ¬(ps.device ≠ x.device ∨ x.offset ≥ ps.offset + ps.recnum ∨ x.offset + x.count ≤ ps.offset)

instance (ps : Segment) (x : AddSegment) : Decidable (Overlaps ps x) :=
  inferInstanceAs (Decidable ¬_)

/-- `log2`, which counts the zeros behind the last one of a word. -/
def log2 (n : ℕ) : ℕ := ((List.range 32).find? fun i => n.testBit i).getD 32

/-- A segment as `default_pager_add_segment` sets it up. -/
def AddSegment.segment (x : AddSegment) (bs : BackingStore) : Segment :=
  let recordShift := log2 (pageSize / x.recordSize)
  let clshift := log2 bs.clsize
  let ncls := x.count.toNat >>> recordShift >>> clshift
  { device := x.device
    offset := x.offset
    recnum := x.count
    recordShift
    clshift
    priority := bs.priority
    goingAway := false
    clusters := ⟨ncls, ncls, 0, fun _ => false⟩ }

/-- `default_pager_add_segment`, with the results of its two calls of `kalloc`. -/
def defaultPagerAddSegment (s : Segments) (x : AddSegment) (kalloc : Bool × Bool) :
    KernReturn × Segments :=
  match x.bs with
  | none => (.invalidArgument, s)
  | some bs =>
    if ∃ i ≤ s.max, ∃ ps ∈ s.segment i, Overlaps ps x then (.invalidArgument, s)
    else if ¬kalloc.1 ∨ ¬kalloc.2 then (.resourceShortage, s)
    else
      match s.psEnter (x.segment bs) with
      | none => (.resourceShortage, s)
      | some s => (.success, s)

/-- `ps_deallocate_cluster`; it panics at an invalid cluster number. -/
def psDeallocateCluster (s : Segments) (j cluster : ℕ) : Option Segments :=
  (s.segment j).bind fun ps =>
    (ps.clusters.deallocate cluster).map fun clusters =>
      { s with
        segment := update s.segment j (some { ps with clusters })
        select :=
          if s.select ps.priority = bsFullpri then update s.select ps.priority 0
          else s.select }

/-- What is done with the segments. -/
inductive Call
  | addSegment (x : AddSegment) (kalloc : Bool × Bool)
  | selectSegment (shift : ℕ)
  | deallocateCluster (j cluster : ℕ)
  /-- The clusters of a segment are used in other ways. -/
  | fill (j : ℕ) (clusters : PagingSegment)
  /-- The removal of a backing store turns a segment off, or on again when it fails. -/
  | setGoingAway (j : ℕ) (goingAway : Bool)

/-- Change a segment. -/
def modify (s : Segments) (j : ℕ) (f : Segment → Segment) : Segments :=
  { s with segment := update s.segment j ((s.segment j).map f) }

/-- The effect of a call, unless it reads outside of the array, does not end or panics. -/
inductive Step : Segments → Call → Segments → Prop
  | addSegment {s : Segments} (x : AddSegment) (kalloc : Bool × Bool) :
    Step s (.addSegment x kalloc) (s.defaultPagerAddSegment x kalloc).2
  | selectSegment {s : Segments} (shift : ℕ)
    (h : (s.psSelectSegment shift).1 = .null ∨ ∃ j, (s.psSelectSegment shift).1 = .segment j) :
    Step s (.selectSegment shift) (s.psSelectSegment shift).2
  | deallocateCluster {s s' : Segments} {j cluster : ℕ}
    (h : s.psDeallocateCluster j cluster = some s') : Step s (.deallocateCluster j cluster) s'
  | fill {s : Segments} (j : ℕ) (clusters : PagingSegment) :
    Step s (.fill j clusters) (s.modify j fun ps => { ps with clusters })
  | setGoingAway {s : Segments} (j : ℕ) (goingAway : Bool) :
    Step s (.setGoingAway j goingAway) (s.modify j fun ps => { ps with goingAway })

end Segments

end MachVirtuTerm

/-!
# What the choice of a paging segment finds

The markers are kept right: a priority without segments is marked so, and an index is one of the
array. From an index the search goes around once. From the mark of a full priority it goes wrong,
since nothing skips that priority as one without segments is skipped.
-/

namespace MachVirtuTerm

namespace Segments

variable {s s' : Segments} {shift : ℕ} {i : BsPriority} {j : ℕ}

/-! ## The array -/

/-- The segments stand in the array from its beginning on, and the indices and markers for the
priorities are right. -/
structure Ok (s : Segments) : Prop where
  isSome_iff : ∀ j, (s.segment j).isSome ↔ j < s.count
  count_le : s.count ≤ maxNumPagingSegments
  max_eq : s.max = s.count - 1
  select : ∀ i, s.select i = bsNopri ∨ s.select i = bsFullpri ∨ 0 ≤ s.select i ∧ s.select i ≤ s.max
  nopri : ∀ i, s.select i = bsNopri → ∀ j ps, s.segment j = some ps → ps.priority ≠ i

theorem initial_ok : initial.Ok where
  isSome_iff := by simp [initial]
  count_le := by simp [initial]
  max_eq := rfl
  select := fun _ => .inl rfl
  nopri := fun _ _ _ _ h => by cases h

/-- Changes of a segment that leave its priority. -/
theorem Ok.modify (h : s.Ok) (j : ℕ) {f : Segment → Segment}
    (hf : ∀ ps, (f ps).priority = ps.priority) : (s.modify j f).Ok where
  isSome_iff := by
    intro k
    change (update s.segment j ((s.segment j).map f) k).isSome ↔ k < s.count
    rw [← h.isSome_iff k, update_apply]
    split
    · rename_i heq
      rw [heq, isSome_map]
    · rfl
  count_le := h.count_le
  max_eq := h.max_eq
  select := h.select
  nopri := by
    intro i hi k ps hps
    simp only [Segments.modify, update_apply] at hps
    split at hps
    · obtain ⟨ps', hps', rfl⟩ := map_eq_some_iff.mp hps
      rw [hf]
      exact h.nopri i hi j ps' hps'
    · exact h.nopri i hi k ps hps

theorem Ok.reserve (h : s.Ok) (j : ℕ) : (s.reserve j).Ok := h.modify j fun _ => rfl

/-- An index or the mark of a full priority is set. -/
theorem Ok.setSelect (h : s.Ok) {x : ℤ} (hx : x = bsFullpri ∨ 0 ≤ x ∧ x ≤ s.max) :
    (s.setSelect i x).Ok where
  isSome_iff := h.isSome_iff
  count_le := h.count_le
  max_eq := h.max_eq
  select := by
    intro k
    rw [Segments.setSelect]
    simp only [update_apply]
    split
    · exact .inr hx
    · exact h.select k
  nopri := by
    intro k hk
    simp only [Segments.setSelect, update_apply] at hk
    split at hk
    · rw [hk, bsNopri, bsFullpri] at hx
      omega
    · exact h.nopri k hk

/-- `ps_enter` keeps the array right. -/
theorem Ok.psEnter (h : s.Ok) {ps : Segment} (henter : s.psEnter ps = some s') : s'.Ok := by
  unfold Segments.psEnter at henter
  split at henter
  · cases henter
  · rename_i k hfind
    obtain ⟨hfree, hmem, hbefore⟩ := List.find?_range_eq_some.mp hfind
    have hk : k < maxNumPagingSegments := List.mem_range.mp hmem
    have hcount : k = s.count := by
      have hge : ¬k < s.count := by
        rw [← h.isSome_iff k]
        simpa using hfree
      by_contra hne
      have hlt : s.count < k := by omega
      have hnone := hbefore s.count hlt
      have hsome := h.isSome_iff s.count
      simp only [lt_self_iff_false, iff_false, Bool.not_eq_true, isSome_eq_false_iff] at hsome
      rw [hsome] at hnone
      cases hnone
    cases henter
    subst hcount
    refine ⟨fun j => ?_, hk, ?_, fun i => ?_, fun i hi j ps' hps' => ?_⟩
    · simp only [update_apply]
      split
      · simp_all
      · rw [h.isSome_iff]
        omega
    · have := h.max_eq
      simp only
      split <;> omega
    · have hselect := h.select i
      have hmax : ((s.max : ℕ) : ℤ) ≤ ((if s.count > s.max then s.count else s.max : ℕ) : ℤ) := by
        split <;> omega
      simp only
      split
      · rw [update_apply]
        split
        · exact .inr (.inr ⟨le_rfl, by omega⟩)
        · omega
      · omega
    · simp only [update_apply] at hps'
      simp only at hi
      by_cases hpri : ps.priority = i
      · subst hpri
        split at hi
        · rw [update_self] at hi
          cases hi
        · exact absurd hi ‹_›
      · have hold : s.select i = bsNopri := by
          split at hi
          · rwa [update_of_ne (Ne.symm hpri)] at hi
          · exact hi
        split at hps'
        · cases hps'
          exact hpri
        · exact h.nopri i hold j ps' hps'

/-- Adding a segment keeps the array right, also when it fails. -/
theorem Ok.addSegment (h : s.Ok) (x : AddSegment) (kalloc : Bool × Bool) :
    (s.defaultPagerAddSegment x kalloc).2.Ok := by
  unfold defaultPagerAddSegment
  split
  · exact h
  · split
    · exact h
    · split
      · exact h
      · split
        · exact h
        · exact h.psEnter ‹_›

/-- Freeing a cluster keeps the array right. -/
theorem Ok.deallocateCluster (h : s.Ok) {cluster : ℕ}
    (hdeallocate : s.psDeallocateCluster j cluster = some s') : s'.Ok := by
  simp only [psDeallocateCluster, bind_eq_some_iff, map_eq_some_iff] at hdeallocate
  obtain ⟨ps, hps, clusters, -, rfl⟩ := hdeallocate
  have hmodify : (s.modify j fun ps => { ps with clusters }).Ok := h.modify j fun _ => rfl
  have hsegment : (s.modify j fun ps => { ps with clusters }) =
      { s with segment := update s.segment j (some { ps with clusters }) } := by
    rw [Segments.modify, hps, map_some]
  rw [hsegment] at hmodify
  split
  · exact hmodify.setSelect (.inr ⟨le_rfl, Int.natCast_nonneg _⟩)
  · exact hmodify

/-! ## The search -/

/-- The search from an index up to the one where it began. -/
theorem search_tail (s : Segments) (shift : ℕ) (i : BsPriority) {start rounds j : ℕ}
    (hj : j ≤ start) (hstart : start ≤ s.max) (hrounds : start - j < rounds) :
    (∃ k ≤ s.max, s.Fits shift i k ∧ s.search shift i start rounds j = .found k) ∨
      (∀ k, j ≤ k → k ≤ start → ¬s.Fits shift i k) ∧
        s.search shift i start rounds j = .full := by
  induction rounds generalizing j with
  | zero => omega
  | succ rounds ih =>
    have hle : ¬(j : ℤ) > s.max := by omega
    simp only [search, if_neg hle, if_pos (Int.natCast_nonneg j), Int.toNat_natCast]
    by_cases hfits : s.Fits shift i j
    · rw [if_pos hfits]
      exact .inl ⟨j, by omega, hfits, rfl⟩
    · rw [if_neg hfits]
      by_cases heq : j = start
      · subst heq
        rw [if_pos rfl]
        refine .inr ⟨fun k hk hk' => ?_, rfl⟩
        obtain rfl : k = j := by omega
        exact hfits
      · rw [if_neg (by omega), ← Int.natCast_succ]
        obtain hfound | ⟨hnone, hfull⟩ := ih (j := j + 1) (by omega) (by omega)
        · exact .inl hfound
        · refine .inr ⟨fun k hk hk' => ?_, hfull⟩
          obtain rfl | hne := eq_or_ne k j
          · exact hfits
          · exact hnone k (by omega) hk'

/-- The search from an index after the one where it began goes around. -/
theorem search_head (s : Segments) (shift : ℕ) (i : BsPriority) {start rounds j : ℕ}
    (hj : start < j) (hle : j ≤ s.max + 1) (hrounds : s.max + 1 - j + start < rounds) :
    (∃ k ≤ s.max, s.Fits shift i k ∧ s.search shift i start rounds j = .found k) ∨
      (∀ k, j ≤ k ∧ k ≤ s.max ∨ k ≤ start → ¬s.Fits shift i k) ∧
        s.search shift i start rounds j = .full := by
  induction rounds generalizing j with
  | zero => omega
  | succ rounds ih =>
    by_cases hend : j = s.max + 1
    · have haround : s.search shift i start (rounds + 1) j =
          s.search shift i start (rounds + 1) (0 : ℕ) := by
        have hgt : (j : ℤ) > s.max := by omega
        simp only [search, if_pos hgt, Int.natCast_zero, ite_self]
      rw [haround]
      obtain hfound | ⟨hnone, hfull⟩ := search_tail s shift i (Nat.zero_le start)
         (by omega) (show start - 0 < rounds + 1 by omega)
      · exact .inl hfound
      · exact .inr ⟨fun k hk => hnone k (Nat.zero_le k) (by omega), hfull⟩
    · have hin : ¬(j : ℤ) > s.max := by omega
      simp only [search, if_neg hin, if_pos (Int.natCast_nonneg j), Int.toNat_natCast]
      by_cases hfits : s.Fits shift i j
      · rw [if_pos hfits]
        exact .inl ⟨j, by omega, hfits, rfl⟩
      · rw [if_neg hfits, if_neg (by omega), ← Int.natCast_succ]
        obtain hfound | ⟨hnone, hfull⟩ := ih (j := j + 1) (by omega) (by omega) (by omega)
        · exact .inl hfound
        · refine .inr ⟨fun k hk => ?_, hfull⟩
          obtain rfl | hne := eq_or_ne k j
          · exact hfits
          · exact hnone k (by omega)

/-- From an index the search goes around once. -/
theorem search_around (hstart : 0 ≤ s.select i ∧ s.select i ≤ s.max) (shift : ℕ) :
    (∃ k ≤ s.max, s.Fits shift i k ∧
      s.search shift i (s.select i) (s.max + 2) (s.select i + 1) = .found k) ∨
      (∀ k ≤ s.max, ¬s.Fits shift i k) ∧
        s.search shift i (s.select i) (s.max + 2) (s.select i + 1) = .full := by
  obtain ⟨start, heq⟩ := Int.eq_ofNat_of_zero_le hstart.1
  rw [heq, ← Int.natCast_succ]
  obtain hfound | ⟨hnone, hfull⟩ := search_head s shift i (Nat.lt_succ_self start)
    (by omega) (show s.max + 1 - (start + 1) + start < s.max + 2 by omega)
  · exact .inl hfound
  · exact .inr ⟨fun k hk => hnone k (by omega), hfull⟩

/-- From the mark of a full priority the search begins before the array. -/
theorem search_full (hfull : s.select i = bsFullpri) (shift rounds : ℕ) :
    s.search shift i (s.select i) (rounds + 1) (s.select i + 1) = .outside := by
  have hle : ¬(bsFullpri + 1 : ℤ) > s.max := by
    rw [bsFullpri]
    omega
  have hneg : ¬(0 : ℤ) ≤ bsFullpri + 1 := by decide
  rw [hfull]
  simp only [search, if_neg hle, if_neg hneg]

/-! ## The choice -/

/-- A segment with room. -/
def Usable (s : Segments) (shift j : ℕ) (ps : Segment) : Prop :=
  s.segment j = some ps ∧ ps.HasRoom shift

/-- What `ps_select_segment` is to do: it comes to a segment with room of the highest priority
there is, and reserves a cluster of it, or to none as there is none. -/
def Chosen (s : Segments) (shift : ℕ) (r : Selected × Segments) : Prop :=
  (∃ j ps, r.1 = .segment j ∧ s.Usable shift j ps ∧
      (∀ j' ps', s.Usable shift j' ps' → ps'.priority ≤ ps.priority) ∧
      r.2.segment = (s.reserve j).segment) ∨
    r.1 = .null ∧ (∀ j ps, ¬s.Usable shift j ps) ∧ r.2.segment = s.segment

/-- When it does: the clusters of the only segment are large enough where it has a free one; and
where there are more segments, there is a segment with room of a higher priority than any that
is marked as full. -/
def Choosable (s : Segments) (shift : ℕ) : Prop :=
  (s.count = 1 → ∀ ps, s.segment s.max = some ps → ps.goingAway = false →
      ps.clusters.clcount ≠ 0 → shift ≤ ps.clshift) ∧
    (2 ≤ s.count → ∀ i, s.select i = bsFullpri → ∃ j ps, s.Usable shift j ps ∧ i < ps.priority)

/-- What the loop through some priorities comes to. -/
structure SelectsFrom (s : Segments) (shift : ℕ) (l : List BsPriority) (r : Selected × Segments) :
    Prop where
  found : ∀ j, r.1 = .segment j → ∃ ps, s.Usable shift j ps ∧ ps.priority ∈ l ∧
    (∀ j' ps', s.Usable shift j' ps' → ps'.priority ∈ l → ps'.priority ≤ ps.priority) ∧
    (∀ i ∈ l, s.select i = bsFullpri → i < ps.priority) ∧ r.2.segment = (s.reserve j).segment
  null : r.1 = .null → (∀ j ps, s.Usable shift j ps → ps.priority ∉ l) ∧
    (∀ i ∈ l, s.select i ≠ bsFullpri) ∧ r.2.segment = s.segment
  outside : r.1 = .outside → ∃ i ∈ l, s.select i = bsFullpri ∧
    ∀ j ps, s.Usable shift j ps → ps.priority ∈ l → ps.priority ≤ i
  ends : r.1 ≠ .endless
  ok : r.1 ≠ .outside → r.2.Ok

theorem Usable.fits {ps : Segment} (h : s.Usable shift j ps) : s.Fits shift ps.priority j :=
  ⟨ps, h.1, rfl, h.2⟩

/-- Segments are in the array. -/
theorem Ok.le_max (h : s.Ok) {ps : Segment} (hps : s.segment j = some ps) : j ≤ s.max := by
  have hlt := (h.isSome_iff j).mp (by rw [hps]; rfl)
  have hmax := h.max_eq
  omega

/-- A priority in which no segment can be taken is passed. -/
theorem SelectsFrom.cons {l : List BsPriority} {r : Selected × Segments} {t : Segments}
    (h : t.SelectsFrom shift l r) (hsegment : t.segment = s.segment)
    (hselect : ∀ k ∈ l, t.select k = s.select k) (hdesc : ∀ k ∈ l, k < i)
    (hnot : ∀ j ps, s.Usable shift j ps → ps.priority ≠ i) (hfull : s.select i ≠ bsFullpri) :
    s.SelectsFrom shift (i :: l) r := by
  have husable : ∀ j ps, t.Usable shift j ps ↔ s.Usable shift j ps := by
    intro j ps
    rw [Usable, Usable, hsegment]
  have hreserve : ∀ j, (t.reserve j).segment = (s.reserve j).segment := by
    intro j
    rw [Segments.reserve, Segments.reserve, hsegment]
  have hmem : ∀ j ps, s.Usable shift j ps → ps.priority ∈ i :: l → ps.priority ∈ l := by
    intro j ps hps hin
    exact (List.mem_cons.mp hin).resolve_left (hnot j ps hps)
  refine ⟨fun j hj => ?_, fun hnull => ?_, fun houtside => ?_, h.ends, h.ok⟩
  · obtain ⟨ps, hps, hin, hhighest, hmarks, heq⟩ := h.found j hj
    refine ⟨ps, (husable j ps).mp hps, List.mem_cons_of_mem _ hin, fun j' ps' hps' hin' => ?_,
      fun k hk hkfull => ?_, heq.trans (hreserve j)⟩
    · exact hhighest j' ps' ((husable j' ps').mpr hps') (hmem j' ps' hps' hin')
    · obtain rfl | hk := List.mem_cons.mp hk
      · exact absurd hkfull hfull
      · exact hmarks k hk ((hselect k hk).trans hkfull)
  · obtain ⟨hnone, hmarks, heq⟩ := h.null hnull
    refine ⟨fun j ps hps hin => ?_, fun k hk => ?_, heq.trans hsegment⟩
    · exact hnone j ps ((husable j ps).mpr hps) (hmem j ps hps hin)
    · obtain rfl | hk := List.mem_cons.mp hk
      · exact hfull
      · exact hselect k hk ▸ hmarks k hk
  · obtain ⟨k, hk, hkfull, hhighest⟩ := h.outside houtside
    refine ⟨k, List.mem_cons_of_mem _ hk, (hselect k hk).symm.trans hkfull, fun j ps hps hin => ?_⟩
    exact hhighest j ps ((husable j ps).mpr hps) (hmem j ps hps hin)

/-- The loop through priorities in descending order. -/
theorem selectFrom_spec (h : s.Ok) (shift : ℕ) {l : List BsPriority} (hl : l.Pairwise (· > ·)) :
    s.SelectsFrom shift l (selectFrom shift l s) := by
  induction l generalizing s with
  | nil =>
    refine ⟨fun j hj => ?_, fun _ => ⟨by simp, by simp, rfl⟩, fun hout => ?_, ?_, fun _ => h⟩
    · cases hj
    · cases hout
    · exact fun hends => by cases hends
  | cons i l ih =>
    obtain ⟨hdesc, hl⟩ := List.pairwise_cons.mp hl
    rw [selectFrom]
    by_cases hnopri : s.select i = bsNopri
    · rw [if_pos hnopri]
      refine (ih h hl).cons rfl (fun _ _ => rfl) hdesc
        (fun j ps hps => h.nopri i hnopri j ps hps.1) ?_
      rw [hnopri]
      decide
    · rw [if_neg hnopri]
      obtain hfull | hstart := (h.select i).resolve_left hnopri
      · rw [search_full hfull]
        refine ⟨fun j hj => (nomatch hj), fun hnull => (nomatch hnull), fun _ => ?_,
          fun hends => (nomatch hends), fun hout => absurd rfl hout⟩
        refine ⟨i, List.mem_cons_self .., hfull, fun j ps _ hin => ?_⟩
        obtain heq | hin := List.mem_cons.mp hin
        · exact heq.le
        · exact (hdesc _ hin).le
      · obtain ⟨k, hk, hfits, hfound⟩ | ⟨hnone, hfull⟩ := search_around hstart shift
        · rw [hfound]
          obtain ⟨ps, hps, rfl, hroom⟩ := hfits
          refine ⟨fun j hj => ?_, fun hnull => (nomatch hnull), fun hout => (nomatch hout),
            fun hends => (nomatch hends), fun _ => ?_⟩
          · cases hj
            refine ⟨ps, ⟨hps, hroom⟩, List.mem_cons_self .., fun j' ps' _ hin => ?_,
              fun k' hk' hk'full => ?_, rfl⟩
            · obtain heq | hin := List.mem_cons.mp hin
              · exact heq.le
              · exact (hdesc _ hin).le
            · obtain rfl | hk' := List.mem_cons.mp hk'
              · rw [hk'full, bsFullpri] at hstart
                omega
              · exact hdesc _ hk'
          · exact (h.reserve k).setSelect (.inr ⟨Int.natCast_nonneg k, Int.ofNat_le.mpr hk⟩)
        · rw [hfull]
          refine (ih (h.setSelect (.inl rfl)) hl).cons rfl (fun k' hk' => ?_) hdesc
            (fun j ps hps hpri => ?_) ?_
          · exact update_of_ne (hdesc k' hk').ne _ _
          · exact hnone j (h.le_max hps.1) (hpri ▸ hps.fits)
          · rw [bsFullpri]
            omega

/-- With one segment, which the array's end indexes. -/
theorem Ok.chosen_iff_of_one (h : s.Ok) (hone : s.count = 1) (shift : ℕ) :
    s.Chosen shift (s.psSelectSegment shift) ↔ s.Choosable shift := by
  have hmax : s.max = 0 := by rw [h.max_eq, hone]
  obtain ⟨ps, hps⟩ := isSome_iff_exists.mp ((h.isSome_iff s.max).mpr (by omega : s.max < s.count))
  have honly : ∀ {j ps'}, s.segment j = some ps' → j = s.max ∧ ps' = ps := by
    intro j ps' hj
    have hlt := (h.isSome_iff j).mp (by rw [hj]; rfl)
    obtain rfl : j = s.max := by omega
    exact ⟨rfl, Option.some.inj (hj.symm.trans hps)⟩
  have hmany : ¬2 ≤ s.count := by omega
  rw [psSelectSegment, if_pos hone, hps]
  by_cases hfree : ps.goingAway = false ∧ ps.clusters.clcount ≠ 0
  · simp only [if_pos hfree]
    constructor
    · rintro (⟨j, ps', hj, husable, -⟩ | ⟨hnull, -⟩)
      · refine ⟨fun _ ps'' hps'' _ _ => ?_, fun htwo => absurd htwo hmany⟩
        rw [(honly hps'').2, ← (honly husable.1).2]
        exact husable.2.2.2
      · cases hnull
    · intro hchoosable
      have hroom := hchoosable.1 hone ps hps hfree.1 hfree.2
      refine .inl ⟨s.max, ps, rfl, ⟨hps, hfree.1, hfree.2, hroom⟩, fun j' ps' hps' => ?_, rfl⟩
      rw [(honly hps'.1).2]
  · simp only [if_neg hfree]
    constructor
    · intro _
      refine ⟨fun _ ps' hps' hgoing hcount => ?_, fun htwo => absurd htwo hmany⟩
      rw [(honly hps').2] at hgoing hcount
      exact absurd ⟨hgoing, hcount⟩ hfree
    · intro _
      refine .inr ⟨rfl, fun j ps' husable => ?_, rfl⟩
      have hroom := husable.2
      rw [(honly husable.1).2] at hroom
      exact hfree ⟨hroom.1, hroom.2.1⟩

/-- With more segments. -/
theorem Ok.chosen_iff_of_two (h : s.Ok) (htwo : 2 ≤ s.count) (shift : ℕ) :
    s.Chosen shift (s.psSelectSegment shift) ↔ s.Choosable shift := by
  have hall : ∀ i : BsPriority, i ∈ priorities := by decide
  have hspec := selectFrom_spec h shift (show priorities.Pairwise (· > ·) by decide)
  have hselect : s.psSelectSegment shift = selectFrom shift priorities s := by
    rw [psSelectSegment, if_neg (by omega), if_neg (by omega)]
  rw [hselect]
  constructor
  · rintro (⟨j, ps, hj, husable, hhighest, -⟩ | ⟨hnull, -, -⟩)
    · refine ⟨fun hone => by omega, fun _ i hi => ?_⟩
      obtain ⟨ps', hps', -, -, hmarks, -⟩ := hspec.found j hj
      exact ⟨j, ps', hps', hmarks i (hall i) hi⟩
    · exact ⟨fun hone => by omega, fun _ i hi => absurd hi ((hspec.null hnull).2.1 i (hall i))⟩
  · intro hchoosable
    cases hresult : (selectFrom shift priorities s).1 with
    | segment j =>
      obtain ⟨ps, hps, -, hhighest, -, heq⟩ := hspec.found j hresult
      exact .inl ⟨j, ps, hresult, hps, fun j' ps' hps' => hhighest j' ps' hps' (hall _), heq⟩
    | null =>
      obtain ⟨hnone, -, heq⟩ := hspec.null hresult
      exact .inr ⟨hresult, fun j ps hps => hnone j ps hps (hall _), heq⟩
    | outside =>
      obtain ⟨i, -, hfull, hhighest⟩ := hspec.outside hresult
      obtain ⟨j, ps, hps, hlt⟩ := hchoosable.2 htwo i hfull
      exact absurd hlt (not_lt.mpr (hhighest j ps hps (hall _)))
    | endless => exact absurd hresult hspec.ends

/-- `ps_select_segment` does what it is to do just if the condition holds. -/
theorem Ok.chosen_iff (h : s.Ok) (shift : ℕ) :
    s.Chosen shift (s.psSelectSegment shift) ↔ s.Choosable shift := by
  obtain hzero | hone | htwo : s.count = 0 ∨ s.count = 1 ∨ 2 ≤ s.count := by omega
  · have hnone : ∀ j ps, ¬s.Usable shift j ps := by
      intro j ps hps
      have hlt := (h.isSome_iff j).mp (by rw [hps.1]; rfl)
      omega
    have hselect : s.psSelectSegment shift = (.null, s) := by
      rw [psSelectSegment, if_neg (by omega), if_pos hzero]
    rw [hselect]
    exact ⟨fun _ => ⟨fun hone => by omega, fun htwo => by omega⟩, fun _ => .inr ⟨rfl, hnone, rfl⟩⟩
  · exact h.chosen_iff_of_one hone shift
  · exact h.chosen_iff_of_two htwo shift

/-- A choice keeps the array right. -/
theorem Ok.psSelectSegment (h : s.Ok) (shift : ℕ)
    (hresult : (s.psSelectSegment shift).1 ≠ .outside) : (s.psSelectSegment shift).2.Ok := by
  unfold Segments.psSelectSegment at hresult ⊢
  split at hresult
  · rename_i hone
    rw [if_pos hone]
    split
    · exact h
    · split
      · exact h.reserve _
      · exact h
  · rename_i hone
    rw [if_neg hone]
    split at hresult
    · rw [if_pos ‹_›]
      exact h
    · rw [if_neg ‹_›]
      exact (selectFrom_spec h shift (by decide)).ok hresult

/-! ## Runs -/

/-- Every call keeps the array right. -/
theorem Step.ok {call : Call} (hstep : Step s call s') (h : s.Ok) : s'.Ok := by
  cases hstep with
  | addSegment x kalloc => exact h.addSegment x kalloc
  | selectSegment shift hresult =>
    refine h.psSelectSegment shift fun houtside => ?_
    rw [houtside] at hresult
    obtain hnull | ⟨j, hj⟩ := hresult
    · cases hnull
    · cases hj
  | deallocateCluster hdeallocate => exact h.deallocateCluster hdeallocate
  | fill j clusters => exact h.modify j fun _ => rfl
  | setGoingAway j goingAway => exact h.modify j fun _ => rfl

/-- After any calls, whatever the segments, their priorities and their free clusters, a choice
does what it is to do just if the condition holds. -/
theorem psSelectSegment_chosen_iff {trace : List (Segments × Call)}
    (hrun : Run Step initial trace s) (shift : ℕ) :
    s.Chosen shift (s.psSelectSegment shift) ↔ s.Choosable shift := by
  have hok : s.Ok := @Run.invariant _ _ _ _ _ _ (fun _ _ => True) Ok hrun (fun _ _ => trivial)
    initial_ok fun _ _ _ hok _ hstep => hstep.ok hok
  exact hok.chosen_iff shift

/-- A segment with one free cluster, of a backing store of the highest priority. -/
def oneCluster (device : ℕ) : AddSegment := ⟨some ⟨4, 1⟩, device, 0, 1, 4096⟩

/-- Two such segments. -/
def twoSegments : Segments :=
  ((initial.defaultPagerAddSegment (oneCluster 0) (true, true)).2.defaultPagerAddSegment
    (oneCluster 1) (true, true)).2

theorem run_twoSegments : ∃ trace, Run Step initial trace twoSegments :=
  ⟨_, .cons (.cons .nil (.addSegment _ _)) (.addSegment _ _)⟩

/-- The first choice of the two. -/
theorem psSelectSegment_chosen_iff_twoSegments :
    twoSegments.Chosen 0 (twoSegments.psSelectSegment 0) := by
  obtain ⟨trace, hrun⟩ := run_twoSegments
  refine (psSelectSegment_chosen_iff hrun 0).mpr ⟨fun hone => ?_, fun _ i hi => ?_⟩
  · exact absurd hone (by decide +kernel)
  · have hno : ∀ i, twoSegments.select i ≠ bsFullpri := by decide +kernel
    exact absurd hi (hno i)

/-- The two segments when both clusters were taken and one choice has found none. -/
def twoFull : Segments :=
  (((twoSegments.psSelectSegment 0).2.psSelectSegment 0).2.psSelectSegment 0).2

/-- The next choice begins before the array. -/
theorem full_priority_read_outside :
    ¬∀ (trace : List (Segments × Call)) (s : Segments) (shift : ℕ),
      Run Step initial trace s → s.Chosen shift (s.psSelectSegment shift) := by
  intro hclaim
  have hfirst : (twoSegments.psSelectSegment 0).1 = .segment 1 := by decide +kernel
  have hsecond : ((twoSegments.psSelectSegment 0).2.psSelectSegment 0).1 = .segment 0 := by
    decide +kernel
  have hthird : (((twoSegments.psSelectSegment 0).2.psSelectSegment 0).2.psSelectSegment 0).1 =
      .null := by decide +kernel
  have hfourth : (twoFull.psSelectSegment 0).1 = .outside := by decide +kernel
  obtain ⟨trace, hrun⟩ := run_twoSegments
  have hfull : Run Step initial _ twoFull :=
    .cons (.cons (.cons hrun (.selectSegment 0 (.inr ⟨1, hfirst⟩)))
      (.selectSegment 0 (.inr ⟨0, hsecond⟩))) (.selectSegment 0 (.inl hthird))
  obtain ⟨j, ps, hj, -⟩ | ⟨hnull, -⟩ := hclaim _ twoFull 0 hfull
  · rw [hfourth] at hj
    cases hj
  · rw [hfourth] at hnull
    cases hnull

end Segments

end MachVirtuTerm
