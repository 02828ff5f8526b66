import Mathlib.Data.Finset.Card
import Mathlib.Data.Fintype.Basic
import MachVirtuTerm.DefaultPager.Cluster

/-!
# Every cluster has one owner

A cluster whose bit is set is named by one entry of one map, or is being allocated. The invariant
is that of each segment's bitmap, with the clusters that are held; a section reserves space, sets
a bit, hands a cluster from the allocation to the entry or frees it.
-/

open Function List Option

namespace MachVirtuTerm

open PagerState VsMap

namespace PagingSegment

variable {ps : PagingSegment} {reserved c : ℕ} {held held' : ℕ → Prop}

/-- The bits that are clear. -/
def clearBits (ps : PagingSegment) : Finset ℕ := (Finset.range ps.ncls).filter fun c => ps.bmap c = false

theorem mem_clearBits : c ∈ ps.clearBits ↔ c < ps.ncls ∧ ps.bmap c = false := by
  unfold clearBits
  rw [Finset.mem_filter, Finset.mem_range]

/-- A bitmap with some clusters held and space reserved. -/
structure Ok (ps : PagingSegment) (reserved : ℕ) (held : ℕ → Prop) : Prop where
  /-- `ps_clcount` is the number of clear bits minus the reservations. -/
  count : ps.clcount + reserved = ps.clearBits.card
  /-- `ps_hint` is at most the byte of a clear bit. -/
  hint : ∀ c < ps.ncls, ps.bmap c = false → ps.hint ≤ c / nbby
  /-- The bits that are set are those of the clusters that are held. -/
  held_iff : ∀ c, held c ↔ c < ps.ncls ∧ ps.bmap c = true

theorem Ok.congr (h : ps.Ok reserved held) (hheld : ∀ c, held' c ↔ held c) : ps.Ok reserved held' :=
  ⟨h.count, h.hint, fun c => (hheld c).trans (h.held_iff c)⟩

/-- Space is reserved. -/
theorem Ok.reserve (h : ps.Ok reserved held) (hcount : ps.clcount ≠ 0) :
    Ok { ps with clcount := ps.clcount - 1 } (reserved + 1) held := by
  refine ⟨?_, h.hint, h.held_iff⟩
  have hcard := h.count
  change ps.clcount - 1 + (reserved + 1) = ps.clearBits.card
  omega

theorem clearBit_isSome {b : ℕ} : (ps.clearBit b).isSome ↔ ∃ i < nbby, ps.bmap (b * nbby + i) = false := by
  unfold clearBit
  rw [find?_isSome]
  simp

/-- The scan comes to the first clear bit. -/
theorem Ok.scan (h : ps.Ok (reserved + 1) held) {b i : ℕ} (hscan : ps.scan = (b, i)) :
    b * nbby + i < ps.ncls ∧ ps.bmap (b * nbby + i) = false ∧ i < nbby ∧
      ∀ c < ps.ncls, ps.bmap c = false → b ≤ c / nbby := by
  have hcard : 0 < ps.clearBits.card := by
    have hcount := h.count
    omega
  obtain ⟨c, hc⟩ := Finset.card_pos.mp hcard
  obtain ⟨hlt, hclear⟩ := mem_clearBits.mp hc
  have hbyte : ∀ c < ps.ncls, ps.bmap c = false → (ps.clearBit (c / nbby)).isSome := by
    intro c hlt hclear
    refine clearBit_isSome.mpr ⟨c % nbby, Nat.mod_lt _ (by decide), ?_⟩
    rw [Nat.div_add_mod']
    exact hclear
  have hin : ∀ c < ps.ncls, c / nbby < ps.bytes := by
    intro c hlt
    unfold bytes nbby
    omega
  unfold PagingSegment.scan at hscan
  split at hscan
  · rename_i byteNum hfind
    obtain ⟨hsome, -, hfirst⟩ := find?_range'_eq_some.mp hfind
    obtain ⟨bitNum, hbit⟩ := isSome_iff_exists.mp hsome
    rw [hbit] at hscan
    cases hscan
    have hbit' := hbit
    unfold clearBit at hbit'
    obtain ⟨hbitClear, hbitMem, hbitFirst⟩ := find?_range_eq_some.mp hbit'
    have hi : bitNum < nbby := mem_range.mp hbitMem
    have hleast : ∀ c < ps.ncls, ps.bmap c = false → b ≤ c / nbby := by
      intro c hlt hclear
      by_contra hnot
      have hnone := hfirst (c / nbby) (h.hint c hlt hclear) (by omega)
      rw [hbyte c hlt hclear] at hnone
      cases hnone
    refine ⟨?_, of_decide_eq_true hbitClear, hi, hleast⟩
    have hle := hleast c hlt hclear
    by_cases heq : b = c / nbby
    · have hbits : bitNum ≤ c % nbby := by
        by_contra hnot
        have hset := hbitFirst (c % nbby) (by omega)
        rw [heq, Nat.div_add_mod', hclear] at hset
        cases hset
      have hdiv := Nat.div_add_mod' c nbby
      change b * nbby + bitNum < ps.ncls
      rw [heq]
      omega
    · have hdiv := Nat.div_add_mod' c nbby
      unfold nbby at *
      change b * 8 + bitNum < ps.ncls
      omega
  · rename_i hnone
    have hnot := find?_range'_eq_none.mp hnone (c / nbby) (h.hint c hlt hclear) (by
      have hlt' := hin c hlt
      have hle := h.hint c hlt hclear
      omega)
    rw [hbyte c hlt hclear] at hnot
    cases hnot

/-- A reserved cluster is allocated. -/
theorem Ok.allocate (h : ps.Ok (reserved + 1) held) :
    ps.allocate.1 < ps.ncls ∧ ¬held ps.allocate.1 ∧ ps.allocate.2.ncls = ps.ncls ∧
      ps.allocate.2.Ok reserved fun c => held c ∨ c = ps.allocate.1 := by
  unfold PagingSegment.allocate
  rcases hscan : ps.scan with ⟨b, i⟩
  obtain ⟨hlt, hclear, hi, hleast⟩ := h.scan hscan
  dsimp only
  have hnot : ¬held (b * nbby + i) := fun hheld => by
    have hset := ((h.held_iff _).mp hheld).2
    rw [hclear] at hset
    cases hset
  refine ⟨hlt, hnot, rfl, ?_, fun c hc hbit => ?_, fun c => ?_⟩
  · have hcard := h.count
    have herase : clearBits { ps with
        hint := b
        bmap := update ps.bmap (b * nbby + i) true } = ps.clearBits.erase (b * nbby + i) := by
      ext c
      rw [Finset.mem_erase, mem_clearBits, mem_clearBits]
      dsimp only
      by_cases hc : c = b * nbby + i
      · subst hc
        simp
      · rw [update_of_ne hc]
        simp [hc]
    rw [herase, Finset.card_erase_of_mem (mem_clearBits.mpr ⟨hlt, hclear⟩)]
    dsimp only
    omega
  · dsimp only at hbit ⊢
    by_cases hcell : c = b * nbby + i
    · subst hcell
      rw [update_self] at hbit
      cases hbit
    · rw [update_of_ne hcell] at hbit
      exact hleast c hc hbit
  · dsimp only
    by_cases hcell : c = b * nbby + i
    · subst hcell
      rw [update_self]
      exact iff_of_true (Or.inr rfl) ⟨hlt, rfl⟩
    · rw [update_of_ne hcell, ← h.held_iff c]
      exact or_iff_left hcell

/-- A cluster that is held is freed. -/
theorem Ok.deallocate (h : ps.Ok reserved held) (hc : held c) :
    ∃ ps', ps.deallocate c = some ps' ∧ ps'.ncls = ps.ncls ∧ ps'.Ok reserved fun x => held x ∧ x ≠ c := by
  obtain ⟨hlt, hset⟩ := (h.held_iff c).mp hc
  refine ⟨_, if_neg (by omega), rfl, ?_, fun x hx hbit => ?_, fun x => ?_⟩
  · have hcard := h.count
    have hinsert : clearBits { ps with
        bmap := update ps.bmap c false
        clcount := ps.clcount + 1
        hint := if c / nbby < ps.hint then c / nbby else ps.hint } = insert c ps.clearBits := by
      ext x
      rw [Finset.mem_insert, mem_clearBits, mem_clearBits]
      dsimp only
      by_cases hx : x = c
      · subst hx
        simp [hlt]
      · rw [update_of_ne hx]
        simp [hx]
    have hnotMem : c ∉ ps.clearBits := fun hmem => by
      have hclear := (mem_clearBits.mp hmem).2
      rw [hset] at hclear
      cases hclear
    rw [hinsert, Finset.card_insert_of_notMem hnotMem]
    dsimp only
    omega
  · dsimp only at hbit ⊢
    by_cases hcell : x = c
    · subst hcell
      split
      · exact le_rfl
      · omega
    · rw [update_of_ne hcell] at hbit
      have hle := h.hint x hx hbit
      split
      · omega
      · exact hle
  · dsimp only
    by_cases hcell : x = c
    · subst hcell
      rw [update_self]
      exact iff_of_false (fun hx => hx.2 rfl) fun hx => by cases hx.2
    · rw [update_of_ne hcell, ← h.held_iff x]
      exact and_iff_left hcell

end PagingSegment

/-- Who has a cluster: an entry of a map, or an allocation in progress. -/
inductive ClusterOwner (Vs : Type*)
  | entry (vs : Vs) (cl : ℕ)
  | allocation (vs : Vs)
  deriving DecidableEq

/-- The cluster that an allocation has. -/
def ClusterAllocation.held (a : ClusterAllocation) : Option (BitVec 8 × ℕ) :=
  a.cluster.map fun c => (a.psindex, c)

namespace VsMap

variable {vsm : VsMap}

theorem cluster_of_isClr (h : vsm.IsClr) : vsm.cluster = none := by
  unfold cluster
  rw [if_neg (by rw [h.2]; decide), if_pos h.1]

theorem cluster_of_error (h : vsm.error = true) : vsm.cluster = none := if_pos h

/-- An entry that is neither clear nor in error names a cluster. -/
theorem cluster_of_not (hclr : ¬vsm.IsClr) (herror : ¬vsm.error = true) :
    vsm.cluster = some (vsm.psindex, vsm.entry.toNat) := by
  unfold cluster
  rw [if_neg herror, if_neg]
  exact fun hnull => hclr ⟨hnull, by simpa using herror⟩

end VsMap

namespace PagerState

variable {Vs : Type*} {s s' : PagerState Vs} {vs : Vs} {cl c : ℕ} {p : BitVec 8}
  {pages : ClusterPages} {vsm : VsMap} {freed : Option (BitVec 8 × ℕ)}

/-- The cluster that an owner has. -/
def holds (s : PagerState Vs) : ClusterOwner Vs → Option (BitVec 8 × ℕ)
  | .entry vs cl => (s.vsmap vs cl).bind VsMap.cluster
  | .allocation vs => (s.allocating vs).bind ClusterAllocation.held

theorem holds_entry (vs : Vs) (cl : ℕ) :
    s.holds (.entry vs cl) = (s.vsmap vs cl).bind VsMap.cluster := rfl

theorem holds_allocation (vs : Vs) :
    s.holds (.allocation vs) = (s.allocating vs).bind ClusterAllocation.held := rfl

/-- Space is reserved for an allocation. -/
def reserves (s : PagerState Vs) (vs : Vs) (p : BitVec 8) : Bool :=
  (s.allocating vs).any fun a => decide (a.psindex = p ∧ a.cluster = none)

/-- The reservations on a segment. -/
def reserved [Fintype Vs] (s : PagerState Vs) (p : BitVec 8) : ℕ :=
  (Finset.univ.filter fun vs => s.reserves vs p = true).card

theorem reserved_congr [Fintype Vs] (h : ∀ vs, s'.reserves vs p = s.reserves vs p) :
    s'.reserved p = s.reserved p := by
  unfold reserved
  simp only [h]

/-- Clusters and their owners. -/
structure Inv [Fintype Vs] (s : PagerState Vs) : Prop where
  /-- The bits that are set are those of clusters that have an owner, below `ps_ncls`;
  `ps_clcount` and `ps_hint` are right. -/
  segment : ∀ p, (s.segment p).Ok (s.reserved p) fun c => ∃ o, s.holds o = some (p, c)
  /-- No two owners have the same cluster. -/
  unique : ∀ o o' x, s.holds o = some x → s.holds o' = some x → o = o'
  /-- Cluster numbers fit in an entry. -/
  ncls_le : ∀ p, (s.segment p).ncls ≤ vsmEntryNull.toNat
  /-- An entry for which a cluster is allocated names none. -/
  allocating : ∀ vs a, s.allocating vs = some a → s.holds (.entry vs a.pages.cl) = none
  /-- A transfer is to the cluster that its entry names. -/
  transfers : ∀ t ∈ s.transfers, s.holds (.entry t.vs t.pages.cl) = some (t.psindex, t.cluster)

/-- A change of other data. -/
theorem Inv.congr [Fintype Vs] (h : s.Inv) (hsegment : s'.segment = s.segment)
    (hallocating : s'.allocating = s.allocating) (hholds : ∀ o, s'.holds o = s.holds o)
    (htransfers : ∀ t ∈ s'.transfers,
      s.holds (.entry t.vs t.pages.cl) = some (t.psindex, t.cluster)) : s'.Inv := by
  have hreserved : ∀ p, s'.reserved p = s.reserved p := fun p =>
    reserved_congr fun vs => by rw [reserves, reserves, hallocating]
  refine ⟨fun p => ?_, fun o o' x ho ho' => ?_, fun p => ?_, fun vs a ha => ?_, fun t ht => ?_⟩
  · rw [hsegment, hreserved]
    exact (h.segment p).congr fun c => by simp only [hholds]
  · rw [hholds] at ho ho'
    exact h.unique o o' x ho ho'
  · rw [hsegment]
    exact h.ncls_le p
  · rw [hallocating] at ha
    rw [hholds]
    exact h.allocating vs a ha
  · rw [hholds]
    exact htransfers t ht

/-- A transfer to the cluster that its entry names. -/
theorem Inv.start [Fintype Vs] (h : s.Inv) (hentry : s.holds (.entry vs pages.cl) = some (vsm.psindex, vsm.entry.toNat))
    (isWrite : Bool) : (s.start vs pages vsm isWrite).Inv := by
  refine h.congr rfl rfl (fun o => by cases o <;> rfl) fun t ht => ?_
  rcases Multiset.mem_cons.mp ht with rfl | ht
  · exact hentry
  · exact h.transfers t ht

/-- In the first 4 GB of a segment a transfer begins in its cluster. -/
theorem Inv.offset [Fintype Vs] (h : s.Inv) {t : ClusterTransfer Vs} (ht : t ∈ s.transfers)
    (hclsize : 0 < s.clsize t.vs)
    (hncls : (s.segment t.psindex).ncls * (s.clsize t.vs * 4096) ≤ 4294967296) :
    (t.offset (s.clsize t.vs)).toNat / (s.clsize t.vs * 4096) = t.cluster := by
  have hlt := (((h.segment _).held_iff _).mp ⟨_, h.transfers t ht⟩).1
  have hfirst := Nat.mod_lt t.pages.first hclsize
  generalize s.clsize t.vs = clsize at *
  have hle : (t.cluster + 1) * (clsize * 4096) ≤ 4294967296 :=
    (Nat.mul_le_mul_right _ hlt).trans hncls
  rw [Nat.add_one_mul] at hle
  have hnat : (t.offset clsize).toNat =
      t.pages.first % clsize * 4096 + clsize * 4096 * t.cluster := by
    have hcl : t.cluster * 4096 * clsize = clsize * 4096 * t.cluster := by
      rw [Nat.mul_assoc, Nat.mul_comm, Nat.mul_comm 4096]
    rw [ClusterTransfer.offset, BitVec.toNat_add, BitVec.toNat_ofNat, BitVec.toNat_ofNat, hcl,
      ← Nat.add_mod, Nat.mod_eq_of_lt (by lia), Nat.add_comm]
  rw [hnat, Nat.add_mul_div_left _ _ (by lia), Nat.div_eq_of_lt (by lia), Nat.zero_add]

/-- What a section frees: clusters whose entries go away, without transfers to them. -/
structure Frees (s : PagerState Vs) (freed : Option (BitVec 8 × ℕ)) (s' : PagerState Vs) : Prop where
  /-- A cluster is freed when an entry stops naming it, and only then. -/
  iff : ∀ x, freed = some x ↔
    ∃ vs cl, s.holds (.entry vs cl) = some x ∧ s'.holds (.entry vs cl) ≠ some x
  /-- No transfer to it is outstanding. -/
  transfers : ∀ x, freed = some x → ∀ t ∈ s'.transfers, (t.psindex, t.cluster) ≠ x

/-- Nothing is freed where entries go on naming what they name. -/
theorem Frees.none (h : ∀ vs cl x, s.holds (.entry vs cl) = some x → s'.holds (.entry vs cl) = some x) :
    Frees s none s' :=
  ⟨fun x => iff_of_false (fun hx => nomatch hx) fun ⟨vs, cl, hx, hnot⟩ => hnot (h vs cl x hx),
    fun _ hx => nomatch hx⟩

/-- Segments that are set up have all clusters free. -/
theorem inv_init [Fintype Vs] (clsize : Vs → ℕ) (ncls : BitVec 8 → ℕ) (hncls : ∀ p, ncls p ≤ vsmEntryNull.toNat) :
    (init clsize ncls).Inv := by
  have hnone : ∀ o : ClusterOwner Vs, (init clsize ncls).holds o = none := fun o => by
    cases o <;> rfl
  have hreserved : ∀ p, reserved (init clsize ncls : PagerState Vs) p = 0 := fun p => by
    unfold reserved
    rw [Finset.card_eq_zero, Finset.filter_eq_empty_iff]
    exact fun _ _ hres => nomatch hres
  refine ⟨fun p => ⟨?_, fun c _ _ => Nat.zero_le _, fun c => ?_⟩, fun o o' x ho => ?_, hncls,
    fun vs a ha => (by cases ha), fun t ht => ?_⟩
  · rw [hreserved]
    unfold PagingSegment.clearBits
    change ncls p + 0 = ((Finset.range (ncls p)).filter fun _ => false = false).card
    rw [Finset.filter_true_of_mem fun _ _ => rfl, Finset.card_range]
    rfl
  · refine iff_of_false ?_ fun hset => nomatch hset.2
    rintro ⟨o, ho⟩
    rw [hnone] at ho
    cases ho
  · rw [hnone] at ho
    cases ho
  · cases Multiset.notMem_zero t ht

variable [DecidableEq Vs]

theorem holds_setVsMap (vs : Vs) (cl : ℕ) (x : Option VsMap) (o : ClusterOwner Vs) :
    (s.setVsMap vs cl x).holds o = if o = .entry vs cl then x.bind VsMap.cluster else s.holds o := by
  cases o with
  | allocation vs' => rfl
  | entry vs' cl' =>
    unfold holds setVsMap
    dsimp only
    by_cases hvs : vs' = vs
    · subst hvs
      rw [update_self]
      by_cases hcl : cl' = cl
      · subst hcl
        rw [update_self, if_pos rfl]
      · rw [update_of_ne hcl, if_neg (by simp [hcl])]
    · rw [update_of_ne hvs, if_neg (by simp [hvs])]

theorem holds_allocating (vs : Vs) (a : Option ClusterAllocation) (o : ClusterOwner Vs) :
    holds { s with allocating := update s.allocating vs a } o =
      if o = .allocation vs then a.bind ClusterAllocation.held else s.holds o := by
  cases o with
  | entry vs' cl' => rfl
  | allocation vs' =>
    unfold holds
    dsimp only
    by_cases hvs : vs' = vs
    · subst hvs
      rw [update_self, if_pos rfl]
    · rw [update_of_ne hvs, if_neg (by simp [hvs])]

/-- Memory for the map names nothing. -/
theorem holds_extend (vs : Vs) (grow : ℕ → Bool) (o : ClusterOwner Vs) :
    (s.extend vs grow).holds o = s.holds o := by
  cases o with
  | allocation vs' => rfl
  | entry vs' cl' =>
    unfold holds extend
    dsimp only
    by_cases hvs : vs' = vs
    · subst hvs
      rw [update_self]
      cases hentry : s.vsmap vs' cl' with
      | none =>
        cases grow cl' with
        | false => rfl
        | true => exact cluster_of_isClr ⟨rfl, rfl⟩
      | some vsm => rfl
    · rw [update_of_ne hvs]

/-- What entries name where the pages of one are allocated. -/
theorem holds_setAlloc (write : Bool) (o : ClusterOwner Vs) :
    (s.setAlloc vs pages vsm write).holds o =
      if o = .entry vs pages.cl then vsm.cluster else s.holds o := by
  have hset := holds_setVsMap (s := s) vs pages.cl
    (some { vsm with alloc := vsm.alloc ||| pages.bits (s.clsize vs) }) o
  unfold PagerState.setAlloc
  dsimp only
  split
  · refine Eq.trans ?_ hset
    cases o <;> rfl
  · exact hset

section Reserved

variable [Fintype Vs]

/-- One more allocation has a reservation. -/
theorem reserved_succ (h : s.reserves vs p = false) (h' : s'.reserves vs p = true)
    (hother : ∀ vs', vs' ≠ vs → s'.reserves vs' p = s.reserves vs' p) :
    s'.reserved p = s.reserved p + 1 := by
  unfold reserved
  have hinsert : (Finset.univ.filter fun vs => s'.reserves vs p = true) =
      insert vs (Finset.univ.filter fun vs => s.reserves vs p = true) := by
    ext vs'
    rw [Finset.mem_insert, Finset.mem_filter, Finset.mem_filter]
    by_cases hvs : vs' = vs
    · subst hvs
      simp [h']
    · rw [hother vs' hvs]
      simp [hvs]
  rw [hinsert, Finset.card_insert_of_notMem]
  simp [h]

section

variable (h : s.Inv)

include h

/-- An entry goes on naming what it names. -/
theorem Inv.setVsMap {x : Option VsMap}
    (hx : x.bind VsMap.cluster = s.holds (.entry vs cl)) : (s.setVsMap vs cl x).Inv := by
  refine h.congr rfl rfl (fun o => ?_) h.transfers
  rw [holds_setVsMap]
  split
  · rename_i ho
    rw [ho, hx]
  · rfl

/-- Space is reserved for an entry. -/
theorem Inv.reserve (hfree : s.allocating vs = none)
    (hclear : s.holds (.entry vs pages.cl) = none) (hcount : (s.segment p).clcount ≠ 0) :
    Inv { s.setSegment p { s.segment p with clcount := (s.segment p).clcount - 1 } with
      allocating := update s.allocating vs (some ⟨pages, p, none⟩) } := by
  have hholds : ∀ o, holds { s.setSegment p { s.segment p with
      clcount := (s.segment p).clcount - 1 } with
        allocating := update s.allocating vs (some ⟨pages, p, none⟩) } o = s.holds o := by
    intro o
    refine (holds_allocating vs _ o).trans ?_
    split
    · rename_i ho
      subst ho
      have hnone : s.holds (.allocation vs) = none := by
        rw [holds_allocation, hfree]
        rfl
      exact hnone.symm
    · cases o <;> rfl
  have hreserves : ∀ vs' q, reserves { s.setSegment p { s.segment p with
      clcount := (s.segment p).clcount - 1 } with
        allocating := update s.allocating vs (some ⟨pages, p, none⟩) } vs' q =
      if vs' = vs then decide (p = q) else s.reserves vs' q := by
    intro vs' q
    unfold reserves
    dsimp only [setSegment]
    split
    · rename_i hvs
      subst hvs
      rw [update_self]
      simp
    · rename_i hvs
      rw [update_of_ne hvs]
  have hnot : ∀ q, s.reserves vs q = false := fun q => by
    unfold reserves
    rw [hfree]
    rfl
  refine ⟨fun q => ?_, fun o o' x ho ho' => ?_, fun q => ?_, fun vs' a ha => ?_, fun t ht => ?_⟩
  · have hheld : ∀ c, (∃ o, holds { s.setSegment p { s.segment p with
        clcount := (s.segment p).clcount - 1 } with
          allocating := update s.allocating vs (some ⟨pages, p, none⟩) } o = some (q, c)) ↔
        ∃ o, s.holds o = some (q, c) := fun c => by simp only [hholds]
    refine PagingSegment.Ok.congr ?_ hheld
    by_cases hq : q = p
    · subst hq
      rw [reserved_succ (hnot q) (by rw [hreserves]; simp) fun vs' hvs => by
        rw [hreserves, if_neg hvs]]
      change (update s.segment q _ q).Ok _ _
      rw [update_self]
      exact (h.segment q).reserve hcount
    · rw [reserved_congr (s := s) fun vs' => by
        rw [hreserves]
        split
        · rename_i hvs
          rw [hvs, hnot]
          exact decide_eq_false fun hpq => hq hpq.symm
        · rfl]
      change (update s.segment p _ q).Ok _ _
      rw [update_of_ne hq]
      exact h.segment q
  · rw [hholds] at ho ho'
    exact h.unique o o' x ho ho'
  · change (update s.segment p _ q).ncls ≤ _
    by_cases hq : q = p
    · subst hq
      rw [update_self]
      exact h.ncls_le q
    · rw [update_of_ne hq]
      exact h.ncls_le q
  · rw [hholds]
    change update s.allocating vs _ vs' = some a at ha
    by_cases hvs : vs' = vs
    · subst hvs
      rw [update_self] at ha
      cases ha
      exact hclear
    · rw [update_of_ne hvs] at ha
      exact h.allocating vs' a ha
  · rw [hholds]
    exact h.transfers t ht

/-- A reserved cluster is allocated. -/
theorem Inv.allocate (hall : s.allocating vs = some ⟨pages, p, none⟩) :
    Inv { s.setSegment p (s.segment p).allocate.2 with
      allocating := update s.allocating vs (some ⟨pages, p, some (s.segment p).allocate.1⟩) } := by
  generalize hnew : (s.segment p).allocate = new
  obtain ⟨c, ps⟩ := new
  dsimp only
  have hholds : ∀ o, holds { s.setSegment p ps with
      allocating := update s.allocating vs (some ⟨pages, p, some c⟩) } o =
        if o = .allocation vs then some (p, c) else s.holds o := by
    intro o
    refine (holds_allocating vs _ o).trans ?_
    split
    · rfl
    · cases o <;> rfl
  have hreserves : ∀ vs' q, vs' ≠ vs → reserves { s.setSegment p ps with
      allocating := update s.allocating vs (some ⟨pages, p, some c⟩) } vs' q =
        s.reserves vs' q := by
    intro vs' q hvs
    unfold reserves
    dsimp only [setSegment]
    rw [update_of_ne hvs]
  have hself : ∀ q, reserves { s.setSegment p ps with
      allocating := update s.allocating vs (some ⟨pages, p, some c⟩) } vs q = false := by
    intro q
    unfold reserves
    dsimp only [setSegment]
    rw [update_self]
    simp
  have hself' : ∀ q, s.reserves vs q = decide (p = q) := by
    intro q
    unfold reserves
    rw [hall]
    simp
  have hsucc := reserved_succ (hself p) (by rw [hself']; simp) fun vs' hvs =>
    (hreserves vs' p hvs).symm
  have hseg := h.segment p
  rw [hsucc] at hseg
  have hspec := hseg.allocate
  rw [hnew] at hspec
  obtain ⟨hlt, hnotHeld, hncls, hok⟩ := hspec
  have hnone : s.holds (.allocation vs) = none := by
    rw [holds_allocation, hall]
    rfl
  have hnotOwner : ∀ o, s.holds o ≠ some (p, c) := fun o ho => hnotHeld ⟨o, ho⟩
  refine ⟨fun q => ?_, fun o o' x ho ho' => ?_, fun q => ?_, fun vs' a ha => ?_, fun t ht => ?_⟩
  · by_cases hq : q = p
    · subst hq
      change (update s.segment q _ q).Ok _ _
      rw [update_self]
      refine hok.congr fun c' => ?_
      constructor
      · rintro ⟨o, ho⟩
        rw [hholds] at ho
        split at ho
        · cases ho
          exact Or.inr rfl
        · exact Or.inl ⟨o, ho⟩
      · rintro (⟨o, ho⟩ | rfl)
        · refine ⟨o, ?_⟩
          rw [hholds, if_neg, ho]
          rintro rfl
          rw [hnone] at ho
          cases ho
        · exact ⟨.allocation vs, by rw [hholds, if_pos rfl]⟩
    · have hsame : ∀ vs', reserves { s.setSegment p ps with
          allocating := update s.allocating vs (some ⟨pages, p, some c⟩) } vs' q =
            s.reserves vs' q := by
        intro vs'
        by_cases hvs : vs' = vs
        · rw [hvs, hself, hself']
          exact (decide_eq_false fun hpq => hq hpq.symm).symm
        · exact hreserves vs' q hvs
      rw [reserved_congr hsame]
      change (update s.segment p _ q).Ok _ _
      rw [update_of_ne hq]
      refine (h.segment q).congr fun c' => ?_
      constructor
      · rintro ⟨o, ho⟩
        rw [hholds] at ho
        split at ho
        · cases ho
          exact absurd rfl hq
        · exact ⟨o, ho⟩
      · rintro ⟨o, ho⟩
        refine ⟨o, ?_⟩
        rw [hholds, if_neg, ho]
        rintro rfl
        rw [hnone] at ho
        cases ho
  · rw [hholds] at ho ho'
    split at ho
    · split at ho'
      · rename_i heq heq'
        rw [heq, heq']
      · cases ho
        exact absurd ho' (hnotOwner o')
    · split at ho'
      · cases ho'
        exact absurd ho (hnotOwner o)
      · exact h.unique o o' x ho ho'
  · change (update s.segment p _ q).ncls ≤ _
    by_cases hq : q = p
    · subst hq
      rw [update_self, hncls]
      exact h.ncls_le q
    · rw [update_of_ne hq]
      exact h.ncls_le q
  · rw [hholds, if_neg (by simp)]
    change update s.allocating vs _ vs' = some a at ha
    by_cases hvs : vs' = vs
    · subst hvs
      rw [update_self] at ha
      cases ha
      exact h.allocating vs' ⟨pages, p, none⟩ hall
    · rw [update_of_ne hvs] at ha
      exact h.allocating vs' a ha
  · rw [hholds, if_neg (by simp)]
    exact h.transfers t ht

/-- An allocated cluster is handed to the entry. -/
theorem Inv.handOver (hall : s.allocating vs = some ⟨pages, p, some c⟩) {x : VsMap}
    (hx : x.cluster = some (p, c)) :
    Inv (PagerState.setVsMap { s with allocating := update s.allocating vs none }
      vs pages.cl (some x)) := by
  have hholds : ∀ o, holds (PagerState.setVsMap { s with
      allocating := update s.allocating vs none } vs pages.cl (some x)) o =
        if o = .entry vs pages.cl then some (p, c)
        else if o = .allocation vs then none else s.holds o := by
    intro o
    rw [holds_setVsMap, holds_allocating]
    split
    · exact hx
    · rfl
  have hheld : s.holds (.allocation vs) = some (p, c) := by
    rw [holds_allocation, hall]
    rfl
  have hentry : s.holds (.entry vs pages.cl) = none := h.allocating vs _ hall
  have hreserves : ∀ vs' q, reserves (PagerState.setVsMap { s with
      allocating := update s.allocating vs none } vs pages.cl (some x)) vs' q =
        s.reserves vs' q := by
    intro vs' q
    unfold reserves
    dsimp only [PagerState.setVsMap]
    by_cases hvs : vs' = vs
    · subst hvs
      rw [update_self, hall]
      simp
    · rw [update_of_ne hvs]
  have howner : ∀ o y, holds (PagerState.setVsMap { s with
      allocating := update s.allocating vs none } vs pages.cl (some x)) o = some y →
        s.holds (if o = .entry vs pages.cl then .allocation vs else o) = some y := by
    intro o y ho
    rw [hholds] at ho
    split at ho
    · rw [if_pos ‹_›, hheld]
      exact ho
    · rw [if_neg ‹_›]
      split at ho
      · cases ho
      · exact ho
  refine ⟨fun q => ?_, fun o o' y ho ho' => ?_, h.ncls_le, fun vs' a ha => ?_, fun t ht => ?_⟩
  · rw [reserved_congr fun vs' => hreserves vs' q]
    refine (h.segment q).congr fun c' => ⟨?_, ?_⟩
    · rintro ⟨o, ho⟩
      exact ⟨_, howner o _ ho⟩
    · rintro ⟨o, ho⟩
      by_cases hvs : o = .allocation vs
      · subst hvs
        rw [hheld] at ho
        exact ⟨.entry vs pages.cl, by rw [hholds, if_pos rfl, ho]⟩
      · refine ⟨o, ?_⟩
        rw [hholds, if_neg, if_neg hvs, ho]
        rintro rfl
        rw [hentry] at ho
        cases ho
  · have heq := h.unique _ _ y (howner o y ho) (howner o' y ho')
    have hne : ∀ o, holds (PagerState.setVsMap { s with
        allocating := update s.allocating vs none } vs pages.cl (some x)) o = some y →
          o ≠ .allocation vs := by
      rintro _ hy rfl
      rw [hholds, if_neg (by simp), if_pos rfl] at hy
      cases hy
    split at heq
    · split at heq
      · rename_i hfst hsnd
        rw [hfst, hsnd]
      · exact absurd heq.symm (hne o' ho')
    · split at heq
      · exact absurd heq (hne o ho)
      · exact heq
  · change update s.allocating vs none vs' = some a at ha
    have hvs : vs' ≠ vs := by
      rintro rfl
      rw [update_self] at ha
      cases ha
    rw [update_of_ne hvs] at ha
    rw [hholds, if_neg (by simp [hvs]), if_neg (by simp)]
    exact h.allocating vs' a ha
  · have hbefore := h.transfers t ht
    rw [hholds, if_neg, if_neg (by simp)]
    · exact hbefore
    · intro heq
      rw [heq, hentry] at hbefore
      cases hbefore

/-- A cluster whose entry goes away without transfers is freed. -/
theorem Inv.free (hentry : s.holds (.entry vs cl) = some (p, c))
    (hflight : ¬s.InFlight vs cl) {x : Option VsMap} (hx : x.bind VsMap.cluster = none) :
    ∃ ps, (s.segment p).deallocate c = some ps ∧ ((s.setSegment p ps).setVsMap vs cl x).Inv := by
  obtain ⟨ps, hps, hncls, hok⟩ := (h.segment p).deallocate ⟨_, hentry⟩
  refine ⟨ps, hps, ?_⟩
  have hholds : ∀ o, holds ((s.setSegment p ps).setVsMap vs cl x) o =
      if o = .entry vs cl then none else s.holds o := by
    intro o
    rw [holds_setVsMap, hx]
    split
    · rfl
    · cases o <;> rfl
  have howner : ∀ o y, holds ((s.setSegment p ps).setVsMap vs cl x) o = some y → s.holds o = some y := by
    intro o y ho
    rw [hholds] at ho
    split at ho
    · cases ho
    · exact ho
  have hreserved : ∀ q, reserved ((s.setSegment p ps).setVsMap vs cl x) q = s.reserved q := fun q =>
    reserved_congr fun _ => rfl
  refine ⟨fun q => ?_, fun o o' y ho ho' => h.unique o o' y (howner o y ho) (howner o' y ho'),
    fun q => ?_, fun vs' a ha => ?_, fun t ht => ?_⟩
  · rw [hreserved]
    change (update s.segment p _ q).Ok _ _
    by_cases hq : q = p
    · subst hq
      rw [update_self]
      refine hok.congr fun c' => ⟨?_, ?_⟩
      · rintro ⟨o, ho⟩
        refine ⟨⟨o, howner o _ ho⟩, ?_⟩
        rintro rfl
        have heq := h.unique _ _ _ hentry (howner o _ ho)
        rw [hholds, if_pos heq.symm] at ho
        cases ho
      · rintro ⟨⟨o, ho⟩, hne⟩
        refine ⟨o, ?_⟩
        rw [hholds, if_neg, ho]
        rintro rfl
        rw [hentry] at ho
        cases ho
        exact hne rfl
    · rw [update_of_ne hq]
      refine (h.segment q).congr fun c' => ⟨?_, ?_⟩
      · rintro ⟨o, ho⟩
        exact ⟨o, howner o _ ho⟩
      · rintro ⟨o, ho⟩
        refine ⟨o, ?_⟩
        rw [hholds, if_neg, ho]
        rintro rfl
        rw [hentry] at ho
        cases ho
        exact hq rfl
  · change (update s.segment p _ q).ncls ≤ _
    by_cases hq : q = p
    · subst hq
      rw [update_self, hncls]
      exact h.ncls_le q
    · rw [update_of_ne hq]
      exact h.ncls_le q
  · rw [hholds]
    split
    · rfl
    · exact h.allocating vs' a ha
  · rw [hholds, if_neg]
    · exact h.transfers t ht
    · intro heq
      cases heq
      exact hflight ⟨t, ht, rfl, rfl⟩

/-- The cluster of an entry that goes away is freed. -/
theorem Inv.frees (hentry : s.holds (.entry vs cl) = some (p, c))
    (hflight : ¬s.InFlight vs cl) {x : Option VsMap} (hx : x.bind VsMap.cluster = none)
    {ps : PagingSegment} : Frees s (some (p, c)) ((s.setSegment p ps).setVsMap vs cl x) := by
  have hholds : ∀ o, holds ((s.setSegment p ps).setVsMap vs cl x) o =
      if o = .entry vs cl then none else s.holds o := by
    intro o
    rw [holds_setVsMap, hx]
    split
    · rfl
    · cases o <;> rfl
  refine ⟨fun y => ⟨?_, ?_⟩, fun y hy t ht heq => ?_⟩
  · rintro ⟨⟩
    refine ⟨vs, cl, hentry, ?_⟩
    rw [hholds, if_pos rfl]
    exact fun hnone => nomatch hnone
  · rintro ⟨vs', cl', hy, hnot⟩
    rw [hholds] at hnot
    split at hnot
    · rename_i heq
      rw [heq, hentry] at hy
      exact hy
    · exact absurd hy hnot
  · cases hy
    have hnamed := h.transfers t ht
    rw [heq] at hnamed
    have howner := h.unique _ _ _ hentry hnamed
    cases howner
    exact hflight ⟨t, ht, rfl, rfl⟩

end

/-- An entry may go into error: its cluster is not 0 and has no other transfer. -/
def FailsAlone (s : PagerState Vs) (vs : Vs) (cl : ℕ) : Prop :=
  ∀ x, s.holds (.entry vs cl) = some x → x.2 ≠ 0 ∧ ¬s.InFlight vs cl

instance (s : PagerState Vs) (vs : Vs) (cl : ℕ) : Decidable (s.FailsAlone vs cl) :=
  inferInstanceAs (Decidable (∀ x ∈ s.holds (.entry vs cl), _))

/-- A section does what it may: a write fails alone and not on cluster 0, an entry that loses its
last page is not in error and has no transfer, and an object goes away without reads. -/
def Alone (s : PagerState Vs) : PagerAction Vs → Prop
  | .writeComplete transfer error =>
    error ≠ 0 → FailsAlone { s with transfers := s.transfers.erase transfer } transfer.vs transfer.pages.cl
  | .writeFailed vs pages _ => s.FailsAlone vs pages.cl
  | .clunmap vs pages =>
    ∀ vsm, s.vsmap vs pages.cl = some vsm → vsm.alloc &&& ~~~pages.bits (s.clsize vs) = 0 →
      vsm.error = false ∧ ¬s.InFlight vs pages.cl
  | .vstructDealloc vs cl => ¬s.InFlight vs cl
  | _ => True

instance (s : PagerState Vs) (action : PagerAction Vs) : Decidable (s.Alone action) :=
  match action with
  | .writeComplete _ _ => inferInstanceAs (Decidable (_ → FailsAlone _ _ _))
  | .writeFailed _ _ _ => inferInstanceAs (Decidable (FailsAlone _ _ _))
  | .clunmap vs pages =>
    inferInstanceAs (Decidable (∀ vsm ∈ s.vsmap vs pages.cl, _ → _ ∧ ¬s.InFlight vs pages.cl))
  | .vstructDealloc _ _ => inferInstanceAs (Decidable (¬_))
  | .clmapAlloc _ _ _ _ _ | .allocateCluster _ | .setEntry _ _ | .clmapFind _ _
  | .readComplete _ => inferInstanceAs (Decidable True)

section

variable (h : s.Inv)

include h

/-- The end of a write. -/
theorem complete_spec {error : BitVec 32} (hok : error ≠ 0 → s.FailsAlone vs pages.cl)
    (hstep : s.complete vs pages error = some (s', freed)) : s'.Inv ∧ Frees s freed s' := by
  unfold complete at hstep
  split at hstep
  · cases hstep
  split at hstep
  · cases hstep
    exact ⟨h, Frees.none fun _ _ _ hx => hx⟩
  rename_i vsm hvsm
  have hentry : s.holds (.entry vs pages.cl) = vsm.cluster := by
    rw [holds_entry, hvsm]
    rfl
  have hsame : ∀ {x : VsMap}, x.cluster = vsm.cluster →
      (s.setVsMap vs pages.cl (some x)).Inv ∧ Frees s none (s.setVsMap vs pages.cl (some x)) := by
    intro x hx
    refine ⟨h.setVsMap (hx.trans hentry.symm), Frees.none fun vs' cl' y hy => ?_⟩
    rw [holds_setVsMap]
    split
    · rename_i heq
      rw [heq, hentry] at hy
      exact hx.trans hy
    · exact hy
  split at hstep
  · cases hstep
    exact ⟨h, Frees.none fun _ _ _ hx => hx⟩
  rename_i hnoerror
  split at hstep
  · rename_i hclr
    split at hstep
    · cases hstep
      exact ⟨h, Frees.none fun _ _ _ hx => hx⟩
    · cases hstep
      exact hsame ((cluster_of_error rfl).trans (cluster_of_isClr hclr).symm)
  rename_i hclr
  split at hstep
  · cases hstep
    exact hsame rfl
  rename_i herror
  rw [cluster_of_not hclr hnoerror] at hentry
  obtain ⟨hne, hflight⟩ := hok herror _ hentry
  have herr : (some (vsm.setErr error)).bind VsMap.cluster = none := cluster_of_error rfl
  dsimp only at hstep
  split at hstep
  · rename_i hzero
    rw [hzero] at hne
    exact absurd rfl hne
  · obtain ⟨ps, hps, hinv⟩ := h.free hentry hflight herr
    change ((s.segment vsm.psindex).deallocate vsm.entry.toNat).map _ = _ at hstep
    rw [hps] at hstep
    cases hstep
    exact ⟨hinv, h.frees hentry hflight herr⟩

/-- Pages are unmapped. -/
theorem clunmap_spec
    (hok : ∀ vsm, s.vsmap vs pages.cl = some vsm → vsm.alloc &&& ~~~pages.bits (s.clsize vs) = 0 →
      vsm.error = false ∧ ¬s.InFlight vs pages.cl)
    (hstep : s.clunmap vs pages = some (s', freed)) : s'.Inv ∧ Frees s freed s' := by
  unfold clunmap at hstep
  split at hstep
  · cases hstep
  split at hstep
  · cases hstep
    exact ⟨h, Frees.none fun _ _ _ hx => hx⟩
  rename_i vsm hvsm
  have hentry : s.holds (.entry vs pages.cl) = vsm.cluster := by
    rw [holds_entry, hvsm]
    rfl
  split at hstep
  · cases hstep
    exact ⟨h, Frees.none fun _ _ _ hx => hx⟩
  rename_i hclr
  dsimp only at hstep
  split at hstep
  · rename_i hempty
    obtain ⟨hnoerror, hflight⟩ := hok vsm hvsm hempty
    rw [cluster_of_not hclr (by simp [hnoerror])] at hentry
    have hnone : (some clr).bind VsMap.cluster = none := cluster_of_isClr ⟨rfl, rfl⟩
    obtain ⟨ps, hps, hinv⟩ := h.free hentry hflight hnone
    rw [hps] at hstep
    cases hstep
    exact ⟨hinv, h.frees hentry hflight hnone⟩
  · cases hstep
    refine ⟨h.setVsMap hentry.symm, Frees.none fun vs' cl' y hy => ?_⟩
    rw [holds_setVsMap]
    split
    · rename_i heq
      rw [heq, hentry] at hy
      exact hy
    · exact hy

/-- An entry goes away with its object. -/
theorem vstructDealloc_spec (hok : ¬s.InFlight vs cl)
    (hstep : s.vstructDealloc vs cl = some (s', freed)) : s'.Inv ∧ Frees s freed s' := by
  unfold vstructDealloc at hstep
  split at hstep
  · cases hstep
  split at hstep
  · cases hstep
    exact ⟨h, Frees.none fun _ _ _ hx => hx⟩
  rename_i vsm hvsm
  have hentry : s.holds (.entry vs cl) = vsm.cluster := by
    rw [holds_entry, hvsm]
    rfl
  dsimp only at hstep
  split at hstep
  · rename_i hnot
    rw [cluster_of_not hnot.1 (by simp [hnot.2])] at hentry
    obtain ⟨ps, hps, hinv⟩ := h.free hentry hok (x := none) rfl
    change ((s.segment vsm.psindex).deallocate vsm.entry.toNat).map _ = _ at hstep
    rw [hps] at hstep
    cases hstep
    exact ⟨hinv, h.frees hentry hok rfl⟩
  · rename_i hnot
    cases hstep
    have hnone : vsm.cluster = none := by
      by_cases herror : vsm.error = true
      · exact cluster_of_error herror
      · by_cases hclr : vsm.IsClr
        · exact cluster_of_isClr hclr
        · exact absurd ⟨hclr, by simpa using herror⟩ hnot
    refine ⟨h.setVsMap (hentry.trans hnone).symm, Frees.none fun vs' cl' y hy => ?_⟩
    rw [holds_setVsMap]
    split
    · rename_i heq
      rw [heq, hentry, hnone] at hy
      cases hy
    · exact hy

/-- The pages of an entry that names a cluster are allocated. -/
theorem Inv.setAlloc (hnames : s.holds (.entry vs pages.cl) = some (vsm.psindex, vsm.entry.toNat))
    (hvsm : vsm.cluster = some (vsm.psindex, vsm.entry.toNat)) (write : Bool) :
    (s.setAlloc vs pages vsm write).Inv := by
  have hset : (s.setVsMap vs pages.cl
      (some { vsm with alloc := vsm.alloc ||| pages.bits (s.clsize vs) })).Inv :=
    h.setVsMap (hvsm.trans hnames.symm)
  unfold PagerState.setAlloc
  dsimp only
  split
  · refine hset.start ?_ true
    rw [holds_setVsMap, if_pos rfl]
    exact hvsm
  · exact hset

/-- A cluster is looked up or space for one reserved. -/
theorem clmapAlloc_spec {grow : ℕ → Bool} {select : Option (BitVec 8)} {write : Bool}
    (hstep : s.clmapAlloc vs pages grow select write = some s') : s'.Inv ∧ Frees s none s' := by
  unfold clmapAlloc at hstep
  split at hstep
  · cases hstep
  rename_i hlocked
  have hextend : (s.extend vs grow).Inv := h.congr rfl rfl (holds_extend vs grow) h.transfers
  have hfrees : ∀ {s'}, (∀ vs' cl x, (s.extend vs grow).holds (.entry vs' cl) = some x →
      s'.holds (.entry vs' cl) = some x) → Frees s none s' := fun {s'} hs' =>
    Frees.none fun vs' cl x hx => hs' vs' cl x ((holds_extend vs grow _).trans hx)
  dsimp only at hstep
  split at hstep
  · cases hstep
    exact ⟨hextend, hfrees fun _ _ _ hx => hx⟩
  rename_i vsm hvsm
  have hentry : (s.extend vs grow).holds (.entry vs pages.cl) = vsm.cluster := by
    rw [holds_entry, hvsm]
    rfl
  split at hstep
  · cases hstep
    exact ⟨hextend, hfrees fun _ _ _ hx => hx⟩
  rename_i hnoerror
  split at hstep
  · rename_i hclr
    split at hstep
    · cases hstep
      exact ⟨hextend, hfrees fun _ _ _ hx => hx⟩
    rename_i psindex
    split at hstep
    · cases hstep
    rename_i hcount
    cases hstep
    have hfree : s.allocating vs = none := by simpa using hlocked
    refine ⟨hextend.reserve hfree (hentry.trans (cluster_of_isClr hclr)) hcount,
      hfrees fun _ _ _ hx => hx⟩
  · rename_i hclr
    cases hstep
    have hnames := cluster_of_not hclr hnoerror
    refine ⟨hextend.setAlloc (hentry.trans hnames) hnames write, hfrees fun vs' cl x hx => ?_⟩
    rw [holds_setAlloc]
    split
    · rename_i heq
      rw [heq, hentry] at hx
      exact hx
    · exact hx

/-- One section keeps the invariant. -/
theorem Inv.step {l : PagerAction Vs × Option (BitVec 8 × ℕ)} (hok : s.Alone l.1)
    (hstep : s.Step l s') : s'.Inv ∧ Frees s l.2 s' := by
  obtain ⟨action, freed⟩ := l
  change s.step action = some (s', freed) at hstep
  have herase : ∀ transfer, Inv { s with transfers := s.transfers.erase transfer } := fun transfer =>
    h.congr rfl rfl (fun o => by cases o <;> rfl) fun t ht =>
      h.transfers t (Multiset.mem_of_mem_erase ht)
  unfold PagerState.step at hstep
  cases action with
  | clmapAlloc vs pages grow select write =>
    obtain ⟨s₁, hs₁, heq⟩ := map_eq_some_iff.mp hstep
    cases heq
    exact clmapAlloc_spec h hs₁
  | allocateCluster vs =>
    dsimp only at hstep
    split at hstep
    · rename_i pages psindex hall
      cases hstep
      refine ⟨h.allocate hall, Frees.none fun vs' cl x hx => ?_⟩
      exact hx
    · cases hstep
  | setEntry vs write =>
    dsimp only at hstep
    split at hstep
    · rename_i pages psindex cluster hall
      cases hstep
      have hheld : s.holds (.allocation vs) = some (psindex, cluster) := by
        rw [holds_allocation, hall]
        rfl
      have hlt := (((h.segment psindex).held_iff cluster).mp ⟨_, hheld⟩).1
      have hle := h.ncls_le psindex
      have hnull : vsmEntryNull.toNat = 2 ^ 23 - 1 := rfl
      have htoNat : (BitVec.ofNat 23 cluster).toNat = cluster := by
        rw [BitVec.toNat_ofNat]
        exact Nat.mod_eq_of_lt (by omega)
      have hnames : VsMap.cluster ⟨BitVec.ofNat 23 cluster, psindex, false, 0, 0⟩ =
          some (psindex, cluster) := by
        unfold VsMap.cluster
        rw [if_neg Bool.false_ne_true, if_neg, htoNat]
        intro heq
        have hcast := congrArg BitVec.toNat heq
        rw [htoNat] at hcast
        omega
      have hentry : s.holds (.entry vs pages.cl) = none := h.allocating vs _ hall
      have hset := @Inv.handOver _ _ _ _ _ _ _ _ h hall { (⟨BitVec.ofNat 23 cluster, psindex, false, 0, 0⟩ : VsMap) with
        alloc := 0 ||| pages.bits (s.clsize vs) } hnames
      constructor
      · unfold PagerState.setAlloc
        dsimp only
        split
        · refine hset.start ?_ true
          rw [holds_setVsMap, if_pos rfl, htoNat]
          exact hnames
        · exact hset
      · refine Frees.none fun vs' cl x hx => ?_
        rw [holds_setAlloc, holds_allocating, if_neg, if_neg (by simp)]
        · exact hx
        · intro heq
          rw [heq, hentry] at hx
          cases hx
    · cases hstep
  | writeComplete transfer error =>
    dsimp only at hstep
    split at hstep
    · have hspec : s'.Inv ∧ Frees { s with transfers := s.transfers.erase transfer } freed s' :=
        complete_spec (herase transfer) hok hstep
      exact ⟨hspec.1, hspec.2.iff, hspec.2.transfers⟩
    · cases hstep
  | writeFailed vs pages error =>
    dsimp only at hstep
    split at hstep
    · cases hstep
    · exact complete_spec h (fun _ => hok) hstep
  | clmapFind vs pages =>
    dsimp only at hstep
    split at hstep
    · cases hstep
    split at hstep
    · cases hstep
      exact ⟨h, Frees.none fun _ _ _ hx => hx⟩
    rename_i vsm hvsm
    split at hstep
    · cases hstep
      exact ⟨h, Frees.none fun _ _ _ hx => hx⟩
    rename_i hnot
    rw [not_or] at hnot
    cases hstep
    refine ⟨h.start ?_ false, Frees.none fun _ _ _ hx => hx⟩
    rw [holds_entry, hvsm]
    exact cluster_of_not hnot.2 hnot.1
  | readComplete transfer =>
    dsimp only at hstep
    split at hstep
    · cases hstep
      exact ⟨herase transfer, Frees.none fun _ _ _ hx => hx⟩
    · cases hstep
  | clunmap vs pages => exact clunmap_spec h hok hstep
  | vstructDealloc vs cl =>
    dsimp only at hstep
    split at hstep
    · cases hstep
    · exact vstructDealloc_spec h hok hstep

end

/-- In every run in which no write fails on cluster 0 or together with another transfer to its
cluster, pages are unmapped and objects go away without transfers, and entries in error are not
unmapped, every cluster whose bit is set has one owner, the counts and hints are right, and what
is freed is what an entry stops naming, without a transfer to it; a transfer goes to its cluster,
if the segment is no larger than its offsets. -/
theorem clusters_owned (clsize : Vs → ℕ) {ncls : BitVec 8 → ℕ}
    (hncls : ∀ p, ncls p ≤ vsmEntryNull.toNat)
    {trace : List (PagerState Vs × PagerAction Vs × Option (BitVec 8 × ℕ))}
    (hrun : Run Step (init clsize ncls) trace s) (hok : ∀ x ∈ trace, Alone x.1 x.2.1) :
    s.Inv ∧ (∀ x ∈ trace, ∀ s', Step x.1 x.2 s' → Frees x.1 x.2.2 s') ∧
      ∀ t ∈ s.transfers, 0 < s.clsize t.vs →
        (s.segment t.psindex).ncls * (s.clsize t.vs * 4096) ≤ 4294967296 →
        (t.offset (s.clsize t.vs)).toNat / (s.clsize t.vs * 4096) = t.cluster := by
  have hinit := inv_init clsize ncls hncls
  have hsteps : ∀ (s : PagerState Vs) l s', s.Inv → Alone s l.1 → Step s l s' → s'.Inv :=
    fun _ _ _ h hl hstep => (h.step hl hstep).1
  have hinv := @Run.invariant _ _ _ _ _ _ (fun s l => Alone s l.1) Inv hrun hok hinit hsteps
  refine ⟨hinv, fun x hx s' hstep => ?_, fun t ht => hinv.offset ht⟩
  obtain ⟨hbefore, hl, -⟩ :=
    @Run.invariant_of_mem _ _ _ _ _ _ (fun s l => Alone s l.1) Inv hrun hok hinit hsteps x hx
  exact (hbefore.step hl hstep).2

/-- The first page of an object. -/
def firstPage : ClusterPages := ⟨0, 0, 1⟩

/-- The first page is written to the first cluster of segment 1. -/
def writeFirst : List (PagerAction Unit) :=
  [.setEntry () true, .allocateCluster (), .clmapAlloc () firstPage (fun cl => cl = 0) (some 1) true]

/-- The transfer of the first page. -/
def firstTransfer : ClusterTransfer Unit := ⟨(), firstPage, 1, 0, true⟩

/-- A page that was written is unmapped, and its cluster is freed. -/
theorem unmapFirst_owned : ∃ trace s,
    Run Step (init (fun _ : Unit => 1) fun _ => 4) trace s ∧
      trace.head?.map (·.2.2) = some (some (1, 0)) ∧ (s.segment 1).bmap 0 = false ∧ s.Inv := by
  have h : (replay step (init (fun _ : Unit => 1) fun _ => 4)
      (.clunmap () firstPage :: .writeComplete firstTransfer 0 :: writeFirst)).map (fun r =>
        decide (r.1.head?.map (·.2.2) = some (some (1, 0)) ∧ (r.2.segment 1).bmap 0 = false ∧
          ∀ x ∈ r.1, Alone x.1 x.2.1)) = some true := by
    decide +kernel
  obtain ⟨⟨trace, s⟩, hreplay, hres⟩ := map_eq_some_iff.mp h
  obtain ⟨hfreed, hbit, hok⟩ := of_decide_eq_true hres
  have hrun := Run.of_replay_step hreplay
  exact ⟨trace, s, hrun, hfreed, hbit, (clusters_owned _ (fun _ => by decide) hrun hok).1⟩

/-- The write of cluster 0 fails: its entry turns into an error, and it is not freed. -/
theorem failFirst_keeps_bit : ∃ trace s l s', Run Step (init (fun _ : Unit => 1) fun _ => 4) trace s ∧
    Step s l s' ∧ s.holds (.entry () 0) = some (1, 0) ∧ (s'.vsmap () 0).any (·.error) = true ∧
      l.2 = none ∧ (s'.segment 1).bmap 0 = true := by
  have h : (replay step (init (fun _ : Unit => 1) fun _ => 4) writeFirst).bind (fun r =>
      (r.2.step (.writeComplete firstTransfer 5)).map fun r' =>
        decide (r.2.holds (.entry () 0) = some (1, 0) ∧ (r'.1.vsmap () 0).any (·.error) = true ∧
          r'.2 = none ∧ (r'.1.segment 1).bmap 0 = true)) = some true := by
    decide +kernel
  obtain ⟨⟨trace, s⟩, hreplay, hbind⟩ := bind_eq_some_iff.mp h
  obtain ⟨⟨s', freed⟩, hstep, hres⟩ := map_eq_some_iff.mp hbind
  exact ⟨trace, s, (_, freed), s', Run.of_replay_step hreplay, hstep, of_decide_eq_true hres⟩

end Reserved

end PagerState

end MachVirtuTerm
