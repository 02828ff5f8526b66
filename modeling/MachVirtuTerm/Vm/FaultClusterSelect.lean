import MachVirtuTerm.Vm.FaultCluster

/-!
# The choice of a paging cluster

The boundaries of the scans keep the window in the part of the object that is mapped, and within
as many bytes as the cluster has left on each side of the offset.
-/

open BitVec hiding not_not

namespace MachVirtuTerm

namespace FaultCluster

open RoundUp

variable {env : PageOracle} {object : PagedObject} {fault : Fault} {cfg : Config} {k : ℕ}

/-! ## The size of the cluster -/

theorem WellPlaced.two_pow (h : WellPlaced object fault k) :
    ∃ q, object.clusterSize.toNat = 4096 * q ∧ 0 < q ∧ 2 * object.clusterSize.toNat ≤ 2 ^ 32 := by
  have hk := h.le_k
  have hlt := h.k_lt
  refine ⟨2 ^ (k - 12), ?_, Nat.two_pow_pos _, ?_⟩
  · have hsum : k = 12 + (k - 12) := by omega
    rw [h.clusterSize]
    conv_lhs => rw [hsum, Nat.pow_add]
  · rw [h.clusterSize, Nat.mul_comm, ← Nat.pow_succ]
    exact Nat.pow_le_pow_right (by decide) (by omega)

/-- The mask of the offsets in a cluster. -/
theorem WellPlaced.isMask (h : WellPlaced object fault k) : IsMask (object.clusterSize - 1) k where
  le := Nat.le_of_lt h.k_lt
  toNat_eq := by
    have hpos := Nat.two_pow_pos k
    rw [← h.clusterSize] at hpos
    rw [toNat_sub_of_le (by rw [le_def]; exact hpos), h.clusterSize]
    rfl

/-- The offset of the page in its cluster. -/
def inCluster (object : PagedObject) (fault : Fault) : ℕ :=
  (pagingOffset object fault).toNat % object.clusterSize.toNat

section

variable (h : WellPlaced object fault k)

include h

theorem WellPlaced.toNat_alignOffset :
    (alignOffset object fault).toNat = fault.offset.toNat % pageSize := by
  have hpaging := h.pagingOffset
  rw [pageSize_eq] at hpaging
  rw [alignOffset, toNat_and_pageMask, FaultCluster.pagingOffset, toNat_add, pageSize_eq]
  omega

theorem WellPlaced.inCluster_mod : inCluster object fault % 4096 = fault.offset.toNat % 4096 := by
  obtain ⟨q, hq, -⟩ := h.two_pow
  have halign := h.toNat_alignOffset
  rw [alignOffset, toNat_and_pageMask, pageSize_eq] at halign
  rw [inCluster, Nat.mod_mod_of_dvd _ ⟨q, hq⟩, halign]

/-- The offset in the cluster, in whole pages. -/
theorem WellPlaced.toNat_clusterOffset : (clusterOffset object fault).toNat =
      inCluster object fault - fault.offset.toNat % 4096 := by
  have hmod := h.inCluster_mod
  have hlow : (FaultCluster.pagingOffset object fault &&& (object.clusterSize - 1)).toNat =
      inCluster object fault := by
    rw [h.isMask.toNat_and, inCluster, h.clusterSize]
  have hpageMask : IsMask pageMask 12 := ⟨by decide, rfl⟩
  rw [clusterOffset]
  split_ifs with halign
  · rw [truncPage, hpageMask.toNat_and_not, hlow]
    omega
  · rw [ne_eq, not_not, ← toNat_inj, h.toNat_alignOffset, pageSize_eq] at halign
    rw [hlow, halign]
    rfl

/-- The page of the fault is in the cluster, but for what is beyond a page boundary. -/
theorem WellPlaced.clusterOffset_add_le :
    (clusterOffset object fault).toNat + 4096 ≤ object.clusterSize.toNat ∧
      (clusterOffset object fault).toNat % 4096 = 0 := by
  have hmod := h.inCluster_mod
  obtain ⟨q, hq, hpos, -⟩ := h.two_pow
  have hlt : inCluster object fault < object.clusterSize.toNat := Nat.mod_lt _ (by omega)
  rw [h.toNat_clusterOffset]
  omega

/-- There is a page of the object at the offset. -/
theorem WellPlaced.offset_add_page_le : fault.offset.toNat + 4096 ≤ fault.hiOffset.toNat := by
  have hlt := h.lt_hi
  have hpages := h.hi_pages
  rw [pageSize_eq] at hpages
  rw [lt_def] at hlt
  omega

end

/-! ## The boundaries -/

/-- The larger of two words, as the boundaries are raised. -/
theorem le_toNat_ite {p : Prop} [Decidable p] {x y : BitVec 32} (h : p → x < y) :
    x.toNat ≤ (if p then y else x).toNat := by
  split_ifs with hp
  · exact Nat.le_of_lt (lt_def.mp (h hp))
  · exact Nat.le_refl _

/-- The lower boundary is neither before the part that is mapped nor before the cluster. -/
theorem WellPlaced.le_clusterBot (cfg : Config) (h : WellPlaced object fault k) :
    fault.loOffset.toNat ≤ (clusterBot cfg object fault).toNat ∧
      fault.offset.toNat ≤
        (clusterBot cfg object fault).toNat + (clusterOffset object fault).toNat := by
  have hend := h.offset_add_page_le
  rw [clusterBot]
  generalize hb : (if fault.offset > clusterOffset object fault then
    fault.offset - clusterOffset object fault else fault.offset) = bot
  have hbot : fault.offset.toNat ≤ bot.toNat + (clusterOffset object fault).toNat := by
    rw [← hb]
    split_ifs with hlt
    · rw [gt_iff_lt, lt_def] at hlt
      rw [toNat_sub_of_le (by rw [le_def]; omega)]
      omega
    · omega
  generalize hc : (if alignOffset object fault ≠ 0 ∧ bot < fault.offset ∧
    SpansCluster object fault bot then bot + page else bot) = second
  have hsecond : bot.toNat ≤ second.toNat := by
    rw [← hc]
    refine le_toNat_ite fun hcond => ?_
    have hlt := hcond.2.1
    rw [lt_def] at hlt ⊢
    rw [toNat_add_page (by have := fault.hiOffset.isLt; omega)]
    omega
  generalize hd : (if fault.behavior = .default ∧ second < fault.offset - cfg.defaultBehind * page
    then fault.offset - cfg.defaultBehind * page else second) = third
  have hthird : second.toNat ≤ third.toNat := by
    rw [← hd]
    exact le_toNat_ite fun hcond => hcond.2
  split_ifs with hlo
  · rw [gt_iff_lt, lt_def] at hlo
    omega
  · rw [gt_iff_lt, lt_def] at hlo
    omega

/-- The upper boundary is neither behind the part that is mapped nor behind the cluster, and
whole pages from the offset. -/
theorem WellPlaced.clusterTop_le (cfg : Config) (h : WellPlaced object fault k) :
    (clusterTop cfg object fault).toNat ≤ fault.hiOffset.toNat ∧
      (clusterTop cfg object fault).toNat + (clusterOffset object fault).toNat ≤
        fault.offset.toNat + object.clusterSize.toNat ∧
      (clusterTop cfg object fault).toNat % 4096 = fault.offset.toNat % 4096 := by
  have hend := h.offset_add_page_le
  have hhi := h.hi_pages
  obtain ⟨hco, hcoMod⟩ := h.clusterOffset_add_le
  obtain ⟨q, hq, hpos, hsmall⟩ := h.two_pow
  rw [pageSize_eq] at hhi
  rw [clusterTop]
  generalize hb : fault.offset + object.clusterSize - clusterOffset object fault = top
  have htop : top.toNat + (clusterOffset object fault).toNat ≤
      fault.offset.toNat + object.clusterSize.toNat ∧
      top.toNat % 4096 = fault.offset.toNat % 4096 := by
    rw [← hb, toNat_sub, toNat_add]
    omega
  have hpage : (fault.offset + page).toNat = fault.offset.toNat + 4096 :=
    toNat_add_page (by have := fault.hiOffset.isLt; omega)
  generalize hc : (if alignOffset object fault ≠ 0 ∧ top > fault.offset + page ∧
    SpansCluster object fault top then top - page else top) = second
  have hsecond : second.toNat ≤ top.toNat ∧ second.toNat % 4096 = top.toNat % 4096 := by
    rw [← hc]
    split_ifs with hcond
    · have hlt := hcond.2.1
      rw [gt_iff_lt, lt_def, hpage] at hlt
      rw [toNat_sub_page (by omega)]
      omega
    · omega
  generalize hd : (if fault.behavior = .default ∧
    second > fault.offset + (cfg.defaultAhead * page + page) then
      fault.offset + (cfg.defaultAhead * page + page) else second) = third
  have hthird : third.toNat ≤ second.toNat ∧ third.toNat % 4096 = second.toNat % 4096 := by
    rw [← hd]
    split_ifs with hcond
    · have hlt := hcond.2
      rw [gt_iff_lt, lt_def] at hlt
      refine ⟨Nat.le_of_lt hlt, ?_⟩
      rw [toNat_add, toNat_add, toNat_mul, toNat_page]
      omega
    · omega
  split_ifs with hhi'
  · rw [gt_iff_lt, lt_def] at hhi'
    omega
  · rw [gt_iff_lt, lt_def] at hhi'
    omega

/-! ## What the scans find -/

/-- How many pages the scans insert before the offset and behind it, and what ends them. -/
structure Looks where
  behind : ℕ
  backStop : Option Probe
  ahead : ℕ
  aheadStop : Option Probe

/-- The looks of a fault: how a scan over the pages before the offset ends, where there is to be
one, and how one over the pages behind it does, where there is to be one and no shortage was met
before. -/
structure LooksAre (cfg : Config) (object : PagedObject) (fault : Fault) (env : PageOracle)
    (l : Looks) : Prop where
  behind : EndsAfter
    (fun i => (¬NoClustering cfg object fault ∧ ScansBackward cfg fault) ∧
      InReach (clusterBot cfg object fault) fault.offset.toNat (i + 1))
    (fun i => probe env object (pagesBefore fault.offset (i + 1))) l.behind l.backStop
  ahead : EndsAfter
    (fun i => (¬NoClustering cfg object fault ∧ l.backStop ≠ some .shortage ∧
        ScansForward cfg fault) ∧
      (fault.offset + page).toNat + i * pageSize < (clusterTop cfg object fault).toNat)
    (fun i => probe env object (pagesBehind (fault.offset + page) i)) l.ahead l.aheadStop

/-- Every fault has its looks. -/
theorem exists_looksAre (cfg : Config) (object : PagedObject) (fault : Fault)
    (env : PageOracle) : ∃ l, LooksAre cfg object fault env l := by
  have hpage := pageSize_eq
  have hmul : ∀ i, i ≤ i * pageSize := fun i => Nat.le_mul_of_pos_right i (by decide)
  obtain ⟨behind, backStop, hbehind⟩ := @exists_endsAfter
    (fun i => (¬NoClustering cfg object fault ∧ ScansBackward cfg fault) ∧
      InReach (clusterBot cfg object fault) fault.offset.toNat (i + 1))
    (fun i => probe env object (pagesBefore fault.offset (i + 1)))
    ⟨fault.offset.toNat, fun h => by
      have := h.2.1
      have := hmul (fault.offset.toNat + 1)
      omega⟩
  obtain ⟨ahead, aheadStop, hahead⟩ := @exists_endsAfter
    (fun i => (¬NoClustering cfg object fault ∧ backStop ≠ some .shortage ∧
        ScansForward cfg fault) ∧
      (fault.offset + page).toNat + i * pageSize < (clusterTop cfg object fault).toNat)
    (fun i => probe env object (pagesBehind (fault.offset + page) i))
    ⟨(clusterTop cfg object fault).toNat, fun h => by
      have := h.2
      have := hmul (clusterTop cfg object fault).toNat
      omega⟩
  exact ⟨⟨behind, backStop, ahead, aheadStop⟩, hbehind, hahead⟩

/-- It has no others. -/
theorem LooksAre.unique {l l' : Looks} (h : LooksAre cfg object fault env l)
    (h' : LooksAre cfg object fault env l') : l = l' := by
  obtain ⟨behind, backStop, ahead, aheadStop⟩ := l
  obtain ⟨behind', backStop', ahead', aheadStop'⟩ := l'
  obtain ⟨rfl, rfl⟩ := h.behind.unique h'.behind
  obtain ⟨rfl, rfl⟩ := h.ahead.unique h'.ahead
  rfl

/-- A scan that does not take place ends at once. -/
theorem EndsAfter.of_not {p : Prop} {inReach : ℕ → Prop} {look : ℕ → Probe} {n : ℕ}
    {stop : Option Probe} (h : EndsAfter (fun i => p ∧ inReach i) look n stop) (hp : ¬p) :
    n = 0 ∧ stop = none :=
  h.unique ⟨fun i hi => absurd hi (Nat.not_lt_zero i), fun _ h => hp h.1, fun _ h => nomatch h⟩

/-- A scan that takes place. -/
theorem EndsAfter.of_pos {p : Prop} {inReach : ℕ → Prop} {look : ℕ → Probe} {n : ℕ}
    {stop : Option Probe} (h : EndsAfter (fun i => p ∧ inReach i) look n stop) (hp : p) :
    EndsAfter inReach look n stop := by
  simpa only [hp, true_and] using h

/-- The state after both scans. -/
def Looks.scan (l : Looks) (offset : VmOffset) (s : Scan) : Scan :=
  (((s.insertAll (pagesDown offset l.behind)).stopAt l.backStop).insertAll
    (pagesFrom (offset + page) l.ahead)).stopAt l.aheadStop

/-- The pages of the window. -/
def Looks.count (l : Looks) : ℕ := l.behind + 1 + l.ahead

/-- From the begin of the window to its end. -/
theorem pagesBehind_sub_pagesBefore (u : VmOffset) (behind ahead : ℕ) :
    pagesBehind (u + page) ahead - pagesBefore u behind =
      BitVec.ofNat 32 ((behind + 1 + ahead) * pageSize) := by
  have hmul : (behind + 1 + ahead) * pageSize =
      behind * pageSize + pageSize + ahead * pageSize := by ring
  rw [hmul, ofNat_add, ofNat_add, ofNat_pageSize, pagesBehind, pagesBefore]
  ring

/-- The choice of the window. -/
theorem selectCluster_eq (h : WellPlaced object fault k) {l : Looks}
    (hl : LooksAre cfg object fault env l) (s : Scan) :
    selectCluster cfg object fault env s =
      (pagesBefore fault.offset l.behind, BitVec.ofNat 32 (l.count * pageSize),
        l.scan fault.offset s) := by
  have hpage := pageSize_eq
  have hlt := fault.offset.isLt
  have hend := h.offset_add_page_le
  have hadd : (fault.offset + page).toNat = fault.offset.toNat + 4096 :=
    toNat_add_page (by have := fault.hiOffset.isLt; omega)
  have hlength := pagesBehind_sub_pagesBefore fault.offset l.behind l.ahead
  rw [selectCluster]
  by_cases hno : NoClustering cfg object fault
  · obtain ⟨hb, hbs⟩ := hl.behind.of_not fun hp => hp.1 hno
    obtain ⟨ha, has⟩ := hl.ahead.of_not fun hp => hp.1 hno
    rw [if_pos hno, Looks.scan, Looks.count, hb, hbs, ha, has]
    simp [pagesDown, pagesFrom, Scan.insertAll, Scan.stopAt, ofNat_pageSize]
  · rw [if_neg hno]
    have hback : (if ScansBackward cfg fault then
        scanBackward env object (clusterBot cfg object fault) (alignOffset object fault) (2 ^ 20)
          (fault.offset - page) s
        else (fault.offset, false, s)) =
        (pagesBefore fault.offset l.behind, decide (l.backStop = some .shortage),
          (s.insertAll (pagesDown fault.offset l.behind)).stopAt l.backStop) := by
      by_cases hscan : ScansBackward cfg fault
      · rw [if_pos hscan]
        exact scanBackward_eq (2 ^ 20) h.toNat_alignOffset (by rw [hpage]; omega)
          (hl.behind.of_pos ⟨hno, hscan⟩)
      · obtain ⟨hb, hbs⟩ := hl.behind.of_not fun hp => hscan hp.2
        rw [if_neg hscan, hb, hbs]
        simp [pagesDown, Scan.insertAll, Scan.stopAt]
    have hforward : ∀ s' : Scan, (if decide (l.backStop = some .shortage) = false ∧
          ScansForward cfg fault then
          scanForward env object (clusterTop cfg object fault) (2 ^ 20) (fault.offset + page) s'
        else (fault.offset + page, s')) =
        (pagesBehind (fault.offset + page) l.ahead,
          (s'.insertAll (pagesFrom (fault.offset + page) l.ahead)).stopAt l.aheadStop) := by
      intro s'
      by_cases hscan : decide (l.backStop = some .shortage) = false ∧ ScansForward cfg fault
      · have hmod := (h.clusterTop_le cfg).2.2
        have htop := (clusterTop cfg object fault).isLt
        rw [if_pos hscan]
        exact scanForward_eq (2 ^ 20) (by rw [hadd, hpage]; omega) (by rw [hpage]; omega)
          (hl.ahead.of_pos ⟨hno, of_decide_eq_false hscan.1, hscan.2⟩)
      · obtain ⟨ha, has⟩ := hl.ahead.of_not fun hp => hscan ⟨decide_eq_false hp.2.1, hp.2.2⟩
        rw [if_neg hscan, ha, has]
        simp [pagesFrom, Scan.insertAll, Scan.stopAt]
    rw [hback]
    dsimp only
    rw [hforward]
    dsimp only
    rw [hlength]
    rfl

/-! ## The window -/

variable {l : Looks}

/-- The pages before the offset are in the part that is mapped and in the cluster. -/
theorem LooksAre.behind_le (h : WellPlaced object fault k) (hl : LooksAre cfg object fault env l) :
    fault.loOffset.toNat + l.behind * pageSize ≤ fault.offset.toNat ∧
      l.behind * pageSize ≤ (clusterOffset object fault).toNat := by
  have hlo := h.lo_le
  rw [le_def] at hlo
  cases hb : l.behind with
  | zero => exact ⟨by rw [Nat.zero_mul]; exact hlo, by rw [Nat.zero_mul]; exact Nat.zero_le _⟩
  | succ n =>
    obtain ⟨hle, hbot⟩ := (hl.behind.inserted n (by omega)).1.2
    have := h.le_clusterBot cfg
    omega

/-- The pages from the offset on are in the part that is mapped, and in the cluster but for what
is beyond a page boundary. -/
theorem LooksAre.ahead_le (h : WellPlaced object fault k) (hl : LooksAre cfg object fault env l) :
    fault.offset.toNat + (l.ahead + 1) * pageSize ≤ fault.hiOffset.toNat ∧
      (l.ahead + 1) * pageSize + (clusterOffset object fault).toNat ≤ object.clusterSize.toNat := by
  have hend := h.offset_add_page_le
  have hco := h.clusterOffset_add_le
  have hpage := pageSize_eq
  have hmul : (l.ahead + 1) * pageSize = l.ahead * pageSize + pageSize := Nat.succ_mul _ _
  cases ha : l.ahead with
  | zero =>
    rw [Nat.zero_add, Nat.one_mul, hpage]
    omega
  | succ n =>
    have hlt := (hl.ahead.inserted n (by omega)).1.2
    obtain ⟨hhi, hcluster, hmod⟩ := h.clusterTop_le cfg
    have hmul' : (n + 1) * pageSize = n * pageSize + pageSize := Nat.succ_mul _ _
    rw [toNat_add_page (by have := fault.hiOffset.isLt; omega)] at hlt
    rw [ha] at hmul
    simp only [pageSize_eq] at *
    omega

/-- Where a window is. -/
theorem LooksAre.toNat_start (h : WellPlaced object fault k)
    (hl : LooksAre cfg object fault env l) :
    (pagesBefore fault.offset l.behind).toNat + l.behind * pageSize = fault.offset.toNat := by
  have hle := (hl.behind_le h).1
  have hlt := fault.offset.isLt
  have hof : (BitVec.ofNat 32 (l.behind * pageSize)).toNat = l.behind * pageSize := by
    rw [toNat_ofNat, Nat.mod_eq_of_lt (by omega)]
  rw [pagesBefore, toNat_sub_of_le (by rw [le_def, hof]; omega), hof]
  omega

/-- How long it is. -/
theorem LooksAre.toNat_length (h : WellPlaced object fault k)
    (hl : LooksAre cfg object fault env l) :
    (BitVec.ofNat 32 (l.count * pageSize)).toNat =
      l.behind * pageSize + (l.ahead + 1) * pageSize := by
  have hbehind := hl.behind_le h
  have hahead := hl.ahead_le h
  have hsize := object.clusterSize.isLt
  have hmul : l.count * pageSize = l.behind * pageSize + (l.ahead + 1) * pageSize := by
    rw [Looks.count]
    ring
  rw [toNat_ofNat, hmul, Nat.mod_eq_of_lt (by omega)]

/-- Its pages are in one paging cluster, unless the last one is beyond the end of the cluster
in part. -/
theorem LooksAre.cluster_iff (h : WellPlaced object fault k)
    (hl : LooksAre cfg object fault env l) :
    (pagesBefore fault.offset l.behind + object.pagingOffset).toNat % object.clusterSize.toNat +
        (l.behind * pageSize + (l.ahead + 1) * pageSize) ≤ object.clusterSize.toNat ↔
      fault.offset.toNat % pageSize = 0 ∨
        (clusterOffset object fault).toNat + (l.ahead + 1) * pageSize ≠
          object.clusterSize.toNat := by
  obtain ⟨-, hbehind⟩ := hl.behind_le h
  obtain ⟨-, hahead⟩ := hl.ahead_le h
  have hstart := hl.toNat_start h
  have hmod := h.inCluster_mod
  have hco := h.toNat_clusterOffset
  obtain ⟨hcoAdd, hcoMod⟩ := h.clusterOffset_add_le
  obtain ⟨q, hq, hpos, hsmall⟩ := h.two_pow
  have hin : inCluster object fault < object.clusterSize.toNat := Nat.mod_lt _ (by omega)
  have hwrap : object.clusterSize.toNat ∣ 2 ^ 32 :=
    h.clusterSize ▸ Nat.pow_dvd_pow 2 (Nat.le_of_lt h.k_lt)
  -- The offset of the window's begin in the cluster is the one of the fault's page less the
  -- pages between.
  have hbegin : (pagesBefore fault.offset l.behind + object.pagingOffset).toNat %
      object.clusterSize.toNat = inCluster object fault - l.behind * pageSize := by
    have hk0 : (pagingOffset object fault).toNat % object.clusterSize.toNat =
        (fault.offset.toNat + object.pagingOffset.toNat) % object.clusterSize.toNat := by
      rw [pagingOffset, toNat_add, Nat.mod_mod_of_dvd _ hwrap]
    have hb : (pagesBefore fault.offset l.behind + object.pagingOffset).toNat %
        object.clusterSize.toNat =
        ((pagesBefore fault.offset l.behind).toNat + object.pagingOffset.toNat) %
          object.clusterSize.toNat := by
      rw [toNat_add, Nat.mod_mod_of_dvd _ hwrap]
    rw [hb]
    rw [← inCluster, ← hstart] at hk0
    have hsum : (pagesBefore fault.offset l.behind).toNat + object.pagingOffset.toNat +
        l.behind * pageSize = object.clusterSize.toNat *
          (((pagesBefore fault.offset l.behind).toNat + l.behind * pageSize +
            object.pagingOffset.toNat) / object.clusterSize.toNat) + inCluster object fault := by
      rw [hk0, Nat.div_add_mod]
      omega
    have heq : (pagesBefore fault.offset l.behind).toNat + object.pagingOffset.toNat =
        (inCluster object fault - l.behind * pageSize) + object.clusterSize.toNat *
          (((pagesBefore fault.offset l.behind).toNat + l.behind * pageSize +
            object.pagingOffset.toNat) / object.clusterSize.toNat) := by
      omega
    rw [heq, Nat.add_mul_mod_self_left, Nat.mod_eq_of_lt (by omega)]
  rw [hbegin]
  have hmulA : (l.ahead + 1) * pageSize % 4096 = 0 := Nat.mul_mod_left _ _
  have hmulB : l.behind * pageSize % 4096 = 0 := Nat.mul_mod_left _ _
  rw [pageSize_eq] at *
  omega

end FaultCluster

end MachVirtuTerm
