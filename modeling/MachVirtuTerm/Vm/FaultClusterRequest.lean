import MachVirtuTerm.Vm.FaultClusterSelect

/-!
# The request for a paging cluster

A request covers the pages that the fault inserted. When it fails, the loop over the window
frees the page that the routine's variable holds where it means the page that it looked up, so
what it undoes is right only if at most that page is to be freed.
-/

open List

namespace MachVirtuTerm

namespace FaultCluster

variable {env : PageOracle} {object : PagedObject} {fault : Fault} {cfg : Config} {k : ℕ}

/-! ## The pages of the window -/

theorem pagesFrom_append (x : VmOffset) (m n : ℕ) :
    pagesFrom x (m + n) = pagesFrom x m ++ pagesFrom (pagesBehind x m) n := by
  induction m generalizing x with
  | zero => simp [pagesFrom]
  | succ m ih =>
    rw [Nat.succ_add, pagesFrom_cons, pagesFrom_cons, ih, pagesBehind_succ, cons_append]

theorem pagesBehind_pagesBefore (u : VmOffset) (n : ℕ) : pagesBehind (pagesBefore u n) n = u :=
  BitVec.sub_add_cancel _ _

/-- The pages that a backward scan inserts, from the first one on. -/
theorem pagesDown_perm (u : VmOffset) (n : ℕ) :
    (pagesDown u n).Perm (pagesFrom (pagesBefore u n) n) := by
  induction n generalizing u with
  | zero => exact .refl _
  | succ n ih =>
    rw [pagesDown_succ, pagesBefore_succ, pagesFrom_append _ n 1, pagesBehind_pagesBefore]
    refine ((ih (u - page)).cons _).trans ?_
    rw [show pagesFrom (u - page) 1 = [u - page] by simp [pagesFrom]]
    exact (perm_append_singleton _ _).symm

/-- What the scans insert is the window. -/
theorem Looks.scan_inserted (l : Looks) (offset : VmOffset) {s : Scan}
    (hs : s.inserted = [offset]) :
    (l.scan offset s).inserted.Perm (pagesFrom (pagesBefore offset l.behind) l.count) := by
  have hwindow : pagesFrom (pagesBefore offset l.behind) l.count =
      pagesFrom (pagesBefore offset l.behind) l.behind ++
        (offset :: pagesFrom (offset + page) l.ahead) := by
    rw [Looks.count, Nat.add_assoc, pagesFrom_append, pagesBehind_pagesBefore, Nat.add_comm 1,
      pagesFrom_cons]
  rw [hwindow, Looks.scan]
  simp only [Scan.stopAt_inserted, Scan.insertAll_inserted, hs]
  rw [singleton_append, cons_append]
  exact (((pagesDown_perm offset l.behind).append_right _).cons _).trans perm_middle.symm

open Looks

/-- The window's pages differ. -/
theorem pagesFrom_nodup (x : VmOffset) {n : ℕ} (hn : n * pageSize ≤ 2 ^ 32) :
    (pagesFrom x n).Nodup := by
  refine List.Nodup.map_on ?_ nodup_range
  intro i hi j hj heq
  have hmul : ∀ m < n, m * pageSize < 2 ^ 32 := fun m hm =>
    Nat.lt_of_lt_of_le (Nat.mul_lt_mul_of_pos_right hm (by decide)) hn
  have hof := congrArg BitVec.toNat ((BitVec.add_right_inj x).mp heq)
  rw [BitVec.toNat_ofNat, BitVec.toNat_ofNat, Nat.mod_eq_of_lt (hmul i (mem_range.mp hi)),
    Nat.mod_eq_of_lt (hmul j (mem_range.mp hj))] at hof
  exact Nat.eq_of_mul_eq_mul_right (by decide) hof

/-! ## The variable for the page -/

/-- The page that the routine's variable holds when the request is sent: the one inserted last,
unless a scan ended where it got none. -/
def Looks.m (l : Looks) (offset : VmOffset) : Option VmOffset :=
  lastPage l.aheadStop
    (if l.ahead = 0 then lastPage l.backStop (some (pagesBefore offset l.behind))
    else some (pagesBehind offset l.ahead))

theorem insertAll_pagesDown_m {s : Scan} {u : VmOffset} (hs : s.m = some u) (n : ℕ) :
    (s.insertAll (pagesDown u n)).m = some (pagesBefore u n) := by
  cases n with
  | zero => simpa [pagesDown, Scan.insertAll] using hs
  | succ n =>
    rw [pagesDown, range_succ, map_append]
    exact Scan.insertAll_concat_m _ _ _

theorem insertAll_pagesFrom_m (s : Scan) (u : VmOffset) (n : ℕ) :
    (s.insertAll (pagesFrom (u + page) n)).m = if n = 0 then s.m else some (pagesBehind u n) := by
  cases n with
  | zero => simp [pagesFrom, Scan.insertAll]
  | succ n =>
    rw [pagesFrom_succ, Scan.insertAll_concat_m, if_neg (Nat.succ_ne_zero n), pagesBehind_succ]
    rfl

theorem Looks.scan_m (l : Looks) (offset : VmOffset) {s : Scan} (hs : s.m = some offset) :
    (l.scan offset s).m = l.m offset := by
  rw [scan, Scan.stopAt_m, insertAll_pagesFrom_m, Scan.stopAt_m, insertAll_pagesDown_m hs]
  rfl

theorem Looks.scan_absentCount (l : Looks) (offset : VmOffset) (s : Scan) :
    (l.scan offset s).absentCount = s.absentCount + l.behind + l.ahead := by
  simp [scan, pagesDown, pagesFrom]

/-! ## The failure path -/

/-- The failure path over some pages. -/
def releaseAll (answer : VmOffset → Answer) (m : Option VmOffset) (pages : List VmOffset)
    (r : Release) : Release :=
  pages.foldl (releasePage answer m) r

variable {answer : VmOffset → Answer} {m : Option VmOffset}

/-- A round frees at most the variable's page. -/
theorem releasePage_freed (r : Release) (p : VmOffset) :
    (releasePage answer m r p).freed = r.freed ∨
      ∃ q, m = some q ∧ (releasePage answer m r p).freed = r.freed ++ [q] := by
  unfold releasePage
  split_ifs with hcond
  · cases m with
    | none => exact .inl rfl
    | some q => exact .inr ⟨q, rfl, rfl⟩
  · exact .inl rfl

/-- A page that is not absent and busy is left alone. -/
theorem releasePage_of_ne {p : VmOffset} (r : Release) (h : answer p ≠ .still) :
    releasePage answer m r p = r := by
  unfold releasePage
  exact if_neg fun hc => h hc.1

/-- A page that is, and is the variable's. -/
theorem releasePage_self {q : VmOffset} {r : Release} (h : answer q = .still) (hr : r.freed = []) :
    releasePage answer (some q) r q =
      { r with freed := [q], absentCount := r.absentCount - 1 } := by
  unfold releasePage
  simp [h, hr]

/-- A page that is, when the variable is null. -/
theorem releasePage_none {q : VmOffset} {r : Release} (h : answer q = .still) (hr : r.freed = []) :
    releasePage answer none r q = { r with freedNull := true } := by
  unfold releasePage
  simp [h, hr]

/-- What is freed is the variable's page. -/
theorem releaseAll_freed (pages : List VmOffset) {r : Release}
    (hr : ∀ q ∈ r.freed, m = some q) : ∀ q ∈ (releaseAll answer m pages r).freed, m = some q := by
  induction pages generalizing r with
  | nil => exact hr
  | cons p pages ih =>
    rw [releaseAll, foldl_cons, ← releaseAll]
    refine ih fun q hq => ?_
    rcases releasePage_freed r p with hsame | ⟨q', hm, happend⟩
    · exact hr q (hsame ▸ hq)
    · rw [happend, mem_append, mem_singleton] at hq
      rcases hq with hq | rfl
      · exact hr q hq
      · exact hm

/-- Nothing is to be freed: nothing happens. -/
theorem releaseAll_of_not_still (pages : List VmOffset) (r : Release)
    (h : ∀ p ∈ pages, answer p ≠ .still) : releaseAll answer m pages r = r := by
  induction pages with
  | nil => rfl
  | cons p pages ih =>
    rw [releaseAll, foldl_cons, releasePage_of_ne r (h p (.head _))]
    exact ih fun q hq => h q (.tail _ hq)

/-- The variable's page is the one page to be freed. -/
theorem releaseAll_of_mem {pages : List VmOffset} {q : VmOffset} (r : Release)
    (hnodup : pages.Nodup) (hq : q ∈ pages) (hstill : answer q = .still)
    (h : ∀ p ∈ pages, answer p = .still → p = q) (hr : r.freed = []) :
    releaseAll answer (some q) pages r =
      { r with freed := [q], absentCount := r.absentCount - 1 } := by
  induction pages with
  | nil => exact absurd hq (not_mem_nil)
  | cons p pages ih =>
    rw [nodup_cons] at hnodup
    rw [releaseAll, foldl_cons, ← releaseAll]
    rcases mem_cons.mp hq with rfl | hmem
    · rw [releasePage_self hstill hr]
      refine releaseAll_of_not_still pages _ fun p hp hstill' => hnodup.1 ?_
      exact h p (.tail _ hp) hstill' ▸ hp
    · have hne : answer p ≠ .still := fun hp => hnodup.1 (h p (.head _) hp ▸ hmem)
      rw [releasePage_of_ne r hne]
      exact ih hnodup.2 hmem fun p' hp' => h p' (.tail _ hp')

/-- A null page that was freed stays so. -/
theorem releaseAll_freedNull (pages : List VmOffset) {r : Release} (hr : r.freedNull = true) :
    (releaseAll answer m pages r).freedNull = true := by
  induction pages generalizing r with
  | nil => exact hr
  | cons p pages ih =>
    rw [releaseAll, foldl_cons, ← releaseAll]
    refine ih ?_
    unfold releasePage
    split_ifs with hcond
    · cases m with
      | none => rfl
      | some q => exact hr
    · exact hr

/-- With a null variable, a page that is to be freed makes the loop free a null page. -/
theorem releaseAll_none {pages : List VmOffset} {p : VmOffset} {r : Release} (hp : p ∈ pages)
    (hstill : answer p = .still) (hr : r.freed = []) :
    (releaseAll answer none pages r).freedNull = true := by
  induction pages with
  | nil => exact absurd hp (not_mem_nil)
  | cons q pages ih =>
    rw [releaseAll, foldl_cons, ← releaseAll]
    rcases mem_cons.mp hp with rfl | hmem
    · rw [releasePage_none hstill hr]
      exact releaseAll_freedNull pages rfl
    · unfold releasePage
      split_ifs with hcond
      · exact releaseAll_freedNull pages rfl
      · exact ih hmem

/-! ## What is expected -/

/-- The window of a request is in the part of the object that is mapped, has the page of the
fault, is in one paging cluster and has just the pages that the fault inserted. -/
structure WindowSound (object : PagedObject) (fault : Fault) (r : Request) : Prop where
  lo_le : fault.loOffset ≤ r.clusterStart
  start_le : r.clusterStart ≤ fault.offset
  offset_lt : fault.offset.toNat < r.clusterStart.toNat + r.length.toNat
  le_hi : r.clusterStart.toNat + r.length.toNat ≤ fault.hiOffset.toNat
  oneCluster : (r.clusterStart + object.pagingOffset).toNat % object.clusterSize.toNat +
    r.length.toNat ≤ object.clusterSize.toNat
  inserted : r.scan.inserted.Perm (pagesFrom r.clusterStart (r.length.toNat / pageSize))

/-- The failure path freed the pages that were still absent and busy, each once, and there are as
many absent pages as before the fault. -/
structure Undone (absentCount : ℤ) (answer : VmOffset → Answer) (pages : List VmOffset)
    (rel : Release) : Prop where
  freed : rel.freed.Perm (pages.filter fun p => answer p = .still)
  freedNull : rel.freedNull = false
  absentCount : rel.absentCount = absentCount

/-- The request is sound and, where it fails, it is undone. -/
def RequestSound (object : PagedObject) (fault : Fault) (absentCount : ℤ)
    (answer : VmOffset → Answer) (r : Request) : Prop :=
  WindowSound object fault r ∧
    ∀ rel, r.failure = some rel →
      Undone absentCount answer (pagesFrom r.clusterStart (r.length.toNat / pageSize)) rel

/-- The pages of the window, if these are its looks. -/
def Looks.pages (l : Looks) (offset : VmOffset) : List VmOffset :=
  pagesFrom (pagesBefore offset l.behind) l.count

/-- What must hold of the looks: a page that is not at a page boundary of the paging space does
not reach beyond the cluster; and if the request fails, then by that time each page of the
window was supplied or freed, but for the one that the variable holds. -/
structure LooksFine (object : PagedObject) (fault : Fault) (fails : Bool)
    (answer : VmOffset → Answer) (l : Looks) : Prop where
  cluster : fault.offset.toNat % pageSize = 0 ∨
    (clusterOffset object fault).toNat + (l.ahead + 1) * pageSize ≠ object.clusterSize.toNat
  noneUnavailable : fails = true → ∀ p ∈ l.pages fault.offset, answer p ≠ .unavailable
  onlyLast : fails = true → ∀ p ∈ l.pages fault.offset, answer p = .still →
    l.m fault.offset = some p

/-! ## The request -/

theorem LooksAre.length_div {l : Looks} (h : WellPlaced object fault k)
    (hl : LooksAre cfg object fault env l) :
    (BitVec.ofNat 32 (l.count * pageSize)).toNat / pageSize = l.count := by
  have hmul : l.behind * pageSize + (l.ahead + 1) * pageSize = l.count * pageSize := by
    rw [Looks.count]
    ring
  rw [hl.toNat_length h, hmul]
  exact Nat.mul_div_cancel _ (by decide)

/-- The request, given the looks. -/
theorem requestData_eq (h : WellPlaced object fault k) {l : Looks}
    (hl : LooksAre cfg object fault env l) (absentCount : ℤ) (fails : Bool) :
    requestData cfg object fault env absentCount fails answer =
      { clusterStart := pagesBefore fault.offset l.behind
        length := BitVec.ofNat 32 (l.count * pageSize)
        scan := l.scan fault.offset
          { m := some fault.offset, inserted := [fault.offset], absentCount := absentCount + 1 }
        failure := if fails then
          some (releaseAll answer (l.m fault.offset) (l.pages fault.offset)
            { freed := []
              freedNull := false
              absentCount := absentCount + l.count -
                (l.pages fault.offset).countP fun p => answer p = .gone })
          else none } := by
  have hinserted := @scan_inserted l fault.offset
    { m := some fault.offset, inserted := [fault.offset], absentCount := absentCount + 1 } rfl
  rw [requestData]
  simp only [selectCluster_eq h hl]
  congr 2
  rw [releaseWindow, scan_m _ _ rfl, scan_absentCount, hinserted.countP_eq,
    hl.length_div h, releaseAll, pages]
  congr 3
  rw [Looks.count]
  push_cast
  ring

/-- The window is sound exactly if it is in one cluster. -/
theorem windowSound_iff (h : WellPlaced object fault k) {l : Looks}
    (hl : LooksAre cfg object fault env l) (absentCount : ℤ) (fails : Bool) :
    WindowSound object fault (requestData cfg object fault env absentCount fails answer) ↔
      (fault.offset.toNat % pageSize = 0 ∨
        (clusterOffset object fault).toNat + (l.ahead + 1) * pageSize ≠
          object.clusterSize.toNat) := by
  have hstart := hl.toNat_start h
  have hlength := hl.toNat_length h
  have hlo := (hl.behind_le h).1
  have hhi := (hl.ahead_le h).1
  have hpos : 0 < (l.ahead + 1) * pageSize := Nat.mul_pos (Nat.succ_pos _) (by decide)
  rw [requestData_eq h hl, ← hl.cluster_iff h]
  refine ⟨fun hsound => by simpa only [hlength] using hsound.oneCluster, fun hcluster => ?_⟩
  refine
    { lo_le := ?_
      start_le := ?_
      offset_lt := ?_
      le_hi := ?_
      oneCluster := by simpa only [hlength] using hcluster
      inserted := ?_ }
  · rw [BitVec.le_def]
    dsimp only
    omega
  · rw [BitVec.le_def]
    dsimp only
    omega
  · dsimp only
    omega
  · dsimp only
    omega
  · rw [hl.length_div h]
    exact l.scan_inserted fault.offset rfl

/-- Every page of the window is supplied or freed, unavailable, or still absent and busy. -/
theorem count_answers (answer : VmOffset → Answer) (pages : List VmOffset) :
    pages.countP (fun p => answer p = .gone) + pages.countP (fun p => answer p = .unavailable) +
      pages.countP (fun p => answer p = .still) = pages.length := by
  induction pages with
  | nil => rfl
  | cons p pages ih =>
    rw [countP_cons, countP_cons, countP_cons, length_cons]
    cases answer p <;> simp <;> omega

/-- A list without duplicates in which just one element satisfies a predicate. -/
theorem filter_eq_singleton {pages : List VmOffset} {p : VmOffset → Bool} {q : VmOffset}
    (hnodup : pages.Nodup) (hq : q ∈ pages) (hp : p q = true)
    (h : ∀ x ∈ pages, p x = true → x = q) :
    pages.filter p = [q] := by
  refine perm_singleton.mp ((perm_ext_iff_of_nodup (hnodup.filter _)
    (nodup_singleton q)).mpr fun x => ?_)
  rw [mem_filter, mem_singleton]
  exact ⟨fun hx => h x hx.1 hx.2, fun hx => hx ▸ ⟨hq, hp⟩⟩

/-- The failure path undoes the request exactly if at most the variable's page is to be freed and
none is unavailable. -/
theorem undone_iff {pages : List VmOffset} (hnodup : pages.Nodup) (absentCount : ℤ) :
    Undone absentCount answer pages
        (releaseAll answer m pages
          { freed := []
            freedNull := false
            absentCount := absentCount + pages.length - pages.countP fun p => answer p = .gone }) ↔
      (∀ p ∈ pages, answer p ≠ .unavailable) ∧
        ∀ p ∈ pages, answer p = .still → m = some p := by
  have hcount := count_answers answer pages
  have hunavailable : pages.countP (fun p => answer p = .unavailable) = 0 ↔
      ∀ p ∈ pages, answer p ≠ .unavailable := by
    rw [countP_eq_zero]
    simp only [decide_eq_true_eq, ne_eq]
  by_cases hstill : ∃ p ∈ pages, answer p = .still
  · obtain ⟨p, hp, hanswer⟩ := hstill
    cases m with
    | none =>
      refine iff_of_false (fun h => ?_) fun h => nomatch h.2 p hp hanswer
      have hnull := @releaseAll_none answer pages p
        { freed := []
          freedNull := false
          absentCount := absentCount + pages.length -
            pages.countP fun p => answer p = .gone } hp hanswer rfl
      rw [h.freedNull] at hnull
      exact Bool.false_ne_true hnull
    | some q =>
      by_cases honly : ∀ x ∈ pages, answer x = .still → x = q
      · have hpq := honly p hp hanswer
        subst hpq
        have hfilter : (pages.filter fun x => answer x = .still) = [p] :=
          filter_eq_singleton hnodup hp (by simpa using hanswer) (by simpa using honly)
        have hone : pages.countP (fun x => answer x = .still) = 1 := by
          rw [countP_eq_length_filter, hfilter]
          rfl
        rw [releaseAll_of_mem _ hnodup hp hanswer honly rfl, ← hunavailable]
        refine ⟨fun h => ⟨?_, fun x hx hx' => by rw [honly x hx hx']⟩, fun h => ?_⟩
        · have := h.absentCount
          dsimp only at this
          omega
        · refine ⟨by rw [hfilter], rfl, ?_⟩
          have := h.1
          dsimp only
          omega
      · push Not at honly
        obtain ⟨x, hx, hxstill, hne⟩ := honly
        refine iff_of_false (fun h => ?_) fun h => hne ?_
        · have hmem := h.freed.mem_iff.mpr (mem_filter.mpr ⟨hx, by simpa using hxstill⟩)
          have hfreed : some q = some x :=
            releaseAll_freed pages (fun _ hq => absurd hq not_mem_nil) x hmem
          exact hne (Option.some.inj hfreed).symm
        · exact (Option.some.inj (h.2 x hx hxstill)).symm
  · push Not at hstill
    have hnone : pages.countP (fun x => answer x = .still) = 0 := by
      rw [countP_eq_zero]
      simpa using hstill
    rw [releaseAll_of_not_still pages _ hstill, ← hunavailable]
    refine ⟨fun h => ⟨?_, fun x hx hx' => absurd hx' (hstill x hx)⟩, fun h => ?_⟩
    · have := h.absentCount
      dsimp only at this
      omega
    · refine ⟨?_, rfl, ?_⟩
      · have hfilter : (pages.filter fun x => answer x = .still) = [] :=
          filter_eq_nil_iff.mpr (by simpa using hstill)
        rw [hfilter]
      · have := h.1
        dsimp only
        omega

/-- The request, from what its scans find. -/
theorem LooksAre.sound_iff {l : Looks} (h : WellPlaced object fault k)
    (hl : LooksAre cfg object fault env l) (absentCount : ℤ) (fails : Bool) :
    RequestSound object fault absentCount answer
        (requestData cfg object fault env absentCount fails answer) ↔
      LooksFine object fault fails answer l := by
  have hcount : l.count * pageSize ≤ 2 ^ 32 := by
    have hhi := (hl.ahead_le h).1
    have hlo := (hl.behind_le h).1
    have hlt := fault.hiOffset.isLt
    have hmul : l.behind * pageSize + (l.ahead + 1) * pageSize = l.count * pageSize := by
      rw [Looks.count]
      ring
    omega
  have hnodup : (l.pages fault.offset).Nodup := pagesFrom_nodup _ hcount
  have hlength : (l.pages fault.offset).length = l.count := by simp [pages, pagesFrom]
  rw [RequestSound, windowSound_iff h hl, requestData_eq h hl]
  dsimp only
  rw [hl.length_div h, ← pages]
  cases fails with
  | false =>
    exact ⟨fun hsound => ⟨hsound.1, by rintro ⟨⟩, by rintro ⟨⟩⟩, fun hfine =>
      ⟨hfine.cluster, by rintro rel ⟨⟩⟩⟩
  | true =>
    have hiff := @undone_iff answer (l.m fault.offset) _ hnodup absentCount
    rw [hlength] at hiff
    refine ⟨fun hsound => ?_, fun hfine => ⟨hfine.cluster, ?_⟩⟩
    · have hundone := hiff.mp (hsound.2 _ rfl)
      exact ⟨hsound.1, fun _ => hundone.1, fun _ => hundone.2⟩
    · rintro rel hrel
      rw [if_pos rfl] at hrel
      obtain rfl := Option.some.inj hrel
      exact hiff.mpr ⟨hfine.noneUnavailable rfl, hfine.onlyLast rfl⟩

/-- The request for a cluster is sound, and undone where it fails, exactly if no page reaches
beyond the cluster and, where it fails, at most the page inserted last is to be freed. -/
theorem requestData_sound_iff (h : WellPlaced object fault k) (absentCount : ℤ) (fails : Bool) :
    RequestSound object fault absentCount answer
        (requestData cfg object fault env absentCount fails answer) ↔
      ∃ l, LooksAre cfg object fault env l ∧ LooksFine object fault fails answer l := by
  obtain ⟨l, hl⟩ := exists_looksAre cfg object fault env
  rw [hl.sound_iff h]
  exact ⟨fun hfine => ⟨l, hl, hfine⟩, fun ⟨l', hl', hfine⟩ => hl'.unique hl ▸ hfine⟩

/-- The parameters of an object with clusters of two pages. -/
def pairConfig : Config := { allowClusteredPagein := true, defaultBehind := 0, defaultAhead := 0 }

/-- An object with clusters of two pages. -/
def pairObject : PagedObject := { clusterSize := 8192, pagingOffset := 0, isInternal := false }

/-- A fault on the first page of a region of two that is referenced in order. -/
def pairFault : Fault :=
  { offset := 0, loOffset := 0, hiOffset := 8192, behavior := .sequential }

/-- No page of the object is resident. -/
def emptyObject : PageOracle :=
  { found := fun _ _ => false, realPage := fun _ => true, retries := fun _ => 0 }

theorem wellPlaced_pair : WellPlaced pairObject pairFault 13 :=
  ⟨by decide, by decide, by decide, by decide, by decide, by decide, by decide, by decide⟩

/-- The forward scan inserts the second page. -/
theorem looksAre_pair :
    LooksAre pairConfig pairObject pairFault emptyObject ⟨0, none, 1, none⟩ where
  behind := ⟨fun _ hi => absurd hi (Nat.not_lt_zero _), fun _ h => absurd h.1.2 (by decide),
    fun _ h => nomatch h⟩
  ahead := by
    refine ⟨fun i hi => ?_, fun _ => by decide, fun _ h => nomatch h⟩
    obtain rfl : i = 0 := Nat.lt_one_iff.mp hi
    exact ⟨by decide, by decide⟩

/-- The pages of the window. -/
theorem pages_pair : pages ⟨0, none, 1, none⟩ pairFault.offset = [0, 4096] := by
  decide

/-- The first page was supplied when the request failed. -/
theorem requestData_sound_iff_pair :
    RequestSound pairObject pairFault 0 (fun p => if p = 0 then .gone else .still)
      (requestData pairConfig pairObject pairFault emptyObject 0 true
        fun p => if p = 0 then .gone else .still) :=
  (requestData_sound_iff wellPlaced_pair 0 true).mpr
    ⟨⟨0, none, 1, none⟩, looksAre_pair, by decide, by simp [pages_pair],
      by simp [pages_pair]; decide⟩

/-- When the request for both pages fails, only the second one is freed. -/
theorem first_page_stays_absent :
    ¬RequestSound pairObject pairFault 0 (fun _ => .still)
      (requestData pairConfig pairObject pairFault emptyObject 0 true fun _ => .still) := by
  rw [looksAre_pair.sound_iff wellPlaced_pair]
  intro hfine
  exact absurd (hfine.onlyLast rfl 0 (by decide) rfl) (by decide)

end FaultCluster

end MachVirtuTerm
