import MachVirtuTerm.Mach.VmParam
import MachVirtuTerm.Vm.MapEntry
import MachVirtuTerm.Lib.RoundUp

/-!
# Clustered page-in

When `vm_fault_page` asks a memory manager for a page, it asks for neighbours in the same
paging cluster too. Each is entered into the object before, absent and busy, and all are to be
freed when the request fails.
-/

open List BitVec

namespace MachVirtuTerm

/-- `vm_behavior_t`. -/
inductive VmBehavior
  | default
  | random
  | sequential
  | rseqntl
  deriving DecidableEq

namespace FaultCluster

/-- The size of a page as a machine word. -/
def page : BitVec 32 := BitVec.ofNat 32 pageSize

/-- `vm_allow_clustered_pagein`, `vm_default_behind` and `vm_default_ahead`. -/
structure Config where
  allowClusteredPagein : Bool
  defaultBehind : BitVec 32
  defaultAhead : BitVec 32

/-- The fields of the object that the routine reads. -/
structure PagedObject where
  clusterSize : BitVec 32
  pagingOffset : BitVec 32
  isInternal : Bool

/-- The fault: where it is in the object, the part of the object that the map entry maps, and
how the entry is expected to be referenced. -/
structure Fault where
  offset : VmOffset
  loOffset : VmOffset
  hiOffset : VmOffset
  behavior : VmBehavior

/-- What a look at an offset finds: whether there is a page, or nothing to look for, at an
attempt; whether `vm_page_grab` gives a page; and how often `vm_page_grab_fictitious` fails
before it gives one. After each failure the object was unlocked. -/
structure PageOracle where
  found : VmOffset → ℕ → Bool
  realPage : VmOffset → Bool
  retries : VmOffset → ℕ

/-- How a look at an offset ends. After `lost` the variable for the page is null, too. -/
inductive Probe where
  | found
  | lost
  | shortage
  | inserted
  deriving DecidableEq

/-- The pages of this fault are named by their offsets; `m` is the variable of the routine. -/
structure Scan where
  m : Option VmOffset
  inserted : List VmOffset
  absentCount : ℤ

/-! ## The scans -/

/-- The attempts to grab a fictitious page, with the number of those that fail. -/
def probeFictitious (env : PageOracle) (offset : VmOffset) : ℕ → ℕ → Probe
  | attempt, 0 =>
    if env.found offset attempt then (if attempt = 0 then .found else .lost) else .inserted
  | attempt, retries + 1 =>
    if env.found offset attempt then (if attempt = 0 then .found else .lost)
    else probeFictitious env offset (attempt + 1) retries

/-- A look at an offset. -/
def probe (env : PageOracle) (object : PagedObject) (offset : VmOffset) : Probe :=
  if object.isInternal then
    if env.found offset 0 then .found
    else if env.realPage offset then .inserted
    else .shortage
  else probeFictitious env offset 0 (env.retries offset)

/-- A new page of the object is absent and busy. -/
def Scan.insert (s : Scan) (offset : VmOffset) : Scan where
  m := some offset
  inserted := s.inserted ++ [offset]
  absentCount := s.absentCount + 1

/-- The state after a look that ends a scan. -/
def Scan.stop (s : Scan) : Probe → Scan
  | .lost | .shortage => { s with m := none }
  | _ => s

/-- The backward scan from `clusterStart` on: where the window begins, whether it gave up, and
the state. There are `2 ^ 20` pages. -/
def scanBackward (env : PageOracle) (object : PagedObject) (clusterBot alignOffset : VmOffset) :
    ℕ → VmOffset → Scan → VmOffset × Bool × Scan
  | 0, clusterStart, s => (clusterStart + page, false, s)
  | fuel + 1, clusterStart, s =>
    if clusterStart ≥ clusterBot ∧ clusterStart ≠ alignOffset - page then
      match probe env object clusterStart with
      | .inserted =>
        scanBackward env object clusterBot alignOffset fuel (clusterStart - page)
          (s.insert clusterStart)
      | stop => (clusterStart + page, decide (stop = .shortage), s.stop stop)
    else (clusterStart + page, false, s)

/-- The forward scan from `clusterEnd` on. -/
def scanForward (env : PageOracle) (object : PagedObject) (clusterTop : VmOffset) :
    ℕ → VmOffset → Scan → VmOffset × Scan
  | 0, clusterEnd, s => (clusterEnd, s)
  | fuel + 1, clusterEnd, s =>
    if clusterEnd < clusterTop then
      match probe env object clusterEnd with
      | .inserted =>
        scanForward env object clusterTop fuel (clusterEnd + page) (s.insert clusterEnd)
      | stop => (clusterEnd, s.stop stop)
    else (clusterEnd, s)

/-! ## The window -/

variable (cfg : Config) (object : PagedObject) (fault : Fault)

/-- The offset in the paging space. -/
def pagingOffset : BitVec 32 := fault.offset + object.pagingOffset

/-- How far the pages are from page boundaries of the paging space. -/
def alignOffset : BitVec 32 := pagingOffset object fault &&& pageMask

/-- The offset in the paging cluster, in whole pages. -/
def clusterOffset : BitVec 32 :=
  let clusterOffset := pagingOffset object fault &&& (object.clusterSize - 1)
  if alignOffset object fault ≠ 0 then truncPage clusterOffset else clusterOffset

def SpansCluster (x : VmOffset) : Prop :=
  (x - alignOffset object fault) &&& (object.clusterSize - 1) = 0

instance (x : VmOffset) : Decidable (SpansCluster object fault x) :=
  inferInstanceAs (Decidable (_ = _))

/-- The lower search boundary. -/
def clusterBot : VmOffset :=
  let offset := fault.offset
  let clusterOffset := clusterOffset object fault
  let bot := if offset > clusterOffset then offset - clusterOffset else offset
  let bot :=
    if alignOffset object fault ≠ 0 ∧ bot < offset ∧ SpansCluster object fault bot then bot + page
    else bot
  let bot :=
    if fault.behavior = .default ∧ bot < offset - cfg.defaultBehind * page then
      offset - cfg.defaultBehind * page
    else bot
  if fault.loOffset > bot then fault.loOffset else bot

/-- The upper search boundary. -/
def clusterTop : VmOffset :=
  let offset := fault.offset
  let top := offset + object.clusterSize - clusterOffset object fault
  let top :=
    if alignOffset object fault ≠ 0 ∧ top > offset + page ∧ SpansCluster object fault top then
      top - page
    else top
  let top :=
    if fault.behavior = .default ∧ top > offset + (cfg.defaultAhead * page + page) then
      offset + (cfg.defaultAhead * page + page)
    else top
  if top > fault.hiOffset then fault.hiOffset else top

/-- There is to be no clustering. -/
def NoClustering : Prop :=
  cfg.allowClusteredPagein = false ∨ fault.behavior = .random ∨ object.clusterSize = page

instance : Decidable (NoClustering cfg object fault) := inferInstanceAs (Decidable (_ ∨ _ ∨ _))

/-- There is to be a backward scan. -/
def ScansBackward : Prop :=
  (cfg.defaultBehind ≠ 0 ∧ fault.behavior = .default ∨ fault.behavior = .rseqntl) ∧
    fault.offset ≠ 0

instance : Decidable (ScansBackward cfg fault) := inferInstanceAs (Decidable (_ ∧ _))

/-- There is to be a forward scan. -/
def ScansForward : Prop :=
  fault.behavior = .default ∧ cfg.defaultAhead ≠ 0 ∨ fault.behavior = .sequential

instance : Decidable (ScansForward cfg fault) := inferInstanceAs (Decidable (_ ∨ _))

/-- The choice of `cluster_start` and `length`. -/
def selectCluster (env : PageOracle) (s : Scan) : VmOffset × BitVec 32 × Scan :=
  if NoClustering cfg object fault then (fault.offset, page, s)
  else
    let (clusterStart, gaveUp, s) :=
      if ScansBackward cfg fault then
        scanBackward env object (clusterBot cfg object fault) (alignOffset object fault) (2 ^ 20)
          (fault.offset - page) s
      else (fault.offset, false, s)
    let (clusterEnd, s) :=
      if gaveUp = false ∧ ScansForward cfg fault then
        scanForward env object (clusterTop cfg object fault) (2 ^ 20) (fault.offset + page) s
      else (fault.offset + page, s)
    (clusterStart, clusterEnd - clusterStart, s)

/-! ## The request -/

/-- What the memory manager did with a page by the time its request failed: nothing, it said
that there is no data (the page is not busy any more), or the page was supplied or freed. -/
inductive Answer where
  | still
  | unavailable
  | gone
  deriving DecidableEq

/-- What the failure path leaves: the pages it freed, whether it freed a null page, and the
count of absent pages. -/
structure Release where
  freed : List VmOffset
  freedNull : Bool
  absentCount : ℤ

/-- The pages of a window. -/
def pagesFrom (clusterStart : VmOffset) (count : ℕ) : List VmOffset :=
  (List.range count).map fun k => clusterStart + BitVec.ofNat 32 (k * pageSize)

/-- A round of the loop of the failure path: where a page is still absent and busy, `m` is
freed. -/
def releasePage (answer : VmOffset → Answer) (m : Option VmOffset) (r : Release)
    (clusterStart : VmOffset) : Release :=
  if answer clusterStart = .still ∧ clusterStart ∉ r.freed then
    match m with
    | none => { r with freedNull := true }
    | some m => { r with
        freed := r.freed ++ [m]
        absentCount :=
          if answer m ≠ .gone ∧ m ∉ r.freed then r.absentCount - 1 else r.absentCount }
  else r

/-- The failure path, from the answers on. -/
def releaseWindow (answer : VmOffset → Answer) (clusterStart : VmOffset) (length : BitVec 32)
    (s : Scan) : Release :=
  (pagesFrom clusterStart (length.toNat / pageSize)).foldl (releasePage answer s.m)
    { freed := []
      freedNull := false
      absentCount := s.absentCount - s.inserted.countP (fun p => answer p = .gone) }

/-- What the request comes to: the window, the state when it is sent and, where it fails, what
the failure path leaves. -/
structure Request where
  clusterStart : VmOffset
  length : BitVec 32
  scan : Scan
  failure : Option Release

/-- The part of `vm_fault_page` from the new page of the fault to the answer to the request,
which fails or not. -/
def requestData (env : PageOracle) (absentCount : ℤ) (fails : Bool)
    (answer : VmOffset → Answer) : Request :=
  let s : Scan :=
    { m := some fault.offset
      inserted := [fault.offset]
      absentCount := absentCount + 1 }
  let (clusterStart, length, s) := selectCluster cfg object fault env s
  { clusterStart := clusterStart
    length := length
    scan := s
    failure := if fails then some (releaseWindow answer clusterStart length s) else none }

end FaultCluster

end MachVirtuTerm

/-!
# The window of a clustered page-in

A scan goes over the places in its reach until it cannot insert a page. Where each scan ends
says what the window is, and what the routine's variable for the page holds then.
-/

namespace MachVirtuTerm

namespace FaultCluster

open RoundUp

/-- What the callers promise: the offset is in the part that is mapped, whole pages from its
ends, the paging offset is a multiple of the page size, and the cluster size is a power of two
of at least a page. -/
structure WellPlaced (object : PagedObject) (fault : Fault) (k : ℕ) : Prop where
  lo_le : fault.loOffset ≤ fault.offset
  lt_hi : fault.offset < fault.hiOffset
  lo_pages : fault.loOffset.toNat % pageSize = fault.offset.toNat % pageSize
  hi_pages : fault.hiOffset.toNat % pageSize = fault.offset.toNat % pageSize
  pagingOffset : object.pagingOffset.toNat % pageSize = 0
  clusterSize : object.clusterSize.toNat = 2 ^ k
  le_k : 12 ≤ k
  k_lt : k < 32

theorem toNat_page : page.toNat = 4096 := by decide

theorem pageSize_eq : pageSize = 4096 := rfl

/-- A page later, where the offset does not wrap around. -/
theorem toNat_add_page {x : VmOffset} (h : x.toNat + 4096 < 2 ^ 32) :
    (x + page).toNat = x.toNat + 4096 := by
  rw [toNat_add, toNat_page]
  exact Nat.mod_eq_of_lt h

/-- A page earlier. -/
theorem toNat_sub_page {x : VmOffset} (h : 4096 ≤ x.toNat) : (x - page).toNat = x.toNat - 4096 := by
  rw [toNat_sub_of_le (by rw [le_def, toNat_page]; exact h), toNat_page]

/-! ## The pages of a window -/

theorem ofNat_pageSize : BitVec.ofNat 32 pageSize = page := rfl

/-- A window that begins a page earlier. -/
theorem pagesFrom_cons (clusterStart : VmOffset) (count : ℕ) :
    pagesFrom clusterStart (count + 1) = clusterStart :: pagesFrom (clusterStart + page) count := by
  have hshift : ∀ i, clusterStart + BitVec.ofNat 32 ((i + 1) * pageSize) =
      clusterStart + page + BitVec.ofNat 32 (i * pageSize) := by
    intro i
    rw [Nat.succ_mul, Nat.add_comm, ofNat_add, ofNat_pageSize, BitVec.add_assoc]
  rw [pagesFrom, range_succ_eq_map, map_cons, map_map, Nat.zero_mul, BitVec.add_zero]
  exact congrArg _ (map_congr_left fun i _ => hshift i)

/-- A window that ends a page later. -/
theorem pagesFrom_succ (clusterStart : VmOffset) (count : ℕ) :
    pagesFrom clusterStart (count + 1) =
      pagesFrom clusterStart count ++ [clusterStart + BitVec.ofNat 32 (count * pageSize)] := by
  simp [pagesFrom, range_succ]

variable {env : PageOracle} {object : PagedObject} {fault : Fault} {cfg : Config} {k : ℕ}

variable (offset : VmOffset)

variable (pages : ℕ)

/-- A place some pages before an offset. -/
def pagesBefore : VmOffset :=
  offset - BitVec.ofNat 32 (pages * pageSize)

/-- A place some pages behind an offset. -/
def pagesBehind : VmOffset :=
  offset + BitVec.ofNat 32 (pages * pageSize)

@[simp] theorem pagesBefore_zero : pagesBefore offset 0 = offset := by
  simp [pagesBefore]

@[simp] theorem pagesBehind_zero : pagesBehind offset 0 = offset := by
  simp [pagesBehind]

theorem pagesBefore_succ : pagesBefore offset (pages + 1) = pagesBefore (offset - page) pages := by
  have hmul : (pages + 1) * pageSize = pageSize + pages * pageSize := by
    rw [Nat.add_mul, Nat.one_mul, Nat.add_comm]
  rw [pagesBefore, pagesBefore, hmul, ofNat_add, ofNat_pageSize, ← BitVec.sub_sub]

theorem pagesBehind_succ : pagesBehind offset (pages + 1) = pagesBehind (offset + page) pages := by
  have hmul : (pages + 1) * pageSize = pageSize + pages * pageSize := by
    rw [Nat.add_mul, Nat.one_mul, Nat.add_comm]
  rw [pagesBehind, pagesBehind, hmul, ofNat_add, ofNat_pageSize, BitVec.add_assoc]

/-! ## How a scan ends -/

/-- A scan over the places in reach inserts `n` pages, and then is at its boundary or looks at
a place where it cannot insert one. -/
structure EndsAfter (inReach : ℕ → Prop) (look : ℕ → Probe) (n : ℕ) (stop : Option Probe) :
    Prop where
  inserted : ∀ i < n, inReach i ∧ look i = .inserted
  boundary : stop = none → ¬inReach n
  refused : ∀ p, stop = some p → inReach n ∧ look n = p ∧ p ≠ .inserted

variable {inReach : ℕ → Prop} {look : ℕ → Probe} {n : ℕ} {stop : Option Probe}

/-- It ends in one way only. -/
theorem EndsAfter.unique (h : EndsAfter inReach look n stop) {n' : ℕ} {stop' : Option Probe}
    (h' : EndsAfter inReach look n' stop') : n = n' ∧ stop = stop' := by
  have hnot : ∀ {a b s t}, EndsAfter inReach look a s → EndsAfter inReach look b t → ¬a < b := by
    intro a b s t ha hb hlt
    obtain ⟨hreach, hlook⟩ := hb.inserted a hlt
    cases s with
    | none => exact ha.boundary rfl hreach
    | some p => exact (ha.refused p rfl).2.2 ((ha.refused p rfl).2.1 ▸ hlook)
  have heq : n = n' := Nat.le_antisymm (Nat.not_lt.mp (hnot h' h)) (Nat.not_lt.mp (hnot h h'))
  subst heq
  refine ⟨rfl, ?_⟩
  cases stop with
  | none =>
    cases stop' with
    | none => rfl
    | some p => exact absurd (h'.refused p rfl).1 (h.boundary rfl)
  | some p =>
    cases stop' with
    | none => exact absurd (h.refused p rfl).1 (h'.boundary rfl)
    | some q => rw [← (h.refused p rfl).2.1, ← (h'.refused q rfl).2.1]

/-- It ends where its reach does. -/
theorem exists_endsAfter (look : ℕ → Probe) (h : ∃ n, ¬inReach n) :
    ∃ n stop, EndsAfter inReach look n stop := by
  classical
  have hend : ∃ n, ¬inReach n ∨ look n ≠ .inserted := h.imp fun _ => Or.inl
  have hfirst : ∀ i < Nat.find hend, inReach i ∧ look i = .inserted := by
    intro i hi
    have := Nat.find_min hend hi
    push Not at this
    exact this
  by_cases hreach : inReach (Nat.find hend)
  · have hlook : look (Nat.find hend) ≠ .inserted :=
      (Nat.find_spec hend).resolve_left (not_not_intro hreach)
    refine ⟨Nat.find hend, some (look (Nat.find hend)), hfirst, fun h => (nomatch h), ?_⟩
    rintro p ⟨⟩
    exact ⟨hreach, rfl, hlook⟩
  · exact ⟨Nat.find hend, none, hfirst, fun _ => hreach, fun _ h => (nomatch h)⟩

/-- After its first place. -/
theorem EndsAfter.tail (h : EndsAfter inReach look (n + 1) stop) :
    EndsAfter (fun i => inReach (i + 1)) (fun i => look (i + 1)) n stop where
  inserted i hi := h.inserted (i + 1) (Nat.succ_lt_succ hi)
  boundary := h.boundary
  refused := h.refused

/-! ## The pages that a scan inserts -/

variable (s : Scan)

variable (pages : List VmOffset)

/-- The state after some pages are inserted. -/
def Scan.insertAll : Scan := pages.foldl Scan.insert s

/-- The state at the end of a scan. -/
def Scan.stopAt : Option Probe → Scan
  | none => s
  | some p => s.stop p

/-- The page that was looked for last. -/
def lastPage (stop : Option Probe) (m : Option VmOffset) : Option VmOffset :=
  if stop = some .lost ∨ stop = some .shortage then none else m

theorem Scan.stopAt_m : (s.stopAt stop).m = lastPage stop s.m := by
  rcases stop with _ | (_ | _ | _ | _) <;> rfl

@[simp] theorem Scan.stopAt_inserted : (s.stopAt stop).inserted = s.inserted := by
  rcases stop with _ | (_ | _ | _ | _) <;> rfl

@[simp] theorem Scan.stopAt_absentCount : (s.stopAt stop).absentCount = s.absentCount := by
  rcases stop with _ | (_ | _ | _ | _) <;> rfl

@[simp] theorem Scan.insertAll_inserted : (s.insertAll pages).inserted = s.inserted ++ pages := by
  induction pages generalizing s with
  | nil => simp [Scan.insertAll]
  | cons p pages ih =>
    rw [Scan.insertAll, foldl_cons, ← Scan.insertAll, ih]
    simp [Scan.insert]

@[simp] theorem Scan.insertAll_absentCount :
    (s.insertAll pages).absentCount = s.absentCount + pages.length := by
  induction pages generalizing s with
  | nil => simp [Scan.insertAll]
  | cons p pages ih =>
    rw [Scan.insertAll, foldl_cons, ← Scan.insertAll, ih, length_cons]
    simp only [Scan.insert]
    omega

theorem Scan.insertAll_concat_m (p : VmOffset) : (s.insertAll (pages ++ [p])).m = some p := by
  rw [Scan.insertAll, foldl_append]
  rfl

/-! ## The backward scan -/

/-- A place that the backward scan may come to: pages before the offset, down to the
boundary. -/
def InReach (bot : VmOffset) (offset pages : ℕ) : Prop :=
  pages * pageSize ≤ offset ∧ bot.toNat ≤ offset - pages * pageSize

/-- The condition of the backward loop. -/
theorem inReach_one_iff {bot align u : VmOffset} (halign : align.toNat = u.toNat % pageSize) :
    (u - page ≥ bot ∧ u - page ≠ align - page) ↔ InReach bot u.toNat 1 := by
  rw [pageSize_eq] at halign
  rw [InReach, Nat.one_mul, pageSize_eq]
  by_cases hge : 4096 ≤ u.toNat
  · have hsub := toNat_sub_page hge
    refine ⟨fun h => ⟨hge, ?_⟩, fun h => ⟨?_, fun heq => ?_⟩⟩
    · have hle : bot.toNat ≤ (u - page).toNat := h.1
      omega
    · rw [ge_iff_le, le_def]
      omega
    · have hu : u = align := by
        have := congrArg (· + page) heq
        simpa using this
      rw [hu] at hge halign
      omega
  · have hu : u = align := eq_of_toNat_eq (by omega)
    refine iff_of_false (fun h => h.2 (by rw [hu])) fun h => ?_
    omega

/-- One page further. -/
theorem inReach_succ_iff {bot u : VmOffset} (h : InReach bot u.toNat 1) (j : ℕ) :
    InReach bot u.toNat (j + 1) ↔ InReach bot (u - page).toNat j := by
  have hle := h.1
  have hpage := pageSize_eq
  have hsub : (u - page).toNat = u.toNat - 4096 := toNat_sub_page (by omega)
  have hmul : (j + 1) * pageSize = j * pageSize + pageSize := Nat.succ_mul _ _
  rw [InReach, InReach, hsub, hmul]
  refine ⟨fun hj => ⟨by omega, by omega⟩, fun hj => ⟨by omega, by omega⟩⟩

/-- How the backward scan from an offset ends. -/
def EndsBehind (env : PageOracle) (object : PagedObject) (bot u : VmOffset) :
    ℕ → Option Probe → Prop :=
  EndsAfter (fun i => InReach bot u.toNat (i + 1)) fun i => probe env object (pagesBefore u (i + 1))

/-- The pages that it inserts. -/
def pagesDown (u : VmOffset) (n : ℕ) : List VmOffset :=
  (List.range n).map fun i => pagesBefore u (i + 1)

theorem pagesDown_succ (u : VmOffset) (n : ℕ) :
    pagesDown u (n + 1) = (u - page) :: pagesDown (u - page) n := by
  rw [pagesDown, range_succ_eq_map, map_cons, map_map, pagesBefore_succ, pagesBefore_zero]
  exact congrArg _ (map_congr_left fun i _ => pagesBefore_succ u (i + 1))

theorem EndsBehind.tail {bot u : VmOffset} (h : EndsBehind env object bot u (n + 1) stop) :
    EndsBehind env object bot (u - page) n stop := by
  have hreach := (h.inserted 0 (Nat.succ_pos n)).1
  have htail := EndsAfter.tail h
  simpa only [EndsBehind, inReach_succ_iff hreach, pagesBefore_succ] using htail

/-- The backward scan. -/
theorem scanBackward_eq {bot align : VmOffset} (fuel : ℕ) {u : VmOffset} {s : Scan}
    (halign : align.toNat = u.toNat % pageSize) (hfuel : u.toNat < (fuel + 1) * pageSize)
    (hends : EndsBehind env object bot u n stop) :
    scanBackward env object bot align fuel (u - page) s =
      (pagesBefore u n, decide (stop = some .shortage),
        (s.insertAll (pagesDown u n)).stopAt stop) := by
  have hpage := pageSize_eq
  induction fuel generalizing u s n with
  | zero =>
    have hnot : ¬InReach bot u.toNat 1 := fun h => by
      have := h.1
      omega
    cases n with
    | zero =>
      cases stop with
      | none => simp [scanBackward, pagesDown, Scan.insertAll, Scan.stopAt]
      | some p => exact absurd (hends.refused p rfl).1 hnot
    | succ n => exact absurd (hends.inserted 0 (Nat.succ_pos n)).1 hnot
  | succ fuel ih =>
    rw [scanBackward]
    cases n with
    | zero =>
      cases stop with
      | none =>
        rw [if_neg fun h => hends.boundary rfl ((inReach_one_iff halign).mp h)]
        simp [pagesDown, Scan.insertAll, Scan.stopAt]
      | some p =>
        obtain ⟨hreach, hlook, hne⟩ := hends.refused p rfl
        rw [pagesBefore_succ, pagesBefore_zero] at hlook
        rw [if_pos ((inReach_one_iff halign).mpr hreach), hlook]
        cases p with
        | inserted => exact absurd rfl hne
        | found => simp [pagesDown, Scan.insertAll, Scan.stopAt]
        | lost => simp [pagesDown, Scan.insertAll, Scan.stopAt]
        | shortage => simp [pagesDown, Scan.insertAll, Scan.stopAt]
    | succ n =>
      obtain ⟨hreach, hlook⟩ := hends.inserted 0 (Nat.succ_pos n)
      rw [pagesBefore_succ, pagesBefore_zero] at hlook
      have hle := hreach.1
      have hsub : (u - page).toNat = u.toNat - 4096 := toNat_sub_page (by omega)
      have halign' : align.toNat = (u - page).toNat % pageSize := by
        rw [halign, hsub, pageSize_eq]
        omega
      have hmul : (fuel + 1 + 1) * pageSize = (fuel + 1) * pageSize + pageSize :=
        Nat.succ_mul _ _
      rw [if_pos ((inReach_one_iff halign).mpr hreach), hlook]
      dsimp only
      rw [ih halign' (by omega) (EndsBehind.tail hends), pagesBefore_succ, pagesDown_succ]
      rfl

/-! ## The forward scan -/

/-- How the forward scan from a place ends. -/
def EndsAhead (env : PageOracle) (object : PagedObject) (top x : VmOffset) :
    ℕ → Option Probe → Prop :=
  EndsAfter (fun i => x.toNat + i * pageSize < top.toNat) fun i =>
    probe env object (pagesBehind x i)

/-- Before the boundary a page more does not wrap around. -/
theorem toNat_add_page_of_lt {top x : VmOffset} (halign : top.toNat % pageSize = x.toNat % pageSize)
    (hlt : x.toNat < top.toNat) :
    (x + page).toNat = x.toNat + 4096 ∧ x.toNat + 4096 ≤ top.toNat := by
  rw [pageSize_eq] at halign
  have hle : x.toNat + 4096 ≤ top.toNat := by omega
  exact ⟨toNat_add_page (by have := top.isLt; omega), hle⟩

theorem EndsAhead.tail {top x : VmOffset} (hadd : (x + page).toNat = x.toNat + 4096)
    (h : EndsAhead env object top x (n + 1) stop) :
    EndsAhead env object top (x + page) n stop := by
  have htail := EndsAfter.tail h
  have hreach : ∀ i, x.toNat + (i + 1) * pageSize = (x + page).toNat + i * pageSize := by
    intro i
    rw [hadd, Nat.succ_mul, pageSize_eq]
    omega
  simpa only [EndsAhead, hreach, pagesBehind_succ] using htail

/-- The forward scan. -/
theorem scanForward_eq {top : VmOffset} (fuel : ℕ) {x : VmOffset} {s : Scan}
    (halign : top.toNat % pageSize = x.toNat % pageSize)
    (hfuel : top.toNat ≤ x.toNat + fuel * pageSize)
    (hends : EndsAhead env object top x n stop) :
    scanForward env object top fuel x s =
      (pagesBehind x n, (s.insertAll (pagesFrom x n)).stopAt stop) := by
  have hpage := pageSize_eq
  induction fuel generalizing x s n with
  | zero =>
    have hnot : ¬x.toNat + 0 * pageSize < top.toNat := by omega
    cases n with
    | zero =>
      cases stop with
      | none => simp [scanForward, pagesFrom, Scan.insertAll, Scan.stopAt]
      | some p => exact absurd (hends.refused p rfl).1 hnot
    | succ n => exact absurd (hends.inserted 0 (Nat.succ_pos n)).1 hnot
  | succ fuel ih =>
    rw [scanForward]
    have hcond : x < top ↔ x.toNat + 0 * pageSize < top.toNat := by
      rw [Nat.zero_mul, Nat.add_zero, lt_def]
    cases n with
    | zero =>
      cases stop with
      | none =>
        rw [if_neg fun h => hends.boundary rfl (hcond.mp h)]
        simp [pagesFrom, Scan.insertAll, Scan.stopAt]
      | some p =>
        obtain ⟨hreach, hlook, hne⟩ := hends.refused p rfl
        rw [pagesBehind_zero] at hlook
        rw [if_pos (hcond.mpr hreach), hlook]
        cases p with
        | inserted => exact absurd rfl hne
        | found => simp [pagesFrom, Scan.insertAll, Scan.stopAt]
        | lost => simp [pagesFrom, Scan.insertAll, Scan.stopAt]
        | shortage => simp [pagesFrom, Scan.insertAll, Scan.stopAt]
    | succ n =>
      obtain ⟨hreach, hlook⟩ := hends.inserted 0 (Nat.succ_pos n)
      rw [pagesBehind_zero] at hlook
      obtain ⟨hadd, hle⟩ := toNat_add_page_of_lt halign (by omega)
      have halign' : top.toNat % pageSize = (x + page).toNat % pageSize := by
        rw [halign, hadd, pageSize_eq]
        omega
      have hmul : (fuel + 1) * pageSize = fuel * pageSize + pageSize := Nat.succ_mul _ _
      rw [if_pos (hcond.mpr hreach), hlook]
      dsimp only
      rw [ih halign' (by omega) (EndsAhead.tail hadd hends), pagesBehind_succ, pagesFrom_cons]
      rfl

end FaultCluster

end MachVirtuTerm
