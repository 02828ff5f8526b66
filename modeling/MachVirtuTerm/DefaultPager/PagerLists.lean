import MachVirtuTerm.Mach.KernReturn
import MachVirtuTerm.DefaultPager.ClusterMapSound

/-!
# Lists that the default pager returns

The objects and the pages of an object are written to arrays that come with the request if they
have room enough, and to memory that is allocated if not. The size of that memory is chosen
before it is filled, and what was not needed of it is given back. A function comes to `none`
where it gives back memory that it does not have, or reads a map outside of its memory.
-/

open BitVec hiding not_not

namespace MachVirtuTerm

namespace PagerLists

/-! ## Arrays -/

/-- `vm_deallocate` from an offset on, of memory of which there are some bytes left. -/
def vmDeallocate (kept offset size : BitVec 32) : Option (BitVec 32) :=
  if size = 0 then some kept
  else if offset.toNat + size.toNat = kept.toNat then some offset
  else none

/-- An array: in the reply, or in allocated memory of a size. -/
structure Area where
  memory : Option (BitVec 32)
  /-- How many entries there is room for. -/
  potential : BitVec 32

/-- An array that is returned: what is left of its memory, if it has any, and the count. -/
structure Returned where
  kept : Option (BitVec 32)
  count : BitVec 32
  deriving DecidableEq

/-- All of the memory is given back. -/
def Area.free (area : Area) : Option Returned :=
  match area.memory with
  | none => some ⟨none, 0⟩
  | some size => (vmDeallocate size 0 size).map fun kept => ⟨some kept, 0⟩

/-- The array that came with the request, or one with room for more entries of a size in bytes
than there are objects. -/
def room (entrySize inline actual : BitVec 32) (allocated : Bool) : Option Area :=
  if inline < actual then
    if allocated then
      let newsize := 2 * roundPage (actual * entrySize)
      some ⟨some newsize, newsize / entrySize⟩
    else none
  else some ⟨none, inline⟩

/-- What the entries that were counted do not need is given back. -/
def trim (entrySize actual number : BitVec 32) (area : Area) : Option Returned :=
  match area.memory with
  | none => some ⟨none, number⟩
  | some size =>
    if actual = 0 then area.free
    else
      let used := roundPage (actual * entrySize)
      if used ≠ size then
        (vmDeallocate size used (size - used)).map fun kept => ⟨some kept, number⟩
      else some ⟨some size, number⟩

/-! ## Objects -/

/-- An object in the list of the pager. -/
structure PagerObject where
  /-- The address of its `vstruct`. -/
  entry : BitVec 32
  /-- `VS_MAP_TRY_LOCK` succeeds. -/
  mapLock : Bool
  /-- `ps_vstruct_allocated_size`. -/
  allocatedSize : BitVec 32
  objectName : BitVec 32
  nameRefs : ℕ
  deriving DecidableEq

/-- `default_pager_max_urefs`. -/
def maxUrefs : ℕ := 10000

/-- An entry of both arrays: `dpo_object`, `dpo_size` and the port. -/
structure Item where
  object : BitVec 32
  size : BitVec 32
  port : BitVec 32
  deriving DecidableEq

/-- The entry for an object, which takes a reference to its port. -/
def PagerObject.item (e : PagerObject) : Item × PagerObject :=
  if ¬e.mapLock then (⟨0, 0, 0⟩, e)
  else if e.objectName = 0 then (⟨0, 0, 0⟩, e)
  else
    let nameRefs := e.nameRefs - 1
    (⟨e.entry, e.allocatedSize, e.objectName⟩,
      { e with nameRefs := if nameRefs = 0 then nameRefs + maxUrefs else nameRefs })

/-- The loop through the list: the entries that are written, and the list afterwards. -/
def walk (opotential ppotential : ℕ) : ℕ → List PagerObject → List Item × List PagerObject
  | _, [] => ([], [])
  | numObjects, e :: es =>
    if numObjects ≥ opotential ∨ numObjects ≥ ppotential then ([], e :: es)
    else
      let r := walk opotential ppotential (numObjects + 1) es
      (e.item.1 :: r.1, e.item.2 :: r.2)

/-- A call of `default_pager_objects`. The count is read before the list is gone through. -/
structure ObjectsCall where
  defaultPort : Bool
  ocount : BitVec 32
  pcount : BitVec 32
  /-- `vsl_count`, when it is read. -/
  actual : BitVec 32
  /-- The calls of `vm_allocate` succeed. -/
  oallocate : Bool
  pallocate : Bool
  /-- The list, when it is gone through. -/
  list : List PagerObject

/-- What a call leads to. -/
structure ObjectsReply where
  code : KernReturn
  objects : Returned
  ports : Returned
  items : List Item
  list : List PagerObject

/-- Both arrays are returned. -/
def returnObjects (walked : List Item × List PagerObject) :
    Option Returned → Option Returned → Option ObjectsReply
  | some objects, some ports => some ⟨.success, objects, ports, walked.1, walked.2⟩
  | _, _ => none

def defaultPagerObjects (x : ObjectsCall) : Option ObjectsReply :=
  if ¬x.defaultPort then some ⟨.invalidArgument, ⟨none, 0⟩, ⟨none, 0⟩, [], x.list⟩
  else
    match room 8 x.ocount x.actual x.oallocate with
    | none => some ⟨.resourceShortage, ⟨none, 0⟩, ⟨none, 0⟩, [], x.list⟩
    | some objects =>
      match room 4 x.pcount x.actual x.pallocate with
      | none =>
        objects.free.map fun objects => ⟨.resourceShortage, objects, ⟨none, 0⟩, [], x.list⟩
      | some ports =>
        let walked := walk objects.potential.toNat ports.potential.toNat 0 x.list
        let numObjects := BitVec.ofNat 32 walked.1.length
        returnObjects walked (trim 8 x.actual numObjects objects) (trim 4 x.actual numObjects ports)

/-! ## Pages -/

/-- What a turn of `default_pager_object_pages` meets. -/
structure PagesTurn where
  /-- The object with the name, if the list has one. -/
  object : Option { vs : Vstruct // vs.Ok }
  mapLock : Bool
  /-- `vm_allocate` succeeds. -/
  allocate : Bool

structure PagesReply where
  code : KernReturn
  pages : Returned
  /-- The slots that were filled. -/
  slots : List (BitVec 32)

/-- A turn goes on to another one, or returns. -/
inductive PagesOutcome
  | again (area : Area)
  | returned (reply : PagesReply)

/-- A turn of the loop of `default_pager_object_pages`. -/
def pagesTurn (area : Area) (turn : PagesTurn) : Option PagesOutcome :=
  match turn.object with
  | none => area.free.map fun pages => .returned ⟨.invalidArgument, pages, []⟩
  | some vs =>
    if ¬turn.mapLock then some (.again area)
    else
      match vs.1.psVstructAllocatedPages area.potential.toNat with
      | none => none
      | some listing =>
        let actual := BitVec.ofNat 32 listing.numPages
        if actual ≤ area.potential then
          (trim 4 actual actual area).map fun pages => .returned ⟨.success, pages, listing.slots⟩
        else
          area.free.bind fun pages =>
            let size := roundPage (actual * 4)
            if ¬turn.allocate then some (.returned ⟨.resourceShortage, pages, []⟩)
            else some (.again ⟨some size, size / 4⟩)

/-- `default_pager_object_pages`, as far as some turns take it. -/
def objectPages (area : Area) : List PagesTurn → Option PagesOutcome
  | [] => some (.again area)
  | turn :: turns =>
    match pagesTurn area turn with
    | none => none
    | some (.again area) => objectPages area turns
    | some (.returned reply) => some (.returned reply)

/-- `default_pager_object_pages`, for an array in the reply. -/
def defaultPagerObjectPages (defaultPort : Bool) (count : BitVec 32) (turns : List PagesTurn) :
    Option PagesOutcome :=
  if ¬defaultPort then some (.returned ⟨.invalidArgument, ⟨none, 0⟩, []⟩)
  else objectPages ⟨none, count⟩ turns

end PagerLists

end MachVirtuTerm

/-!
# The lists stay in their arrays

A list of objects may be longer than the part of its memory that is kept, if objects have come
since they were counted. A list of pages that takes up all of its array has an entry that was
not written.
-/

namespace MachVirtuTerm

namespace PagerLists

variable {entrySize inline actual : BitVec 32} {area : Area} {n : ℕ}

/-! ## What should be returned -/

/-- The count is not more than the entries that the array has and that were written. -/
def Returned.Within (r : Returned) (entrySize inline : BitVec 32) (written : ℕ) : Prop :=
  r.count.toNat ≤ written ∧
    match r.kept with
    | none => r.count ≤ inline
    | some kept => r.count.toNat * entrySize.toNat ≤ kept.toNat

/-- No memory is left. -/
def Returned.Released (r : Returned) : Prop := ∀ kept ∈ r.kept, kept = 0

/-- A list of objects is in its arrays, and a call that fails holds nothing. -/
def ObjectsCall.Bounded (x : ObjectsCall) : Prop :=
  ∃ reply, defaultPagerObjects x = some reply ∧
    (reply.code = .success → reply.objects.Within 8 x.ocount reply.items.length ∧
      reply.ports.Within 4 x.pcount reply.items.length) ∧
    (reply.code ≠ .success →
      reply.objects.Released ∧ reply.ports.Released ∧ reply.list = x.list)

/-- A list of pages is in its array, and a call that fails holds nothing. -/
def PagesReply.Bounded (reply : PagesReply) (count : BitVec 32) : Prop :=
  (reply.code = .success → reply.pages.Within 4 count reply.slots.length) ∧
    (reply.code ≠ .success → reply.pages.Released)

/-- Turns lead to a list of pages in its array, if they lead to one. -/
def PagesBounded (count : BitVec 32) (outcome : Option PagesOutcome) : Prop :=
  ∃ o, outcome = some o ∧ ∀ reply, o = .returned reply → reply.Bounded count

/-! ## Arrays -/

theorem released_none : (⟨none, 0⟩ : Returned).Released := nofun

theorem free_released (area : Area) : ∃ r, area.free = some r ∧ r.Released := by
  rw [Area.free]
  cases area.memory with
  | none => exact ⟨_, rfl, nofun⟩
  | some size =>
    have hall : vmDeallocate size 0 size = some 0 := by
      rw [vmDeallocate]
      split
      next hzero => rw [hzero]
      next => rw [if_pos (by simp)]
    dsimp only
    rw [hall]
    refine ⟨_, rfl, fun kept hkept => ?_⟩
    cases hkept
    rfl

/-- Twice the memory that is used is allocated, so that as much of it is given back. -/
theorem trim_double (hactual : actual ≠ 0) {used potential number : BitVec 32}
    (hused : used = roundPage (actual * entrySize)) :
    trim entrySize actual number ⟨some (2 * used), potential⟩ =
      if 2 * used.toNat < 2 ^ 32 then some ⟨some used, number⟩ else none := by
  rw [trim]
  dsimp only
  rw [if_neg hactual, ← hused]
  by_cases hzero : used = 0
  · subst hzero
    rfl
  have hpos : used.toNat ≠ 0 := fun h => hzero (eq_of_toNat_eq h)
  have hne : used ≠ 2 * used := by bv_omega
  have hsub : 2 * used - used = used := by bv_omega
  rw [if_pos hne, hsub, vmDeallocate, if_neg hzero]
  have hdouble : used.toNat + used.toNat = (2 * used).toNat ↔ 2 * used.toNat < 2 ^ 32 := by
    rw [toNat_mul]
    have hlt := used.isLt
    simp only [BitVec.reduceToNat]
    omega
  by_cases hfits : 2 * used.toNat < 2 ^ 32
  · rw [if_pos hfits, if_pos (hdouble.mpr hfits), Option.map_some]
  · rw [if_neg hfits, if_neg (fun h => hfits (hdouble.mp h)), Option.map_none]

/-! ## Objects -/

/-- The room of an array at first. -/
def potential (entrySize inline actual : BitVec 32) : BitVec 32 :=
  if inline < actual then 2 * roundPage (actual * entrySize) / entrySize else inline

/-- The number of objects that are listed: all, if both arrays have room for them. -/
def ObjectsCall.number (x : ObjectsCall) : ℕ :=
  min x.list.length
    (min (potential 8 x.ocount x.actual).toNat (potential 4 x.pcount x.actual).toNat)

/-- The list fits in the part of an array that is kept, the size of which is not too large to be
doubled. -/
def Kept (entrySize inline actual : BitVec 32) (number : ℕ) : Prop :=
  inline < actual → 2 * (roundPage (actual * entrySize)).toNat < 2 ^ 32 ∧
    number * entrySize.toNat ≤ (roundPage (actual * entrySize)).toNat

/-- There is no memory for an array. -/
def NoRoom (inline actual : BitVec 32) (allocated : Bool) : Prop :=
  inline < actual ∧ allocated = false

theorem length_walk (opotential ppotential k : ℕ) (es : List PagerObject) :
    (walk opotential ppotential k es).1.length =
      min es.length (min (opotential - k) (ppotential - k)) := by
  induction es generalizing k with
  | nil => simp [walk]
  | cons e es ih =>
    rw [walk]
    split
    next hfull =>
      rw [List.length_nil, List.length_cons]
      omega
    next hroom =>
      rw [List.length_cons, ih, List.length_cons]
      omega

theorem room_eq_none_iff {allocated : Bool} :
    room entrySize inline actual allocated = none ↔ NoRoom inline actual allocated := by
  rw [room, NoRoom]
  split
  next hlt => cases allocated <;> simp [hlt]
  next hge => simp [hge]

theorem potential_of_room {allocated : Bool}
    (h : room entrySize inline actual allocated = some area) :
    area.potential = potential entrySize inline actual := by
  rw [room] at h
  rw [potential]
  split at h
  next hlt =>
    rw [if_pos hlt]
    split at h
    · cases h
      rfl
    · cases h
  next hge =>
    rw [if_neg hge]
    cases h
    rfl

/-- An array that was given room is trimmed well if and only if the list fits in what is kept. -/
theorem trim_within_iff {allocated : Bool}
    (h : room entrySize inline actual allocated = some area)
    (hn : n ≤ (potential entrySize inline actual).toNat) :
    (∃ r, trim entrySize actual (BitVec.ofNat 32 n) area = some r ∧ r.Within entrySize inline n) ↔
      Kept entrySize inline actual n := by
  have hcount : (BitVec.ofNat 32 n).toNat = n := by
    rw [toNat_ofNat, Nat.mod_eq_of_lt (hn.trans_lt (BitVec.isLt _))]
  rw [room] at h
  rw [potential] at hn
  split at h
  next hlt =>
    rw [if_pos hlt] at hn
    have hactual : actual ≠ 0 := by
      rintro rfl
      exact BitVec.not_lt_zero hlt
    split at h
    · cases h
      rw [trim_double hactual rfl, Kept]
      by_cases hfits : 2 * (roundPage (actual * entrySize)).toNat < 2 ^ 32
      · rw [if_pos hfits]
        simp only [Option.some.injEq, exists_eq_left', Returned.Within, hcount, le_refl, true_and,
          hfits, hlt, true_implies]
      · rw [if_neg hfits]
        exact iff_of_false (fun ⟨_, hr, _⟩ => nomatch hr) fun hkept => hfits (hkept hlt).1
    · cases h
  next hge =>
    rw [if_neg hge] at hn
    cases h
    refine iff_of_true ⟨_, rfl, hcount.le, ?_⟩ fun hlt => absurd hlt hge
    rw [le_def, hcount]
    exact hn

/-- A list of objects is in its arrays if and only if it fits in what is kept of them. -/
theorem ObjectsCall.bounded_iff (x : ObjectsCall) :
    x.Bounded ↔ x.defaultPort = false ∨ NoRoom x.ocount x.actual x.oallocate ∨
      NoRoom x.pcount x.actual x.pallocate ∨
      (Kept 8 x.ocount x.actual x.number ∧ Kept 4 x.pcount x.actual x.number) := by
  by_cases hport : x.defaultPort = true
  · cases hobjects : room 8 x.ocount x.actual x.oallocate with
    | none =>
      refine iff_of_true ⟨⟨.resourceShortage, ⟨none, 0⟩, ⟨none, 0⟩, [], x.list⟩, ?_, nofun,
        fun _ => ⟨released_none, released_none, rfl⟩⟩
        (Or.inr (Or.inl (room_eq_none_iff.mp hobjects)))
      rw [defaultPagerObjects, if_neg (not_not.mpr hport), hobjects]
    | some objects =>
      cases hports : room 4 x.pcount x.actual x.pallocate with
      | none =>
        obtain ⟨r, hfree, hreleased⟩ := free_released objects
        refine iff_of_true ⟨⟨.resourceShortage, r, ⟨none, 0⟩, [], x.list⟩, ?_, nofun,
          fun _ => ⟨hreleased, released_none, rfl⟩⟩
          (Or.inr (Or.inr (Or.inl (room_eq_none_iff.mp hports))))
        rw [defaultPagerObjects, if_neg (not_not.mpr hport), hobjects]
        dsimp only
        rw [hports]
        dsimp only
        rw [hfree, Option.map_some]
      | some ports =>
        have hlength : (walk objects.potential.toNat ports.potential.toNat 0 x.list).1.length =
            x.number := by
          rw [length_walk, potential_of_room hobjects, potential_of_room hports]
          rfl
        have hle : x.number ≤ (potential 8 x.ocount x.actual).toNat ∧
            x.number ≤ (potential 4 x.pcount x.actual).toNat :=
          ⟨(min_le_right _ _).trans (min_le_left _ _), (min_le_right _ _).trans (min_le_right _ _)⟩
        rw [← trim_within_iff hobjects hle.1, ← trim_within_iff hports hle.2]
        have hobjects' : ¬NoRoom x.ocount x.actual x.oallocate := by
          rw [← room_eq_none_iff, hobjects]
          nofun
        have hports' : ¬NoRoom x.pcount x.actual x.pallocate := by
          rw [← room_eq_none_iff, hports]
          nofun
        have hcode : defaultPagerObjects x =
            returnObjects (walk objects.potential.toNat ports.potential.toNat 0 x.list)
              (trim 8 x.actual (BitVec.ofNat 32 x.number) objects)
              (trim 4 x.actual (BitVec.ofNat 32 x.number) ports) := by
          rw [defaultPagerObjects, if_neg (not_not.mpr hport), hobjects]
          dsimp only
          rw [hports]
          dsimp only
          rw [hlength]
        constructor
        · rintro ⟨reply, hreply, hsuccess, -⟩
          right
          right
          right
          rw [hcode] at hreply
          cases hr : trim 8 x.actual (BitVec.ofNat 32 x.number) objects with
          | none =>
            rw [hr] at hreply
            cases hreply
          | some r =>
          cases hr' : trim 4 x.actual (BitVec.ofNat 32 x.number) ports with
          | none =>
            rw [hr, hr'] at hreply
            cases hreply
          | some r' =>
            rw [hr, hr'] at hreply
            cases hreply
            obtain ⟨hwithin, hwithin'⟩ := hsuccess rfl
            rw [hlength] at hwithin hwithin'
            exact ⟨⟨r, rfl, hwithin⟩, ⟨r', rfl, hwithin'⟩⟩
        · rintro (hfalse | hnone | hnone | ⟨⟨r, hr, hwithin⟩, ⟨r', hr', hwithin'⟩⟩)
          · exact absurd hport (by simp [hfalse])
          · exact absurd hnone hobjects'
          · exact absurd hnone hports'
          · rw [hr, hr'] at hcode
            refine ⟨_, hcode, fun _ => ?_, fun hne => absurd rfl hne⟩
            rw [hlength]
            exact ⟨hwithin, hwithin'⟩
  · refine iff_of_true ⟨⟨.invalidArgument, ⟨none, 0⟩, ⟨none, 0⟩, [], x.list⟩, ?_, nofun,
      fun _ => ⟨released_none, released_none, rfl⟩⟩ (Or.inl (by simpa using hport))
    rw [defaultPagerObjects, if_pos hport]

/-! ## Pages -/

/-- What the listing of a page list writes. -/
theorem listing_pages {vs : Vstruct} (h : vs.Ok) {l : Vstruct.Listing} {k : ℕ}
    (hl : vs.psVstructAllocatedPages k = some l) :
    l.numPages = vs.validPages.length ∧ l.slots.length = min vs.validPages.length (k - 1) := by
  obtain ⟨n, hn, hat⟩ : ∃ n, vs.size.toNat ≤ n ∧ Vstruct.At vs.map vs.clsize k l n := by
    cases hmap : vs.map with
    | direct dmap =>
      by_cases hsize : vs.size.toNat = clmapEntries
      · obtain ⟨l', hl', hat⟩ := h.list_direct hmap hsize k
        cases hl.symm.trans hl'
        exact ⟨_, hsize.le, hmap ▸ hat⟩
      · rw [h.list_direct_none hmap hsize] at hl
        cases hl
    | indirect imap =>
      obtain ⟨l', hl', hat⟩ := h.list_indirect hmap k
      cases hl.symm.trans hl'
      refine ⟨_, ?_, hmap ▸ hat⟩
      rw [Vstruct.blocks, clmapEntries]
      omega
  obtain ⟨hnum, hslots⟩ := h.at_pages hat hn
  refine ⟨hnum, ?_⟩
  have hlength := congrArg List.length hslots
  rw [List.length_map, List.length_map, List.length_take, min_comm] at hlength
  exact hlength

/-- A listing is inside of a map with blocks, and of a direct one that is as large as it may be. -/
theorem listing_isSome_iff {vs : Vstruct} (h : vs.Ok) {k : ℕ} :
    (vs.psVstructAllocatedPages k).isSome ↔
      ∀ dmap, vs.map = .direct dmap → vs.size.toNat = clmapEntries := by
  cases hmap : vs.map with
  | direct dmap =>
    by_cases hsize : vs.size.toNat = clmapEntries
    · obtain ⟨l, hl, -⟩ := h.list_direct hmap hsize k
      exact iff_of_true (by rw [hl]; rfl) fun _ _ => hsize
    · rw [h.list_direct_none hmap hsize]
      exact iff_of_false Bool.false_ne_true fun hfull => hsize (hfull dmap rfl)
  | indirect imap =>
    obtain ⟨l, hl, -⟩ := h.list_indirect hmap k
    exact iff_of_true (by rw [hl]; rfl) fun _ hdirect => by cases hdirect

/-- The map of the object of a turn has blocks or 64 entries, and the object does not have as many
pages as there is room for, unless that is none. -/
def TurnFits (area : Area) (turn : PagesTurn) : Prop :=
  ∀ vs ∈ turn.object, turn.mapLock = true →
    (∀ dmap, vs.1.map = .direct dmap → vs.1.size.toNat = clmapEntries) ∧
    (vs.1.validPages.length = area.potential.toNat → area.potential = 0)

/-- Every turn that a call makes fits. -/
def PagesFit (area : Area) : List PagesTurn → Prop
  | [] => True
  | turn :: turns => TurnFits area turn ∧
    ∀ area', pagesTurn area turn = some (.again area') → PagesFit area' turns

/-- The array is in the reply, or in memory of some pages. -/
def PagesArea (count : BitVec 32) (area : Area) : Prop :=
  area = ⟨none, count⟩ ∨
    ∃ size : BitVec 32, area = ⟨some size, size / 4⟩ ∧ size.toNat % pageSize = 0

theorem toNat_roundPage_entries {actual : BitVec 32} (h : actual.toNat ≤ 2 ^ 20) :
    (roundPage (actual * 4)).toNat = (actual.toNat * 4 + 4095) / 4096 * 4096 := by
  have hsum : (actual * 4 + pageMask).toNat = actual.toNat * 4 + 4095 := by
    rw [toNat_add, toNat_mul]
    simp only [pageMask, pageSize, BitVec.reduceToNat, toNat_ofNat]
    omega
  rw [roundPage, toNat_truncPage, hsum, pageSize]
  omega

/-- The pages that have been found are in their array. -/
theorem trim_pages {count actual : BitVec 32} (harea : PagesArea count area)
    (hactual : actual.toNat ≤ 2 ^ 20) (hle : actual ≤ area.potential) :
    ∃ r, trim 4 actual actual area = some r ∧ r.count = actual ∧
      match r.kept with
      | none => r.count ≤ count
      | some kept => r.count.toNat * 4 ≤ kept.toNat := by
  rcases harea with rfl | ⟨size, rfl, hsize⟩
  · exact ⟨⟨none, actual⟩, rfl, rfl, hle⟩
  · rw [trim]
    dsimp only at hle ⊢
    by_cases hzero : actual = 0
    · subst hzero
      rw [if_pos rfl]
      obtain ⟨r, hr, -⟩ := free_released ⟨some size, size / 4⟩
      refine ⟨r, hr, ?_⟩
      rw [Area.free] at hr
      obtain ⟨kept, -, rfl⟩ := Option.map_eq_some_iff.mp hr
      exact ⟨rfl, Nat.zero_le _⟩
    · rw [if_neg hzero]
      have hround := toNat_roundPage_entries hactual
      generalize roundPage (actual * 4) = used at hround
      have hsmall : actual.toNat * 4 ≤ size.toNat := by
        rw [le_def, toNat_udiv] at hle
        simp only [BitVec.reduceToNat] at hle
        omega
      have hused : used.toNat ≤ size.toNat := by
        rw [pageSize] at hsize
        omega
      have hfits : actual.toNat * 4 ≤ used.toNat := by omega
      by_cases hne : used = size
      · subst hne
        rw [if_neg (not_not.mpr rfl)]
        exact ⟨_, rfl, rfl, hfits⟩
      · have hsub : (size - used).toNat = size.toNat - used.toNat := by
          rw [toNat_sub_of_le (le_def.mpr hused)]
        have hpos : size - used ≠ 0 := by
          intro heq
          rw [heq] at hsub
          exact hne (eq_of_toNat_eq (by simp at hsub; omega))
        rw [if_pos hne, vmDeallocate, if_neg hpos, if_pos (by omega)]
        exact ⟨_, rfl, rfl, hfits⟩

variable {count : BitVec 32}

/-- A turn that fits goes on with an array, or returns what it should. -/
theorem pagesTurn_bounded {turn : PagesTurn} (harea : PagesArea count area)
    (hfits : TurnFits area turn) :
    PagesBounded count (pagesTurn area turn) ∧
      ∀ area', pagesTurn area turn = some (.again area') → PagesArea count area' := by
  rw [pagesTurn]
  cases hobject : turn.object with
  | none =>
    obtain ⟨r, hr, hreleased⟩ := free_released area
    rw [hr]
    refine ⟨⟨_, rfl, ?_⟩, by rintro _ ⟨⟩⟩
    rintro _ ⟨⟩
    exact ⟨by rintro ⟨⟩, fun _ => hreleased⟩
  | some vs =>
    by_cases hlock : turn.mapLock = true
    · obtain ⟨hmap, hroom⟩ := hfits vs hobject hlock
      obtain ⟨l, hl⟩ := Option.isSome_iff_exists.mp ((listing_isSome_iff vs.2).mpr hmap)
      obtain ⟨hnum, hslots⟩ := listing_pages vs.2 hl
      have hle := vs.2.length_validPages_le
      have hactual : (BitVec.ofNat 32 l.numPages).toNat = vs.1.validPages.length := by
        rw [hnum, toNat_ofNat, Nat.mod_eq_of_lt (by omega)]
      dsimp only
      rw [if_neg (not_not.mpr hlock), hl]
      dsimp only
      generalize BitVec.ofNat 32 l.numPages = actual at hactual
      by_cases hfull : actual ≤ area.potential
      · rw [if_pos hfull]
        obtain ⟨r, hr, hcount, hkept⟩ := trim_pages harea (hactual ▸ hle) hfull
        rw [hr]
        refine ⟨⟨_, rfl, ?_⟩, by rintro _ ⟨⟩⟩
        rintro _ ⟨⟩
        refine ⟨fun _ => ⟨?_, hkept⟩, fun hne => absurd rfl hne⟩
        rw [hcount, hactual, hslots]
        rw [le_def, hactual] at hfull
        by_cases heq : vs.1.validPages.length = area.potential.toNat
        · have hzero : area.potential.toNat = 0 := by rw [hroom heq]; rfl
          omega
        · omega
      · rw [if_neg hfull]
        obtain ⟨r, hr, hreleased⟩ := free_released area
        rw [hr, Option.bind_some]
        split
        · refine ⟨⟨_, rfl, ?_⟩, by rintro _ ⟨⟩⟩
          rintro _ ⟨⟩
          exact ⟨by rintro ⟨⟩, fun _ => hreleased⟩
        · refine ⟨⟨_, rfl, by rintro _ ⟨⟩⟩, ?_⟩
          rintro _ ⟨⟩
          refine Or.inr ⟨_, rfl, ?_⟩
          rw [toNat_roundPage_entries (hactual ▸ hle), pageSize, Nat.mul_mod_left]
    · dsimp only
      rw [if_pos hlock]
      refine ⟨⟨_, rfl, by rintro _ ⟨⟩⟩, ?_⟩
      rintro _ ⟨⟩
      exact harea

/-- A turn that does not fit leaves the map or returns an entry that was not written. -/
theorem pagesTurn_not_bounded {turn : PagesTurn}
    (harea : PagesArea count area) (hfits : ¬TurnFits area turn) :
    ¬PagesBounded count (pagesTurn area turn) ∧
      ∀ area', pagesTurn area turn ≠ some (.again area') := by
  rw [TurnFits] at hfits
  push Not at hfits
  obtain ⟨vs, hobject, hlock, hcases⟩ := hfits
  have hobject' : turn.object = some vs := hobject
  rw [pagesTurn, hobject']
  dsimp only
  rw [if_neg (not_not.mpr hlock)]
  cases hl : vs.1.psVstructAllocatedPages area.potential.toNat with
  | none =>
    refine ⟨?_, nofun⟩
    rintro ⟨_, ho, -⟩
    cases ho
  | some l =>
    obtain ⟨heq, hne⟩ := hcases ((listing_isSome_iff vs.2).mp (by rw [hl]; rfl))
    obtain ⟨hnum, hslots⟩ := listing_pages vs.2 hl
    have hle := vs.2.length_validPages_le
    have hactual : (BitVec.ofNat 32 l.numPages).toNat = vs.1.validPages.length := by
      rw [hnum, toNat_ofNat, Nat.mod_eq_of_lt (by omega)]
    have hpos : area.potential.toNat ≠ 0 := fun hzero => hne (eq_of_toNat_eq hzero)
    dsimp only
    generalize BitVec.ofNat 32 l.numPages = actual at hactual
    have hfull : actual ≤ area.potential := by
      rw [le_def]
      omega
    rw [if_pos hfull]
    obtain ⟨r, hr, hcount, -⟩ := trim_pages harea (hactual ▸ hle) hfull
    rw [hr]
    refine ⟨?_, nofun⟩
    rintro ⟨_, ⟨⟩, hbounded⟩
    have hwritten := ((hbounded _ rfl).1 rfl).1
    change r.count.toNat ≤ l.slots.length at hwritten
    rw [hcount, hslots] at hwritten
    omega

/-- A call leads to a list in its array if and only if all its turns fit. -/
theorem objectPages_bounded_iff (turns : List PagesTurn) : ∀ {area : Area}, PagesArea count area →
      (PagesBounded count (objectPages area turns) ↔ PagesFit area turns) := by
  induction turns with
  | nil =>
    intro area _
    exact iff_of_true ⟨_, rfl, nofun⟩ trivial
  | cons turn turns ih =>
    intro area harea
    rw [objectPages, PagesFit]
    by_cases hfits : TurnFits area turn
    · obtain ⟨hbounded, hagain⟩ := pagesTurn_bounded harea hfits
      obtain ⟨o, ho, hreply⟩ := hbounded
      rw [ho] at hagain ⊢
      cases o with
      | again area' =>
        rw [ih (hagain area' rfl)]
        refine ⟨fun h => ⟨hfits, ?_⟩, fun h => h.2 area' rfl⟩
        rintro _ ⟨⟩
        exact h
      | returned reply => exact iff_of_true ⟨_, rfl, hreply⟩ ⟨hfits, nofun⟩
    · obtain ⟨hbounded, hagain⟩ := pagesTurn_not_bounded harea hfits
      refine iff_of_false ?_ fun h => hfits h.1
      cases ho : pagesTurn area turn with
      | none =>
        rintro ⟨_, h, -⟩
        cases h
      | some o =>
        rw [ho] at hbounded hagain
        cases o with
        | again area' => exact absurd rfl (hagain area')
        | returned reply => exact hbounded

/-- Both lists stay in their arrays if and only if the objects that have come since they were
counted fit in the memory that is kept, and the pages do not take up all of their array. -/
theorem lists_bounded_iff (x : ObjectsCall) (defaultPort : Bool) (count : BitVec 32)
    (turns : List PagesTurn) :
    (x.Bounded ↔ x.defaultPort = false ∨ NoRoom x.ocount x.actual x.oallocate ∨
      NoRoom x.pcount x.actual x.pallocate ∨
      (Kept 8 x.ocount x.actual x.number ∧ Kept 4 x.pcount x.actual x.number)) ∧
    (PagesBounded count (defaultPagerObjectPages defaultPort count turns) ↔
      (defaultPort = true → PagesFit ⟨none, count⟩ turns)) := by
  refine ⟨x.bounded_iff, ?_⟩
  rw [defaultPagerObjectPages]
  cases defaultPort with
  | false =>
    refine iff_of_true ⟨_, rfl, ?_⟩ nofun
    rintro _ ⟨⟩
    exact ⟨nofun, fun _ => released_none⟩
  | true =>
    rw [if_neg (by decide), objectPages_bounded_iff turns (Or.inl rfl)]
    exact ⟨fun h _ => h, fun h => h rfl⟩

/-- An object of 64 pages after a write of its first page. -/
def written : Vstruct :=
  { Vstruct.newObject 64 with map := .direct (⟨5, 0, false, 1, 1⟩ :: List.replicate 63 .clr) }

theorem ok_written : written.Ok := by
  have hcreate : Vstruct.psVstructCreate 0x40000 0 true = some (some (Vstruct.newObject 64)) := by
    rfl
  obtain ⟨new, hnew, hok⟩ := Vstruct.psVstructCreate_ok (by decide) (.inl rfl)
  cases hcreate.symm.trans hnew
  exact hok.run (.cons (.cons .nil (show Vstruct.Step _ (Vstruct.writePage 0 true) _ by rfl))
    (show Vstruct.Step _ (Vstruct.writePage 0 false) _ by rfl))

/-- One object is counted, and there are 513 when the list is gone through. -/
def manyObjects : ObjectsCall :=
  ⟨true, 0, 0, 1, true, true, List.replicate 513 ⟨0x1000, true, 4096, 7, 5⟩⟩

/-- The objects that came are not in the memory that is kept, and the only page of an object is
not written to an array of one. -/
theorem lists_not_bounded : ¬manyObjects.Bounded ∧
    ¬PagesBounded 1 (defaultPagerObjectPages true 1 [⟨some ⟨_, ok_written⟩, true, true⟩]) := by
  constructor
  · rw [ObjectsCall.bounded_iff]
    have hnumber : manyObjects.number = 513 := by decide +kernel
    rintro (hport | ⟨-, hnone⟩ | ⟨-, hnone⟩ | ⟨hkept, -⟩)
    · cases hport
    · cases hnone
    · cases hnone
    · rw [hnumber] at hkept
      exact absurd (hkept (by decide)).2 (by decide)
  · have hvalid : written.validPages.length = 1 := by decide +kernel
    change ¬PagesBounded 1 (objectPages ⟨none, 1⟩ _)
    rw [objectPages_bounded_iff _ (Or.inl rfl)]
    rintro ⟨hfits, -⟩
    exact absurd ((hfits _ rfl rfl).2 hvalid) (by decide)

end PagerLists

end MachVirtuTerm
