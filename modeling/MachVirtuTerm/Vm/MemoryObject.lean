import MachVirtuTerm.Lib.Run
import MachVirtuTerm.Mach.VmParam

/-!
# Answers of a pager

A pager answers requests for the pages of an object with data, with an error or with the message
that there are none. Pages that were requested and not answered are absent and busy; the data
comes in page lists, whose continuations give further ones while the object is unlocked.
-/

namespace MachVirtuTerm

/-- `struct vm_page`, as far as the answers of a pager go. -/
structure ObjectPage where
  offset : BitVec 32
  tabled : Bool
  free : Bool
  busy : Bool
  wanted : Bool
  absent : Bool
  error : Bool
  restart : Bool
  clustered : Bool
  unusual : Bool
  dirty : Bool
  precious : Bool
  lockSupplied : Bool
  fictitious : Bool
  pageLock : BitVec 32
  unlockRequest : BitVec 32
  pageError : ℤ
  deriving DecidableEq

/-- `vm_page_init`. -/
def ObjectPage.init (fictitious : Bool) : ObjectPage where
  offset := 0
  tabled := false
  free := false
  busy := true
  wanted := false
  absent := false
  error := false
  restart := false
  clustered := false
  unusual := false
  dirty := false
  precious := false
  lockSupplied := false
  fictitious := fictitious
  pageLock := 0
  unlockRequest := 0
  pageError := 0

namespace PagedObject

section Codes

def kernSuccess : ℤ := 0

def kernInvalidArgument : ℤ := 4

def kernMemoryError : ℤ := 10

def kernMemoryPresent : ℤ := 23

def kernMemoryDataMoved : ℤ := 24

def kernReturnMax : ℤ := 0x100

def vmProtAll : BitVec 32 := 7

end Codes

end PagedObject

/-- A `vm_map_copy` of type `VM_MAP_COPY_PAGE_LIST`. -/
structure PageListCopy (Page : Type) where
  /-- `cpy_page_list`. -/
  pageList : List (Option Page)
  /-- `cpy_npages`. -/
  npages : ℕ
  /-- `vm_map_copy_has_cont`. -/
  hasCont : Bool
  deriving DecidableEq

/-- Where a `memory_object_data_supply` is. -/
inductive SupplyPhase
  /-- In the loop, with the object locked. -/
  | looping
  /-- In `vm_map_copy_invoke_cont`, with the object unlocked. -/
  | invoking
  /-- Behind the loop. -/
  | left
  deriving DecidableEq

/-- The variables of a `memory_object_data_supply`. -/
structure SupplyCall (Page : Type) where
  offset : BitVec 32
  dataCnt : BitVec 32
  lockValue : BitVec 32
  precious : Bool
  origCopy : PageListCopy Page
  /-- `data_copy`, where it is not `orig_copy` any more. -/
  otherCopy : Option (Option (PageListCopy Page))
  /-- How far `page_list` is in `data_copy`. -/
  next : ℕ
  result : ℤ
  errorOffset : BitVec 32
  phase : SupplyPhase
  /-- The pages that came. -/
  given : List Page
  /-- The pages that were inserted. -/
  inserted : List Page

namespace SupplyCall

variable {Page : Type}

def dataCopy (c : SupplyCall Page) : Option (PageListCopy Page) :=
  match c.otherCopy with
  | none => some c.origCopy
  | some other => other

/-- What `data_copy` points to changes. -/
def setDataCopy (c : SupplyCall Page) (copy : PageListCopy Page) : SupplyCall Page :=
  match c.otherCopy with
  | none => { c with origCopy := copy }
  | some _ => { c with otherCopy := some (some copy) }

end SupplyCall

/-- What a continuation does. -/
inductive ContResult (Page : Type)
  /-- It fails. -/
  | fail (result : ℤ)
  /-- There are no more pages. -/
  | null
  /-- It gives another copy. -/
  | next (copy : PageListCopy Page)

/-- What a `memory_object_data_supply` did when it returns. -/
structure SupplyReturn (Page : Type) where
  result : ℤ
  errorOffset : BitVec 32
  /-- `orig_copy` was discarded. -/
  consumed : Bool
  given : List Page
  inserted : List Page
  /-- The pages that were freed with a copy. -/
  discarded : List Page

/-- The object, the page structures, the threads that wait for pages and the calls of
`memory_object_data_supply`. -/
structure PagedObject (Page Thread : Type) where
  page : Page → ObjectPage
  /-- The pages of the object, in the order in which `vm_page_lookup` finds them. -/
  resident : List Page
  pagingOffset : BitVec 32
  absentCount : ℤ
  /-- The fictitious pages that are free. -/
  zone : List Page
  /-- The page whose event a thread waits for. -/
  waiting : Thread → Option Page
  call : Thread → Option (SupplyCall Page)
  /-- A page was read after it was freed. -/
  readFreed : Bool

/-- The sections in which the object is locked, of the pager's answers and of those who use the
object. -/
inductive ObjectAction (Page Thread : Type)
  /-- `memory_object_data_supply`, up to the loop. -/
  | supply (t : Thread) (offset dataCnt lockValue : BitVec 32) (precious : Bool)
    (copy : PageListCopy Page)
  /-- One turn of its loop. -/
  | supplyPage (t : Thread)
  /-- The continuation returns. -/
  | supplyCont (t : Thread) (outcome : ContResult Page)
  /-- What is behind the loop. -/
  | supplyEnd (t : Thread)
  /-- `memory_object_data_error`. -/
  | dataError (offset size : BitVec 32) (errorValue : ℤ)
  /-- `memory_object_data_unavailable`. -/
  | dataUnavailable (offset size : BitVec 32)
  /-- A page is requested from the pager. -/
  | request (offset : BitVec 32) (clustered : Bool)
  /-- A thread waits for a page. -/
  | await (t : Thread) (p : Page)
  /-- Somebody begins to use a page. -/
  | hold (p : Page)
  /-- `PAGE_WAKEUP_DONE` of a page that somebody uses. -/
  | done (p : Page)
  /-- A page that the pager has not is filled with zeros. -/
  | fill (p : Page)
  /-- A page leaves the object. -/
  | evict (p : Page)

namespace PagedObject

variable {Page Thread : Type} [DecidableEq Page] [DecidableEq Thread]

variable (s : PagedObject Page Thread)

variable (p : Page)

/-- A page structure changes. -/
def setPage (m : ObjectPage) : PagedObject Page Thread :=
  { s with page := Function.update s.page p m }

/-- A call goes on. -/
def setCall (t : Thread) (c : Option (SupplyCall Page)) : PagedObject Page Thread :=
  { s with call := Function.update s.call t c }

def vmPageLookup (offset : BitVec 32) : Option Page :=
  s.resident.find? fun p => (s.page p).offset = offset

def pageWakeup : PagedObject Page Thread :=
  if (s.page p).wanted then
    { s.setPage p { s.page p with wanted := false } with
      waiting := fun t => if s.waiting t = some p then none else s.waiting t }
  else s

def pageWakeupDone : PagedObject Page Thread :=
  (s.setPage p { s.page p with busy := false }).pageWakeup p

def pageAssertWait (t : Thread) (p : Page) : PagedObject Page Thread :=
  { s.setPage p { s.page p with wanted := true } with
    waiting := Function.update s.waiting t (some p) }

def vmPageInsert (offset : BitVec 32) : Option (PagedObject Page Thread) :=
  if (s.page p).tabled then none
  else
    some { s.setPage p { s.page p with
        offset := offset
        tabled := true } with
      resident := p :: s.resident }

def vmPageRemove : PagedObject Page Thread :=
  { s.setPage p { s.page p with
      offset := 0
      tabled := false } with
    resident := s.resident.erase p }

/-- `vm_page_free`; `none` is a failed assertion. -/
def vmPageFree : Option (PagedObject Page Thread) :=
  if (s.page p).free then none
  else
    let s := if (s.page p).tabled then s.vmPageRemove p else s
    let s := (s.setPage p { s.page p with clustered := false }).pageWakeup p
    let s := if (s.page p).absent then { s with absentCount := s.absentCount - 1 } else s
    if (s.page p).fictitious then
      some { s.setPage p { s.page p with
          pageLock := 0
          unlockRequest := 0
          busy := true
          absent := false
          error := false
          dirty := false
          precious := false
          pageError := kernSuccess
          free := true } with
        zone := p :: s.zone }
    else some (s.setPage p { ObjectPage.init false with free := true })

def vmPageGrabFictitious : PagedObject Page Thread × Option Page :=
  match s.zone with
  | [] => (s, none)
  | p :: rest => ({ s.setPage p { s.page p with free := false } with zone := rest }, some p)

section Discard

/-- `vm_map_copy_page_discard`, and the pages that were freed; pages in a table are not from the
pager. -/
def pageDiscard (pageList : List (Option Page)) :
    ℕ → PagedObject Page Thread → Option (PagedObject Page Thread × List Page)
  | 0, s => some (s, [])
  | npages + 1, s =>
    match (pageList[npages]?).join with
    | none => pageDiscard pageList npages s
    | some p =>
      if (s.page p).tabled then pageDiscard pageList npages s
      else do
        let s ← s.vmPageFree p
        let (s, freed) ← pageDiscard pageList npages s
        return (s, p :: freed)

end Discard

section Supply

variable (s : PagedObject Page Thread)

variable (t : Thread)

/-- The first part of `memory_object_data_supply`. -/
def supply (offset dataCnt lockValue : BitVec 32) (precious : Bool) (copy : PageListCopy Page) :
    Option (PagedObject Page Thread × Option (SupplyReturn Page)) :=
  if (s.call t).isSome ∨ (s.waiting t).isSome then none
  else if lockValue &&& ~~~vmProtAll ≠ 0 ∨ ¬ PageAligned dataCnt then
    some (s, some ⟨kernInvalidArgument, 0, false, [], [], []⟩)
  else
    some (s.setCall t (some {
      offset := offset - s.pagingOffset
      dataCnt := dataCnt
      lockValue := lockValue
      precious := precious
      origCopy := copy
      otherCopy := none
      next := 0
      result := kernSuccess
      errorOffset := 0
      phase := .looping
      given := copy.pageList.filterMap id
      inserted := [] }), none)

variable (c : SupplyCall Page)

/-- What `memory_object_data_supply` makes of a page of the pager. -/
def suppliedPage (wasClustered : Bool) (m : ObjectPage) : ObjectPage :=
  { m with
    lockSupplied := true
    busy := false
    dirty := false
    pageLock := c.lockValue
    unusual := c.lockValue ≠ 0
    unlockRequest := 0
    precious := c.precious
    clustered := wasClustered }

/-- A page of the pager is put into the object, and `page_list` goes on. -/
def supplyInsert (copy : PageListCopy Page) (p : Page) (wasClustered : Bool) :
    Option (PagedObject Page Thread) := do
  let s ← (s.setPage p (suppliedPage c wasClustered (s.page p))).vmPageInsert p c.offset
  let copy := { copy with
    pageList := copy.pageList.set c.next none
    npages := copy.npages - 1 }
  let c := { c.setDataCopy copy with
    next := c.next + 1
    inserted := c.inserted ++ [p] }
  if copy.npages = 0 ∧ copy.hasCont then return s.setCall t (some { c with phase := .invoking })
  else
    return s.setCall t (some { c with
      dataCnt := c.dataCnt - BitVec.ofNat 32 pageSize
      offset := c.offset + BitVec.ofNat 32 pageSize })

/-- One turn of the loop of `memory_object_data_supply`. A page that is absent and busy is
freed, and its `clustered` is read then. -/
def supplyPage : Option (PagedObject Page Thread) := do
  let c ← s.call t
  if c.phase ≠ .looping ∨ (s.waiting t).isSome then none
  else if c.dataCnt = 0 then return s.setCall t (some { c with phase := .left })
  else
    let copy ← c.dataCopy
    let p ← (copy.pageList[c.next]?).join
    if copy.npages = 0 then none
    else
      match s.vmPageLookup c.offset with
      | none => s.supplyInsert t c copy p false
      | some m =>
        if (s.page m).absent then
          let s ← if (s.page m).busy then
              (s.vmPageFree m).map fun s => { s with readFreed := true }
            else some s
          (s.setPage m { s.page m with clustered := false }).supplyInsert t c copy p
            (s.page m).clustered
        else if (s.page m).busy then return s.pageAssertWait t m
        else
          return s.setCall t (some { c with
            result := kernMemoryPresent
            errorOffset := c.offset + s.pagingOffset
            phase := .left })

/-- A continuation returns: the loop goes on with another copy, or ends. The copy it belonged to
has no pages left, and is discarded unless it is `orig_copy`. -/
def supplyCont (outcome : ContResult Page) : Option (PagedObject Page Thread) := do
  let c ← s.call t
  if c.phase ≠ .invoking then none
  else
    let copy ← c.dataCopy
    let c := c.setDataCopy { copy with hasCont := false }
    match outcome with
    | .fail result =>
      if result = kernSuccess then none
      else
        return s.setCall t (some { c with
          result := result
          errorOffset := c.offset + s.pagingOffset + BitVec.ofNat 32 pageSize
          phase := .left })
    | .null =>
      return s.setCall t (some { c with
        otherCopy := some none
        dataCnt := c.dataCnt - BitVec.ofNat 32 pageSize
        offset := c.offset + BitVec.ofNat 32 pageSize
        phase := .looping })
    | .next new =>
      return s.setCall t (some { c with
        otherCopy := some (some new)
        next := 0
        dataCnt := c.dataCnt - BitVec.ofNat 32 pageSize
        offset := c.offset + BitVec.ofNat 32 pageSize
        phase := .looping
        given := c.given ++ new.pageList.filterMap id })

/-- What becomes of `data_copy` at the end: a continuation that was not invoked is aborted, which
discards the pages before it, and the copy is discarded, `orig_copy` on success only. -/
def discardDataCopy : Option (PagedObject Page Thread × List Page) :=
  match c.otherCopy with
  | none =>
    if c.origCopy.hasCont ∨ c.result = kernSuccess then
      pageDiscard c.origCopy.pageList c.origCopy.npages s
    else some (s, [])
  | some none => some (s, [])
  | some (some copy) => pageDiscard copy.pageList copy.npages s

/-- `orig_copy` is discarded on success, where it is not `data_copy`. -/
def discardOrigCopy : Option (PagedObject Page Thread × List Page) :=
  if c.otherCopy.isSome ∧ c.result = kernSuccess then
    pageDiscard c.origCopy.pageList c.origCopy.npages s
  else some (s, [])

/-- The last part of `memory_object_data_supply`. -/
def supplyEnd : Option (PagedObject Page Thread × Option (SupplyReturn Page)) := do
  let c ← s.call t
  if c.phase ≠ .left then none
  else
    let (s, discarded) ← s.discardDataCopy c
    let (s, discardedLast) ← s.discardOrigCopy c
    return (s.setCall t none, some ⟨c.result, c.errorOffset, c.result = kernSuccess, c.given,
      c.inserted, discarded ++ discardedLast⟩)

end Supply

section Answer

/-- `memory_object_data_error` for one page. -/
def errorPage (errorValue : ℤ) (s : PagedObject Page Thread) (offset : BitVec 32) :
    Option (PagedObject Page Thread) :=
  match s.vmPageLookup offset with
  | none => some s
  | some p =>
    let m := s.page p
    if m.busy ∧ m.absent then
      let m := if errorValue = kernMemoryDataMoved then { m with restart := true }
        else { m with
          pageError := if errorValue > kernReturnMax then errorValue else kernMemoryError
          error := true }
      let s := { s.setPage p { m with absent := false } with absentCount := s.absentCount - 1 }
      let s := s.pageWakeupDone p
      if m.clustered then s.vmPageFree p else some s
    else some s

/-- `memory_object_data_unavailable` for one page. -/
def unavailablePage (absentMax : ℤ) (s : PagedObject Page Thread) (offset : BitVec 32) :
    Option (PagedObject Page Thread) :=
  match s.vmPageLookup offset with
  | none =>
    let (s, m) := if s.absentCount < absentMax then s.vmPageGrabFictitious else (s, none)
    match m with
    | none => some s
    | some p => do
      let s := { s.setPage p { s.page p with
          absent := true
          unusual := true
          clustered := false } with
        absentCount := s.absentCount + 1 }
      let s ← s.vmPageInsert p offset
      return s.pageWakeupDone p
  | some p =>
    if (s.page p).busy ∧ (s.page p).absent then
      some ((s.setPage p { s.page p with clustered := false }).pageWakeupDone p)
    else some s

/-- The loop over the pages of a range. -/
def eachPage (f : PagedObject Page Thread → BitVec 32 → Option (PagedObject Page Thread))
    (offset : BitVec 32) : ℕ → PagedObject Page Thread → Option (PagedObject Page Thread)
  | 0, s => some s
  | n + 1, s => do
    let s ← f s offset
    eachPage f (offset + BitVec.ofNat 32 pageSize) n s

/-- An answer for a range: nothing, if its size is no number of pages. -/
def answer (s : PagedObject Page Thread)
    (f : PagedObject Page Thread → BitVec 32 → Option (PagedObject Page Thread))
    (offset size : BitVec 32) : Option (PagedObject Page Thread) :=
  if size ≠ roundPage size then some s
  else eachPage f (offset - s.pagingOffset) (size.toNat / pageSize) s

/-- `memory_object_data_error`. -/
def dataError (s : PagedObject Page Thread) (offset size : BitVec 32) (errorValue : ℤ) :
    Option (PagedObject Page Thread) := s.answer (errorPage errorValue) offset size

/-- `memory_object_data_unavailable`. -/
def dataUnavailable (absentMax : ℤ) (s : PagedObject Page Thread) (offset size : BitVec 32) :
    Option (PagedObject Page Thread) := s.answer (unavailablePage absentMax) offset size

end Answer

section Step

/-- The pages of a copy that a caller hands over: all are there, and each is a page of its own
that is in no table, has memory and was not asked for. -/
def CopyOk (s : PagedObject Page Thread) (copy : PageListCopy Page) : Prop :=
  ∃ pages : List Page, copy.pageList = pages.map some ∧ copy.npages = pages.length ∧
    pages.Nodup ∧ ∀ p ∈ pages, (s.page p).tabled = false ∧ (s.page p).free = false ∧
      (s.page p).error = false ∧ (s.page p).absent = false ∧ (s.page p).fictitious = false ∧
      (s.page p).restart = false ∧ ∀ t c, s.call t = some c → ∀ copy ∈ c.dataCopy,
        some p ∉ copy.pageList

/-- One section, and what a call returned. -/
def perform (absentMax : ℤ) (s : PagedObject Page Thread) :
    ObjectAction Page Thread → Option (PagedObject Page Thread × Option (SupplyReturn Page))
  | .supply t offset dataCnt lockValue precious copy =>
    s.supply t offset dataCnt lockValue precious copy
  | .supplyPage t => (s.supplyPage t).map (·, none)
  | .supplyCont t outcome => (s.supplyCont t outcome).map (·, none)
  | .supplyEnd t => s.supplyEnd t
  | .dataError offset size errorValue => (s.dataError offset size errorValue).map (·, none)
  | .dataUnavailable offset size => (s.dataUnavailable absentMax offset size).map (·, none)
  | .request offset clustered =>
    if (s.vmPageLookup offset).isSome then none
    else
      match s.vmPageGrabFictitious with
      | (_, none) => none
      | (s, some p) =>
        ({ s.setPage p { s.page p with
            absent := true
            unusual := true
            busy := true
            clustered := clustered } with
          absentCount := s.absentCount + 1 }.vmPageInsert p offset).map (·, none)
  | .await t p =>
    if p ∈ s.resident ∧ (s.page p).busy = true ∧ s.call t = none ∧ s.waiting t = none then
      some (s.pageAssertWait t p, none)
    else none
  | .hold p =>
    if p ∈ s.resident ∧ (s.page p).busy = false ∧ (s.page p).absent = false then
      some (s.setPage p { s.page p with busy := true }, none)
    else none
  | .done p =>
    if p ∈ s.resident ∧ (s.page p).busy = true ∧ (s.page p).absent = false then
      some (s.pageWakeupDone p, none)
    else none
  | .fill p =>
    if p ∈ s.resident ∧ (s.page p).busy = false ∧ (s.page p).absent = true then
      some ({ s.setPage p { s.page p with
          absent := false
          busy := true
          fictitious := false } with
        absentCount := s.absentCount - 1 }, none)
    else none
  | .evict p =>
    if p ∈ s.resident then (s.vmPageFree p).map (·, none) else none

/-- The pages of a copy are as the kernel makes copies. -/
def Guaranteed (s : PagedObject Page Thread) : ObjectAction Page Thread → Prop
  | .supply _ _ _ _ _ copy => s.CopyOk copy
  | .supplyCont _ (.next copy) => s.CopyOk copy
  | _ => True

/-- A section, labelled with what it was and what returned. -/
def Step (absentMax : ℤ) (s : PagedObject Page Thread)
    (l : ObjectAction Page Thread × Option (SupplyReturn Page)) (s' : PagedObject Page Thread) :
    Prop := s.Guaranteed l.1 ∧ s.perform absentMax l.1 = some (s', l.2)

/-- An object without pages, and the fictitious pages that are free. -/
def init (pagingOffset : BitVec 32) (zone : List Page) : PagedObject Page Thread where
  page p := { ObjectPage.init (decide (p ∈ zone)) with free := decide (p ∈ zone) }
  resident := []
  pagingOffset := pagingOffset
  absentCount := 0
  zone := zone
  waiting _ := none
  call _ := none
  readFreed := false

end Step

end PagedObject

end MachVirtuTerm
