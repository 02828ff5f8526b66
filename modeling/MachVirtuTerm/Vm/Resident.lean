import Mathlib.Data.BitVec
import Mathlib.Data.List.Basic
import Mathlib.Logic.Function.Basic

/-!
# Resident pages

Page structures are in the hash table of object and offset and on the page list of their object,
and on one of the queues of free, active, inactive and limbo pages. The routines of
`vm_resident.c` move them and count them.
-/

open Function

namespace MachVirtuTerm

variable {Page Obj : Type} [DecidableEq Page] [DecidableEq Obj]

/-- `vm_page_fictitious_addr`. -/
def fictitiousAddr : ℕ := 0xffffffff

/-- `struct vm_page`, without its links. -/
structure ResidentPage (Obj : Type) where
  object : Option Obj
  offset : ℕ
  wireCount : BitVec 16
  inactive : Bool
  active : Bool
  laundry : Bool
  free : Bool
  reference : Bool
  limbo : Bool
  gobbled : Bool
  tabled : Bool
  fictitious : Bool
  /-- `private`. -/
  shadow : Bool
  clustered : Bool
  physAddr : ℕ
  prepPinCount : ℕ
  deriving DecidableEq

/-- `vm_page_init`, which copies `vm_page_template`. -/
def ResidentPage.init (physAddr : ℕ) : ResidentPage Obj where
  object := none
  offset := 0
  wireCount := 0
  inactive := false
  active := false
  laundry := false
  free := false
  reference := false
  limbo := false
  gobbled := false
  tabled := false
  fictitious := false
  shadow := false
  clustered := false
  physAddr := physAddr
  prepPinCount := 0

/-- The page has memory of its own that the kernel manages. -/
def ResidentPage.Real (m : ResidentPage Obj) : Prop := m.shadow = false ∧ m.fictitious = false

instance (m : ResidentPage Obj) : Decidable m.Real := inferInstanceAs (Decidable (_ ∧ _))

/-- The hash table, the lists and the counters; `zone` holds the fictitious pages that are
free. -/
structure ResidentState (Page Obj : Type) where
  page : Page → ResidentPage Obj
  bucket : ℕ → List Page
  memq : Obj → List Page
  residentPageCount : Obj → ℤ
  queueFree : List Page
  zone : List Page
  queueActive : List Page
  queueInactive : List Page
  queueLimbo : List Page
  freeCount : ℤ
  freeReserved : ℤ
  activeCount : ℤ
  inactiveCount : ℤ
  wireCount : ℤ
  gobbleCount : ℤ
  limboCount : ℤ
  limboRealCount : ℤ
  laundryCount : ℤ

namespace ResidentState

/-- A page structure changes. -/
def setPage (s : ResidentState Page Obj) (p : Page) (m : ResidentPage Obj) : ResidentState Page Obj :=
  { s with page := update s.page p m }

section Table

variable (hash : Obj → ℕ → ℕ)

include hash

variable (s : ResidentState Page Obj)

variable (p : Page)

/-- `vm_page_insert`, in the bucket that `vm_page_hash` gives; `none` is a panic. -/
def vmPageInsert (object : Obj) (offset : ℕ) : Option (ResidentState Page Obj) :=
  if (s.page p).tabled then none
  else
    let b := hash object offset
    some { s.setPage p { s.page p with
        object := some object
        offset := offset
        tabled := true } with
      bucket := update s.bucket b (p :: s.bucket b)
      memq := update s.memq object (s.memq object ++ [p])
      residentPageCount :=
        update s.residentPageCount object (s.residentPageCount object + 1) }

/-- A page leaves its bucket and the list of its object. -/
def untable (object : Obj) (m : ResidentPage Obj) : ResidentState Page Obj :=
  let b := hash object (s.page p).offset
  { s.setPage p m with
    bucket := update s.bucket b ((s.bucket b).erase p)
    memq := update s.memq object ((s.memq object).erase p)
    residentPageCount :=
      update s.residentPageCount object (s.residentPageCount object - 1) }

/-- `vm_page_remove`; the page has an object. -/
def vmPageRemove : Option (ResidentState Page Obj) :=
  (s.page p).object.map fun object =>
    s.untable hash p object { s.page p with
      tabled := false
      object := none
      offset := 0 }

def vmPageRename (newObject : Obj) (newOffset : ℕ) : Option (ResidentState Page Obj) := do
  let s ← s.vmPageRemove hash p
  s.vmPageInsert hash p newObject newOffset

end Table

section Queues

variable (s : ResidentState Page Obj)

variable (p : Page)

/-- A page leaves the active list. -/
def activeRemove : ResidentState Page Obj :=
  if (s.page p).active then
    { s.setPage p { s.page p with active := false } with
      queueActive := s.queueActive.erase p
      activeCount := if (s.page p).fictitious then s.activeCount else s.activeCount - 1 }
  else s

/-- A page leaves the inactive list. -/
def inactiveRemove : ResidentState Page Obj :=
  if (s.page p).inactive then
    { s.setPage p { s.page p with inactive := false } with
      queueInactive := s.queueInactive.erase p
      inactiveCount := if (s.page p).fictitious then s.inactiveCount else s.inactiveCount - 1 }
  else s

/-- `VM_PAGE_QUEUES_REMOVE`. -/
def queuesRemove : ResidentState Page Obj :=
  (s.activeRemove p).inactiveRemove p

/-- `vm_page_grab`: nothing if the caller may not have what is reserved. With an empty list it
waits, which is no step. -/
def vmPageGrab (privilege : Bool) : Option (ResidentState Page Obj × Option Page) :=
  if s.freeCount < s.freeReserved ∧ privilege = false then some (s, none)
  else
    match s.queueFree with
    | [] => none
    | p :: rest =>
      some ({ s.setPage p { s.page p with free := false } with
        queueFree := rest
        freeCount := s.freeCount - 1 }, some p)

def vmPageRelease : Option (ResidentState Page Obj) :=
  if (s.page p).free then none
  else
    some { s.setPage p { s.page p with free := true } with
      queueFree := p :: s.queueFree
      freeCount := s.freeCount + 1 }

def vmPageGrabFictitious : ResidentState Page Obj × Option Page :=
  match s.zone with
  | [] => (s, none)
  | p :: rest =>
    ({ s.setPage p { s.page p with free := false } with zone := rest }, some p)

def vmPageReleaseFictitious : Option (ResidentState Page Obj) :=
  if (s.page p).free then none
  else some { s.setPage p { s.page p with free := true } with zone := p :: s.zone }

def vmPageReleaseLimbo : ResidentState Page Obj :=
  if (s.page p).fictitious then
    { s with
      queueLimbo := s.queueLimbo ++ [p]
      limboCount := s.limboCount + 1 }
  else
    { s with
      queueLimbo := p :: s.queueLimbo
      limboCount := s.limboCount + 1
      limboRealCount := s.limboRealCount + 1 }

def vmPageLimboExchange (limboM newM : Page) : ResidentState Page Obj :=
  let m := s.page limboM
  (s.setPage newM { m with
    limbo := false
    prepPinCount := 0 }).setPage limboM { ResidentPage.init fictitiousAddr with
      fictitious := true
      limbo := true
      prepPinCount := m.prepPinCount }

/-- What `vm_page_free` does to a page that is on no list: it is no longer wired, gobbled or in
the laundry. -/
def clearPage : ResidentState Page Obj :=
  let m := s.page p
  { s.setPage p { m with
      clustered := false
      wireCount := 0
      gobbled := false
      laundry := false } with
    wireCount :=
      if (m.wireCount ≠ 0 ∨ m.gobbled = true) ∧ m.Real then s.wireCount - 1 else s.wireCount
    gobbleCount := if m.wireCount = 0 ∧ m.gobbled = true then s.gobbleCount - 1 else s.gobbleCount
    laundryCount := if m.laundry then s.laundryCount - 1 else s.laundryCount }

/-- The end of `vm_page_free`: the page goes to limbo or is released. -/
def putPage : Option (ResidentState Page Obj) :=
  let m := s.page p
  if m.limbo then some (s.vmPageReleaseLimbo p)
  else
    let m := { m with reference := false }
    if m.shadow ∨ m.fictitious then
      let m := if m.shadow then { m with
          shadow := false
          fictitious := true
          physAddr := fictitiousAddr } else m
      (s.setPage p m).vmPageReleaseFictitious p
    else (s.setPage p (.init m.physAddr)).vmPageRelease p

def vmPageFree (hash : Obj → ℕ → ℕ) (s : ResidentState Page Obj) (p : Page) :
    Option (ResidentState Page Obj) := do
  let s ← if (s.page p).tabled then s.vmPageRemove hash p else some s
  ((s.queuesRemove p).clearPage p).putPage p

/-- `vm_page_replace`. What was at the place leaves the hash table, keeps its `object`, and is
freed. -/
def vmPageReplace (hash : Obj → ℕ → ℕ) (s : ResidentState Page Obj) (p : Page) (object : Obj)
    (offset : ℕ) : Option (ResidentState Page Obj) :=
  if (s.page p).tabled then none
  else do
    let old := (s.bucket (hash object offset)).find? fun q =>
      (s.page q).object = some object ∧ (s.page q).offset = offset
    let s ← match old with
      | none => some s
      | some q => (s.untable hash q object { s.page q with tabled := false }).vmPageFree hash q
    s.vmPageInsert hash p object offset

def vmPageWire : ResidentState Page Obj :=
  if (s.page p).wireCount = 0 then
    let s := s.queuesRemove p
    let m := s.page p
    { s.setPage p { m with
        gobbled := false
        wireCount := m.wireCount + 1 } with
      wireCount := if m.Real ∧ m.gobbled = false then s.wireCount + 1 else s.wireCount
      gobbleCount := if m.gobbled then s.gobbleCount - 1 else s.gobbleCount }
  else s.setPage p { s.page p with wireCount := (s.page p).wireCount + 1 }

def vmPageGobble : ResidentState Page Obj :=
  let m := s.page p
  { s.setPage p { m with gobbled := true } with
    wireCount :=
      if m.gobbled = false ∧ m.wireCount = 0 ∧ m.Real then s.wireCount + 1 else s.wireCount
    gobbleCount := s.gobbleCount + 1 }

def vmPageUnwire : ResidentState Page Obj :=
  let m := s.page p
  if m.wireCount - 1 = 0 then
    { s.setPage p { m with
        wireCount := 0
        active := true
        reference := true } with
      wireCount := s.wireCount - 1
      queueActive := s.queueActive ++ [p]
      activeCount := s.activeCount + 1 }
  else s.setPage p { m with wireCount := m.wireCount - 1 }

/-- How `vm_page_deactivate` and `vm_page_activate` begin: a gobbled page is no longer so. -/
def ungobble : ResidentState Page Obj :=
  let m := s.page p
  if m.gobbled then
    { s.setPage p { m with gobbled := false } with
      wireCount := if m.Real then s.wireCount - 1 else s.wireCount
      gobbleCount := s.gobbleCount - 1 }
  else s

def vmPageDeactivate : ResidentState Page Obj :=
  let s := s.ungobble p
  if (s.page p).shadow ∨ (s.page p).wireCount ≠ 0 then s
  else
    let s :=
      if (s.page p).active ∨ (s.page p).inactive ∧ (s.page p).reference then
        (s.setPage p { s.page p with reference := false }).queuesRemove p
      else s
    if (s.page p).inactive then s
    else
      { s.setPage p { s.page p with inactive := true } with
        queueInactive := s.queueInactive ++ [p]
        inactiveCount :=
          if (s.page p).fictitious then s.inactiveCount else s.inactiveCount + 1 }

def vmPageActivate : Option (ResidentState Page Obj) :=
  let s := s.ungobble p
  if (s.page p).shadow then some s
  else
    let s := s.inactiveRemove p
    if (s.page p).wireCount = 0 then
      if (s.page p).active then none
      else
        some { s.setPage p { s.page p with
            active := true
            reference := true } with
          queueActive := s.queueActive ++ [p]
          activeCount := if (s.page p).fictitious then s.activeCount else s.activeCount + 1 }
    else some s

/-- `vm_page_convert`: the memory of a page that is grabbed goes to a fictitious page, and it
becomes the fictitious page that is released. -/
def vmPageConvert (privilege : Bool) : Option (ResidentState Page Obj × Option Page) := do
  let (s, real) ← s.vmPageGrab privilege
  match real with
  | none => some (s, none)
  | some real =>
    let m := s.page p
    let s : ResidentState Page Obj :=
      { s.setPage p { m with
          physAddr := (s.page real).physAddr
          fictitious := false } with
        activeCount := if m.active then s.activeCount + 1 else s.activeCount
        inactiveCount :=
          if m.active = false ∧ m.inactive = true then s.inactiveCount + 1 else s.inactiveCount }
    let s ← (s.setPage real { s.page real with
      physAddr := fictitiousAddr
      fictitious := true }).vmPageReleaseFictitious real
    return (s, some p)

/-- The first loop of `cleanup_limbo_queue` over what is on the queue. -/
def freeUnprepped (hash : Obj → ℕ → ℕ) (s : ResidentState Page Obj) :
    List Page → Option (ResidentState Page Obj)
  | [] => some s
  | p :: rest =>
    if (s.page p).prepPinCount = 0 then do
      let s ← vmPageFree hash { s.setPage p { s.page p with limbo := false } with
        queueLimbo := s.queueLimbo.erase p
        limboCount := s.limboCount - 1
        limboRealCount :=
          if (s.page p).fictitious then s.limboRealCount else s.limboRealCount - 1 } p
      s.freeUnprepped hash rest
    else s.freeUnprepped hash rest

/-- The second loop, a turn for each real page on the queue; it ends when there is no fictitious
page to exchange for. -/
def exchangeReal (hash : Obj → ℕ → ℕ) :
    ℕ → ResidentState Page Obj → Option (ResidentState Page Obj)
  | 0, s => some s
  | turns + 1, s =>
    match s.queueLimbo with
    | [] => none
    | p :: rest =>
      match s.vmPageGrabFictitious with
      | (_, none) => some s
      | (s, some q) => do
        let s := s.vmPageLimboExchange p q
        let s ← vmPageFree hash { s with queueLimbo := rest ++ [p] } q
        exchangeReal hash turns { s with limboRealCount := s.limboRealCount - 1 }

def cleanupLimboQueue (hash : Obj → ℕ → ℕ) (s : ResidentState Page Obj) :
    Option (ResidentState Page Obj) := do
  let s ← s.freeUnprepped hash s.queueLimbo
  s.exchangeReal hash s.limboRealCount.toNat

end Queues

end ResidentState

end MachVirtuTerm
