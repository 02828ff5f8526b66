import MachVirtuTerm.Lib.ForwardCopy
import MachVirtuTerm.Vm.MapCopyOverwrite

/-!
# Copying from object to object

`vm_fault_copy` gets a page of the destination and one of the source by faults, verifies the
version of the destination's map and the destination's copy object, and copies what lies in
both pages, round by round. The contents are those that a fault on an object finds, so a write
to an object is seen through this object only: the destination's write fault has pushed the old
page to its copy object.
-/

namespace MachVirtuTerm

namespace VmFaultCopy

open ForwardCopy

/-- A page that a fault comes back with. -/
inductive Page (Obj : Type*)
  /-- The page of an object at an offset. -/
  | own (object : Obj) (offset : VmOffset)
  /-- A page that a read fault found further down the shadow chain, in another object. Pages of
  write faults are none of these. -/
  | backing (object faulted : Obj) (offset : VmOffset)
  deriving DecidableEq

/-- `page->object`. -/
def Page.object {Obj : Type*} : Page Obj → Obj
  | .own object _ => object
  | .backing object _ _ => object

/-- What the faults and the copy read and write of objects and pages. -/
structure Pages (Obj : Type*) where
  contents : Obj × VmOffset → UInt8
  dirty : Page Obj → Bool
  wireCount : Page Obj → ℕ
  busy : Page Obj → Bool
  /-- The placeholders that faults leave in the object that they began with. -/
  topPage : Obj × VmOffset → Bool
  pagingInProgress : Obj → ℕ

/-- The answers of `vm_fault_page`. Retries and shortages are not among them: they give back what
the fault took, and it is made again. -/
inductive FaultAnswer (α : Type*)
  | success (page : α)
  | interrupted
  | memoryError (error : KernReturn)
  deriving DecidableEq

/-- What the rest of the kernel does in a round. -/
structure Answers (Obj : Type*) where
  /-- The destination's fault, which may make the page dirty. -/
  dst : FaultAnswer Bool
  /-- The source's fault, with the object that had the page if it was found in another one. -/
  src : FaultAnswer (Option Obj)
  /-- `vm_map_verify`. -/
  verified : Bool
  /-- The destination's copy object is another one than before. -/
  copyChanged : Bool

/-- The local variables that change from round to round. -/
structure Locals where
  srcOffset : VmOffset
  dstOffset : VmOffset
  amountLeft : VmOffset
  deriving DecidableEq

/-- The arguments. -/
structure Call (Obj : Type*) where
  src : Option Obj
  srcOffset : VmOffset
  size : VmOffset
  dst : Obj
  dstOffset : VmOffset

/-- The result. -/
inductive Return
  | kern (kr : KernReturn)
  | sendInterrupted
  deriving DecidableEq

/-- What a round leads to. -/
inductive RoundEnd
  | next (partSize : VmOffset)
  /-- `break`. -/
  | stop
  | interrupted
  | error (kr : KernReturn)
  deriving DecidableEq

section Memory

variable {A β : Type*} [DecidableEq A]

/-- `memcpy`, which moves longs and then bytes. -/
def memcpy (target source : ℕ → A) (count : ℕ) (mem : A → β) : A → β :=
  copyChunks target source (4 * (count / 4)) 1 (count % 4)
    (copyChunks target source 0 4 (count / 4) mem)

def bzero (target : ℕ → A) (length : ℕ) (mem : A → UInt8) : A → UInt8 :=
  writeRange target (fun _ => 0) 0 length mem

/-- How many bytes `memcpy` has written when it reads a byte. -/
def readAt (count r : ℕ) : ℕ := if r < 4 * (count / 4) then 4 * (r / 4) else r

end Memory

namespace Pages

variable {Obj : Type*} [DecidableEq Obj]

/-- `vm_object_paging_begin`. -/
def pagingBegin (s : Pages Obj) (object : Obj) : Pages Obj :=
  { s with pagingInProgress := fun o =>
      if o = object then s.pagingInProgress o + 1 else s.pagingInProgress o }

/-- `vm_object_paging_end`. -/
def pagingEnd (s : Pages Obj) (object : Obj) : Pages Obj :=
  { s with pagingInProgress := fun o =>
      if o = object then s.pagingInProgress o - 1 else s.pagingInProgress o }

def vmPageWire (s : Pages Obj) (page : Page Obj) : Pages Obj :=
  { s with wireCount := fun p => if p = page then s.wireCount p + 1 else s.wireCount p }

def vmPageUnwire (s : Pages Obj) (page : Page Obj) : Pages Obj :=
  { s with wireCount := fun p => if p = page then s.wireCount p - 1 else s.wireCount p }

/-- A fault comes back with a page busy. -/
def setBusy (s : Pages Obj) (page : Page Obj) : Pages Obj :=
  { s with busy := fun p => if p = page then true else s.busy p }

def pageWakeupDone (s : Pages Obj) (page : Page Obj) : Pages Obj :=
  { s with busy := fun p => if p = page then false else s.busy p }

/-- A fault leaves a placeholder. -/
def setTopPage (s : Pages Obj) (top : Obj × VmOffset) : Pages Obj :=
  { s with topPage := fun p => if p = top then true else s.topPage p }

/-- `VM_PAGE_FREE` of a placeholder. -/
def freeTopPage (s : Pages Obj) (top : Obj × VmOffset) : Pages Obj :=
  { s with topPage := fun p => if p = top then false else s.topPage p }

/-- `dirty = TRUE`. -/
def setDirty (s : Pages Obj) (page : Page Obj) : Pages Obj :=
  { s with dirty := fun p => if p = page then true else s.dirty p }

def vmFaultCleanup (s : Pages Obj) (object : Obj) (top : Option (Obj × VmOffset)) : Pages Obj :=
  match top with
  | none => s.pagingEnd object
  | some top => ((s.pagingEnd object).freeTopPage top).pagingEnd top.1

def vmFaultCopyCleanup (s : Pages Obj) (page : Page Obj) (top : Option (Obj × VmOffset)) :
    Pages Obj :=
  (s.pageWakeupDone page).vmFaultCleanup page.object top

def vmFaultCopyDstCleanup (s : Pages Obj) (page : Page Obj) : Pages Obj :=
  (s.vmPageUnwire page).pagingEnd page.object

/-- `vm_fault_page` for the destination: the page is in the object itself, with no top page. -/
def dstFault (s : Pages Obj) (object : Obj) (offset : VmOffset) (dirtied : Bool) : Pages Obj :=
  let s := (s.pagingBegin object).setBusy (.own object offset)
  if dirtied then s.setDirty (.own object offset) else s

/-- `src_page` and `src_top_page`. -/
structure Source (Obj : Type*) where
  page : Option (Page Obj)
  top : Option (Obj × VmOffset)

/-- `vm_fault_page` for the source. -/
def srcFault (s : Pages Obj) (object : Obj) (offset : VmOffset) :
    Option Obj → Source Obj × Pages Obj
  | none =>
    (⟨some (.own object offset), none⟩, (s.pagingBegin object).setBusy (.own object offset))
  | some below =>
    (⟨some (.backing below object offset), some (object, offset)⟩,
      (((s.pagingBegin object).pagingBegin below).setTopPage (object, offset)).setBusy
        (.backing below object offset))

/-- `pmap_copy_part_page`: bytes of a page from an offset on. -/
def bytesAt (page : Obj × VmOffset) (offset : VmOffset) (i : ℕ) : Obj × VmOffset :=
  (page.1, page.2 + offset + .ofNat 32 i)

def vmPagePartCopy (s : Pages Obj) (src : Obj × VmOffset) (srcPo : VmOffset)
    (dst : Obj × VmOffset) (dstPo len : VmOffset) : Pages Obj :=
  { s with contents := memcpy (bytesAt dst dstPo) (bytesAt src srcPo) len.toNat s.contents }

def vmPageCopy (s : Pages Obj) (src dst : Obj × VmOffset) : Pages Obj :=
  { s with contents := memcpy (bytesAt dst 0) (bytesAt src 0) pageSize s.contents }

def vmPagePartZeroFill (s : Pages Obj) (m : Obj × VmOffset) (offset len : VmOffset) : Pages Obj :=
  { s with contents := bzero (bytesAt m offset) len.toNat s.contents }

def vmPageZeroFill (s : Pages Obj) (m : Obj × VmOffset) : Pages Obj :=
  { s with contents := bzero (bytesAt m 0) pageSize s.contents }

end Pages

namespace Locals

variable (x : Locals)

/-- The pieces are unaligned, or the last one is. -/
def Unaligned : Prop :=
  ¬PageAligned x.srcOffset ∨ ¬PageAligned x.dstOffset ∨ ¬PageAligned x.amountLeft

instance (x : Locals) : Decidable x.Unaligned := inferInstanceAs (Decidable (_ ∨ _ ∨ _))

def srcPo : VmOffset := x.srcOffset - truncPage x.srcOffset

def dstPo : VmOffset := x.dstOffset - truncPage x.dstOffset

def partSize : VmOffset :=
  if x.Unaligned then
    let partSize := if x.dstPo > x.srcPo then pageMask + 1 - x.dstPo else pageMask + 1 - x.srcPo
    if partSize > x.amountLeft then x.amountLeft else partSize
  else pageMask + 1

/-- After a round. -/
def advance (partSize : VmOffset) : Locals :=
  ⟨x.srcOffset + partSize, x.dstOffset + partSize, x.amountLeft - partSize⟩

end Locals

section Rounds

open Pages

variable {Obj : Type*} [DecidableEq Obj]

def Call.dstPage (c : Call Obj) (x : Locals) : Page Obj := .own c.dst (truncPage x.dstOffset)

/-- `RetrySourceFault`: the source's page. -/
def getSource (c : Call Obj) (x : Locals) (answer : FaultAnswer (Option Obj)) (s : Pages Obj) :
    Except RoundEnd (Source Obj × Pages Obj) :=
  match c.src with
  | none => .ok (⟨none, none⟩, s)
  | some src =>
    if .own src (truncPage x.srcOffset) = c.dstPage x then .ok (⟨some (c.dstPage x), none⟩, s)
    else
      match answer with
      | .success below => .ok (s.srcFault src (truncPage x.srcOffset) below)
      | .interrupted => .error .interrupted
      | .memoryError error => .error (.error (if error ≠ .success then error else .memoryError))

/-- A source page that a fault came back with is released. -/
def cleanupSource (c : Call Obj) (x : Locals) (source : Source Obj) (s : Pages Obj) : Pages Obj :=
  match source.page with
  | none => s
  | some page => if page ≠ c.dstPage x then s.vmFaultCopyCleanup page source.top else s

/-- Copy what lies in both pages. -/
def copyPart (c : Call Obj) (x : Locals) (s : Pages Obj) : Pages Obj :=
  let dst := (c.dst, truncPage x.dstOffset)
  if x.Unaligned then
    match c.src with
    | none => s.vmPagePartZeroFill dst x.dstPo x.partSize
    | some src =>
      (s.vmPagePartCopy (src, truncPage x.srcOffset) x.srcPo dst x.dstPo x.partSize).setDirty
        (c.dstPage x)
  else
    match c.src with
    | none => s.vmPageZeroFill dst
    | some src => (s.vmPageCopy (src, truncPage x.srcOffset) dst).setDirty (c.dstPage x)

/-- One round of the loop. -/
def copyRound (c : Call Obj) (x : Locals) (a : Answers Obj) (s : Pages Obj) :
    RoundEnd × Pages Obj :=
  let page := c.dstPage x
  match a.dst with
  | .interrupted => (.interrupted, s)
  | .memoryError error => (.error (if error ≠ .success then error else .memoryError), s)
  | .success dirtied =>
    -- wired, the page need not stay busy
    let s := (s.dstFault c.dst (truncPage x.dstOffset) dirtied).vmPageWire page
    let s := s.pageWakeupDone page
    match getSource c x a.src s with
    | .error e => (e, s.vmFaultCopyDstCleanup page)
    | .ok (source, s) =>
      if ¬a.verified ∨ a.copyChanged then
        (.stop, (cleanupSource c x source s).vmFaultCopyDstCleanup page)
      else
        (.next x.partSize, (cleanupSource c x source (copyPart c x s)).vmFaultCopyDstCleanup page)

/-- The loop, with the number of rounds that it may make. -/
def copyLoop (c : Call Obj) (env : ℕ → Answers Obj) :
    ℕ → ℕ → Locals → Pages Obj → Option (Return × VmOffset × Pages Obj)
  | 0, _, _, _ => none
  | fuel + 1, k, x, s =>
    match copyRound c x (env k) s with
    | (.next partSize, s) =>
      let x := x.advance partSize
      if x.amountLeft > 0 then copyLoop c env fuel (k + 1) x s
      else some (.kern .success, c.size - x.amountLeft, s)
    | (.stop, s) => some (.kern .success, c.size - x.amountLeft, s)
    | (.interrupted, s) => some (.sendInterrupted, c.size - x.amountLeft, s)
    -- the size stays the requested one here
    | (.error kr, s) => some (.kern kr, c.size, s)

/-- `vm_fault_copy`, with the answers of the rest of the kernel in each round: the code, what is
left in `copy_size`, and the pages. -/
def vmFaultCopy (c : Call Obj) (env : ℕ → Answers Obj) (s : Pages Obj) :
    Option (Return × VmOffset × Pages Obj) :=
  copyLoop c env (c.size.toNat + 1) 0 ⟨c.srcOffset, c.dstOffset, c.size⟩ s

end Rounds

end VmFaultCopy

end MachVirtuTerm
