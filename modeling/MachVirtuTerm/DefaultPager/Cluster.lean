import Mathlib.Data.Multiset.AddSub
import MachVirtuTerm.Lib.Run

/-!
# Clusters of paging segments

A pager object keeps its pages in clusters of paging segments, which its map names. A write
looks its cluster up or allocates one while the map is locked, and is then on its way to the
device, with any number of others; when it is complete the map is looked at again, to mark the
pages or to record an error. Pages that were read are unmapped, and a cluster without pages is
freed.
-/

open Function

namespace MachVirtuTerm

/-- `struct vs_map`. -/
structure VsMap where
  /-- `vsmap_entry`: a cluster number, an error or `VSM_ENTRY_NULL`. -/
  entry : BitVec 23
  /-- `vsmap_psindex`. -/
  psindex : BitVec 8
  /-- `vsmap_error`. -/
  error : Bool
  /-- `vsmap_bmap`. -/
  bmap : BitVec 16
  /-- `vsmap_alloc`. -/
  alloc : BitVec 16
  deriving DecidableEq

def vsmEntryNull : BitVec 23 := 0x7fffff

namespace VsMap

/-- `VSM_CLR`. -/
def clr : VsMap := ⟨vsmEntryNull, 0, false, 0, 0⟩

/-- `VSM_ISCLR`. -/
def IsClr (vsm : VsMap) : Prop := vsm.entry = vsmEntryNull ∧ vsm.error = false

instance (vsm : VsMap) : Decidable vsm.IsClr := inferInstanceAs (Decidable (_ ∧ _))

/-- `VSM_SETERR`. -/
def setErr (vsm : VsMap) (err : BitVec 32) : VsMap :=
  { vsm with
    error := true
    entry := err.setWidth 23 }

/-- The paging segment and the cluster that an entry names. -/
def cluster (vsm : VsMap) : Option (BitVec 8 × ℕ) :=
  if vsm.error then none
  else if vsm.entry = vsmEntryNull then none
  else some (vsm.psindex, vsm.entry.toNat)

end VsMap

def nbby : ℕ := 8

/-- `struct paging_segment`: the clusters. -/
structure PagingSegment where
  /-- `ps_ncls`. -/
  ncls : ℕ
  /-- `ps_clcount`. -/
  clcount : ℕ
  /-- `ps_hint`. -/
  hint : ℕ
  /-- The bits of `ps_bmap`. -/
  bmap : ℕ → Bool

namespace PagingSegment

variable (ps : PagingSegment)

/-- `howmany(ps_ncls, NBBY)`. -/
def bytes : ℕ := (ps.ncls + (nbby - 1)) / nbby

/-- The first bit that is clear in a byte of the bitmap. -/
def clearBit (byteNum : ℕ) : Option ℕ :=
  (List.range nbby).find? fun bitNum => ps.bmap (byteNum * nbby + bitNum) = false

/-- The byte and the bit that `ps_allocate_cluster` comes to, from the hint on. -/
def scan : ℕ × ℕ :=
  match (List.range' ps.hint (ps.bytes - ps.hint)).find? fun byteNum =>
      (ps.clearBit byteNum).isSome with
  | some byteNum => (byteNum, (ps.clearBit byteNum).getD 0)
  | none => (max ps.hint ps.bytes, 0)

/-- `ps_allocate_cluster`, after space was reserved. -/
def allocate : ℕ × PagingSegment :=
  let (byteNum, bitNum) := ps.scan
  let cluster := byteNum * nbby + bitNum
  (cluster, { ps with
    hint := byteNum
    bmap := update ps.bmap cluster true })

/-- `ps_deallocate_cluster`; it panics at an invalid cluster number. -/
def deallocate (cluster : ℕ) : Option PagingSegment :=
  if cluster ≥ ps.ncls then none
  else
    some { ps with
      bmap := update ps.bmap cluster false
      clcount := ps.clcount + 1
      hint := if cluster / nbby < ps.hint then cluster / nbby else ps.hint }

end PagingSegment

/-- Pages of a cluster of an object, from one on. -/
structure ClusterPages where
  /-- The cluster of the object. -/
  cl : ℕ
  /-- The first page in it. -/
  first : ℕ
  /-- How many. -/
  count : ℕ
  deriving DecidableEq

/-- The bits of pages, as far as they are in a cluster. -/
def ClusterPages.bits (x : ClusterPages) (clsize : ℕ) : BitVec 16 :=
  (List.range' x.first (min x.count (clsize - x.first))).foldl (fun b i => b ||| 1#16 <<< i) 0

/-- An allocation in progress, with the map locked. -/
structure ClusterAllocation where
  /-- What it is for. -/
  pages : ClusterPages
  /-- The paging segment on which space is reserved. -/
  psindex : BitVec 8
  /-- The cluster, from when its bit is set. -/
  cluster : Option ℕ
  deriving DecidableEq

/-- A transfer of pages between an object and a device, which has not yet been completed. -/
structure ClusterTransfer (Vs : Type*) where
  /-- The object. -/
  vs : Vs
  /-- The pages. -/
  pages : ClusterPages
  /-- The paging segment. -/
  psindex : BitVec 8
  /-- The cluster in it. -/
  cluster : ℕ
  /-- The pages are written. -/
  isWrite : Bool
  deriving DecidableEq

/-- The byte of its segment at which a transfer begins, as `ps_clmap` returns it. -/
def ClusterTransfer.offset {Vs : Type*} (t : ClusterTransfer Vs) (clsize : ℕ) : BitVec 32 :=
  let newcl := BitVec.ofNat 32 (t.cluster * 4096 * clsize)
  let newoff := BitVec.ofNat 32 (t.pages.first % clsize * 4096)
  newcl + newoff

/-- The default pager: its paging segments, the maps of its objects and the transfers. -/
structure PagerState (Vs : Type*) where
  /-- `paging_segments`. -/
  segment : BitVec 8 → PagingSegment
  /-- `VSCLSIZE`. -/
  clsize : Vs → ℕ
  /-- The entries of the map of an object, as far as it has got memory for them. -/
  vsmap : Vs → ℕ → Option VsMap
  /-- The allocation for which the map of an object is locked. -/
  allocating : Vs → Option ClusterAllocation
  /-- The transfers. -/
  transfers : Multiset (ClusterTransfer Vs)

/-- The sections of the locks of maps and segments, and the ends of transfers. -/
inductive PagerAction (Vs : Type*)
  /-- `ps_clmap` to allocate, up to `ps_select_segment` if the entry is clear; `grow` tells which
  entries the map gets memory for, `select` which segment is found, and `write` whether the pages
  are written then. -/
  | clmapAlloc (vs : Vs) (pages : ClusterPages) (grow : ℕ → Bool) (select : Option (BitVec 8))
    (write : Bool)
  /-- `ps_allocate_cluster` sets the bit. -/
  | allocateCluster (vs : Vs)
  /-- `ps_clmap` sets the entry. -/
  | setEntry (vs : Vs) (write : Bool)
  /-- A write is complete, with an error or 0. -/
  | writeComplete (transfer : ClusterTransfer Vs) (error : BitVec 32)
  /-- The rest of a write that has not been done. -/
  | writeFailed (vs : Vs) (pages : ClusterPages) (error : BitVec 32)
  /-- `ps_clmap` to find pages that are read. -/
  | clmapFind (vs : Vs) (pages : ClusterPages)
  /-- A read is complete. -/
  | readComplete (transfer : ClusterTransfer Vs)
  /-- `ps_clunmap` in one cluster of an object. -/
  | clunmap (vs : Vs) (pages : ClusterPages)
  /-- `ps_vstruct_dealloc` for one entry. -/
  | vstructDealloc (vs : Vs) (cl : ℕ)

namespace PagerState

variable {Vs : Type*} [DecidableEq Vs] (s : PagerState Vs)

variable (vs : Vs)

/-- An entry of a map is set. -/
def setVsMap (cl : ℕ) (vsm : Option VsMap) : PagerState Vs :=
  { s with vsmap := update s.vsmap vs (update (s.vsmap vs) cl vsm) }

/-- A paging segment is changed. -/
def setSegment (psindex : BitVec 8) (ps : PagingSegment) : PagerState Vs :=
  { s with segment := update s.segment psindex ps }

variable (pages : ClusterPages)

/-- A transfer for an entry begins. -/
def start (vsm : VsMap) (isWrite : Bool) : PagerState Vs :=
  { s with
    transfers := ⟨vs, pages, vsm.psindex, vsm.entry.toNat, isWrite⟩ ::ₘ s.transfers }

/-- An entry whose pages are allocated, and the transfer if they are written. -/
def setAlloc (vsm : VsMap) (write : Bool) : PagerState Vs :=
  let vsm := { vsm with alloc := vsm.alloc ||| pages.bits (s.clsize vs) }
  let s := s.setVsMap vs pages.cl (some vsm)
  if write then s.start vs pages vsm true else s

/-- The map gets memory for more entries, which are clear. -/
def extend (grow : ℕ → Bool) : PagerState Vs :=
  { s with
    vsmap := update s.vsmap vs fun cl =>
      if (s.vsmap vs cl).isNone && grow cl then some .clr else s.vsmap vs cl }

/-- `ps_clmap` to allocate, up to `ps_select_segment`. -/
def clmapAlloc (grow : ℕ → Bool) (select : Option (BitVec 8))
    (write : Bool) : Option (PagerState Vs) :=
  if (s.allocating vs).isSome then none
  else
    let s := s.extend vs grow
    match s.vsmap vs pages.cl with
    | none => some s
    | some vsm =>
      if vsm.error then some s
      else if vsm.IsClr then
        match select with
        | none => some s
        | some psindex =>
          let ps := s.segment psindex
          if ps.clcount = 0 then none
          else
            some { s.setSegment psindex { ps with clcount := ps.clcount - 1 } with
              allocating := update s.allocating vs (some ⟨pages, psindex, none⟩) }
      else some (s.setAlloc vs pages vsm write)

/-- The end of a write in `ps_clmap`, and the cluster that is freed. -/
def complete (error : BitVec 32) : Option (PagerState Vs × Option (BitVec 8 × ℕ)) :=
  if (s.allocating vs).isSome then none
  else
    match s.vsmap vs pages.cl with
    | none => some (s, none)
    | some vsm =>
      if vsm.error then some (s, none)
      else if vsm.IsClr then
        if error = 0 then some (s, none)
        else some (s.setVsMap vs pages.cl (some (vsm.setErr error)), none)
      else if error = 0 then
        some (s.setVsMap vs pages.cl (some { vsm with bmap := vsm.bmap ||| pages.bits 16 }), none)
      else
        let off := vsm.entry
        let s := s.setVsMap vs pages.cl (some (vsm.setErr error))
        if off = 0 then some (s, none)
        else
          ((s.segment vsm.psindex).deallocate off.toNat).map fun ps =>
            (s.setSegment vsm.psindex ps, some (vsm.psindex, off.toNat))

/-- `ps_clunmap` in one cluster, and the cluster that is freed. -/
def clunmap : Option (PagerState Vs × Option (BitVec 8 × ℕ)) :=
  if (s.allocating vs).isSome then none
  else
    match s.vsmap vs pages.cl with
    | none => some (s, none)
    | some vsm =>
      if vsm.IsClr then some (s, none)
      else
        let bits := pages.bits (s.clsize vs)
        let vsm := { vsm with
          bmap := vsm.bmap &&& ~~~bits
          alloc := vsm.alloc &&& ~~~bits }
        if vsm.alloc = 0 then
          ((s.segment vsm.psindex).deallocate vsm.entry.toNat).map fun ps =>
            ((s.setSegment vsm.psindex ps).setVsMap vs pages.cl (some .clr),
              some (vsm.psindex, vsm.entry.toNat))
        else some (s.setVsMap vs pages.cl (some vsm), none)

/-- `ps_dealloc_vsmap` for one entry, whose memory is then freed. -/
def vstructDealloc (cl : ℕ) : Option (PagerState Vs × Option (BitVec 8 × ℕ)) :=
  if (s.allocating vs).isSome then none
  else
    match s.vsmap vs cl with
    | none => some (s, none)
    | some vsm =>
      let s := s.setVsMap vs cl none
      if ¬vsm.IsClr ∧ vsm.error = false then
        ((s.segment vsm.psindex).deallocate vsm.entry.toNat).map fun ps =>
          (s.setSegment vsm.psindex ps, some (vsm.psindex, vsm.entry.toNat))
      else some (s, none)

/-- Writes of an object are not complete. -/
def Writing : Prop := ∃ transfer ∈ s.transfers, transfer.vs = vs ∧ transfer.isWrite = true

instance (vs : Vs) : Decidable (s.Writing vs) := Multiset.decidableExistsMultiset

/-- A transfer for an entry is not complete. -/
def InFlight (cl : ℕ) : Prop :=
  ∃ transfer ∈ s.transfers, transfer.vs = vs ∧ transfer.pages.cl = cl

instance (vs : Vs) (cl : ℕ) : Decidable (s.InFlight vs cl) := Multiset.decidableExistsMultiset

/-- One section, and the cluster that is freed. An object goes away after its writes. -/
def step : PagerAction Vs → Option (PagerState Vs × Option (BitVec 8 × ℕ))
  | .clmapAlloc vs pages grow select write =>
    (s.clmapAlloc vs pages grow select write).map (·, none)
  | .allocateCluster vs =>
    match s.allocating vs with
    | some ⟨pages, psindex, none⟩ =>
      let (cluster, ps) := (s.segment psindex).allocate
      some ({ s.setSegment psindex ps with
          allocating := update s.allocating vs (some ⟨pages, psindex, some cluster⟩) },
        none)
    | _ => none
  | .setEntry vs write =>
    match s.allocating vs with
    | some ⟨pages, psindex, some cluster⟩ =>
      let s := { s with allocating := update s.allocating vs none }
      some (s.setAlloc vs pages ⟨BitVec.ofNat 23 cluster, psindex, false, 0, 0⟩ write, none)
    | _ => none
  | .writeComplete transfer error =>
    if transfer ∈ s.transfers ∧ transfer.isWrite = true then
      { s with transfers := s.transfers.erase transfer }.complete transfer.vs transfer.pages error
    else none
  | .writeFailed vs pages error => if error = 0 then none else s.complete vs pages error
  | .clmapFind vs pages =>
    if (s.allocating vs).isSome then none
    else
      match s.vsmap vs pages.cl with
      | none => some (s, none)
      | some vsm =>
        if vsm.error = true ∨ vsm.IsClr then some (s, none)
        else some (s.start vs pages vsm false, none)
  | .readComplete transfer =>
    if transfer ∈ s.transfers ∧ transfer.isWrite = false then
      some ({ s with transfers := s.transfers.erase transfer }, none)
    else none
  | .clunmap vs pages => s.clunmap vs pages
  | .vstructDealloc vs cl =>
    if s.Writing vs then none
    else s.vstructDealloc vs cl

/-- One section, labelled with what was done and the cluster that was freed. -/
def Step (s : PagerState Vs) (l : PagerAction Vs × Option (BitVec 8 × ℕ)) (s' : PagerState Vs) :
    Prop := s.step l.1 = some (s', l.2)

/-- The segments as they are set up, without any objects. -/
def init (clsize : Vs → ℕ) (ncls : BitVec 8 → ℕ) : PagerState Vs where
  segment psindex := ⟨ncls psindex, ncls psindex, 0, fun _ => false⟩
  clsize := clsize
  vsmap _ _ := none
  allocating _ := none
  transfers := 0

end PagerState

end MachVirtuTerm
