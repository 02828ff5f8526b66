import MachVirtuTerm.DefaultPager.Cluster
import MachVirtuTerm.Mach.VmParam

/-!
# The map of clusters of an object

The map of a small object is an array of entries. That of a larger one is an array of pointers
to blocks of entries, which are allocated when they are needed. The functions here come to
`none` where they access an array outside of the memory allocated for it.
-/

open List
open BitVec hiding not_not

namespace MachVirtuTerm

/-- `CLMAP_THRESHOLD`, in bytes. -/
def clmapThreshold : BitVec 32 := 512

def clmapEntries : ℕ := 64

/-- `CLMAP_SIZE`, in bytes. -/
def clmapSize (ncls : BitVec 32) : BitVec 32 := ncls * 8

def indirectClmapEntries (ncls : BitVec 32) : BitVec 32 := (ncls - 1) / 64 + 1

/-- `INDIRECT_CLMAP_SIZE`, in bytes. -/
def indirectClmapSize (ncls : BitVec 32) : BitVec 32 := indirectClmapEntries ncls * 4

def IndirectClmap (size : BitVec 32) : Prop := clmapSize size > clmapThreshold

instance (size : BitVec 32) : Decidable (IndirectClmap size) := inferInstanceAs (Decidable (_ > _))

/-- `vs_dmap` or `vs_imap`, as `vs_indirect` tells. -/
inductive ClusterMap
  | direct (dmap : List VsMap)
  | indirect (imap : List (Option (List VsMap)))

/-- `struct vstruct`: the map. -/
structure Vstruct where
  /-- `vs_clshift`. -/
  clshift : ℕ
  /-- `vs_size`, in clusters. -/
  size : BitVec 32
  map : ClusterMap

namespace Vstruct

/-- `VSCLSIZE`. -/
def clsize (vs : Vstruct) : ℕ := 1 <<< vs.clshift

/-- A new array of entries, of which the first ones are cleared. -/
def newDmap (entries : ℕ) (cleared : BitVec 32) : Option (List VsMap) :=
  if cleared.toInt ≤ entries then some (List.replicate entries .clr) else none

/-- `ps_vstruct_create`, with the result of the `kalloc` of the map: the object, if there is
memory for it. -/
def psVstructCreate (size : BitVec 32) (clshift : ℕ) (kalloc : Bool) : Option (Option Vstruct) :=
  let vsSize := (roundPage size / 4096 - 1) >>> clshift + 1
  if ¬kalloc then some none
  else if IndirectClmap vsSize then
    some (some ⟨clshift, vsSize,
      .indirect (List.replicate (indirectClmapSize vsSize / 4).toNat none)⟩)
  else
    (newDmap (clmapSize vsSize / 8).toNat vsSize).map fun dmap =>
      some ⟨clshift, vsSize, .direct dmap⟩

/-- The entries of an old array at the beginning of a new one of some length, the rest clear. -/
def copyEntries {α : Type*} (old : List α) (count length : ℕ) (clear : α) : Option (List α) :=
  if count ≤ old.length ∧ count ≤ length then
    some (old.take count ++ List.replicate (length - count) clear)
  else none

/-- `ps_map_extend`, with the results of its calls of `kalloc`: whether it succeeds. -/
def psMapExtend (vs : Vstruct) (newSize : BitVec 32) (kalloc : Bool × Bool) :
    Option (Bool × Vstruct) :=
  if newSize.sle vs.size then some (true, vs)
  else if IndirectClmap newSize then
    let entries := (indirectClmapSize newSize / 4).toNat
    match vs.map with
    | .indirect imap =>
      if indirectClmapSize newSize = indirectClmapSize vs.size then
        some (true, { vs with size := newSize })
      else if ¬kalloc.1 then some (false, vs)
      else
        (copyEntries imap (indirectClmapSize vs.size / 4).toNat entries none).map fun imap =>
          (true, { vs with size := newSize, map := .indirect imap })
    | .direct dmap =>
      if ¬kalloc.1 ∨ ¬kalloc.2 then some (false, vs)
      else
        (copyEntries dmap (clmapSize vs.size / 8).toNat clmapEntries .clr).map fun block =>
          (true, { vs with
            size := newSize
            map := .indirect ((List.replicate entries none).set 0 (some block)) })
  else if ¬kalloc.1 then some (false, vs)
  else
    match vs.map with
    -- a direct map is not made of an indirect one
    | .indirect _ => none
    | .direct dmap =>
      (copyEntries dmap (clmapSize vs.size / 8).toNat (clmapSize newSize / 8).toNat .clr).map
        fun dmap => (true, { vs with size := newSize, map := .direct dmap })

/-- A call of `ps_clmap`, with the results of the calls that it makes. -/
structure ClmapCall where
  offset : BitVec 32
  /-- The flag: `CL_ALLOC` or `CL_FIND`. -/
  alloc : Bool
  /-- In bytes, a multiple of the page size. -/
  size : BitVec 32
  error : BitVec 32
  /-- The calls of `kalloc` in `ps_map_extend`. -/
  extendKalloc : Bool × Bool
  /-- The call of `kalloc` for a block. -/
  blockKalloc : Bool
  /-- `ps_allocate_cluster`: the cluster and the paging segment. -/
  newcl : Option (BitVec 23 × BitVec 8)

/-- The cluster of an offset. -/
def cluster (vs : Vstruct) (offset : BitVec 32) : BitVec 32 := (offset / 4096) >>> vs.clshift

/-- The pages of a call, from the first one in the cluster on. -/
def ClmapCall.pages (x : ClmapCall) (vs : Vstruct) : ClusterPages where
  cl := (vs.cluster x.offset).toNat
  first := (x.offset / 4096).toNat % vs.clsize
  count := x.size.toNat / pageSize

/-- What a call does to the entry of the cluster. -/
def ClmapCall.entry (x : ClmapCall) (vs : Vstruct) (vsm : VsMap) : VsMap :=
  let setAlloc (vsm : VsMap) := { vsm with alloc := vsm.alloc ||| (x.pages vs).bits vs.clsize }
  if vsm.error then vsm
  else if vsm.IsClr then
    if x.alloc then
      match x.newcl with
      | none => vsm
      | some (newcl, psindex) => setAlloc ⟨newcl, psindex, false, 0, 0⟩
    else if x.error ≠ 0 then vsm.setErr x.error
    else vsm
  else if x.alloc then setAlloc vsm
  else if x.size = 0 then vsm
  else if x.error = 0 then { vsm with bmap := vsm.bmap ||| (x.pages vs).bits 16 }
  else vsm.setErr x.error

/-- Change an entry of an array. -/
def modifyAt {α : Type*} (l : List α) (i : ℕ) (f : α → α) : Option (List α) :=
  (l[i]?).map fun x => l.set i (f x)

/-- `ps_clmap` at a cluster that the map has. -/
def clmapEntry (vs : Vstruct) (x : ClmapCall) : Option Vstruct :=
  let cluster := (vs.cluster x.offset).toNat
  match vs.map with
  | .direct dmap =>
    (modifyAt dmap (cluster % clmapEntries) (x.entry vs)).map fun dmap =>
      { vs with map := .direct dmap }
  | .indirect imap =>
    let setBlock (block : List VsMap) :=
      (modifyAt block (cluster % clmapEntries) (x.entry vs)).map fun block =>
        { vs with map := .indirect (imap.set (cluster / clmapEntries) (some block)) }
    match imap[cluster / clmapEntries]? with
    | none => none
    | some none =>
      if x.alloc ∧ x.blockKalloc then setBlock (List.replicate clmapEntries .clr) else some vs
    | some (some block) => setBlock block

def psClmap (vs : Vstruct) (x : ClmapCall) : Option Vstruct :=
  let cluster := vs.cluster x.offset
  if cluster ≥ vs.size then
    if ¬x.alloc then some vs
    else
      match vs.psMapExtend (cluster + 1) x.extendKalloc with
      | none => none
      | some (false, vs) => some vs
      | some (true, vs) => vs.clmapEntry x
  else vs.clmapEntry x

/-! ## The pages of an object -/

/-- What a listing has come to. -/
structure Listing where
  numPages : ℕ
  offset : BitVec 32
  /-- The slots of `pages` that were filled. -/
  slots : List (BitVec 32)
  /-- The clusters whose entries were read. -/
  read : List ℕ
  deriving DecidableEq

/-- A page in a cluster. -/
def listPage (vsm : VsMap) (pagesSize : ℕ) (l : Listing) (k : ℕ) : Listing :=
  let l :=
    if vsm.bmap.getLsbD k then
      { l with
        numPages := l.numPages + 1
        slots := if l.numPages + 1 < pagesSize then l.slots ++ [l.offset] else l.slots }
    else l
  { l with offset := l.offset + 4096 }

/-- An entry in an array, of a cluster. -/
def listEntry (clsize pagesSize : ℕ) (l : Listing) (vsm : VsMap) (cluster : ℕ) : Listing :=
  let l := { l with read := l.read ++ [cluster] }
  if vsm.IsClr ∨ vsm.error then { l with offset := l.offset + 4096 * BitVec.ofNat 32 clsize }
  else (List.range clsize).foldl (listPage vsm pagesSize) l

/-- The loop through an array of entries, from a cluster on. -/
def listBlock (clsize pagesSize : ℕ) (block : List VsMap) (first : ℕ) (l : Listing) :
    Option Listing :=
  (List.range clmapEntries).foldlM (fun l j =>
    (block[j]?).map fun vsm => listEntry clsize pagesSize l vsm (first + j)) l

def psVstructAllocatedPages (vs : Vstruct) (pagesSize : ℕ) : Option Listing :=
  let l : Listing := ⟨0, 0, [], []⟩
  match vs.map with
  | .direct dmap => listBlock vs.clsize pagesSize dmap 0 l
  | .indirect imap =>
    (List.range (indirectClmapEntries vs.size).toNat).foldlM (fun l i =>
      match imap[i]? with
      | none => none
      | some none =>
        some { l with
          offset := l.offset + 4096 * BitVec.ofNat 32 clmapEntries * BitVec.ofNat 32 vs.clsize }
      | some (some block) => listBlock vs.clsize pagesSize block (clmapEntries * i) l) l

/-- `ps_vstruct_allocated_size`, whose loops are the same, without offsets and slots. -/
def psVstructAllocatedSize (vs : Vstruct) : Option (BitVec 32 × List ℕ) :=
  (vs.psVstructAllocatedPages 0).map fun l => (4096 * BitVec.ofNat 32 l.numPages, l.read)

/-! ## What the map stands for -/

/-- The entry of a cluster in an array that may be in two levels. -/
def entryAt (map : ClusterMap) (c : ℕ) : Option VsMap :=
  match map with
  | .direct dmap => dmap[c]?
  | .indirect imap =>
    match imap[c / clmapEntries]? with
    | none => none
    | some none => some .clr
    | some (some block) => block[c % clmapEntries]?

/-- The entry of a cluster of the object. -/
def denote (vs : Vstruct) (c : ℕ) : Option VsMap :=
  if c < vs.size.toNat then entryAt vs.map c else none

/-- The page is valid, in a cluster that is not in error. -/
def ValidPage (vs : Vstruct) (page : ℕ) : Prop :=
  ∃ vsm, vs.denote (page / vs.clsize) = some vsm ∧ vsm.error = false ∧
    vsm.bmap.getLsbD (page % vs.clsize) = true

end Vstruct

end MachVirtuTerm

/-!
# Growth of the map of clusters

The map of an object keeps its shape when it grows: an array of as many entries as there are
clusters, or as many pointers as there are blocks. Growing adds clear entries and leaves the
others as they are.
-/

namespace MachVirtuTerm

namespace Vstruct

variable {vs vs' : Vstruct} {n : BitVec 32}

/-! ## Sizes -/

/-- The blocks of a number of clusters. -/
def blocks (n : ℕ) : ℕ := (n - 1) / clmapEntries + 1

theorem toNat_clmapSize (hn : n.toNat ≤ 2 ^ 20) : (clmapSize n / 8).toNat = n.toNat := by
  rw [clmapSize, toNat_udiv, toNat_mul]
  simp only [BitVec.reduceToNat]
  omega

theorem indirectClmap_iff (hn : n.toNat ≤ 2 ^ 20) : IndirectClmap n ↔ clmapEntries < n.toNat := by
  rw [IndirectClmap, clmapSize, clmapThreshold, gt_iff_lt, lt_def, toNat_mul, clmapEntries]
  simp only [BitVec.reduceToNat]
  omega

theorem toNat_indirectClmapEntries (hpos : 0 < n.toNat) :
    (indirectClmapEntries n).toNat = blocks n.toNat := by
  have hsub : (n - 1).toNat = n.toNat - 1 :=
    toNat_sub_of_le (by rw [le_def]; exact hpos)
  rw [indirectClmapEntries, toNat_add, toNat_udiv, hsub, blocks, clmapEntries]
  simp only [BitVec.reduceToNat]
  omega

theorem toNat_indirectClmapSize (hn : n.toNat ≤ 2 ^ 20) (hpos : 0 < n.toNat) :
    (indirectClmapSize n / 4).toNat = blocks n.toNat := by
  have hentries := toNat_indirectClmapEntries hpos
  have hle : blocks n.toNat ≤ 2 ^ 20 := by
    rw [blocks, clmapEntries]
    omega
  rw [indirectClmapSize, toNat_udiv, toNat_mul, hentries]
  simp only [BitVec.reduceToNat]
  omega

/-! ## The shape -/

/-- The arrays of a map are as long as its size says. -/
inductive ShapeOk : ClusterMap → ℕ → Prop
  | direct {dmap : List VsMap} (hlength : dmap.length ≤ clmapEntries) :
    ShapeOk (.direct dmap) dmap.length
  | indirect {imap : List (Option (List VsMap))} {n : ℕ} (hn : clmapEntries < n)
    (hlength : imap.length = blocks n)
    (hblocks : ∀ block, some block ∈ imap → block.length = clmapEntries) :
    ShapeOk (.indirect imap) n

/-- A map is right: it has its shape, the entries behind its size are clear, and clear entries
have no valid pages. -/
structure Ok (vs : Vstruct) : Prop where
  clshift : vs.clshift ≤ 3
  pages_le : vs.size.toNat * vs.clsize ≤ 2 ^ 20
  shape : ShapeOk vs.map vs.size.toNat
  beyond : ∀ c vsm, vs.size.toNat ≤ c → entryAt vs.map c = some vsm → vsm = .clr
  clean : ∀ c vsm, entryAt vs.map c = some vsm → vsm.IsClr → vsm.bmap = 0

theorem clsize_pos (vs : Vstruct) : 0 < vs.clsize := by
  rw [clsize, Nat.shiftLeft_eq, one_mul]
  exact Nat.two_pow_pos _

theorem le_of_pages_le {n : ℕ} (h : n * vs.clsize ≤ 2 ^ 20) : n ≤ 2 ^ 20 :=
  (Nat.le_mul_of_pos_right n vs.clsize_pos).trans h

theorem Ok.size_le (h : vs.Ok) : vs.size.toNat ≤ 2 ^ 20 := le_of_pages_le h.pages_le

/-- The clusters of a size have entries. -/
theorem ShapeOk.isSome {map : ClusterMap} {n c : ℕ} (h : ShapeOk map n) (hc : c < n) :
    (entryAt map c).isSome := by
  cases h with
  | direct => simpa [entryAt] using hc
  | @indirect imap _ hn hlength hblocks =>
    have hblock : c / clmapEntries < imap.length := by
      rw [hlength, blocks, clmapEntries]
      omega
    rw [entryAt, List.getElem?_eq_getElem hblock]
    cases hentry : imap[c / clmapEntries] with
    | none => rfl
    | some block =>
      have hblockLength := hblocks block (hentry ▸ getElem_mem hblock)
      have hin : c % clmapEntries < block.length := by
        rw [hblockLength]
        exact Nat.mod_lt _ (by decide)
      simp [hin]

theorem ShapeOk.of_direct {dmap : List VsMap} {n : ℕ} (h : ShapeOk (.direct dmap) n) :
    dmap.length = n ∧ dmap.length ≤ clmapEntries := by
  cases h with
  | direct hlength => exact ⟨rfl, hlength⟩

theorem ShapeOk.of_indirect {imap : List (Option (List VsMap))} {n : ℕ}
    (h : ShapeOk (.indirect imap) n) : clmapEntries < n ∧ imap.length = blocks n ∧
      ∀ block, some block ∈ imap → block.length = clmapEntries := by
  cases h with
  | indirect hn hlength hblocks => exact ⟨hn, hlength, hblocks⟩

/-- Where entries differ, a new one is clear. -/
def Grows (map map' : ClusterMap) : Prop :=
  ∀ c, entryAt map' c = entryAt map c ∨ entryAt map c = none ∧ entryAt map' c = some .clr

theorem Grows.refl (map : ClusterMap) : Grows map map := fun _ => .inl rfl

/-- A map that grows is right if its shape is. -/
theorem Ok.grow (h : vs.Ok) {map : ClusterMap} (hgrows : Grows vs.map map)
    (hn : n.toNat * vs.clsize ≤ 2 ^ 20) (hle : vs.size.toNat ≤ n.toNat)
    (hshape : ShapeOk map n.toNat) : ({ vs with size := n, map } : Vstruct).Ok where
  clshift := h.clshift
  pages_le := hn
  shape := hshape
  beyond := by
    intro c vsm hc hentry
    obtain hold | ⟨-, hnew⟩ := hgrows c
    · exact h.beyond c vsm (hle.trans hc) (hold ▸ hentry)
    · exact Option.some.inj (hentry.symm.trans hnew)
  clean := by
    intro c vsm hentry hclr
    obtain hold | ⟨-, hnew⟩ := hgrows c
    · exact h.clean c vsm (hold ▸ hentry) hclr
    · rw [Option.some.inj (hentry.symm.trans hnew)]
      rfl

/-- A map that grows denotes the entries that it denoted, and clear ones for new clusters. -/
theorem Ok.denote_grow (h : vs.Ok) {map : ClusterMap} (hgrows : Grows vs.map map)
    (hle : vs.size.toNat ≤ n.toNat) (hshape : ShapeOk map n.toNat) (c : ℕ) :
    (c < vs.size.toNat → ({ vs with size := n, map } : Vstruct).denote c = vs.denote c) ∧
      (vs.size.toNat ≤ c → c < n.toNat →
        ({ vs with size := n, map } : Vstruct).denote c = some .clr) := by
  constructor
  · intro hc
    have hsome := h.shape.isSome hc
    rw [denote, denote, if_pos hc, if_pos (hc.trans_le hle)]
    refine (hgrows c).resolve_right fun hnew => ?_
    rw [hnew.1] at hsome
    cases hsome
  · intro hc hlt
    rw [denote, if_pos hlt]
    obtain hold | ⟨-, hnew⟩ := hgrows c
    · obtain ⟨vsm, hvsm⟩ := Option.isSome_iff_exists.mp (hshape.isSome hlt)
      change entryAt map c = _
      rw [hvsm, h.beyond c vsm hc (hold ▸ hvsm)]
    · exact hnew

/-! ## Growth -/

theorem getElem?_append_replicate {α : Type*} (l : List α) (k : ℕ) (x : α) (c : ℕ) :
    (l ++ List.replicate k x)[c]? = l[c]? ∨
      l[c]? = none ∧ (l ++ List.replicate k x)[c]? = some x := by
  by_cases hc : c < l.length
  · exact .inl (getElem?_append_left hc)
  · have hnone : l[c]? = none := List.getElem?_eq_none (not_lt.mp hc)
    rw [getElem?_append_right (not_lt.mp hc), getElem?_replicate]
    split
    · exact .inr ⟨hnone, rfl⟩
    · exact .inl hnone.symm

/-- An array is copied into a longer one. -/
theorem copyEntries_eq {α : Type*} {old : List α} {length : ℕ} (h : old.length ≤ length) (x : α) :
    copyEntries old old.length length x = some (old ++ List.replicate (length - old.length) x) := by
  rw [copyEntries, if_pos ⟨le_rfl, h⟩, take_length]

theorem grows_direct (dmap : List VsMap) (k : ℕ) :
    Grows (.direct dmap) (.direct (dmap ++ List.replicate k .clr)) :=
  getElem?_append_replicate dmap k .clr

theorem grows_indirect (imap : List (Option (List VsMap))) (k : ℕ) :
    Grows (.indirect imap) (.indirect (imap ++ List.replicate k none)) := by
  intro c
  simp only [entryAt]
  obtain heq | ⟨hnone, hnew⟩ := getElem?_append_replicate imap k none (c / clmapEntries)
  · exact .inl (by rw [heq])
  · exact .inr ⟨by rw [hnone], by rw [hnew]⟩

/-- A direct map becomes the first block of an indirect one. -/
theorem grows_block {dmap : List VsMap} (hlength : dmap.length ≤ clmapEntries) (k : ℕ) :
    Grows (.direct dmap) (.indirect
      (some (dmap ++ List.replicate (clmapEntries - dmap.length) .clr) ::
        List.replicate k none)) := by
  intro c
  by_cases hc : c < clmapEntries
  · have hentry : entryAt (.indirect
        (some (dmap ++ List.replicate (clmapEntries - dmap.length) .clr) ::
          List.replicate k none)) c =
            (dmap ++ List.replicate (clmapEntries - dmap.length) .clr)[c]? := by
      simp [entryAt, Nat.div_eq_of_lt hc, Nat.mod_eq_of_lt hc]
    rw [hentry]
    exact getElem?_append_replicate dmap _ .clr c
  · have hnone : dmap[c]? = none := List.getElem?_eq_none (hlength.trans (not_lt.mp hc))
    obtain ⟨b, hb⟩ := Nat.exists_eq_succ_of_ne_zero
      (Nat.div_pos (not_lt.mp hc) (by decide : 0 < clmapEntries)).ne'
    simp only [entryAt, hb, getElem?_cons_succ, getElem?_replicate]
    split
    · rename_i hsplit
      split at hsplit
      · cases hsplit
      · exact .inl hnone.symm
    · exact .inr ⟨hnone, rfl⟩
    · rename_i hsplit
      split at hsplit <;> cases hsplit

/-- What `ps_map_extend` leaves: the map is as it was, or it denotes what it denoted and clear
entries for the new clusters. -/
structure Extends (vs : Vstruct) (n : BitVec 32) (done : Bool) (vs' : Vstruct) : Prop where
  ok : vs'.Ok
  clshift : vs'.clshift = vs.clshift
  failed : done = false → vs' = vs
  size : done = true → vs'.size.toNat = max vs.size.toNat n.toNat
  old : ∀ c < vs.size.toNat, vs'.denote c = vs.denote c
  new : done = true → ∀ c, vs.size.toNat ≤ c → c < n.toNat → vs'.denote c = some .clr

theorem Ok.extends_refl (h : vs.Ok) : Extends vs n false vs :=
  ⟨h, rfl, fun _ => rfl, (nomatch ·), fun _ _ => rfl, (nomatch ·)⟩

/-- A map that grew to a larger size. -/
theorem Ok.extends_grow (h : vs.Ok) {map : ClusterMap} (hgrows : Grows vs.map map)
    (hn : n.toNat * vs.clsize ≤ 2 ^ 20) (hlt : vs.size.toNat < n.toNat)
    (hshape : ShapeOk map n.toNat) : Extends vs n true { vs with size := n, map } where
  ok := h.grow hgrows hn hlt.le hshape
  clshift := rfl
  failed := (nomatch ·)
  size := fun _ => (max_eq_right hlt.le).symm
  old := fun c hc => (h.denote_grow hgrows hlt.le hshape c).1 hc
  new := fun _ c hc hcn => (h.denote_grow hgrows hlt.le hshape c).2 hc hcn

theorem sle_iff_of_le {x y : BitVec 32} (hx : x.toNat ≤ 2 ^ 20) (hy : y.toNat ≤ 2 ^ 20) :
    x.sle y = true ↔ x.toNat ≤ y.toNat := by
  rw [sle_iff_toInt_le, toInt_eq_toNat_of_lt (by omega), toInt_eq_toNat_of_lt (by omega)]
  exact Int.ofNat_le

theorem blocks_mono {m n : ℕ} (h : m ≤ n) : blocks m ≤ blocks n :=
  Nat.succ_le_succ (Nat.div_le_div_right (Nat.sub_le_sub_right h 1))

/-- An indirect map grows. -/
theorem Ok.extend_indirect (h : vs.Ok) {imap : List (Option (List VsMap))}
    (hmap : vs.map = .indirect imap) (hpages : n.toNat * vs.clsize ≤ 2 ^ 20)
    (hlt : vs.size.toNat < n.toNat) (kalloc : Bool × Bool) :
    ∃ done vs', vs.psMapExtend n kalloc = some (done, vs') ∧ Extends vs n done vs' := by
  have hn := le_of_pages_le hpages
  have hshape := h.shape
  rw [hmap] at hshape
  obtain ⟨hlarge, hlength, hblocks⟩ := hshape.of_indirect
  have hpos : 0 < vs.size.toNat := Nat.zero_lt_of_lt hlarge
  have hentries := toNat_indirectClmapSize hn (hpos.trans hlt)
  have hold := toNat_indirectClmapSize h.size_le hpos
  have hsle : ¬n.sle vs.size = true := by
    rw [sle_iff_of_le hn h.size_le]
    omega
  rw [psMapExtend, if_neg hsle, if_pos ((indirectClmap_iff hn).mpr (hlarge.trans hlt)), hmap]
  simp only
  by_cases hsame : indirectClmapSize n = indirectClmapSize vs.size
  · rw [if_pos hsame]
    refine ⟨true, _, rfl, h.extends_grow (hmap ▸ Grows.refl vs.map) hpages hlt ?_⟩
    refine .indirect (hlarge.trans hlt) ?_ hblocks
    rw [hlength, ← hold, ← hsame, hentries]
  · rw [if_neg hsame]
    by_cases hkalloc : kalloc.1
    · rw [if_neg (not_not.mpr hkalloc), hold, hentries, ← hlength,
        copyEntries_eq (hlength ▸ blocks_mono hlt.le), Option.map_some]
      refine ⟨true, _, rfl, h.extends_grow (hmap ▸ grows_indirect imap _) hpages hlt
        (.indirect (hlarge.trans hlt) ?_ fun block hblock => ?_)⟩
      · have hmono := blocks_mono hlt.le
        rw [length_append, length_replicate, hlength]
        omega
      · refine hblocks block ((mem_append.mp hblock).resolve_right fun hin => ?_)
        cases eq_of_mem_replicate hin
    · rw [if_pos hkalloc]
      exact ⟨false, vs, rfl, h.extends_refl⟩

/-- A direct map grows. -/
theorem Ok.extend_direct (h : vs.Ok) {dmap : List VsMap} (hmap : vs.map = .direct dmap)
    (hpages : n.toNat * vs.clsize ≤ 2 ^ 20) (hlt : vs.size.toNat < n.toNat)
    (kalloc : Bool × Bool) :
    ∃ done vs', vs.psMapExtend n kalloc = some (done, vs') ∧ Extends vs n done vs' := by
  have hn := le_of_pages_le hpages
  have hshape := h.shape
  rw [hmap] at hshape
  obtain ⟨hlength, hsmall⟩ := hshape.of_direct
  have hsle : ¬n.sle vs.size = true := by
    rw [sle_iff_of_le hn h.size_le]
    omega
  rw [psMapExtend, if_neg hsle, hmap]
  simp only
  rw [toNat_clmapSize h.size_le, ← hlength]
  by_cases hindirect : IndirectClmap n
  · have hlarge := (indirectClmap_iff hn).mp hindirect
    rw [if_pos hindirect]
    by_cases hkalloc : ¬kalloc.1 ∨ ¬kalloc.2
    · rw [if_pos hkalloc]
      exact ⟨false, vs, rfl, h.extends_refl⟩
    · have hentries := toNat_indirectClmapSize hn (by omega)
      have hset : (List.replicate (blocks n.toNat) (none : Option (List VsMap))).set 0
          (some (dmap ++ List.replicate (clmapEntries - dmap.length) .clr)) =
            some (dmap ++ List.replicate (clmapEntries - dmap.length) .clr) ::
              List.replicate ((n.toNat - 1) / clmapEntries) none := rfl
      rw [if_neg hkalloc, copyEntries_eq hsmall, Option.map_some, hentries, hset]
      refine ⟨true, _, rfl, h.extends_grow (hmap ▸ grows_block hsmall _) hpages hlt
        (.indirect hlarge ?_ fun block hblock => ?_)⟩
      · rw [length_cons, length_replicate, blocks]
      · obtain heq | hin := mem_cons.mp hblock
        · cases heq
          rw [length_append, length_replicate]
          omega
        · cases eq_of_mem_replicate hin
  · have hdirect : n.toNat ≤ clmapEntries := not_lt.mp fun hlarge =>
      hindirect ((indirectClmap_iff hn).mpr hlarge)
    rw [if_neg hindirect]
    by_cases hkalloc : kalloc.1
    · rw [if_neg (not_not.mpr hkalloc), toNat_clmapSize hn, copyEntries_eq (by omega),
        Option.map_some]
      have hnew : (dmap ++ List.replicate (n.toNat - dmap.length) VsMap.clr).length = n.toNat := by
        rw [length_append, length_replicate]
        omega
      refine ⟨true, _, rfl, h.extends_grow (hmap ▸ grows_direct dmap _) hpages hlt ?_⟩
      have hshape' := ShapeOk.direct (hnew.le.trans hdirect)
      rwa [hnew] at hshape'
    · rw [if_pos hkalloc]
      exact ⟨false, vs, rfl, h.extends_refl⟩

/-- `ps_map_extend` accesses no array outside of its memory, leaves the entries of existing
clusters, and where it fails, leaves the map. -/
theorem Ok.psMapExtend (h : vs.Ok) (hpages : n.toNat * vs.clsize ≤ 2 ^ 20)
    (kalloc : Bool × Bool) :
    ∃ done vs', vs.psMapExtend n kalloc = some (done, vs') ∧ Extends vs n done vs' := by
  have hn := le_of_pages_le hpages
  by_cases hle : n.toNat ≤ vs.size.toNat
  · rw [Vstruct.psMapExtend, if_pos ((sle_iff_of_le hn h.size_le).mpr hle)]
    exact ⟨true, vs, rfl, h, rfl, fun _ => rfl, fun _ => (max_eq_left hle).symm, fun _ _ => rfl,
      fun _ c hc hcn => absurd hcn (by omega)⟩
  · cases hmap : vs.map with
    | direct dmap => exact h.extend_direct hmap hpages (by omega) kalloc
    | indirect imap => exact h.extend_indirect hmap hpages (by omega) kalloc

/-! ## Entries -/

/-- What a call leaves clear has no valid pages. -/
theorem ClmapCall.entry_clean {x : ClmapCall} {vsm : VsMap}
    (h : vsm.IsClr → vsm.bmap = 0) (hclr : (x.entry vs vsm).IsClr) :
    (x.entry vs vsm).bmap = 0 := by
  have hsetErr : ∀ (vsm : VsMap) (error : BitVec 32), ¬(vsm.setErr error).IsClr :=
    fun vsm error hclr => nomatch hclr.2
  unfold ClmapCall.entry at hclr ⊢
  by_cases herror : vsm.error = true
  · simp only [if_pos herror] at hclr ⊢
    exact h hclr
  · simp only [if_neg herror] at hclr ⊢
    by_cases hisClr : vsm.IsClr
    · simp only [if_pos hisClr] at hclr ⊢
      by_cases halloc : x.alloc = true
      · simp only [if_pos halloc] at hclr ⊢
        cases hnew : x.newcl with
        | none => exact h hisClr
        | some new =>
          rfl
      · simp only [if_neg halloc] at hclr ⊢
        split
        · rw [if_pos ‹_›] at hclr
          exact absurd hclr (hsetErr _ _)
        · exact h hisClr
    · simp only [if_neg hisClr] at hclr ⊢
      by_cases halloc : x.alloc = true
      · rw [if_pos halloc] at hclr
        exact absurd hclr hisClr
      · rw [if_neg halloc] at hclr
        split at hclr
        · exact absurd hclr hisClr
        · split at hclr
          · exact absurd hclr hisClr
          · exact absurd hclr (hsetErr _ _)

/-- A map in which one entry changes is right. -/
theorem Ok.setEntry (h : vs.Ok) {map : ClusterMap} {cl : ℕ} (hcl : cl < vs.size.toNat)
    (hshape : ShapeOk map vs.size.toNat)
    (hother : ∀ c ≠ cl, entryAt map c = entryAt vs.map c)
    (hclean : ∀ vsm, entryAt map cl = some vsm → vsm.IsClr → vsm.bmap = 0) :
    ({ vs with map } : Vstruct).Ok where
  clshift := h.clshift
  pages_le := h.pages_le
  shape := hshape
  beyond := by
    intro c vsm hc hentry
    have hne : c ≠ cl := (hcl.trans_le hc).ne'
    exact h.beyond c vsm hc (hother c hne ▸ hentry)
  clean := by
    intro c vsm hentry
    obtain rfl | hne := eq_or_ne c cl
    · exact hclean vsm hentry
    · exact h.clean c vsm (hother c hne ▸ hentry)

/-- What `ps_clmap` does at a cluster of the map: at most the entry of the cluster changes. -/
structure Marks (vs : Vstruct) (x : ClmapCall) (vs' : Vstruct) : Prop where
  ok : vs'.Ok
  clshift : vs'.clshift = vs.clshift
  size : vs'.size = vs.size
  other : ∀ c ≠ (vs.cluster x.offset).toNat, entryAt vs'.map c = entryAt vs.map c

/-- In a direct map. -/
theorem Ok.clmapEntry_direct (h : vs.Ok) {dmap : List VsMap} (hmap : vs.map = .direct dmap)
    {x : ClmapCall} (hcl : (vs.cluster x.offset).toNat < vs.size.toNat) :
    ∃ vs', vs.clmapEntry x = some vs' ∧ Marks vs x vs' := by
  have hshape := h.shape
  have hclean := h.clean (vs.cluster x.offset).toNat
  rw [hmap] at hshape hclean
  obtain ⟨hlength, hsmall⟩ := hshape.of_direct
  rw [clmapEntry, hmap]
  simp only
  generalize hcluster : (vs.cluster x.offset).toNat = cl at hcl hclean
  obtain ⟨vsm, hvsm⟩ := Option.isSome_iff_exists.mp (show (dmap[cl]?).isSome by simp; omega)
  rw [Nat.mod_eq_of_lt (by omega), modifyAt, hvsm, Option.map_some, Option.map_some]
  refine ⟨_, rfl, h.setEntry hcl ?_ (fun c hc => ?_) fun vsm' hvsm' => ?_, rfl, rfl, fun c hc => ?_⟩
  · have hnew := @ShapeOk.direct (dmap.set cl (x.entry vs vsm)) (by simpa using hsmall)
    rwa [length_set, hlength] at hnew
  · rw [hmap]
    exact getElem?_set_ne (Ne.symm hc)
  · simp only [entryAt, getElem?_set_self (show cl < dmap.length by omega),
      Option.some.injEq] at hvsm'
    subst hvsm'
    exact x.entry_clean (hclean vsm hvsm)
  · rw [hmap]
    exact getElem?_set_ne (by omega)

/-- In an indirect map, in a block. -/
theorem Ok.clmapEntry_block (h : vs.Ok) {imap : List (Option (List VsMap))}
    (hmap : vs.map = .indirect imap) {x : ClmapCall}
    (hcl : (vs.cluster x.offset).toNat < vs.size.toNat) {block : List VsMap}
    (hlength : block.length = clmapEntries)
    (hin : (vs.cluster x.offset).toNat / clmapEntries < imap.length)
    (hblock : ∀ c, c / clmapEntries = (vs.cluster x.offset).toNat / clmapEntries →
      block[c % clmapEntries]? = entryAt vs.map c) :
    ∃ vs', ((modifyAt block ((vs.cluster x.offset).toNat % clmapEntries) (x.entry vs)).map
      fun block => { vs with
        map := .indirect (imap.set ((vs.cluster x.offset).toNat / clmapEntries) (some block)) }) =
          some vs' ∧ Marks vs x vs' := by
  have hshape := h.shape
  have hclean := h.clean (vs.cluster x.offset).toNat
  generalize hcluster : (vs.cluster x.offset).toNat = cl at hcl hin hblock hclean ⊢
  have hmod : cl % clmapEntries < block.length := by
    rw [hlength]
    exact Nat.mod_lt _ (by decide)
  obtain ⟨vsm, hvsm⟩ := Option.isSome_iff_exists.mp
    (show (block[cl % clmapEntries]?).isSome by simpa using hmod)
  rw [modifyAt, hvsm, Option.map_some, Option.map_some]
  have hother : ∀ c ≠ cl, entryAt (.indirect (imap.set (cl / clmapEntries)
      (some (block.set (cl % clmapEntries) (x.entry vs vsm))))) c = entryAt vs.map c := by
    intro c hc
    by_cases hsame : c / clmapEntries = cl / clmapEntries
    · have hne : cl % clmapEntries ≠ c % clmapEntries := by
        intro heq
        have hcdiv := Nat.div_add_mod c clmapEntries
        have hcldiv := Nat.div_add_mod cl clmapEntries
        rw [hsame] at hcdiv
        omega
      rw [← hblock c hsame, entryAt, hsame, getElem?_set_self hin]
      exact getElem?_set_ne hne
    · rw [hmap, entryAt, entryAt, getElem?_set_ne (Ne.symm hsame)]
  refine ⟨_, rfl, h.setEntry hcl ?_ hother fun vsm' hvsm' => ?_, rfl, rfl, hcluster ▸ hother⟩
  · rw [hmap] at hshape
    obtain ⟨hlarge, himap, hblocks⟩ := hshape.of_indirect
    refine .indirect hlarge ((length_set ..).trans himap) fun block' hblock' => ?_
    obtain hold | heq := mem_or_eq_of_mem_set hblock'
    · exact hblocks block' hold
    · cases heq
      rw [length_set, hlength]
  · simp only [entryAt, getElem?_set_self hin, getElem?_set_self hmod, Option.some.injEq] at hvsm'
    subst hvsm'
    exact x.entry_clean (hclean vsm (by rw [← hblock cl rfl, hvsm]))

/-- `ps_clmap` at a cluster that the map has. -/
theorem Ok.clmapEntry (h : vs.Ok) {x : ClmapCall}
    (hcl : (vs.cluster x.offset).toNat < vs.size.toNat) :
    ∃ vs', vs.clmapEntry x = some vs' ∧ Marks vs x vs' := by
  cases hmap : vs.map with
  | direct dmap => exact h.clmapEntry_direct hmap hcl
  | indirect imap =>
    have hshape := h.shape
    rw [hmap] at hshape
    obtain ⟨-, hlength, hblocks⟩ := hshape.of_indirect
    have hin : (vs.cluster x.offset).toNat / clmapEntries < imap.length := by
      rw [hlength, blocks, clmapEntries]
      omega
    rw [Vstruct.clmapEntry, hmap]
    simp only [List.getElem?_eq_getElem hin]
    cases hentry : imap[(vs.cluster x.offset).toNat / clmapEntries] with
    | none =>
      simp only
      split
      · refine h.clmapEntry_block hmap hcl length_replicate hin fun c hc => ?_
        rw [hmap, entryAt, hc, List.getElem?_eq_getElem hin, hentry, getElem?_replicate,
          if_pos (Nat.mod_lt _ (by decide))]
      · exact ⟨vs, rfl, h, rfl, rfl, fun _ _ => rfl⟩
    | some block =>
      have hmem : some block ∈ imap := hentry ▸ getElem_mem hin
      refine h.clmapEntry_block hmap hcl (hblocks block hmem) hin fun c hc => ?_
      rw [hmap, entryAt, hc, List.getElem?_eq_getElem hin, hentry]

/-- A call changes at most the entry of its cluster, and adds clear ones. -/
structure Calls (vs : Vstruct) (x : ClmapCall) (vs' : Vstruct) : Prop where
  ok : vs'.Ok
  clshift : vs'.clshift = vs.clshift
  old : ∀ c < vs.size.toNat, c ≠ (vs.cluster x.offset).toNat → vs'.denote c = vs.denote c

theorem toNat_cluster (vs : Vstruct) (offset : BitVec 32) :
    (vs.cluster offset).toNat = offset.toNat / 4096 / vs.clsize := by
  rw [cluster, toNat_ushiftRight, Nat.shiftRight_eq_div_pow, toNat_udiv, clsize,
    Nat.shiftLeft_eq, one_mul]
  rfl

/-- The pages up to the end of the cluster of an offset. -/
theorem cluster_pages_le (h : vs.clshift ≤ 3) (offset : BitVec 32) :
    ((vs.cluster offset).toNat + 1) * vs.clsize ≤ 2 ^ 20 := by
  have hoffset := offset.isLt
  rw [toNat_cluster, clsize, Nat.shiftLeft_eq, one_mul]
  obtain hshift | hshift | hshift | hshift :
      vs.clshift = 0 ∨ vs.clshift = 1 ∨ vs.clshift = 2 ∨ vs.clshift = 3 := by omega
  all_goals
    rw [hshift]
    omega

/-- `ps_clmap` accesses no array outside of its memory and leaves the entries of other clusters. -/
theorem Ok.psClmap (h : vs.Ok) {x : ClmapCall} :
    ∃ vs', vs.psClmap x = some vs' ∧ Calls vs x vs' := by
  have hpages := cluster_pages_le h.clshift x.offset
  have hlt := le_of_pages_le hpages
  rw [Vstruct.psClmap]
  simp only [ge_iff_le, le_def]
  by_cases hlarge : vs.size.toNat ≤ (vs.cluster x.offset).toNat
  · rw [if_pos hlarge]
    by_cases halloc : x.alloc
    · rw [if_neg (not_not.mpr halloc)]
      have hadd : (vs.cluster x.offset + 1).toNat = (vs.cluster x.offset).toNat + 1 := by
        rw [toNat_add]
        simp only [BitVec.reduceToNat]
        omega
      obtain ⟨done, t, heq, hextends⟩ := h.psMapExtend (hadd.symm ▸ hpages) x.extendKalloc
      rw [heq]
      cases done with
      | false => exact ⟨t, rfl, hextends.ok, hextends.clshift, fun c hc _ => hextends.old c hc⟩
      | true =>
        have hsame : t.cluster x.offset = vs.cluster x.offset := by
          rw [cluster, cluster, hextends.clshift]
        have hsize := hextends.size rfl
        obtain ⟨vs', heq', hmarks⟩ := hextends.ok.clmapEntry (by rw [hsame]; omega)
        refine ⟨vs', heq', hmarks.ok, hmarks.clshift.trans hextends.clshift, fun c hc hne => ?_⟩
        rw [← hextends.old c hc, denote, denote, hmarks.size,
          hmarks.other c (by rw [hsame]; exact hne)]
    · rw [if_pos halloc]
      exact ⟨vs, rfl, h, rfl, fun _ _ _ => rfl⟩
  · rw [if_neg hlarge]
    obtain ⟨vs', heq, hmarks⟩ := h.clmapEntry (not_le.mp hlarge)
    refine ⟨vs', heq, hmarks.ok, hmarks.clshift, fun c _ hne => ?_⟩
    rw [denote, denote, hmarks.size, hmarks.other c hne]

end Vstruct

end MachVirtuTerm
