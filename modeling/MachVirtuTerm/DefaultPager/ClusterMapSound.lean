import MachVirtuTerm.DefaultPager.ClusterMap
import MachVirtuTerm.Lib.RangeFold

/-!
# The pages that the map lists

Both routines that list the pages go through whole arrays of `CLMAP_ENTRIES` entries, also where
the map has fewer. They report the pages that are valid, in order, as far as there is room.
-/

open List

namespace MachVirtuTerm

open List

namespace Vstruct

variable {vs : Vstruct} {map : ClusterMap} {clsize pagesSize : ℕ} {l : Listing}

/-- A page is valid by the entries of a map. -/
def validAt (map : ClusterMap) (clsize page : ℕ) : Bool :=
  match entryAt map (page / clsize) with
  | none => false
  | some vsm => !vsm.error && vsm.bmap.getLsbD (page % clsize)

theorem validAt_eq {page : ℕ} {vsm : VsMap} (h : entryAt map (page / clsize) = some vsm) :
    validAt map clsize page = (!vsm.error && vsm.bmap.getLsbD (page % clsize)) := by
  rw [validAt, h]

theorem validPage_iff {page : ℕ} (hpage : page / vs.clsize < vs.size.toNat) :
    vs.ValidPage page ↔ validAt vs.map vs.clsize page = true := by
  rw [ValidPage, validAt, denote, if_pos hpage]
  cases entryAt vs.map (page / vs.clsize) with
  | none => simp
  | some vsm => simp

instance (vs : Vstruct) : DecidablePred vs.ValidPage := fun page =>
  if hpage : page / vs.clsize < vs.size.toNat then decidable_of_iff _ (validPage_iff hpage).symm
  else .isFalse (by
    rintro ⟨vsm, hvsm, -⟩
    rw [denote, if_neg hpage] at hvsm
    cases hvsm)

/-- The valid pages of an object, in order. -/
def validPages (vs : Vstruct) : List ℕ :=
  (range (vs.size.toNat * vs.clsize)).filter fun page => vs.ValidPage page

/-! ## The loops -/

/-- The valid pages below some page are listed. -/
structure Lists (valid : ℕ → Bool) (pagesSize : ℕ) (l : Listing) (p : ℕ) : Prop where
  numPages : l.numPages = ((range p).filter valid).length
  offset : l.offset = BitVec.ofNat 32 (4096 * p)
  slots : l.slots = (((range p).filter valid).take (pagesSize - 1)).map
    fun q => BitVec.ofNat 32 (4096 * q)

theorem filter_range_add {valid : ℕ → Bool} {p n : ℕ} (h : ∀ k < n, valid (p + k) = false) :
    (range (p + n)).filter valid = (range p).filter valid := by
  rw [range_add, filter_append, append_right_eq_self, filter_eq_nil_iff]
  intro q hq
  obtain ⟨k, hk, rfl⟩ := mem_map.mp hq
  rw [h k (mem_range.mp hk)]
  exact Bool.false_ne_true

/-- Pages that are not valid are skipped. -/
theorem Lists.skip {valid : ℕ → Bool} {p n : ℕ} (h : Lists valid pagesSize l p)
    (hvalid : ∀ k < n, valid (p + k) = false) {l' : Listing} (hnum : l'.numPages = l.numPages)
    (hslots : l'.slots = l.slots) (hoffset : l'.offset = l.offset + BitVec.ofNat 32 (4096 * n)) :
    Lists valid pagesSize l' (p + n) where
  numPages := by rw [hnum, filter_range_add hvalid, h.numPages]
  offset := by rw [hoffset, h.offset, ← BitVec.ofNat_add, Nat.mul_add]
  slots := by rw [hslots, filter_range_add hvalid, h.slots]

/-- One page more. -/
theorem Lists.page {valid : ℕ → Bool} {p k : ℕ} (h : Lists valid pagesSize l p) {vsm : VsMap}
    (hbit : vsm.bmap.getLsbD k = valid p) :
    Lists valid pagesSize (listPage vsm pagesSize l k) (p + 1) := by
  have hoffset : l.offset + 4096 = BitVec.ofNat 32 (4096 * (p + 1)) := by
    rw [h.offset, Nat.mul_add, BitVec.ofNat_add]
    rfl
  cases hvalid : valid p with
  | false =>
    refine h.skip (fun q hq => ?_) ?_ ?_ ?_
    · rw [Nat.lt_one_iff.mp hq]
      exact hvalid
    all_goals
      rw [listPage, hbit, hvalid]
      rfl
  | true =>
    have hfilter : (range (p + 1)).filter valid = (range p).filter valid ++ [p] := by
      rw [range_succ, filter_append]
      simp [hvalid]
    refine ⟨?_, ?_, ?_⟩
    · simp only [listPage, hbit, hvalid, if_true, hfilter, length_append, h.numPages]
      rfl
    · simp only [listPage, hbit, hvalid, if_true]
      exact hoffset
    · simp only [listPage, hbit, hvalid, if_true, hfilter, take_append, h.numPages, h.slots,
        h.offset, map_append]
      split
      · rename_i hroom
        rw [@take_of_length_le _ _ [p] (by simp; omega)]
        rfl
      · rename_i hfull
        have hzero : pagesSize - 1 - ((range p).filter valid).length = 0 := by omega
        rw [hzero, take_zero]
        simp

/-- The entry of a cluster. -/
theorem Lists.entry {c : ℕ} (h : Lists (validAt map clsize) pagesSize l (c * clsize))
    {vsm : VsMap} (hvsm : entryAt map c = some vsm) (hclean : vsm.IsClr → vsm.bmap = 0) :
    Lists (validAt map clsize) pagesSize (listEntry clsize pagesSize l vsm c)
      ((c + 1) * clsize) := by
  have hpage : ∀ k < clsize,
      validAt map clsize (c * clsize + k) = (!vsm.error && vsm.bmap.getLsbD k) := by
    intro k hk
    have hdiv : (c * clsize + k) / clsize = c := by
      rw [Nat.mul_comm, Nat.mul_add_div (Nat.zero_lt_of_lt hk), Nat.div_eq_of_lt hk, Nat.add_zero]
    rw [validAt_eq (hdiv.symm ▸ hvsm), Nat.mul_comm, Nat.mul_add_mod, Nat.mod_eq_of_lt hk]
  rw [listEntry, Nat.succ_mul]
  split
  · rename_i hskip
    refine h.skip (fun k hk => ?_) rfl rfl ?_
    · rw [hpage k hk]
      obtain hclr | herror := hskip
      · simp [hclean hclr]
      · simp [herror]
    · rw [BitVec.ofNat_mul]
      rfl
  · rename_i hlist
    have herror : vsm.error = false := by simpa using (not_or.mp hlist).2
    refine foldl_range_spec (fun k l => Lists (validAt map clsize) pagesSize l (c * clsize + k))
      ⟨h.numPages, h.offset, h.slots⟩ fun k hk l hl => ?_
    exact hl.page (by rw [hpage k hk, herror, Bool.not_false, Bool.true_and])

@[simp] theorem listPage_read (vsm : VsMap) (pagesSize : ℕ) (l : Listing) (k : ℕ) :
    (listPage vsm pagesSize l k).read = l.read := by
  rw [listPage]
  split <;> rfl

theorem listEntry_read (clsize pagesSize : ℕ) (l : Listing) (vsm : VsMap) (c : ℕ) :
    (listEntry clsize pagesSize l vsm c).read = l.read ++ [c] := by
  rw [listEntry]
  split
  · rfl
  · exact foldl_range_spec (fun _ (l' : Listing) => l'.read = l.read ++ [c]) (by rfl)
      fun k _ l' hl' => (listPage_read vsm pagesSize l' k).trans hl'

/-- There is an array for the entry of a cluster. -/
def Allocated (map : ClusterMap) (c : ℕ) : Prop :=
  match map with
  | .direct _ => True
  | .indirect imap => ∃ block, imap[c / clmapEntries]? = some (some block)

/-- A listing is at a cluster. -/
structure At (map : ClusterMap) (clsize pagesSize : ℕ) (l : Listing) (c : ℕ) : Prop where
  lists : Lists (validAt map clsize) pagesSize l (c * clsize)
  read : ∀ d, d ∈ l.read ↔ d < c ∧ Allocated map d

theorem At.start : At map clsize pagesSize ⟨0, 0, [], []⟩ 0 where
  lists := by
    rw [Nat.zero_mul]
    exact ⟨rfl, rfl, by simp⟩
  read := by simp

/-- The entry of a cluster. -/
theorem At.entry {c : ℕ} (h : At map clsize pagesSize l c) {vsm : VsMap}
    (hvsm : entryAt map c = some vsm) (hclean : vsm.IsClr → vsm.bmap = 0)
    (hallocated : Allocated map c) :
    At map clsize pagesSize (listEntry clsize pagesSize l vsm c) (c + 1) where
  lists := h.lists.entry hvsm hclean
  read := by
    intro d
    rw [listEntry_read, mem_append, h.read, mem_singleton, Nat.lt_succ_iff_lt_or_eq]
    constructor
    · rintro (⟨hlt, hd⟩ | rfl)
      · exact ⟨.inl hlt, hd⟩
      · exact ⟨.inr rfl, hallocated⟩
    · rintro ⟨hlt | rfl, hd⟩
      · exact .inl ⟨hlt, hd⟩
      · exact .inr rfl

/-- An array of entries. -/
theorem At.block {first : ℕ} (h : At map clsize pagesSize l first) {block : List VsMap}
    (hlength : block.length = clmapEntries)
    (hentry : ∀ j < clmapEntries, entryAt map (first + j) = block[j]?)
    (hallocated : ∀ j < clmapEntries, Allocated map (first + j))
    (hclean : ∀ c vsm, entryAt map c = some vsm → vsm.IsClr → vsm.bmap = 0) :
    ∃ l', listBlock clsize pagesSize block first l = some l' ∧
      At map clsize pagesSize l' (first + clmapEntries) := by
  refine foldlM_range_spec (fun j l => At map clsize pagesSize l (first + j)) h fun j hj l hl => ?_
  have hvsm : block[j]? = some (block.get ⟨j, hlength.symm ▸ hj⟩) :=
    getElem?_eq_getElem (hlength.symm ▸ hj)
  have hentry' := (hentry j hj).trans hvsm
  refine ⟨_, by rw [hvsm, Option.map_some], hl.entry hentry' (hclean _ _ hentry') (hallocated j hj)⟩

/-- A block that is not allocated. -/
theorem At.noBlock {imap : List (Option (List VsMap))} {i : ℕ}
    (h : At (.indirect imap) clsize pagesSize l (clmapEntries * i)) (hnone : imap[i]? = some none) :
    At (.indirect imap) clsize pagesSize
      { l with
        offset := l.offset + 4096 * BitVec.ofNat 32 clmapEntries * BitVec.ofNat 32 clsize }
      (clmapEntries * (i + 1)) where
  lists := by
    rw [Nat.mul_succ, Nat.add_mul]
    refine h.lists.skip (fun k hk => ?_) rfl rfl ?_
    · have hdiv : (clmapEntries * i * clsize + k) / clsize / clmapEntries = i := by
        have hpos : 0 < clsize := by
          by_contra hzero
          rw [Nat.eq_zero_of_not_pos hzero, Nat.mul_zero] at hk
          cases hk
        rw [Nat.mul_comm _ clsize, Nat.mul_add_div hpos, Nat.mul_add_div (by decide),
          Nat.div_eq_of_lt (Nat.div_lt_of_lt_mul (by rwa [Nat.mul_comm])), Nat.add_zero]
      rw [@validAt_eq _ _ _ .clr (by rw [entryAt, hdiv, hnone])]
      simp [VsMap.clr]
    · rw [BitVec.ofNat_mul, BitVec.ofNat_mul, ← BitVec.mul_assoc]
      rfl
  read := by
    intro d
    rw [h.read]
    refine ⟨fun hd => ⟨hd.1.trans_le (Nat.mul_le_mul_left _ i.le_succ), hd.2⟩, fun hd => ⟨?_, hd.2⟩⟩
    obtain ⟨hlt, block, hblock⟩ := hd
    by_contra hge
    have hdiv : d / clmapEntries = i := by
      rw [clmapEntries] at *
      omega
    rw [hdiv, hnone] at hblock
    cases hblock

/-- The listing of an object with a direct map. -/
theorem Ok.list_direct (h : vs.Ok) {dmap : List VsMap} (hmap : vs.map = .direct dmap)
    (hsize : vs.size.toNat = clmapEntries) (pagesSize : ℕ) :
    ∃ l, vs.psVstructAllocatedPages pagesSize = some l ∧
      At vs.map vs.clsize pagesSize l clmapEntries := by
  have hshape := h.shape
  have hclean := h.clean
  rw [hmap] at hshape hclean ⊢
  have hstart : At (.direct dmap) vs.clsize pagesSize ⟨0, 0, [], []⟩ 0 := At.start
  have hblock := hstart.block (hshape.of_direct.1.trans hsize)
    (fun j _ => by rw [Nat.zero_add]; rfl) (fun _ _ => trivial) hclean
  rw [Nat.zero_add] at hblock
  rw [psVstructAllocatedPages, hmap]
  exact hblock

/-- The listing reads behind a direct map that has fewer entries. -/
theorem Ok.list_direct_none (h : vs.Ok) {dmap : List VsMap} (hmap : vs.map = .direct dmap)
    (hsize : vs.size.toNat ≠ clmapEntries) (pagesSize : ℕ) :
    vs.psVstructAllocatedPages pagesSize = none := by
  have hshape := h.shape
  rw [hmap] at hshape
  obtain ⟨hlength, hsmall⟩ := hshape.of_direct
  have hnone : dmap[dmap.length]? = none := getElem?_eq_none le_rfl
  rw [psVstructAllocatedPages, hmap]
  exact foldlM_range_eq_none (show dmap.length < clmapEntries by omega) fun l => by
    rw [hnone, Option.map_none]

/-- The listing of an object with an indirect map. -/
theorem Ok.list_indirect (h : vs.Ok) {imap : List (Option (List VsMap))}
    (hmap : vs.map = .indirect imap) (pagesSize : ℕ) :
    ∃ l, vs.psVstructAllocatedPages pagesSize = some l ∧
      At vs.map vs.clsize pagesSize l (clmapEntries * blocks vs.size.toNat) := by
  have hshape := h.shape
  have hclean := h.clean
  rw [hmap] at hshape hclean ⊢
  obtain ⟨hlarge, hlength, hblocks⟩ := hshape.of_indirect
  rw [psVstructAllocatedPages, hmap]
  simp only
  rw [toNat_indirectClmapEntries (Nat.zero_lt_of_lt hlarge)]
  refine foldlM_range_spec
    (fun i l => At (.indirect imap) vs.clsize pagesSize l (clmapEntries * i)) At.start
    fun i hi l hl => ?_
  have hin : i < imap.length := hlength ▸ hi
  rw [getElem?_eq_getElem hin]
  cases hentry : imap[i] with
  | none => exact ⟨_, rfl, hl.noBlock (by rw [getElem?_eq_getElem hin, hentry])⟩
  | some block =>
    have hblock : imap[i]? = some (some block) := by rw [getElem?_eq_getElem hin, hentry]
    have hdiv : ∀ j < clmapEntries, (clmapEntries * i + j) / clmapEntries = i := fun j hj => by
      rw [Nat.mul_add_div (by decide), Nat.div_eq_of_lt hj, Nat.add_zero]
    refine hl.block (hblocks block (hentry ▸ getElem_mem hin)) (fun j hj => ?_)
      (fun j hj => ⟨block, by rw [hdiv j hj, hblock]⟩) hclean
    rw [entryAt, hdiv j hj, hblock, Nat.mul_add_mod, Nat.mod_eq_of_lt hj]

/-! ## What is listed -/

/-- Both listings are exact: they report the valid pages, as far as there is room, and read
entries of the object's clusters only. -/
structure ListsExactly (vs : Vstruct) (pagesSize : ℕ) : Prop where
  size : ∃ bytes read, vs.psVstructAllocatedSize = some (bytes, read) ∧
    bytes.toNat = pageSize * vs.validPages.length ∧ ∀ c ∈ read, c < vs.size.toNat
  pages : ∃ l, vs.psVstructAllocatedPages pagesSize = some l ∧
    l.numPages = vs.validPages.length ∧
    l.slots.map BitVec.toNat = (vs.validPages.take pagesSize).map (pageSize * ·) ∧
    ∀ c ∈ l.read, c < vs.size.toNat

/-- The arrays of the map end with the object. -/
def EndsFull (vs : Vstruct) : Prop :=
  match vs.map with
  | .direct _ => vs.size.toNat = clmapEntries
  | .indirect imap => vs.size.toNat % clmapEntries = 0 ∨
    imap[(vs.size.toNat - 1) / clmapEntries]? = some none

/-- No page is valid behind the object. -/
theorem Ok.filter_validAt (h : vs.Ok) {n : ℕ} (hn : vs.size.toNat ≤ n) :
    (range (n * vs.clsize)).filter (validAt vs.map vs.clsize) = vs.validPages := by
  obtain ⟨k, rfl⟩ := Nat.exists_eq_add_of_le hn
  rw [Nat.add_mul, filter_range_add, validPages]
  · refine filter_congr fun page hpage => ?_
    have hlt : page / vs.clsize < vs.size.toNat :=
      Nat.div_lt_of_lt_mul (by rw [Nat.mul_comm]; exact mem_range.mp hpage)
    rw [Bool.eq_iff_iff, decide_eq_true_iff]
    exact (validPage_iff hlt).symm
  · intro j _
    have hle : vs.size.toNat ≤ (vs.size.toNat * vs.clsize + j) / vs.clsize := by
      rw [Nat.le_div_iff_mul_le vs.clsize_pos]
      exact Nat.le_add_right _ _
    rw [validAt]
    cases hentry : entryAt vs.map ((vs.size.toNat * vs.clsize + j) / vs.clsize) with
    | none => rfl
    | some vsm =>
      rw [h.beyond _ vsm hle hentry]
      simp [VsMap.clr]

theorem Ok.lt_of_mem_validPages (h : vs.Ok) {page : ℕ} (hpage : page ∈ vs.validPages) :
    page < 2 ^ 20 :=
  (mem_range.mp (mem_filter.mp hpage).1).trans_le h.pages_le

/-- A listing that is behind the object has all valid pages, but one slot fewer than there is
room for. -/
theorem Ok.at_pages (h : vs.Ok) {n : ℕ} (hat : At vs.map vs.clsize pagesSize l n)
    (hn : vs.size.toNat ≤ n) : l.numPages = vs.validPages.length ∧
      l.slots.map BitVec.toNat = (vs.validPages.take (pagesSize - 1)).map (pageSize * ·) := by
  have hfilter := h.filter_validAt hn
  constructor
  · rw [hat.lists.numPages, hfilter]
  · rw [hat.lists.slots, hfilter, map_map]
    refine map_congr_left fun page hpage => ?_
    have hlt := h.lt_of_mem_validPages (mem_of_mem_take hpage)
    rw [Function.comp_apply, BitVec.toNat_ofNat, Nat.mod_eq_of_lt (by omega), pageSize]

/-- All valid pages have slots if one slot stays empty. -/
theorem slots_eq_iff (pages : List ℕ) (pagesSize : ℕ) :
    (pages.take (pagesSize - 1)).map (pageSize * ·) = (pages.take pagesSize).map (pageSize * ·) ↔
      pagesSize = 0 ∨ pages.length < pagesSize := by
  constructor
  · intro heq
    have hlength := congrArg length heq
    simp only [length_map, length_take] at hlength
    omega
  · rintro (rfl | hlt)
    · rfl
    · rw [take_of_length_le (by omega), take_of_length_le hlt.le]

/-- The size in bytes is right if it is less than the address space. -/
theorem toNat_bytes_iff (number : ℕ) (h : number ≤ 2 ^ 20) :
    (4096 * BitVec.ofNat 32 number).toNat = pageSize * number ↔ number < 2 ^ 20 := by
  rw [BitVec.toNat_mul, BitVec.toNat_ofNat, pageSize]
  simp only [BitVec.reduceToNat]
  omega

theorem Ok.length_validPages_le (h : vs.Ok) : vs.validPages.length ≤ 2 ^ 20 := by
  refine (length_filter_le _ _).trans ?_
  rw [length_range]
  exact h.pages_le

/-- Listings that end behind the object are exact just if they read entries of the object only,
have room for one page more, and the size fits. -/
theorem Ok.listsExactly_iff_of_at (h : vs.Ok) {n : ℕ} (hn : vs.size.toNat ≤ n)
    (hat : ∀ pagesSize, ∃ l, vs.psVstructAllocatedPages pagesSize = some l ∧
      At vs.map vs.clsize pagesSize l n) (pagesSize : ℕ) :
    vs.ListsExactly pagesSize ↔ (∀ c < n, Allocated vs.map c → c < vs.size.toNat) ∧
      (pagesSize = 0 ∨ vs.validPages.length < pagesSize) ∧ vs.validPages.length < 2 ^ 20 := by
  obtain ⟨l, hl, hlat⟩ := hat pagesSize
  obtain ⟨l₀, hl₀, hlat₀⟩ := hat 0
  have hsize : vs.psVstructAllocatedSize = some (4096 * BitVec.ofNat 32 l₀.numPages, l₀.read) := by
    rw [psVstructAllocatedSize, hl₀, Option.map_some]
  have hnum := (h.at_pages hlat hn).1
  have hslots := (h.at_pages hlat hn).2
  have hbytes := toNat_bytes_iff vs.validPages.length h.length_validPages_le
  have hread : ∀ {l pagesSize}, At vs.map vs.clsize pagesSize l n →
      ((∀ c ∈ l.read, c < vs.size.toNat) ↔ ∀ c < n, Allocated vs.map c → c < vs.size.toNat) := by
    intro l pagesSize hlat
    exact forall_congr' fun c => by rw [hlat.read, and_imp]
  constructor
  · rintro ⟨⟨bytes, read, hsize', hbytes', -⟩, l', hl', -, hslots', hread'⟩
    cases hl.symm.trans hl'
    cases hsize.symm.trans hsize'
    rw [(h.at_pages hlat₀ hn).1] at hbytes'
    exact ⟨(hread hlat).mp hread', (slots_eq_iff _ _).mp (hslots.symm.trans hslots'),
      hbytes.mp hbytes'⟩
  · rintro ⟨hinside, hroom, hfits⟩
    refine ⟨⟨_, _, hsize, ?_, (hread hlat₀).mpr hinside⟩, l, hl, hnum,
      hslots.trans ((slots_eq_iff _ _).mpr hroom), (hread hlat).mpr hinside⟩
    rw [(h.at_pages hlat₀ hn).1]
    exact hbytes.mpr hfits

/-- The blocks of an indirect map end with the object if the last one is full or missing. -/
theorem Ok.endsFull_iff_of_indirect (h : vs.Ok) {imap : List (Option (List VsMap))}
    (hmap : vs.map = .indirect imap) :
    (∀ c < clmapEntries * blocks vs.size.toNat, Allocated vs.map c → c < vs.size.toNat) ↔
      vs.EndsFull := by
  have hshape := h.shape
  rw [hmap] at hshape
  obtain ⟨hlarge, hlength, -⟩ := hshape.of_indirect
  have hlast : (vs.size.toNat - 1) / clmapEntries < imap.length := by
    rw [hlength, blocks]
    exact Nat.lt_succ_self _
  rw [EndsFull, hmap]
  simp only [Allocated, blocks]
  rw [getElem?_eq_getElem hlast]
  constructor
  · intro hinside
    by_contra hnot
    rw [not_or] at hnot
    obtain ⟨hmod, hsome⟩ := hnot
    obtain ⟨block, hblock⟩ := Option.ne_none_iff_exists'.mp fun hnone => hsome (congrArg some hnone)
    have hdiv : vs.size.toNat / clmapEntries = (vs.size.toNat - 1) / clmapEntries := by
      rw [clmapEntries] at *
      omega
    refine lt_irrefl _ (hinside vs.size.toNat ?_ ⟨block, ?_⟩)
    · rw [← hdiv]
      exact Nat.lt_mul_div_succ _ (by decide)
    · rw [hdiv, getElem?_eq_getElem hlast, hblock]
  · rintro hfull c hc ⟨block, hblock⟩
    by_contra hge
    have hdiv : c / clmapEntries = (vs.size.toNat - 1) / clmapEntries := by
      refine le_antisymm (Nat.lt_succ_iff.mp (Nat.div_lt_of_lt_mul hc)) ?_
      exact Nat.div_le_div_right (by omega)
    obtain hmod | hnone := hfull
    · rw [clmapEntries] at *
      omega
    · rw [hdiv, getElem?_eq_getElem hlast, hnone] at hblock
      cases hblock

/-- The listings are exact just if the arrays of the map end with the object, there is room for
one page more than are valid, and the size fits. -/
theorem Ok.listsExactly_iff (h : vs.Ok) (pagesSize : ℕ) :
    vs.ListsExactly pagesSize ↔ vs.EndsFull ∧
      (pagesSize = 0 ∨ vs.validPages.length < pagesSize) ∧ vs.validPages.length < 2 ^ 20 := by
  cases hmap : vs.map with
  | direct dmap =>
    by_cases hsize : vs.size.toNat = clmapEntries
    · rw [h.listsExactly_iff_of_at hsize.le (h.list_direct hmap hsize)]
      refine and_congr_left fun _ => ?_
      rw [EndsFull, hmap]
      exact iff_of_true (fun c hc _ => hsize ▸ hc) hsize
    · refine iff_of_false (fun hlists => ?_) fun hfull => ?_
      · obtain ⟨l, hl, -⟩ := hlists.pages
        rw [h.list_direct_none hmap hsize] at hl
        cases hl
      · rw [EndsFull, hmap] at hfull
        exact hsize hfull.1
  | indirect imap =>
    have hle : vs.size.toNat ≤ clmapEntries * blocks vs.size.toNat := by
      rw [blocks, clmapEntries]
      omega
    rw [h.listsExactly_iff_of_at hle (h.list_indirect hmap), h.endsFull_iff_of_indirect hmap]

end Vstruct

end MachVirtuTerm

/-!
# The map of clusters in every run

An object whose size is not rounded up to 0, or whose clusters have one page, gets a map that
stays right whatever is written. What is listed of it is right only under a condition.
-/

namespace MachVirtuTerm

namespace Vstruct

variable {vs vs' vs₀ : Vstruct} {size : BitVec 32} {clshift : ℕ}

/-! ## New objects -/

/-- The clusters of a new object can be counted. -/
def CreatesOk (size : BitVec 32) (clshift : ℕ) : Prop := clshift = 0 ∨ roundPage size ≠ 0

/-- `vs_size` of a new object. -/
def newSize (size : BitVec 32) (clshift : ℕ) : BitVec 32 :=
  (roundPage size / 4096 - 1) >>> clshift + 1

theorem toNat_pages (size : BitVec 32) : (roundPage size / 4096).toNat < 2 ^ 20 := by
  have hlt := (roundPage size).isLt
  rw [BitVec.toNat_udiv]
  simp only [BitVec.reduceToNat]
  omega

/-- The clusters of a new object have no more pages than the address space. -/
theorem newSize_pages_le (hclshift : clshift ≤ 3) (h : CreatesOk size clshift) :
    (newSize size clshift).toNat * (1 <<< clshift) ≤ 2 ^ 20 := by
  have hpages := toNat_pages size
  have haligned : (roundPage size).toNat % 4096 = 0 := by
    rw [roundPage, toNat_truncPage, pageSize]
    omega
  by_cases hzero : roundPage size = 0
  · have hclshift : clshift = 0 := h.resolve_right (not_not.mpr hzero)
    rw [newSize, hzero, hclshift]
    decide
  · have hpos : 1 ≤ (roundPage size / 4096).toNat := by
      have hne : (roundPage size).toNat ≠ 0 := fun heq => hzero (BitVec.eq_of_toNat_eq heq)
      rw [BitVec.toNat_udiv]
      simp only [BitVec.reduceToNat]
      omega
    have hsub : (roundPage size / 4096 - 1).toNat = (roundPage size / 4096).toNat - 1 :=
      BitVec.toNat_sub_of_le (by rw [BitVec.le_def]; exact hpos)
    rw [newSize, BitVec.toNat_add, BitVec.toNat_ushiftRight, hsub, Nat.shiftRight_eq_div_pow,
      Nat.shiftLeft_eq, one_mul]
    simp only [BitVec.reduceToNat]
    obtain rfl | rfl | rfl | rfl : clshift = 0 ∨ clshift = 1 ∨ clshift = 2 ∨ clshift = 3 := by
      omega
    all_goals omega

theorem entryAt_replicate_none {n c : ℕ} {vsm : VsMap}
    (h : entryAt (.indirect (replicate n none)) c = some vsm) : vsm = .clr := by
  simp only [entryAt, getElem?_replicate] at h
  split at h
  · cases h
  · exact (Option.some.inj h).symm
  · rename_i hblock
    split at hblock <;> cases hblock

/-- A new map is right. -/
theorem psVstructCreate_ok (hclshift : clshift ≤ 3) (h : CreatesOk size clshift) :
    ∃ vs, psVstructCreate size clshift true = some (some vs) ∧ vs.Ok := by
  have hpages : (newSize size clshift).toNat * (⟨clshift, newSize size clshift, .direct []⟩ :
      Vstruct).clsize ≤ 2 ^ 20 := newSize_pages_le hclshift h
  have hle := le_of_pages_le hpages
  rw [psVstructCreate, if_neg (by simp)]
  change ∃ vs, (if IndirectClmap (newSize size clshift) then _ else _) = _ ∧ _
  by_cases hindirect : IndirectClmap (newSize size clshift)
  · have hlarge := (indirectClmap_iff hle).mp hindirect
    rw [if_pos hindirect]
    refine ⟨_, rfl, hclshift, hpages, .indirect hlarge ?_ fun block hblock => ?_, ?_, ?_⟩
    · rw [length_replicate]
      exact toNat_indirectClmapSize hle (Nat.zero_lt_of_lt hlarge)
    · cases eq_of_mem_replicate hblock
    · intro c vsm _ hentry
      exact entryAt_replicate_none hentry
    · intro c vsm hentry _
      rw [entryAt_replicate_none hentry]
      rfl
  · have hsmall : (newSize size clshift).toNat ≤ clmapEntries :=
      not_lt.mp fun hlarge => hindirect ((indirectClmap_iff hle).mpr hlarge)
    have hclear : newDmap (clmapSize (newSize size clshift) / 8).toNat (newSize size clshift) =
        some (replicate (newSize size clshift).toNat .clr) := by
      have hint : (newSize size clshift).toInt = (newSize size clshift).toNat :=
        BitVec.toInt_eq_toNat_of_lt (by omega)
      rw [newDmap, toNat_clmapSize hle, if_pos (Int.le_of_eq hint)]
    rw [if_neg hindirect]
    change ∃ vs, (newDmap (clmapSize (newSize size clshift) / 8).toNat
      (newSize size clshift)).map _ = _ ∧ _
    rw [hclear, Option.map_some]
    refine ⟨_, rfl, hclshift, hpages, ?_, ?_, ?_⟩
    · have hshape := @ShapeOk.direct (replicate (newSize size clshift).toNat .clr)
        (by rwa [length_replicate])
      rwa [length_replicate] at hshape
    · intro c vsm _ hentry
      exact eq_of_mem_replicate (mem_of_getElem? hentry)
    · intro c vsm hentry _
      rw [eq_of_mem_replicate (mem_of_getElem? hentry)]
      rfl

/-! ## Runs -/

/-- A call of `ps_clmap`. -/
def Step (vs : Vstruct) (x : ClmapCall) (vs' : Vstruct) : Prop := vs.psClmap x = some vs'

/-- The map is a function that is defined for the clusters of the object, calls access no array
outside of its memory, and a call that adds clusters leaves the others. -/
structure Keeps (vs : Vstruct) : Prop where
  entries : ∀ c < vs.size.toNat, (vs.denote c).isSome
  extend : ∀ offset kalloc, ∃ done vs',
    vs.psMapExtend (vs.cluster offset + 1) kalloc = some (done, vs') ∧
      Extends vs (vs.cluster offset + 1) done vs'
  clmap : ∀ x, ∃ vs', vs.psClmap x = some vs' ∧ Calls vs x vs'

theorem Ok.keeps (h : vs.Ok) : vs.Keeps where
  entries := fun c hc => by
    rw [denote, if_pos hc]
    exact h.shape.isSome hc
  extend := fun offset kalloc => by
    have hpages := cluster_pages_le h.clshift offset
    have hlt := le_of_pages_le hpages
    have hadd : (vs.cluster offset + 1).toNat = (vs.cluster offset).toNat + 1 := by
      rw [BitVec.toNat_add]
      simp only [BitVec.reduceToNat]
      omega
    exact h.psMapExtend (hadd.symm ▸ hpages) kalloc
  clmap := fun _ => h.psClmap

/-- Calls keep a map right. -/
theorem Ok.run (h : vs₀.Ok) {trace : List (Vstruct × ClmapCall)} (hrun : Run Step vs₀ trace vs) :
    vs.Ok := by
  refine @Run.invariant _ _ _ _ _ _ (fun _ _ => True) Ok hrun (fun _ _ => trivial) h ?_
  intro vs x vs' hok _ hstep
  obtain ⟨vs'', heq, hcalls⟩ := @Ok.psClmap vs hok x
  cases hstep.symm.trans heq
  exact hcalls.ok

/-- New objects of a size have maps that stay right in every run. -/
def Sound (size : BitVec 32) (clshift : ℕ) : Prop :=
  (∃ vs₀, psVstructCreate size clshift true = some (some vs₀)) ∧
    ∀ vs₀ trace vs, psVstructCreate size clshift true = some (some vs₀) →
      Run Step vs₀ trace vs → vs.Keeps

/-- Where the clusters cannot be counted, the first entries are outside of the map. -/
theorem CreatesOk.of_sound (hclshift : clshift ≤ 3) (h : Sound size clshift) :
    CreatesOk size clshift := by
  by_contra hnot
  obtain ⟨hone, hzero⟩ := not_or.mp hnot
  rw [not_not] at hzero
  obtain ⟨⟨vs₀, hcreate⟩, hrun⟩ := h
  have hkeeps := hrun vs₀ [] vs₀ hcreate .nil
  rw [psVstructCreate, hzero, if_neg (by simp)] at hcreate
  obtain rfl | rfl | rfl : clshift = 1 ∨ clshift = 2 ∨ clshift = 3 := by omega
  · cases hcreate
    exact absurd (hkeeps.entries 0 (by decide)) (by decide)
  all_goals cases hcreate

/-- The maps of objects of a size stay right in every run just if their clusters can be counted.
After a run, the listings are exact just if the arrays of the map end with the object, there is
room for one page more than are valid, and the size fits. -/
theorem clusterMap_exact_iff (hclshift : clshift ≤ 3) :
    (Sound size clshift ↔ CreatesOk size clshift) ∧
      (CreatesOk size clshift → ∀ vs₀ trace vs,
        psVstructCreate size clshift true = some (some vs₀) → Run Step vs₀ trace vs →
        ∀ pagesSize, vs.ListsExactly pagesSize ↔ vs.EndsFull ∧
          (pagesSize = 0 ∨ vs.validPages.length < pagesSize) ∧
            vs.validPages.length < 2 ^ 20) := by
  refine ⟨⟨CreatesOk.of_sound hclshift, fun h => ?_⟩, fun h vs₀ trace vs hcreate hrun => ?_⟩
  · obtain ⟨new, hnew, hok⟩ := psVstructCreate_ok hclshift h
    refine ⟨⟨new, hnew⟩, fun vs₀ trace vs hcreate hrun => ?_⟩
    cases hnew.symm.trans hcreate
    exact (hok.run hrun).keeps
  · obtain ⟨new, hnew, hok⟩ := psVstructCreate_ok hclshift h
    cases hnew.symm.trans hcreate
    exact (hok.run hrun).listsExactly_iff

/-- A write of a page: it gets a cluster, and is then complete. -/
def writePage (page : ℕ) (alloc : Bool) : ClmapCall :=
  ⟨BitVec.ofNat 32 page * 4096, alloc, 4096, 0, (true, true), true, some (5, 0)⟩

/-- A new object of some pages, with clusters of one. -/
def newObject (pages : ℕ) : Vstruct :=
  ⟨0, BitVec.ofNat 32 pages, .direct (replicate pages .clr)⟩

/-- The first page of an object of two pages is written and then page 63, for which the map grows. -/
theorem clusterMap_exact_iff_written : ∃ trace vs, Run Step (newObject 2) trace vs ∧
    vs.size = 64 ∧ vs.ListsExactly 3 := by
  have hcreate : psVstructCreate 0x2000 0 true = some (some (newObject 2)) := by rfl
  have hrun := @Run.nil _ _ Step (newObject 2)
  have hrun := hrun.cons (show Step _ (writePage 0 true) _ by rfl)
  have hrun := hrun.cons (show Step _ (writePage 0 false) _ by rfl)
  have hrun := hrun.cons (show Step _ (writePage 63 true) _ by rfl)
  have hrun := hrun.cons (show Step _ (writePage 63 false) _ by rfl)
  exact ⟨_, _, hrun, rfl, ((clusterMap_exact_iff (by decide)).2 (.inl rfl) _ _ _ hcreate hrun 3).mpr
    ⟨by rfl, .inr (by decide +kernel), by decide +kernel⟩⟩

/-- Objects with fewer entries are listed beyond their arrays, and those of no size are created
beyond them. -/
theorem listing_beyond_map_and_no_size_wrong :
    (¬∀ size clshift vs₀ trace vs pagesSize, clshift ≤ 3 → CreatesOk size clshift →
      psVstructCreate size clshift true = some (some vs₀) → Run Step vs₀ trace vs →
        vs.ListsExactly pagesSize) ∧ ¬∀ size clshift, clshift ≤ 3 → Sound size clshift := by
  constructor
  · intro hclaim
    obtain ⟨l, hl, -⟩ := (hclaim 4096 0 (newObject 1) [] (newObject 1) 1 (by decide) (.inl rfl)
      (by rfl) .nil).pages
    cases hl
  · intro hclaim
    obtain ⟨⟨vs₀, hcreate⟩, -⟩ := hclaim 0 2 (by decide)
    cases hcreate

end Vstruct

end MachVirtuTerm
