import MachVirtuTerm.FileSystems.ReadFile

/-!
# What an open file keeps

Every region is held in one place: as the index block of a level, as the buffer, or among
the old index blocks that `block_map` has put aside. What is kept of the file is what lies
on the device.
-/

open List Function Option

namespace MachVirtuTerm

namespace FsRead

/-- Where a region is held. -/
inductive Holder where
  | index (level : ℕ)
  | buffer
  | old
  deriving DecidableEq

/-- The old index blocks, each with its size. -/
abbrev OldBlocks := List (Option ℕ × ℕ)

namespace State

variable {fs : FileSystem} {dev : FsDevice} {ino : FsInode} {fail : Option DevRead}
  {st st' : State} {old old' : OldBlocks} {owner : ℕ → Option Holder}

/-- Every region has its holder. -/
structure Owned (st : State) (old : OldBlocks) (owner : ℕ → Option Holder) : Prop where
  live : ∀ id, st.regions.get id = none ↔ owner id = none
  fresh : ∀ id, st.regions.next ≤ id → owner id = none
  blk : ∀ level id, st.file.blk level = some id ↔ owner id = some (.index level)
  buf : ∀ id, st.file.buf = some id ↔ owner id = some .buffer
  aside : ∀ id, some id ∈ old.map Prod.fst ↔ owner id = some .old
  nodup : (old.map Prod.fst).Nodup

/-- The bytes of a block of the file. -/
def fileBlockBytes (fs : FileSystem) (dev : FsDevice) (ino : FsInode) (n : ℕ) : ℕ → UInt8 :=
  if fs.diskBlock dev ino n = 0 then fun _ => 0 else fs.blockBytes dev (fs.diskBlock dev ino n)

variable (fs dev ino) in
/-- The invariant. -/
structure Kept (st : State) (old : OldBlocks) : Prop where
  fault : st.fault = false
  owned : ∃ owner, Owned st old owner
  /-- No level above those of the file system is used. -/
  levels : ∀ level, fs.niaddr ≤ level → st.file.blk level = none
  index : ∀ level id, st.file.blk level = some id → ∃ block : ℕ, st.file.blkno level = block ∧
    st.file.blksize level = fs.blockSize ∧
    st.regions.get id = some ⟨fs.blockBytes dev block, fs.blockSize⟩
  noIndex : ∀ level, st.file.blk level = none →
    st.file.blkno level = -1 ∧ st.file.blksize level = 0
  buffer : ∀ id, st.file.buf = some id → ∃ n : ℕ, st.file.bufBlkno = n ∧
    st.file.bufSize = fs.blockSize ∧
    st.regions.get id = some ⟨fileBlockBytes fs dev ino n, fs.blockSize⟩
  noBuffer : st.file.buf = none → st.file.bufBlkno = -1
  oldSize : ∀ p ∈ old, ∃ id region, p.1 = some id ∧ st.regions.get id = some region ∧
    region.size = p.2

/-- What the index blocks have nothing to do with is the same. -/
structure SameBuffer (st st' : State) : Prop where
  mem : st'.mem = st.mem
  reading : st'.reading = st.reading
  buf : st'.file.buf = st.file.buf
  bufSize : st'.file.bufSize = st.file.bufSize
  bufBlkno : st'.file.bufBlkno = st.file.bufBlkno

theorem SameBuffer.refl (st : State) : st.SameBuffer st := ⟨rfl, rfl, rfl, rfl, rfl⟩

theorem SameBuffer.trans {st'' : State} (h : st.SameBuffer st') (h' : st'.SameBuffer st'') :
    st.SameBuffer st'' :=
  ⟨h'.mem.trans h.mem, h'.reading.trans h.reading, h'.buf.trans h.buf,
    h'.bufSize.trans h.bufSize, h'.bufBlkno.trans h.bufBlkno⟩

/-- An index block is put aside. -/
def clearLevel (st : State) (level : ℕ) : State :=
  { st with
    file :=
      { st.file with
        blk := update st.file.blk level none
        blksize := update st.file.blksize level 0
        blkno := update st.file.blkno level (-1) } }

/-- The buffer is put aside. -/
def clearBuffer (st : State) : State :=
  { st with file := { st.file with buf := none, bufBlkno := -1 } }

/-- There is a new index block. -/
def putIndex (st : State) (level block : ℕ) (bytes : ℕ → UInt8) (size : ℕ) : State :=
  { (st.allocate bytes size).2 with
    file :=
      { st.file with
        blk := update st.file.blk level (some st.regions.next)
        blksize := update st.file.blksize level size
        blkno := update st.file.blkno level block } }

/-- There is a new buffer. -/
def putBuffer (st : State) (n : ℕ) (bytes : ℕ → UInt8) (size : ℕ) : State :=
  { (st.allocate bytes size).2 with
    file := { st.file with buf := some st.regions.next, bufSize := size, bufBlkno := n } }

/-- A region that was held elsewhere is an old one now. -/
theorem Owned.aside_iff {id size : ℕ} (h : Owned st old owner) (id' : ℕ) :
    some id' ∈ ((some id, size) :: old).map Prod.fst ↔
      update owner id (some .old) id' = some .old := by
  rw [map_cons, mem_cons, some_inj, update_apply, h.aside]
  by_cases heq : id' = id
  · simp [heq]
  · simp [heq]

theorem Owned.live_update {id : ℕ} {holder : Holder} (h : Owned st old owner)
    (hid : owner id ≠ none) (id' : ℕ) :
    st.regions.get id' = none ↔ update owner id (some holder) id' = none := by
  rw [h.live, update_apply]
  by_cases heq : id' = id
  · simp [heq, hid]
  · simp [heq]

theorem Owned.fresh_update {id : ℕ} {holder : Holder} (h : Owned st old owner)
    (hid : owner id ≠ none) (id' : ℕ) (hle : st.regions.next ≤ id') :
    update owner id (some holder) id' = none := by
  have hnone := h.fresh id' hle
  rw [update_of_ne]
  · exact hnone
  · rintro rfl
    exact hid hnone

theorem Kept.clearLevel {level id : ℕ} (h : Kept fs dev ino st old)
    (hblk : st.file.blk level = some id) :
    Kept fs dev ino (st.clearLevel level) ((some id, st.file.blksize level) :: old) := by
  obtain ⟨owner, howner⟩ := h.owned
  have hid : owner id = some (.index level) := (howner.blk level id).mp hblk
  have hlive : owner id ≠ none := by
    rw [hid]
    exact some_ne_none _
  obtain ⟨block, -, hsize, hget⟩ := h.index level id hblk
  refine ⟨h.fault, ⟨update owner id (some .old), ?_⟩, ?_, ?_, ?_, h.buffer, h.noBuffer, ?_⟩
  · refine ⟨howner.live_update hlive, howner.fresh_update hlive, ?_, ?_, howner.aside_iff, ?_⟩
    · intro level' id'
      change update st.file.blk level none level' = some id' ↔ _
      rw [update_apply, update_apply]
      by_cases hl : level' = level
      · rw [if_pos hl, hl]
        refine iff_of_false (some_ne_none id').symm fun howned => ?_
        split at howned
        · cases howned
        · next hne =>
          rw [← howner.blk, hblk] at howned
          exact hne (Option.some.inj howned).symm
      · rw [if_neg hl, howner.blk]
        by_cases heq : id' = id
        · rw [if_pos heq, heq, hid]
          simp [Ne.symm hl]
        · rw [if_neg heq]
    · intro id'
      change st.file.buf = some id' ↔ _
      rw [howner.buf, update_apply]
      by_cases heq : id' = id
      · rw [if_pos heq, heq, hid]
        simp
      · rw [if_neg heq]
    · rw [map_cons, nodup_cons, howner.aside, hid]
      exact ⟨by simp, howner.nodup⟩
  · intro level' hle
    change update st.file.blk level none level' = none
    rw [update_apply, h.levels level' hle, ite_self]
  · intro level' id' hblk'
    change update st.file.blk level none level' = some id' at hblk'
    by_cases hl : level' = level
    · rw [hl, update_self] at hblk'
      cases hblk'
    · rw [update_of_ne hl] at hblk'
      change ∃ block, update st.file.blkno level (-1) level' = _ ∧
        update st.file.blksize level 0 level' = _ ∧ _
      rw [update_of_ne hl, update_of_ne hl]
      exact h.index level' id' hblk'
  · intro level' hblk'
    change update st.file.blk level none level' = none at hblk'
    change update st.file.blkno level (-1) level' = _ ∧
      update st.file.blksize level 0 level' = _
    by_cases hl : level' = level
    · rw [hl, update_self, update_self]
      exact ⟨rfl, rfl⟩
    · rw [update_of_ne hl] at hblk' ⊢
      rw [update_of_ne hl]
      exact h.noIndex level' hblk'
  · intro p hp
    rcases mem_cons.mp hp with rfl | hp
    · exact ⟨id, _, rfl, hget, hsize.symm⟩
    · exact h.oldSize p hp

theorem Kept.clearBuffer {id : ℕ} (h : Kept fs dev ino st old) (hbuf : st.file.buf = some id) :
    Kept fs dev ino st.clearBuffer ((some id, st.file.bufSize) :: old) := by
  obtain ⟨owner, howner⟩ := h.owned
  have hid : owner id = some .buffer := (howner.buf id).mp hbuf
  have hlive : owner id ≠ none := by
    rw [hid]
    exact some_ne_none _
  obtain ⟨n, -, hsize, hget⟩ := h.buffer id hbuf
  refine ⟨h.fault, ⟨update owner id (some .old), ?_⟩, h.levels, h.index, h.noIndex, ?_,
    fun _ => rfl, ?_⟩
  · refine ⟨howner.live_update hlive, howner.fresh_update hlive, ?_, ?_, howner.aside_iff, ?_⟩
    · intro level id'
      change st.file.blk level = some id' ↔ _
      rw [howner.blk, update_apply]
      by_cases heq : id' = id
      · rw [if_pos heq, heq, hid]
        simp
      · rw [if_neg heq]
    · intro id'
      rw [update_apply]
      refine iff_of_false (some_ne_none id').symm fun howned => ?_
      split at howned
      · cases howned
      · next hne =>
        rw [← howner.buf, hbuf] at howned
        exact hne (Option.some.inj howned).symm
    · rw [map_cons, nodup_cons, howner.aside, hid]
      exact ⟨by simp, howner.nodup⟩
  · intro id' hbuf'
    cases hbuf'
  · intro p hp
    rcases mem_cons.mp hp with rfl | hp
    · exact ⟨id, _, rfl, hget, hsize.symm⟩
    · exact h.oldSize p hp

/-- An old region is released. -/
theorem Kept.deallocate {id size : ℕ} (h : Kept fs dev ino st ((some id, size) :: old)) :
    Kept fs dev ino (st.deallocate id size) old ∧ (st.deallocate id size).file = st.file ∧
      st.SameBuffer (st.deallocate id size) := by
  obtain ⟨owner, howner⟩ := h.owned
  obtain ⟨id', region, hid', hget, hsize⟩ := h.oldSize _ mem_cons_self
  cases hid'
  have hid : owner id = some .old := (howner.aside id).mp mem_cons_self
  have hnodup := howner.nodup
  rw [map_cons, nodup_cons] at hnodup
  -- What another place holds is another region.
  have hother : ∀ {id' : ℕ} {holder : Holder}, owner id' = some holder → holder ≠ .old →
      update st.regions.get id none id' = st.regions.get id' := by
    intro id' holder howned hne
    apply update_of_ne
    rintro rfl
    rw [hid] at howned
    exact hne (Option.some.inj howned).symm
  unfold State.deallocate
  rw [hget]
  refine ⟨⟨?_, ⟨update owner id none, ?_⟩, h.levels, ?_, h.noIndex, ?_, h.noBuffer, ?_⟩,
    rfl, ⟨rfl, rfl, rfl, rfl, rfl⟩⟩
  · change (st.fault || decide (region.size ≠ size)) = false
    rw [h.fault, hsize]
    simp
  · refine ⟨?_, ?_, ?_, ?_, ?_, hnodup.2⟩
    · intro id'
      change update st.regions.get id none id' = none ↔ _
      rw [update_apply, update_apply]
      split
      · exact iff_of_true rfl rfl
      · exact howner.live id'
    · intro id' hle
      rw [update_apply, howner.fresh id' hle, ite_self]
    · intro level id'
      change st.file.blk level = some id' ↔ _
      rw [howner.blk, update_apply]
      by_cases heq : id' = id
      · rw [if_pos heq, heq, hid]
        simp
      · rw [if_neg heq]
    · intro id'
      change st.file.buf = some id' ↔ _
      rw [howner.buf, update_apply]
      by_cases heq : id' = id
      · rw [if_pos heq, heq, hid]
        simp
      · rw [if_neg heq]
    · intro id'
      rw [update_apply]
      by_cases heq : id' = id
      · rw [if_pos heq, heq]
        exact iff_of_false hnodup.1 (some_ne_none _).symm
      · rw [if_neg heq, ← howner.aside, map_cons, mem_cons, some_inj]
        simp [heq]
  · intro level id' hblk
    obtain ⟨block, hblkno, hblksize, hget'⟩ := h.index level id' hblk
    exact ⟨block, hblkno, hblksize, (hother ((howner.blk level id').mp hblk) (by simp)).trans hget'⟩
  · intro id' hbuf
    obtain ⟨n, hblkno, hblksize, hget'⟩ := h.buffer id' hbuf
    exact ⟨n, hblkno, hblksize, (hother ((howner.buf id').mp hbuf) (by simp)).trans hget'⟩
  · intro p hp
    obtain ⟨id', region', hid', hget', hsize'⟩ := h.oldSize p (mem_cons_of_mem _ hp)
    refine ⟨id', region', hid', ?_, hsize'⟩
    refine (update_of_ne ?_ _ _).trans hget'
    rintro rfl
    exact hnodup.1 (List.mem_map.mpr ⟨p, hp, hid'⟩)

/-- A region is allocated. -/
theorem Owned.put {bytes : ℕ → UInt8} {size : ℕ} {file : OpenFile} {holder : Holder}
    (h : Owned st old owner) (hold : holder ≠ .old)
    (hblk : ∀ level id, file.blk level = some id ↔
      if id = st.regions.next then holder = .index level else owner id = some (.index level))
    (hbuf : ∀ id, file.buf = some id ↔
      if id = st.regions.next then holder = .buffer else owner id = some .buffer) :
    Owned { (st.allocate bytes size).2 with file := file } old
      (update owner st.regions.next (some holder)) := by
  refine ⟨?_, ?_, ?_, ?_, ?_, h.nodup⟩
  · intro id
    change update st.regions.get _ _ id = none ↔ _
    rw [update_apply, update_apply]
    split
    · simp
    · exact h.live id
  · intro id hle
    change st.regions.next + 1 ≤ id at hle
    rw [update_of_ne (by omega)]
    exact h.fresh id (by omega)
  · intro level id
    rw [update_apply]
    refine (hblk level id).trans ?_
    split
    · rw [some_inj]
    · exact Iff.rfl
  · intro id
    rw [update_apply]
    refine (hbuf id).trans ?_
    split
    · rw [some_inj]
    · exact Iff.rfl
  · intro id
    rw [h.aside, update_apply]
    split
    next heq =>
      rw [heq, h.fresh _ le_rfl, some_inj]
      exact iff_of_false (some_ne_none _).symm hold
    next => exact Iff.rfl

/-- What was held before is still there. -/
theorem Owned.get_allocate {bytes : ℕ → UInt8} {size id : ℕ} {region : Region}
    (h : Owned st old owner) (hget : st.regions.get id = some region) :
    (st.allocate bytes size).2.regions.get id = some region := by
  refine (update_of_ne ?_ _ _).trans hget
  rintro rfl
  rw [(h.live _).mpr (h.fresh _ le_rfl)] at hget
  cases hget

theorem Kept.putIndex {level block : ℕ} (h : Kept fs dev ino st old) (hlevel : level < fs.niaddr)
    (hblk : st.file.blk level = none) :
    Kept fs dev ino (st.putIndex level block (fs.blockBytes dev block) fs.blockSize) old := by
  obtain ⟨owner, howner⟩ := h.owned
  refine ⟨h.fault, ⟨_, @Owned.put st old owner _ _ _ (.index level) howner (by simp) ?_ ?_⟩, ?_, ?_, ?_, ?_,
    h.noBuffer, ?_⟩
  · intro level' id
    change update st.file.blk level _ level' = some id ↔ _
    rw [update_apply]
    by_cases hl : level' = level
    · rw [if_pos hl, hl, some_inj]
      split
      next heq => exact iff_of_true heq.symm rfl
      next hne =>
        rw [← howner.blk, hblk]
        exact iff_of_false (Ne.symm hne) (some_ne_none id).symm
    · rw [if_neg hl]
      split
      next heq =>
        rw [howner.blk, heq, howner.fresh _ le_rfl]
        simp [Ne.symm hl]
      next => exact howner.blk level' id
  · intro id
    change st.file.buf = some id ↔ _
    split
    next heq =>
      rw [howner.buf, heq, howner.fresh _ le_rfl]
      simp
    next => exact howner.buf id
  · intro level' hle
    change update st.file.blk level _ level' = none
    rw [update_of_ne (by omega)]
    exact h.levels level' hle
  · intro level' id hblk'
    change update st.file.blk level _ level' = some id at hblk'
    change ∃ block', update st.file.blkno level _ level' = _ ∧
      update st.file.blksize level _ level' = _ ∧ _
    by_cases hl : level' = level
    · rw [hl, update_self] at hblk' ⊢
      rw [update_self]
      cases hblk'
      exact ⟨block, rfl, rfl, update_self _ _ _⟩
    · rw [update_of_ne hl] at hblk' ⊢
      rw [update_of_ne hl]
      obtain ⟨block', hblkno, hblksize, hget⟩ := h.index level' id hblk'
      exact ⟨block', hblkno, hblksize, howner.get_allocate hget⟩
  · intro level' hblk'
    change update st.file.blk level _ level' = none at hblk'
    change update st.file.blkno level _ level' = _ ∧
      update st.file.blksize level _ level' = _
    by_cases hl : level' = level
    · rw [hl, update_self] at hblk'
      cases hblk'
    · rw [update_of_ne hl] at hblk' ⊢
      rw [update_of_ne hl]
      exact h.noIndex level' hblk'
  · intro id hbuf
    obtain ⟨n, hblkno, hblksize, hget⟩ := h.buffer id hbuf
    exact ⟨n, hblkno, hblksize, howner.get_allocate hget⟩
  · intro p hp
    obtain ⟨id, region, hid, hget, hsize⟩ := h.oldSize p hp
    exact ⟨id, region, hid, howner.get_allocate hget, hsize⟩

theorem Kept.putBuffer {n : ℕ} (h : Kept fs dev ino st old) (hbuf : st.file.buf = none) :
    Kept fs dev ino (st.putBuffer n (fileBlockBytes fs dev ino n) fs.blockSize) old := by
  obtain ⟨owner, howner⟩ := h.owned
  refine ⟨h.fault, ⟨_, @Owned.put st old owner _ _ _ .buffer howner (by simp) ?_ ?_⟩, h.levels, ?_, h.noIndex,
    ?_, ?_, ?_⟩
  · intro level id
    change st.file.blk level = some id ↔ _
    split
    next heq =>
      rw [howner.blk, heq, howner.fresh _ le_rfl]
      simp
    next => exact howner.blk level id
  · intro id
    change some st.regions.next = some id ↔ _
    rw [some_inj]
    split
    next heq => exact iff_of_true heq.symm rfl
    next hne =>
      rw [← howner.buf, hbuf]
      exact iff_of_false (Ne.symm hne) (some_ne_none id).symm
  · intro level id hblk
    obtain ⟨block, hblkno, hblksize, hget⟩ := h.index level id hblk
    exact ⟨block, hblkno, hblksize, howner.get_allocate hget⟩
  · intro id hid
    cases hid
    exact ⟨n, rfl, rfl, update_self _ _ _⟩
  · intro hnone
    cases hnone
  · intro p hp
    obtain ⟨id, region, hid, hget, hsize⟩ := h.oldSize p hp
    exact ⟨id, region, hid, howner.get_allocate hget, hsize⟩

/-! ## What is read and released -/

/-- All old regions are released. -/
theorem Kept.deallocateAll (h : Kept fs dev ino st old) :
    Kept fs dev ino (st.deallocateAll old) [] ∧ (st.deallocateAll old).file = st.file ∧
      st.SameBuffer (st.deallocateAll old) := by
  induction old generalizing st with
  | nil => exact ⟨h, rfl, .refl st⟩
  | cons p old ih =>
    obtain ⟨id, region, hid, -, -⟩ := h.oldSize p mem_cons_self
    obtain ⟨q, size⟩ := p
    cases hid
    obtain ⟨hkept, hfile, hsame⟩ := h.deallocate
    obtain ⟨hkept', hfile', hsame'⟩ := ih hkept
    exact ⟨hkept', hfile'.trans hfile, hsame.trans hsame'⟩

/-- The data of an index block is what lies on the device. The block that is replaced is
put aside. -/
theorem indexData_spec {level block : ℕ} (hrec : dev.recSize ∣ fs.blockSize)
    (h : Kept fs dev ino st old) (hlevel : level < fs.niaddr)
    (hsmall : block * fs.blockSize < 2 ^ 32) :
    (st.indexData fs dev fail level block old = none ∧ fail = some (.index level) ∧
      st.file.blkno level ≠ block) ∨
    ∃ st' old', st.indexData fs dev fail level block old =
        some (fs.blockBytes dev block, st', old') ∧ Kept fs dev ino st' old' ∧
      st.SameBuffer st' ∧ (∀ l ≠ level, st'.file.blkno l = st.file.blkno l) ∧
      (st.file.blkno level = block ∨ st.file.blkno level = -1 → old' = old) := by
  unfold indexData
  by_cases hhit : st.file.blkno level = block
  · rw [if_pos hhit]
    obtain ⟨id, hblk⟩ : ∃ id, st.file.blk level = some id := by
      cases hblk : st.file.blk level with
      | none =>
        have hnone := (h.noIndex level hblk).1
        omega
      | some id => exact ⟨id, rfl⟩
    obtain ⟨block', hblkno, -, hget⟩ := h.index level id hblk
    obtain rfl : block' = block := by
      rw [hhit] at hblkno
      exact (Int.natCast_inj.mp hblkno).symm
    have hload : st.load (st.file.blk level) = some (fs.blockBytes dev block') := by
      unfold load
      rw [hblk, bind_some, hget]
      rfl
    rw [hload]
    exact .inr ⟨st, old, rfl, h, .refl st, fun _ _ => rfl, fun _ => rfl⟩
  rw [if_neg hhit]
  by_cases hfail : fail = some (.index level)
  · rw [if_pos hfail]
    exact .inl ⟨rfl, hfail, hhit⟩
  rw [if_neg hfail]
  have hread := FileSystem.deviceRead_eq hrec hsmall
  simp only [hread]
  cases hblk : st.file.blk level with
  | none =>
    obtain ⟨-, hsize⟩ := h.noIndex level hblk
    rw [hsize, if_neg (not_not.mpr rfl)]
    exact .inr ⟨_, _, rfl, h.putIndex hlevel hblk, ⟨rfl, rfl, rfl, rfl, rfl⟩,
      fun l hl => update_of_ne hl _ _, fun _ => rfl⟩
  | some id =>
    obtain ⟨block', hblkno, hsize, -⟩ := h.index level id hblk
    rw [if_pos (by rw [hsize]; exact (Nat.ne_of_gt fs.blockSize_pos))]
    have hclear : (st.clearLevel level).file.blk level = none := update_self _ _ _
    have hkept := @Kept.putIndex fs dev ino _ _ level block (h.clearLevel hblk) hlevel hclear
    have heq : (st.clearLevel level).putIndex level block (fs.blockBytes dev block) fs.blockSize =
        st.putIndex level block (fs.blockBytes dev block) fs.blockSize := by
      unfold State.putIndex State.clearLevel State.allocate
      simp only [update_idem]
    rw [heq] at hkept
    refine .inr ⟨_, _, rfl, hkept, ⟨rfl, rfl, rfl, rfl, rfl⟩, fun l hl => update_of_ne hl _ _, ?_⟩
    rintro (hhit' | hnone)
    · exact absurd hhit' hhit
    · omega

end State

end FsRead

end MachVirtuTerm
