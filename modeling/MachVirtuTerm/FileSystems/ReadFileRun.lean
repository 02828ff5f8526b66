import MachVirtuTerm.FileSystems.ReadFileInv
import MachVirtuTerm.Lib.Run

/-!
# What reading a file does

`block_map` finds the disk block of a block of the file; `buf_read_file` gives the bytes of the
file, in the buffer or where they are wanted.
-/

open List Function

namespace MachVirtuTerm

open FileSystem

namespace FileSystem

variable {fs : FileSystem} {dev : FsDevice} {ino : FsInode}

/-- Index blocks are looked up level by level. -/
theorem indexPath_le {level fileBlock block : ℕ} :
    ∀ p ∈ fs.indexPath dev level fileBlock block, p.1 ≤ level := by
  induction level generalizing fileBlock block with
  | zero =>
    intro p hp
    unfold indexPath at hp
    split at hp
    · cases hp
    · rw [mem_singleton.mp hp]
  | succ level ih =>
    intro p hp
    unfold indexPath at hp
    split at hp
    · cases hp
    · rcases mem_cons.mp hp with rfl | hp
      · exact le_rfl
      · exact Nat.le_trans (ih p hp) (Nat.le_succ level)

/-- They lie on the levels of the file system. -/
theorem findLevel_lt {count level fileBlock level' fileBlock' : ℕ}
    (h : fs.findLevel count level fileBlock = some (level', fileBlock')) :
    level' < level + count := by
  induction count generalizing level fileBlock with
  | zero => cases h
  | succ count ih =>
    unfold findLevel at h
    split at h
    · cases h
      omega
    · have hlt := ih h
      omega

end FileSystem

namespace FsRead

namespace State

variable {fs : FileSystem} {dev : FsDevice} {ino : FsInode} {fail : Option DevRead}
  {st st' : State} {old old' : OldBlocks} {level fileBlock block n : ℕ}

/-- If an index block is to be read and that fails, no block above it is replaced. -/
def Spared (st : State) (fail : Option DevRead) (path : List (ℕ × ℕ)) : Prop :=
  ∀ p ∈ path, fail = some (.index p.1) → st.file.blkno p.1 ≠ p.2 →
    ∀ q ∈ path, p.1 < q.1 → st.file.blkno q.1 = q.2 ∨ st.file.blkno q.1 = -1

/-- The loop of `block_map` looks the block up. It has put nothing aside where it fails. -/
theorem mapLoop_spec (hrec : dev.recSize ∣ fs.blockSize) (h : Kept fs dev ino st old)
    (hlevel : level < fs.niaddr)
    (hsmall : ∀ p ∈ fs.indexPath dev level fileBlock block, p.2 * fs.blockSize < 2 ^ 32)
    (hspared : st.Spared fail (fs.indexPath dev level fileBlock block))
    (hold : ∀ p ∈ fs.indexPath dev level fileBlock block, fail = some (.index p.1) →
      st.file.blkno p.1 ≠ p.2 → old = []) :
    ∃ r st' old', mapLoop fs dev fail level st fileBlock block old = (r, st', old') ∧
      Kept fs dev ino st' old' ∧ st.SameBuffer st' ∧
      (r = .ok (fs.walk dev level fileBlock block) ∨ r = .error .deviceError ∧ old' = []) := by
  induction level generalizing st fileBlock block old with
  | zero =>
    unfold mapLoop walk
    unfold indexPath at hsmall hspared hold
    by_cases hzero : block = 0
    · rw [if_pos hzero, if_pos hzero]
      exact ⟨_, st, old, rfl, h, .refl st, .inl rfl⟩
    rw [if_neg hzero] at hsmall hspared hold ⊢
    rw [if_neg hzero]
    rcases indexData_spec hrec h hlevel (hsmall _ mem_cons_self) with
      ⟨hnone, hfail, hmiss⟩ | ⟨st', old', hsome, hkept, hsame, -, -⟩
    · rw [hnone]
      exact ⟨_, st, old, rfl, h, .refl st, .inr ⟨rfl, hold _ mem_cons_self hfail hmiss⟩⟩
    · rw [hsome]
      exact ⟨_, st', old', rfl, hkept, hsame, .inl rfl⟩
  | succ level ih =>
    unfold mapLoop walk
    unfold indexPath at hsmall hspared hold
    by_cases hzero : block = 0
    · rw [if_pos hzero, if_pos hzero]
      exact ⟨_, st, old, rfl, h, .refl st, .inl rfl⟩
    rw [if_neg hzero] at hsmall hspared hold ⊢
    rw [if_neg hzero]
    rcases indexData_spec hrec h hlevel (hsmall _ mem_cons_self) with
      ⟨hnone, hfail, hmiss⟩ | ⟨st₁, old₁, hsome, hkept, hsame, hblkno, haside⟩
    · rw [hnone]
      exact ⟨_, st, old, rfl, h, .refl st, .inr ⟨rfl, hold _ mem_cons_self hfail hmiss⟩⟩
    · rw [hsome]
      -- The caches of the levels below are the same.
      have hbelow : ∀ p ∈ fs.indexPath dev level (fileBlock % fs.fNindir level)
          (fs.entry (fs.blockBytes dev block) (fileBlock / fs.fNindir level)),
          st₁.file.blkno p.1 = st.file.blkno p.1 := fun p hp =>
        hblkno p.1 (Nat.ne_of_lt (Nat.lt_succ_of_le (indexPath_le p hp)))
      obtain ⟨r, st', old', hloop, hkept', hsame', hresult⟩ := ih hkept (Nat.lt_of_succ_lt hlevel)
        (fun p hp => hsmall p (mem_cons_of_mem _ hp))
        (fun p hp hfail hmiss q hq hlt => by
          rw [hbelow p hp] at hmiss
          rw [hbelow q hq]
          exact hspared p (mem_cons_of_mem _ hp) hfail hmiss q (mem_cons_of_mem _ hq) hlt)
        (fun p hp hfail hmiss => by
          rw [hbelow p hp] at hmiss
          have hp' := mem_cons_of_mem (level + 1, block) hp
          have hlt : p.1 < level + 1 := Nat.lt_succ_of_le (indexPath_le p hp)
          rw [haside (hspared p hp' hfail hmiss _ mem_cons_self hlt)]
          exact hold p hp' hfail hmiss)
      exact ⟨r, st', old', hloop, hkept', hsame.trans hsame', hresult⟩

/-- `block_map` finds the disk block. -/
theorem blockMap_spec (hrec : dev.recSize ∣ fs.blockSize) (h : Kept fs dev ino st [])
    (hsmall : ∀ p ∈ fs.indexBlocks dev ino n, p.2 * fs.blockSize < 2 ^ 32)
    (hspared : st.Spared fail (fs.indexBlocks dev ino n)) :
    ∃ r st', st.blockMap fs dev ino fail n = (r, st') ∧ Kept fs dev ino st' [] ∧
      st.SameBuffer st' ∧ (∀ block, r = .ok block → block = fs.diskBlock dev ino n) ∧
      ∀ rc, r = .error rc → rc ≠ .success := by
  unfold blockMap
  unfold indexBlocks at hsmall hspared
  unfold diskBlock
  by_cases hdirect : n < fs.ndaddr
  · rw [if_pos hdirect, if_pos hdirect]
    exact ⟨_, st, rfl, h, .refl st, fun block hblock => (Except.ok.inj hblock).symm,
      fun rc hrc => by cases hrc⟩
  rw [if_neg hdirect] at hsmall hspared ⊢
  rw [if_neg hdirect]
  cases hfind : fs.findLevel fs.niaddr 0 (n - fs.ndaddr) with
  | none =>
    refine ⟨_, st, rfl, h, .refl st, fun block hblock => (nomatch hblock), ?_⟩
    rintro rc ⟨⟩
    exact fun heq => by cases heq
  | some found =>
    obtain ⟨level, fileBlock⟩ := found
    rw [hfind] at hsmall hspared
    have hlevel := findLevel_lt hfind
    rw [Nat.zero_add] at hlevel
    obtain ⟨r, st', old', hloop, hkept, hsame, hresult⟩ :=
      mapLoop_spec hrec h hlevel hsmall hspared fun _ _ _ _ => rfl
    simp only [hloop]
    rcases hresult with rfl | ⟨rfl, rfl⟩
    · obtain ⟨hkept', -, hsame'⟩ := hkept.deallocateAll
      exact ⟨_, _, rfl, hkept', hsame.trans hsame', fun block hblock =>
        (Except.ok.inj hblock).symm, fun rc hrc => by cases hrc⟩
    · refine ⟨_, st', rfl, hkept, hsame, fun block hblock => (nomatch hblock), ?_⟩
      rintro rc ⟨⟩
      exact fun heq => by cases heq

/-- A byte of the file lies in its block. -/
theorem fileByte_eq {offset i : ℕ} (hi : fs.blkoff offset + i < fs.blockSize) :
    fs.fileByte dev ino (offset + i) =
      fileBlockBytes fs dev ino (offset / fs.blockSize) (fs.blkoff offset + i) := by
  unfold blkoff at hi ⊢
  have hpos := fs.blockSize_pos
  have hoffset := Nat.div_add_mod offset fs.blockSize
  have hsum : offset + i = offset % fs.blockSize + i + fs.blockSize * (offset / fs.blockSize) := by
    omega
  have hdiv : (offset + i) / fs.blockSize = offset / fs.blockSize := by
    rw [hsum, Nat.add_mul_div_left _ _ hpos, Nat.div_eq_of_lt hi, Nat.zero_add]
  have hmod : (offset + i) % fs.blockSize = offset % fs.blockSize + i := by
    rw [hsum, Nat.add_mul_mod_self_left, Nat.mod_eq_of_lt hi]
  unfold fileByte fileBlockBytes
  rw [hdiv, hmod]
  split <;> rfl

/-- The number of a block, in a variable that is wide enough. -/
theorem lblkno_eq {offset : ℕ} (hnarrow : fs = .minix → offset / fs.blockSize < 2 ^ 16) :
    fs.lblkno offset = offset / fs.blockSize := by
  cases fs with
  | minix => exact Nat.mod_eq_of_lt (hnarrow rfl)
  | ext2 logBlockSize => rfl

/-- The buffer is released, before another one is put in its place. -/
theorem Kept.releaseBuffer (h : Kept fs dev ino st []) :
    st.releaseBuffer.mem = st.mem ∧ st.releaseBuffer.reading = st.reading ∧
      Kept fs dev ino (st.releaseBuffer.putBuffer n (fileBlockBytes fs dev ino n) fs.blockSize) [] ∧
      (st.file.bufBlkno = -1 → Kept fs dev ino st.releaseBuffer []) := by
  unfold State.releaseBuffer
  cases hbuf : st.file.buf with
  | none => exact ⟨rfl, rfl, h.putBuffer hbuf, fun _ => h⟩
  | some id =>
    obtain ⟨hkept, hfile, hsame⟩ := (h.clearBuffer hbuf).deallocate
    have hput := @Kept.putBuffer fs dev ino _ [] n hkept (by rw [hfile]; rfl)
    obtain ⟨n', hblkno, -, hget⟩ := h.buffer id hbuf
    refine ⟨?_, ?_, ?_, fun hnone => by omega⟩
    · simp only [State.deallocate, hget]
    · simp only [State.deallocate, hget]
    · have hclear : st.clearBuffer.regions.get id = some _ := hget
      simp only [State.deallocate, hclear] at hput
      simp only [State.deallocate, hget]
      exact hput

/-- The buffer gets a block of the file, if nothing fails. -/
theorem fillBuffer_spec (hrec : dev.recSize ∣ fs.blockSize) (h : Kept fs dev ino st [])
    (hsmall : (∀ p ∈ fs.indexBlocks dev ino n, p.2 * fs.blockSize < 2 ^ 32) ∧
      fs.diskBlock dev ino n * fs.blockSize < 2 ^ 32)
    (hspared : st.file.bufBlkno ≠ n → st.Spared fail (fs.indexBlocks dev ino n))
    (hdata : fail = some .data → st.file.bufBlkno ≠ n → fs.diskBlock dev ino n ≠ 0 →
      st.file.bufBlkno = -1) :
    ∃ rc st', st.fillBuffer fs dev ino fail n = (rc, st') ∧ Kept fs dev ino st' [] ∧
      st'.mem = st.mem ∧ st'.reading = st.reading ∧ (rc = .success → st'.file.bufBlkno = n) := by
  unfold fillBuffer
  by_cases hhit : (n : ℤ) ≠ st.file.bufBlkno
  · rw [if_pos hhit]
    obtain ⟨r, st₁, hmap, hkept, hsame, hblock, herror⟩ :=
      @blockMap_spec fs dev ino fail st n hrec h hsmall.1 (hspared hhit.symm)
    rw [hmap]
    cases r with
    | error rc =>
      exact ⟨rc, st₁, rfl, hkept, hsame.mem, hsame.reading, fun hrc => absurd hrc (herror rc rfl)⟩
    | ok block =>
      obtain rfl := hblock block rfl
      obtain ⟨hmem, hreading, hput, hkept₂⟩ := @Kept.releaseBuffer fs dev ino _ n hkept
      dsimp only
      by_cases hzero : fs.diskBlock dev ino n = 0
      · rw [if_pos hzero]
        unfold fileBlockBytes at hput
        rw [if_pos hzero] at hput
        exact ⟨_, _, rfl, hput, hmem.trans hsame.mem, hreading.trans hsame.reading, fun _ => rfl⟩
      rw [if_neg hzero]
      by_cases hfail : fail = some .data
      · rw [if_pos hfail]
        refine ⟨_, _, rfl, hkept₂ ?_, hmem.trans hsame.mem, hreading.trans hsame.reading,
          fun hrc => by cases hrc⟩
        rw [hsame.bufBlkno]
        exact hdata hfail hhit.symm hzero
      · rw [if_neg hfail, deviceRead_eq hrec hsmall.2]
        unfold fileBlockBytes at hput
        rw [if_neg hzero] at hput
        exact ⟨_, _, rfl, hput, hmem.trans hsame.mem, hreading.trans hsame.reading, fun _ => rfl⟩
  · rw [if_neg hhit]
    exact ⟨_, st, rfl, h, rfl, rfl, fun _ => (not_not.mp hhit).symm⟩

/-- The buffer can be used. -/
theorem Kept.load_buf (h : Kept fs dev ino st old) (hblkno : st.file.bufBlkno = n) :
    st.load st.file.buf = some (fileBlockBytes fs dev ino n) := by
  cases hbuf : st.file.buf with
  | none =>
    have hnone := h.noBuffer hbuf
    omega
  | some id =>
    obtain ⟨n', hblkno', -, hget⟩ := h.buffer id hbuf
    obtain rfl : n' = n := by
      rw [hblkno] at hblkno'
      exact (Int.natCast_inj.mp hblkno').symm
    unfold load
    rw [Option.bind_some, hget]
    rfl

/-- Nothing is kept in the memory of the caller. -/
theorem Kept.store {start size : ℕ} {bytes : ℕ → UInt8} (h : Kept fs dev ino st old) :
    Kept fs dev ino (st.store start size bytes) old := by
  obtain ⟨owner, howner⟩ := h.owned
  exact ⟨h.fault, ⟨owner, ⟨howner.live, howner.fresh, howner.blk, howner.buf, howner.aside,
    howner.nodup⟩⟩, h.levels, h.index, h.noIndex, h.buffer, h.noBuffer, h.oldSize⟩

/-- A block of the file is read to where it is wanted, if nothing fails. -/
theorem readDirect_spec {offset start : ℕ} (hrec : dev.recSize ∣ fs.blockSize)
    (h : Kept fs dev ino st []) (hn : fs.lblkno offset = n)
    (hsmall : (∀ p ∈ fs.indexBlocks dev ino n, p.2 * fs.blockSize < 2 ^ 32) ∧
      fs.diskBlock dev ino n * fs.blockSize < 2 ^ 32)
    (hspared : st.Spared fail (fs.indexBlocks dev ino n))
    (hhole : fs = .minix → fs.diskBlock dev ino n ≠ 0) :
    ∃ rc size st', st.readDirect fs dev ino fail offset start = (rc, size, st') ∧
      Kept fs dev ino st' [] ∧ st'.reading = st.reading ∧
      (rc ≠ .success → st'.mem = st.mem) ∧
      (rc = .success → min fs.blockSize (ino.size - offset) ≤ size ∧ size ≤ fs.blockSize ∧
        st'.mem = (st.store start fs.blockSize (fileBlockBytes fs dev ino n)).mem) := by
  unfold readDirect
  obtain ⟨r, st₁, hmap, hkept, hsame, hblock, herror⟩ := blockMap_spec hrec h hsmall.1 hspared
  rw [hn, hmap]
  cases r with
  | error rc =>
    exact ⟨rc, 0, st₁, rfl, hkept, hsame.reading, fun _ => hsame.mem,
      fun hrc => absurd hrc (herror rc rfl)⟩
  | ok block =>
    obtain rfl := hblock block rfl
    have hstore (bytes : ℕ → UInt8) : (st₁.store start fs.blockSize bytes).mem =
        (st.store start fs.blockSize bytes).mem := by
      unfold State.store
      rw [hsame.mem]
    by_cases hzero : fs ≠ .minix ∧ fs.diskBlock dev ino n = 0
    · simp only [if_pos hzero]
      refine ⟨_, _, _, rfl, hkept.store, hsame.reading, fun hrc => absurd rfl hrc,
        fun _ => ⟨Nat.min_le_left _ _, le_rfl, ?_⟩⟩
      unfold fileBlockBytes
      rw [if_pos hzero.2]
      exact hstore _
    simp only [if_neg hzero]
    by_cases hfail : fail = some .data
    · rw [if_pos hfail]
      exact ⟨_, _, _, rfl, hkept, hsame.reading, fun _ => hsame.mem, fun hrc => by cases hrc⟩
    · rw [if_neg hfail, deviceRead_eq hrec hsmall.2]
      refine ⟨_, _, _, rfl, hkept.store, hsame.reading, fun hrc => absurd rfl hrc,
        fun _ => ⟨le_rfl, Nat.min_le_left _ _, ?_⟩⟩
      have hne : fs.diskBlock dev ino n ≠ 0 := by
        intro heq
        by_cases hfs : fs = .minix
        · exact hhole hfs heq
        · exact hzero ⟨hfs, heq⟩
      unfold fileBlockBytes
      rw [if_neg hne]
      exact hstore _

end State

end FsRead

end MachVirtuTerm

/-!
# Reads of a file, one after the other

A read that is successful has stored the bytes of the file, and no read stores anything
elsewhere, as long as every turn of the loops meets a condition: holes of a Minix file
are read through the buffer, and no read of the device fails after something kept for it
was given up.
-/

namespace MachVirtuTerm

namespace FsRead

namespace State

section Conditions

variable (fs : FileSystem) (dev : FsDevice) (ino : FsInode)

/-- The condition for a turn, which reads block `n` of the file. -/
structure TurnMeets (st : State) (fail : Option DevRead) (n : ℕ) (direct : Prop) : Prop where
  /-- The number of the block fits into a short variable. -/
  narrow : fs = .minix → n < 2 ^ 16
  /-- The blocks can be addressed. -/
  small : (∀ p ∈ fs.indexBlocks dev ino n, p.2 * fs.blockSize < 2 ^ 32) ∧
    fs.diskBlock dev ino n * fs.blockSize < 2 ^ 32
  /-- A hole of a Minix file is read through the buffer. -/
  hole : fs = .minix → direct → fs.diskBlock dev ino n ≠ 0
  /-- If the read of an index block fails, no other one was replaced. -/
  index : direct ∨ st.file.bufBlkno ≠ n → st.Spared fail (fs.indexBlocks dev ino n)
  /-- If the read into the buffer fails, the buffer was empty. -/
  data : ¬ direct → fail = some .data → st.file.bufBlkno ≠ n → fs.diskBlock dev ino n ≠ 0 →
    st.file.bufBlkno = -1

/-- The condition under which a step does what it should. -/
def Meets (st : State) : Action → Prop
  | .turn fail => ∀ req, st.reading = some req → req.filled < req.size →
    st.TurnMeets fs dev ino fail ((req.offset + req.filled) / fs.blockSize)
      (Direct fs dev (req.offset + req.filled) (req.start + req.filled) (req.size - req.filled))
  | _ => True

/-- A read that is under way lies within the file, and what it has filled are bytes of the
file. -/
structure Filled (mem : ℕ → UInt8) (req : ReadReq) : Prop where
  filled_le : req.filled ≤ req.size
  within : req.offset + req.size ≤ ino.size
  bytes : ∀ i < req.filled, mem (req.start + i) = fs.fileByte dev ino (req.offset + i)

/-- The invariant. -/
structure Inv (st : State) : Prop where
  kept : Kept fs dev ino st []
  filled : ∀ req, st.reading = some req → Filled fs dev ino st.mem req

/-- What a step does to the memory of the caller: it stores nothing outside of the read, and a
successful end finds the bytes of the file. -/
structure StepRight (st st' : State) (ret : Option Rc) : Prop where
  frame : ∀ a, st'.mem a ≠ st.mem a →
    ∃ req, st.reading = some req ∧ req.start ≤ a ∧ a < req.start + req.size
  success : ret = some .success → ∃ req, st.reading = some req ∧
    ∀ i < req.size, st'.mem (req.start + i) = fs.fileByte dev ino (req.offset + i)

end Conditions

variable {fs : FileSystem} {dev : FsDevice} {ino : FsInode} {fail : Option DevRead}
  {st st' : State} {offset start size n : ℕ}

/-- `buf_read_file` gives bytes of the file, where they are wanted or in the buffer. -/
theorem bufReadFile_spec (hrec : dev.recSize ∣ fs.blockSize) (h : Kept fs dev ino st [])
    (hmeets : st.TurnMeets fs dev ino fail (offset / fs.blockSize)
      (Direct fs dev offset start size))
    (hsize : 0 < size) (hwithin : offset + size ≤ ino.size) :
    ∃ rc place bufSize st', st.bufReadFile fs dev ino fail offset start size =
        (rc, place, bufSize, st') ∧ Kept fs dev ino st' [] ∧ st'.reading = st.reading ∧
      (rc ≠ .success → st'.mem = st.mem) ∧
      (rc = .success → 0 < bufSize ∧
        ((place = .caller ∧ bufSize ≤ size ∧
            st'.mem = (st.store start bufSize fun i => fs.fileByte dev ino (offset + i)).mem) ∨
          (place = .buffer (fs.blkoff offset) ∧ st'.mem = st.mem ∧
            ∃ data, st'.load st'.file.buf = some data ∧
              ∀ i < bufSize, data (fs.blkoff offset + i) = fs.fileByte dev ino (offset + i)))) := by
  have hpos := fs.blockSize_pos
  have hoff : fs.blkoff offset < fs.blockSize := Nat.mod_lt _ hpos
  have hn : fs.lblkno offset = offset / fs.blockSize := lblkno_eq hmeets.narrow
  unfold bufReadFile
  rw [if_neg (by omega)]
  by_cases hdirect : Direct fs dev offset start size
  · rw [if_pos hdirect]
    obtain ⟨rc, bufSize, st', hread, hkept, hreading, hfailed, hsuccess⟩ :=
      @readDirect_spec fs dev ino fail st _ offset start hrec h hn hmeets.small
        (hmeets.index (.inl hdirect)) fun hfs => hmeets.hole hfs hdirect
    simp only [hread]
    refine ⟨rc, .caller, bufSize, st', rfl, hkept, hreading, hfailed, fun hrc => ?_⟩
    obtain ⟨hge, hle, hmem⟩ := hsuccess hrc
    unfold Direct at hdirect
    rw [not_or, not_or, not_or, not_not] at hdirect
    obtain ⟨hzero, -, hwhole, -⟩ := hdirect
    obtain rfl : bufSize = fs.blockSize := by omega
    refine ⟨hpos, .inl ⟨rfl, by omega, ?_⟩⟩
    rw [hmem]
    funext a
    unfold State.store
    dsimp only
    split
    next hin =>
      rw [fileByte_eq (by omega), hzero, Nat.zero_add]
    next => rfl
  · rw [if_neg hdirect]
    obtain ⟨rc, st', hfill, hkept, hmem, hreading, hblkno⟩ := fillBuffer_spec hrec h hmeets.small
      (fun hmiss => hmeets.index (.inr hmiss)) (hmeets.data hdirect)
    rw [hn]
    simp only [hfill]
    refine ⟨rc, .buffer (fs.blkoff offset), _, st', rfl, hkept, hreading, fun _ => hmem,
      fun hrc => ⟨by omega, .inr ⟨rfl, hmem, _, hkept.load_buf (hblkno hrc), fun i hi => ?_⟩⟩⟩
    exact (fileByte_eq (by omega)).symm

/-- The invariant does not depend on the memory of the caller, nor on the read. -/
theorem Kept.congr {old : OldBlocks} (h : Kept fs dev ino st old) (hfile : st'.file = st.file)
    (hregions : st'.regions = st.regions) (hfault : st'.fault = st.fault) :
    Kept fs dev ino st' old := by
  obtain ⟨file, regions, mem, reading, fault⟩ := st
  obtain ⟨file', regions', mem', reading', fault'⟩ := st'
  cases hfile
  cases hregions
  cases hfault
  obtain ⟨owner, howner⟩ := h.owned
  exact ⟨h.fault, ⟨owner, ⟨howner.live, howner.fresh, howner.blk, howner.buf, howner.aside,
    howner.nodup⟩⟩, h.levels, h.index, h.noIndex, h.buffer, h.noBuffer, h.oldSize⟩

variable {req : ReadReq}

/-- More of the read is filled. -/
theorem Filled.more {csize : ℕ} (h : Filled fs dev ino st.mem req)
    (hle : csize ≤ req.size - req.filled) :
    Filled fs dev ino
      (st.store (req.start + req.filled) csize fun i =>
        fs.fileByte dev ino (req.offset + req.filled + i)).mem
      { req with filled := req.filled + csize } := by
  have hfilled := h.filled_le
  refine ⟨?_, h.within, fun i hi => ?_⟩
  · change req.filled + csize ≤ req.size
    omega
  change i < req.filled + csize at hi
  change (if req.start + req.filled ≤ req.start + i ∧
      req.start + i < req.start + req.filled + csize then
    fs.fileByte dev ino (req.offset + req.filled + (req.start + i - (req.start + req.filled)))
    else st.mem (req.start + i)) = fs.fileByte dev ino (req.offset + i)
  split
  next hin =>
    congr 1
    omega
  next hout => exact h.bytes i (by omega)

/-- A turn that goes on. -/
theorem turn_goes_on {csize : ℕ} (h : st.Inv fs dev ino)
    (hreq : st.reading = some req) (hle : csize ≤ req.size - req.filled)
    (hkept : Kept fs dev ino st' [])
    (hmem : st'.mem = (st.store (req.start + req.filled) csize fun i =>
      fs.fileByte dev ino (req.offset + req.filled + i)).mem) :
    Inv fs dev ino { st' with reading := some { req with filled := req.filled + csize } } ∧
      st.StepRight fs dev ino
        { st' with reading := some { req with filled := req.filled + csize } } none := by
  have hfilled := (h.filled req hreq).filled_le
  refine ⟨⟨hkept.congr rfl rfl rfl, ?_⟩, ⟨fun a ha => ⟨req, hreq, ?_⟩, fun hret => by cases hret⟩⟩
  · rintro req' ⟨⟩
    change Filled fs dev ino st'.mem _
    rw [hmem]
    exact (h.filled req hreq).more hle
  · change st'.mem a ≠ st.mem a at ha
    rw [hmem] at ha
    by_contra hout
    refine ha (if_neg ?_)
    omega

/-- A turn fills some more of the memory, or ends the read. -/
theorem turn_spec (hrec : dev.recSize ∣ fs.blockSize) (h : st.Inv fs dev ino)
    (hreq : st.reading = some req) (hmeets : st.Meets fs dev ino (.turn fail)) :
    (st.turn fs dev ino fail req).1.Inv fs dev ino ∧
      st.StepRight fs dev ino (st.turn fs dev ino fail req).1 (st.turn fs dev ino fail req).2 := by
  obtain ⟨hle, hwithin, hbytes⟩ := h.filled req hreq
  unfold turn
  by_cases hdone : req.size - req.filled = 0
  · simp only [if_pos hdone]
    refine ⟨⟨h.kept.congr rfl rfl rfl, fun req hnone => by cases hnone⟩,
      ⟨fun a ha => absurd rfl ha, fun _ => ⟨req, hreq, fun i hi => hbytes i (by omega)⟩⟩⟩
  simp only [if_neg hdone]
  obtain ⟨rc, place, bufSize, st', hread, hkept, -, hfailed, hsuccess⟩ :=
    @bufReadFile_spec fs dev ino fail st (req.offset + req.filled) (req.start + req.filled)
      (req.size - req.filled) hrec h.kept (hmeets req hreq (by omega)) (by omega) (by omega)
  rw [hread]
  have hfail (rc : Rc) (hrc : rc ≠ .success) (hmem : st'.mem = st.mem) :
      Inv fs dev ino { st' with reading := none } ∧
        st.StepRight fs dev ino { st' with reading := none } (some rc) :=
    ⟨⟨hkept.congr rfl rfl rfl, fun req hnone => by cases hnone⟩,
      ⟨fun a ha => absurd (congrFun hmem a) ha, fun hret => absurd (Option.some.inj hret) hrc⟩⟩
  cases rc with
  | notInFile => exact hfail _ (by simp) (hfailed (by simp))
  | deviceError => exact hfail _ (by simp) (hfailed (by simp))
  | success =>
    obtain ⟨hpos, hplace⟩ := hsuccess rfl
    obtain ⟨csize, hcsize⟩ : ∃ csize, csize =
        if bufSize < req.size - req.filled then bufSize else req.size - req.filled := ⟨_, rfl⟩
    have hbounds : 0 < csize ∧ csize ≤ req.size - req.filled ∧ csize ≤ bufSize ∧
        (bufSize ≤ req.size - req.filled → csize = bufSize) := by
      rw [hcsize]
      split <;> omega
    simp only [← hcsize, if_neg (Nat.ne_of_gt hbounds.1)]
    rcases hplace with ⟨rfl, hwhole, hmem⟩ | ⟨rfl, hmem, data, hload, hdata⟩
    · rw [← hbounds.2.2.2 hwhole] at hmem
      exact turn_goes_on h hreq hbounds.2.1 hkept hmem
    · simp only [hload]
      refine turn_goes_on h hreq hbounds.2.1 hkept.store ?_
      funext a
      unfold State.store
      dsimp only
      rw [hmem]
      split
      next hin => exact hdata _ (by omega)
      next => rfl

variable (h : Kept fs dev ino st [])

include h

/-- An index block is released. -/
theorem Kept.freeLevel (level : ℕ) :
    Kept fs dev ino (st.freeLevel level) [] ∧ (st.freeLevel level).mem = st.mem ∧
      (st.freeLevel level).reading = st.reading ∧ (st.freeLevel level).file.blk level = none ∧
      (∀ l, st.file.blk l = none → (st.freeLevel level).file.blk l = none) := by
  unfold State.freeLevel
  cases hblk : st.file.blk level with
  | none =>
    refine ⟨h.congr ?_ rfl rfl, rfl, rfl, hblk, fun l hl => hl⟩
    have hnone := (h.noIndex level hblk).1
    rw [← hnone, update_eq_self]
  | some id =>
    obtain ⟨hkept, hfile, hsame⟩ := (h.clearLevel hblk).deallocate
    obtain ⟨block, -, -, hget⟩ := h.index level id hblk
    have hget' : (st.clearLevel level).regions.get id = some _ := hget
    simp only [State.deallocate, hget'] at hkept
    simp only [State.deallocate, hget]
    refine ⟨hkept, trivial, trivial, update_self _ _ _, fun l hl => ?_⟩
    rw [update_apply, hl, ite_self]

/-- So are those of some levels. -/
theorem Kept.freeLevels (levels : List ℕ) : Kept fs dev ino (levels.foldl State.freeLevel st) [] ∧
      (levels.foldl State.freeLevel st).mem = st.mem ∧
      (levels.foldl State.freeLevel st).reading = st.reading ∧
      ∀ l, l ∈ levels ∨ st.file.blk l = none →
        (levels.foldl State.freeLevel st).file.blk l = none := by
  induction levels generalizing st with
  | nil => exact ⟨h, rfl, rfl, fun l hl => hl.resolve_left not_mem_nil⟩
  | cons level levels ih =>
    obtain ⟨hkept, hmem, hreading, hblk, hstays⟩ := h.freeLevel level
    obtain ⟨hkept', hmem', hreading', hblk'⟩ := ih hkept
    refine ⟨hkept', hmem'.trans hmem, hreading'.trans hreading, fun l hl => hblk' l ?_⟩
    rcases hl with hl | hl
    · rcases mem_cons.mp hl with rfl | hl
      · exact .inr hblk
      · exact .inl hl
    · exact .inr (hstays l hl)

/-- Where nothing is kept, nothing is allocated. -/
theorem Kept.get_eq_none (hblk : ∀ l, st.file.blk l = none)
    (hbuf : st.file.buf = none) (id : ℕ) : st.regions.get id = none := by
  obtain ⟨owner, howner⟩ := h.owned
  rw [howner.live]
  cases hid : owner id with
  | none => rfl
  | some holder =>
    cases holder with
    | index level =>
      rw [← howner.blk, hblk] at hid
      cases hid
    | buffer =>
      rw [← howner.buf, hbuf] at hid
      cases hid
    | old =>
      rw [← howner.aside] at hid
      cases hid

/-- Everything is released when the file is closed. -/
theorem freeFileBuffers_spec :
    Kept fs dev ino (st.freeFileBuffers fs) [] ∧ (st.freeFileBuffers fs).mem = st.mem ∧
      (st.freeFileBuffers fs).reading = st.reading ∧
      ∀ id, (st.freeFileBuffers fs).regions.get id = none := by
  obtain ⟨hkept, hmem, hreading, hblk⟩ := h.freeLevels (List.range fs.niaddr)
  have hlevels (l : ℕ) : ((List.range fs.niaddr).foldl State.freeLevel st).file.blk l = none := by
    apply hblk
    by_cases hl : l < fs.niaddr
    · exact .inl (mem_range.mpr hl)
    · exact .inr (h.levels l (by omega))
  unfold freeFileBuffers
  generalize (List.range fs.niaddr).foldl State.freeLevel st = st₁ at hkept hmem hreading hlevels
  cases hbuf : st₁.file.buf with
  | none =>
    have hkept' : Kept fs dev ino
        { st₁ with file := { st₁.file with buf := none, bufBlkno := -1 } } [] := by
      refine hkept.congr ?_ rfl rfl
      rw [← hbuf, ← hkept.noBuffer hbuf]
    simp only [hbuf]
    exact ⟨hkept', hmem, hreading, hkept'.get_eq_none hlevels rfl⟩
  | some id =>
    obtain ⟨hkept', -, -⟩ := (hkept.clearBuffer hbuf).deallocate
    obtain ⟨n, -, -, hget⟩ := hkept.buffer id hbuf
    have hget' : st₁.clearBuffer.regions.get id = some _ := hget
    simp only [State.deallocate, hget'] at hkept'
    simp only [State.deallocate, hbuf, hget]
    exact ⟨hkept', hmem, hreading, hkept'.get_eq_none hlevels rfl⟩

end State

/-! ## Runs -/

/-- Reads lie within the file. -/
def Action.Allowed (ino : FsInode) : Action → Prop
  | .read offset _ size => offset + size ≤ ino.size
  | _ => True

section Runs

variable {fs : FileSystem} {dev : FsDevice} {ino : FsInode} {st st' : State} {action : Action}
  {ret : Option Rc}

/-- Every step that meets the condition. -/
theorem step_spec (hrec : dev.recSize ∣ fs.blockSize) (h : st.Inv fs dev ino)
    (hallowed : action.Allowed ino) (hmeets : st.Meets fs dev ino action)
    (hstep : st.step fs dev ino action = some (st', ret)) :
    st'.Inv fs dev ino ∧ st.StepRight fs dev ino st' ret := by
  cases action with
  | read offset start size =>
    unfold State.step at hstep
    cases hreading : st.reading with
    | some req =>
      rw [hreading] at hstep
      cases hstep
    | none =>
      rw [hreading] at hstep
      cases hstep
      refine ⟨⟨h.kept.congr rfl rfl rfl, ?_⟩, ⟨fun a ha => absurd rfl ha, fun hret => by cases hret⟩⟩
      rintro req ⟨⟩
      exact ⟨Nat.zero_le _, hallowed, fun i hi => absurd hi (Nat.not_lt_zero i)⟩
  | turn fail =>
    obtain ⟨req, hreading, hturn⟩ := Option.map_eq_some_iff.mp hstep
    have hspec := State.turn_spec hrec h hreading hmeets
    rwa [hturn] at hspec
  | close =>
    unfold State.step at hstep
    cases hreading : st.reading with
    | some req =>
      rw [hreading] at hstep
      cases hstep
    | none =>
      rw [hreading] at hstep
      cases hstep
      obtain ⟨hkept, hmem, hreading', -⟩ := State.freeFileBuffers_spec h.kept
      refine ⟨⟨hkept, fun req hreq => ?_⟩,
        ⟨fun a ha => absurd (congrFun hmem a) ha, fun hret => by cases hret⟩⟩
      rw [hreading', hreading] at hreq
      cases hreq

end Runs

end FsRead

end MachVirtuTerm
