import MachVirtuTerm.Ipc.ScatterList

/-!
# When receiving is sound

A receive that succeeds has room for the message and its trailer, reads only scatter
descriptors that were copied in, and overwrites only regions that were checked. It fails to
when the size of the trailer is subtracted from a smaller receive size, and when the product
with the number of scatter descriptors wraps and the last of them is cut off.
-/

open List

namespace MachVirtuTerm

namespace Kmsg

/-- Both descriptors are for memory, or both for ports. -/
def SameKind (g s : UserDescriptor) : Prop :=
  (g.IsOutOfLine ∧ s.IsOutOfLine) ∨
    (g.type = machMsgOolPortsDescriptor ∧ s.type = machMsgOolPortsDescriptor)

/-- A descriptor that passes the check has the kind and, to be overwritten, the size. -/
theorem Consistent.sameKind {p : Gathered × Placed} (h : Consistent p)
    (htype : p.1.1.IsOutOfLine ∨ p.1.1.type = machMsgOolPortsDescriptor)
    (hcopy : p.2.descriptor.copy = machMsgOverwrite) :
    SameKind p.1.1 p.2.descriptor ∧ p.1.1.size ≤ p.2.descriptor.size := by
  rw [Consistent, checkFields] at h
  split at h
  case isTrue hmemory =>
    split at h
    · exact absurd h (by decide)
    next hsame =>
      rw [hcopy] at h
      split at h
      · exact absurd h (by decide)
      next hsize =>
        simp only [true_and, gt_iff_lt, not_lt] at hsize
        exact ⟨.inl ⟨hmemory, not_not.mp hsame⟩, hsize⟩
  case isFalse hports =>
    split at h
    · exact absurd h (by decide)
    next hsame =>
      rw [hcopy] at h
      split at h
      · exact absurd h (by decide)
      next hsize =>
        simp only [true_and, gt_iff_lt, not_lt] at hsize
        exact ⟨.inr ⟨htype.resolve_left hports, not_not.mp hsame⟩, hsize⟩

namespace ReceiveCall

/-- The descriptor lies in the bytes that were copied in. -/
def Within (c : ReceiveCall) (s : Placed) : Prop := s.offset + 12 ≤ c.listSize.toNat

instance (c : ReceiveCall) (s : Placed) : Decidable (c.Within s) :=
  inferInstanceAs (Decidable (_ ≤ _))

/-- The scatter descriptors up to the end of the bytes that were copied in. -/
def copiedIn (c : ReceiveCall) : List Placed :=
  (scatterList c.slist c.count).takeWhile fun s => decide (c.Within s)

/-- The scatter descriptors from the first that these bytes do not hold. -/
def cutOff (c : ReceiveCall) : List Placed :=
  (scatterList c.slist c.count).dropWhile fun s => decide (c.Within s)

/-- What the message has to place. -/
def regions (c : ReceiveCall) : List Gathered := regionsOf c.gather.zipIdx

/-- Where the scatter descriptors that were copied in place it. -/
def targets (c : ReceiveCall) : List Placed := targetsOf c.copiedIn

/-- The scatter list is not copied in. -/
def Refused (c : ReceiveCall) : Prop :=
  c.Overwrite ∧ (c.slistSize < 28 ∨ c.copyinFails = true ∨ listEnd c.count > c.listSize)

/-- The message is larger than what the 32-bit difference leaves for it. -/
def TooLarge (behind : ℕ → BitVec 32) (c : ReceiveCall) : Prop :=
  c.msghSize > c.rcvSize - requestedTrailerSize behind c.option

/-- The scatter list does not suit the message. -/
def Mismatched (c : ReceiveCall) : Prop :=
  (c.count = 0 ∧ c.regions ≠ []) ∨ ∃ p ∈ c.regions.zip c.targets, ¬Consistent p

/-- The scatter descriptors that were copied in are all there are, or all that are needed. -/
def Enough (c : ReceiveCall) : Prop :=
  c.cutOff = [] ∨ c.regions.length ≤ c.targets.length

/-- The receive is sound. -/
structure Sound (behind : ℕ → BitVec 32) (c : ReceiveCall) : Prop where
  fits : (c.machMsgReceive behind).finish = some machMsgSuccess →
    c.msghSize.toNat + (requestedTrailerSize behind c.option).toNat ≤ c.rcvSize.toNat
  within : ∀ s ∈ (c.machMsgReceive behind).checked.read ++
    (c.machMsgReceive behind).copiedOut.read, c.Within s
  paired : ∀ p ∈ (c.machMsgReceive behind).copiedOut.pairs, Overwrites p →
    p ∈ (c.machMsgReceive behind).checked.pairs ∧
      SameKind p.1.1 p.2.descriptor ∧ p.1.1.size ≤ p.2.descriptor.size

/-! ## The bytes that were copied in -/

variable {behind : ℕ → BitVec 32} {c : ReceiveCall}

theorem scatterList_eq (c : ReceiveCall) : scatterList c.slist c.count = c.copiedIn ++ c.cutOff :=
  (takeWhile_append_dropWhile).symm

theorem within_of_mem_copiedIn {s : Placed} (h : s ∈ c.copiedIn) : c.Within s :=
  of_decide_eq_true (mem_takeWhile_imp (p := fun s => decide (c.Within s)) h)

/-- The first descriptor of the others is not in these bytes. -/
theorem not_within_cutOff {s : Placed} {rest : List Placed} (h : c.cutOff = s :: rest) :
    ¬c.Within s := by
  have hne : c.cutOff ≠ [] := by
    rw [h]
    exact cons_ne_nil s rest
  have := head_dropWhile_not (fun s => decide (c.Within s)) hne
  simpa [show (scatterList c.slist c.count).dropWhile (fun s => decide (c.Within s)) = s :: rest
    from h] using this

/-- What was copied in is there when the body is copied out, and nothing else if nothing was
cut off. -/
theorem laterList_eq (c : ReceiveCall) :
    ∃ cut, scatterList c.laterSlist c.count = c.copiedIn ++ cut ∧ (c.cutOff = [] → cut = []) := by
  let fits : ℕ → Bool := fun i => decide (4 + 12 * i + 12 ≤ c.listSize.toNat)
  let numbers := List.range (((listEnd c.count).toNat - 4 + 11) / 12)
  let place : (ℕ → UserDescriptor) → ℕ → Placed := fun memory i =>
    ⟨4 + 12 * i, memory (4 + 12 * i)⟩
  have hcopied : c.copiedIn = (numbers.takeWhile fits).map (place c.slist) :=
    takeWhile_map
  have hcut : c.cutOff = (numbers.dropWhile fits).map (place c.slist) :=
    dropWhile_map
  refine ⟨(numbers.dropWhile fits).map (place c.laterSlist), ?_, fun hnil => ?_⟩
  · have hsame : (numbers.takeWhile fits).map (place c.laterSlist) = c.copiedIn := by
      rw [hcopied]
      apply map_congr_left
      intro i hi
      have hfits : 4 + 12 * i + 12 ≤ c.listSize.toNat :=
        of_decide_eq_true (mem_takeWhile_imp (p := fits) hi)
      exact congrArg (Placed.mk (4 + 12 * i)) (c.slist_kept _ hfits)
    rw [← hsame, ← map_append, takeWhile_append_dropWhile]
    rfl
  · rw [hcut, map_eq_nil_iff] at hnil
    rw [hnil, map_nil]

/-! ## The call -/

/-- The list is not copied in, or it is as `MACH_RCV_OVERWRITE` says. -/
theorem copyinScatter_cases (c : ReceiveCall) :
    (c.Refused ∧ ∃ mr, c.copyinScatter = .error mr) ∨
      (¬c.Refused ∧ c.copyinScatter = .ok (decide c.Overwrite)) := by
  by_cases hoverwrite : c.Overwrite
  case neg =>
    right
    refine ⟨fun h => hoverwrite h.1, ?_⟩
    rw [copyinScatter, if_neg hoverwrite, decide_eq_false hoverwrite]
  rw [copyinScatter, if_pos hoverwrite, decide_eq_true hoverwrite]
  by_cases hsize : c.slistSize < 28
  · exact .inl ⟨⟨hoverwrite, .inl hsize⟩, _, if_pos hsize⟩
  rw [if_neg hsize]
  by_cases hcopyin : c.copyinFails = true
  · exact .inl ⟨⟨hoverwrite, .inr (.inl hcopyin)⟩, _, if_pos hcopyin⟩
  rw [if_neg hcopyin]
  by_cases hend : listEnd c.count > c.listSize
  · exact .inl ⟨⟨hoverwrite, .inr (.inr hend)⟩, _, if_pos hend⟩
  · right
    refine ⟨?_, if_neg hend⟩
    rintro ⟨-, h | h | h⟩
    · exact hsize h
    · exact hcopyin h
    · exact hend h

/-- Without the list nothing is received. -/
theorem machMsgReceive_refused (behind : ℕ → BitVec 32) (h : c.Refused) :
    c.machMsgReceive behind = ⟨none, ⟨[], []⟩, ⟨[], []⟩⟩ := by
  rcases c.copyinScatter_cases with ⟨-, mr, hmr⟩ | ⟨hnot, -⟩
  · rw [machMsgReceive, hmr]
  · exact absurd h hnot

/-- The message is checked, and copied out after a success. -/
theorem machMsgReceive_eq (behind : ℕ → BitVec 32) (h : ¬c.Refused) :
    c.machMsgReceive behind =
      if (c.finishReceive behind (decide c.Overwrite)).1 = machMsgSuccess then
        ⟨some machMsgSuccess, (c.finishReceive behind (decide c.Overwrite)).2,
          c.copyout (decide c.Overwrite)⟩
      else ⟨some (c.finishReceive behind (decide c.Overwrite)).1,
        (c.finishReceive behind (decide c.Overwrite)).2, ⟨[], []⟩⟩ := by
  rcases c.copyinScatter_cases with ⟨hrefused, -⟩ | ⟨-, hok⟩
  · exact absurd hrefused h
  rw [machMsgReceive, hok]
  by_cases hmr : (c.finishReceive behind (decide c.Overwrite)).1 = machMsgSuccess
  · simp [hmr]
  · simp [hmr]

/-- A message that is too large is not looked at. -/
theorem finishReceive_tooLarge (h : c.TooLarge behind) (slist : Bool) :
    c.finishReceive behind slist = (machRcvTooLarge, ⟨[], []⟩) :=
  if_pos h

/-- Another message succeeds without a scatter list. -/
theorem finishReceive_false (h : ¬c.TooLarge behind) :
    c.finishReceive behind false = (machMsgSuccess, ⟨[], []⟩) :=
  if_neg h

/-- Another message is checked against the scatter list. -/
theorem finishReceive_true (h : ¬c.TooLarge behind) :
    c.finishReceive behind true =
      checkScatterFrom c.count c.gather.zipIdx (c.copiedIn ++ c.cutOff) := by
  rw [← c.scatterList_eq]
  exact if_neg h

/-- The check fails with what was copied in. -/
theorem check_mismatched (h : c.Mismatched) :
    (checkScatterFrom c.count c.gather.zipIdx (c.copiedIn ++ c.cutOff)).1 ≠ machMsgSuccess ∧
      ∀ s ∈ (checkScatterFrom c.count c.gather.zipIdx (c.copiedIn ++ c.cutOff)).2.read,
        c.Within s := by
  by_cases hcount : c.count = 0
  · rw [hcount, checkScatterFrom_zero]
    rcases h with ⟨-, hregions⟩ | ⟨p, hp, -⟩
    · simp only [show regionsOf c.gather.zipIdx ≠ [] from hregions, if_false]
      exact ⟨by decide, fun s hs => absurd hs not_mem_nil⟩
    · have hregions : regionsOf c.gather.zipIdx ≠ [] := by
        intro hnil
        rw [regions, hnil] at hp
        simp at hp
      simp only [hregions, if_false]
      exact ⟨by decide, fun s hs => absurd hs not_mem_nil⟩
  · rcases h with ⟨hzero, -⟩ | hbad
    · exact absurd hzero hcount
    · obtain ⟨hmr, hread⟩ := checkScatterFrom_inconsistent hcount c.cutOff _ _ hbad
      exact ⟨hmr, fun s hs => within_of_mem_copiedIn (hread s hs)⟩

/-- The check succeeds with what was copied in. -/
theorem check_enough (h : ¬c.Mismatched) (henough : c.Enough) :
    (checkScatterFrom c.count c.gather.zipIdx (c.copiedIn ++ c.cutOff)).1 = machMsgSuccess ∧
      (checkScatterFrom c.count c.gather.zipIdx (c.copiedIn ++ c.cutOff)).2.pairs =
        c.regions.zip c.targets ∧
      ∀ s ∈ (checkScatterFrom c.count c.gather.zipIdx (c.copiedIn ++ c.cutOff)).2.read,
        c.Within s := by
  have hgood : ∀ p ∈ c.regions.zip c.targets, Consistent p := by
    intro p hp
    by_contra hbad
    exact h (.inr ⟨p, hp, hbad⟩)
  by_cases hcount : c.count = 0
  · have hregions : c.regions = [] := by
      by_contra hregions
      exact h (.inl ⟨hcount, hregions⟩)
    rw [hcount, checkScatterFrom_zero, hregions,
      if_pos (show regionsOf c.gather.zipIdx = [] from hregions)]
    exact ⟨rfl, rfl, fun s hs => absurd hs not_mem_nil⟩
  · obtain ⟨hmr, hpairs, hread⟩ :=
      checkScatterFrom_enough hcount c.cutOff _ _ hgood henough
    exact ⟨hmr, hpairs, fun s hs => within_of_mem_copiedIn (hread s hs)⟩

/-- The check reads what was not copied in. -/
theorem check_beyond (h : ¬c.Mismatched) (henough : ¬c.Enough) :
    ∃ s ∈ (checkScatterFrom c.count c.gather.zipIdx (c.copiedIn ++ c.cutOff)).2.read,
      ¬c.Within s := by
  have hgood : ∀ p ∈ c.regions.zip c.targets, Consistent p := by
    intro p hp
    by_contra hbad
    exact h (.inr ⟨p, hp, hbad⟩)
  rw [Enough, not_or, Nat.not_le] at henough
  obtain ⟨hcut, hlength⟩ := henough
  have hcount : c.count ≠ 0 := by
    intro hzero
    apply h
    refine .inl ⟨hzero, ?_⟩
    intro hnil
    rw [hnil] at hlength
    simp at hlength
  obtain ⟨s, rest, hrest⟩ := exists_cons_of_ne_nil hcut
  refine ⟨s, ?_, not_within_cutOff hrest⟩
  rw [hrest]
  exact checkScatterFrom_beyond hcount s rest _ _ hgood hlength

/-- With enough descriptors, the body is copied out with pairs in order, from what was copied
in. -/
theorem copyout_enough (henough : c.Enough) :
    (∀ s ∈ (c.copyout true).read, c.Within s) ∧
      ∀ p ∈ (c.copyout true).pairs, p ∈ c.regions.zip c.targets ∧
        (p.1.1.IsOutOfLine ∨ p.1.1.type = machMsgOolPortsDescriptor) := by
  obtain ⟨cut, hlater, hnil⟩ := c.laterList_eq
  have henough' : cut = [] ∨ c.regions.length ≤ c.targets.length := henough.imp_left hnil
  obtain ⟨hread, hpairs⟩ := copyoutScatterFrom_enough cut c.gather.zipIdx c.copiedIn henough'
  rw [← hlater] at hread hpairs
  rw [copyout]
  split
  · simp
  split
  · simp
  split
  · exact ⟨fun s hs => within_of_mem_copiedIn (hread s hs), hpairs⟩
  · simp

/-- Nothing is read or taken when there is no scatter list. -/
theorem copyout_false (c : ReceiveCall) :
    (∀ s ∈ (c.copyout false).read, c.Within s) ∧ (c.copyout false).pairs = [] := by
  have hnone := copyoutScatterFrom_enough [] c.gather.zipIdx [] (.inl rfl)
  rw [copyout]
  split
  · simp
  split
  · simp
  split
  · refine ⟨fun s hs => absurd (hnone.1 s hs) not_mem_nil, ?_⟩
    rw [eq_nil_iff_forall_not_mem]
    intro p hp
    have := (hnone.2 p hp).1
    simp [targetsOf] at this
  · simp

/-! ## Soundness -/

/-- A message of the size that was checked fits, unless its trailer alone does not. -/
theorem fits_iff (h : ¬c.TooLarge behind) :
    c.msghSize.toNat + (requestedTrailerSize behind c.option).toNat ≤ c.rcvSize.toNat ↔
      requestedTrailerSize behind c.option ≤ c.rcvSize := by
  have hle : c.msghSize ≤ c.rcvSize - requestedTrailerSize behind c.option := not_lt.mp h
  constructor
  · intro hsum
    exact Nat.le_trans (Nat.le_add_left _ _) hsum
  · intro htrailer
    bv_omega

/-- When a receive is sound. -/
def Safe (behind : ℕ → BitVec 32) (c : ReceiveCall) : Prop :=
  c.Refused ∨ c.TooLarge behind ∨ (c.Overwrite ∧ c.Mismatched) ∨
    (requestedTrailerSize behind c.option ≤ c.rcvSize ∧ (c.Overwrite → c.Enough))

/-- A receive without a scatter list. -/
theorem sound_plain_iff (hrefused : ¬c.Refused) (hlarge : ¬c.TooLarge behind)
    (hoverwrite : ¬c.Overwrite) :
    c.Sound behind ↔ requestedTrailerSize behind c.option ≤ c.rcvSize := by
  have hreceive : c.machMsgReceive behind = ⟨some machMsgSuccess, ⟨[], []⟩, c.copyout false⟩ := by
    rw [machMsgReceive_eq behind hrefused, decide_eq_false hoverwrite, finishReceive_false hlarge]
    simp
  obtain ⟨hread, hpairs⟩ := c.copyout_false
  constructor
  · intro h
    exact (fits_iff hlarge).mp (h.fits (by rw [hreceive]))
  · intro htrailer
    constructor
    · intro _
      exact (fits_iff hlarge).mpr htrailer
    · rw [hreceive]
      exact hread
    · rw [hreceive]
      intro p hp
      rw [hpairs] at hp
      exact absurd hp not_mem_nil

/-- A receive whose scatter list does not suit the message is an error. -/
theorem sound_of_mismatched (hrefused : ¬c.Refused) (hlarge : ¬c.TooLarge behind)
    (hoverwrite : c.Overwrite) (h : c.Mismatched) : c.Sound behind := by
  obtain ⟨hmr, hread⟩ := check_mismatched h
  rw [← finishReceive_true hlarge] at hmr hread
  have hreceive := machMsgReceive_eq behind hrefused
  rw [decide_eq_true hoverwrite, if_neg hmr] at hreceive
  constructor
  · rw [hreceive]
    intro hsuccess
    exact absurd (Option.some.inj hsuccess) hmr
  · rw [hreceive, append_nil]
    exact hread
  · rw [hreceive]
    exact fun p hp => absurd hp not_mem_nil

/-- A receive whose scatter list suits the message. -/
theorem sound_overwrite_iff (hrefused : ¬c.Refused) (hlarge : ¬c.TooLarge behind)
    (hoverwrite : c.Overwrite) (hmatched : ¬c.Mismatched) :
    c.Sound behind ↔ requestedTrailerSize behind c.option ≤ c.rcvSize ∧ c.Enough := by
  have hreceive := machMsgReceive_eq behind hrefused
  rw [decide_eq_true hoverwrite, finishReceive_true hlarge] at hreceive
  by_cases henough : c.Enough
  · obtain ⟨hmr, hpairs, hread⟩ := check_enough hmatched henough
    obtain ⟨hcopyoutRead, hcopyoutPairs⟩ := copyout_enough henough
    rw [if_pos hmr] at hreceive
    constructor
    · intro h
      exact ⟨(fits_iff hlarge).mp (h.fits (by rw [hreceive])), henough⟩
    · rintro ⟨htrailer, -⟩
      constructor
      · intro _
        exact (fits_iff hlarge).mpr htrailer
      · rw [hreceive]
        intro s hs
        rcases mem_append.mp hs with hs | hs
        · exact hread s hs
        · exact hcopyoutRead s hs
      · rw [hreceive]
        intro p hp hwrite
        obtain ⟨hmem, htype⟩ := hcopyoutPairs p hp
        have hgood : Consistent p := by
          by_contra hbad
          exact hmatched (.inr ⟨p, hmem, hbad⟩)
        refine ⟨?_, hgood.sameKind htype hwrite.1⟩
        rw [hpairs]
        exact hmem
  · obtain ⟨s, hs, hbeyond⟩ := check_beyond hmatched henough
    constructor
    · intro h
      refine absurd (h.within s ?_) hbeyond
      rw [hreceive]
      apply mem_append_left
      split
      · exact hs
      · exact hs
    · rintro ⟨-, h⟩
      exact absurd h henough

/-- Receiving is sound exactly when the call or the message is refused, or the trailer fits
into the receive size and the scatter descriptors that were copied in are enough. -/
theorem sound_iff_safe (behind : ℕ → BitVec 32) (c : ReceiveCall) :
    c.Sound behind ↔ c.Safe behind := by
  by_cases hrefused : c.Refused
  · refine iff_of_true ?_ (.inl hrefused)
    have hreceive := machMsgReceive_refused behind hrefused
    constructor
    · rw [hreceive]
      exact nofun
    · rw [hreceive]
      exact fun s hs => absurd hs not_mem_nil
    · rw [hreceive]
      exact fun p hp => absurd hp not_mem_nil
  by_cases hlarge : c.TooLarge behind
  · refine iff_of_true ?_ (.inr (.inl hlarge))
    have hreceive := machMsgReceive_eq behind hrefused
    rw [finishReceive_tooLarge hlarge, if_neg (show machRcvTooLarge ≠ machMsgSuccess by decide)]
      at hreceive
    constructor
    · rw [hreceive]
      intro hsuccess
      exact absurd (Option.some.inj hsuccess) (by decide)
    · rw [hreceive]
      exact fun s hs => absurd hs not_mem_nil
    · rw [hreceive]
      exact fun p hp => absurd hp not_mem_nil
  by_cases hoverwrite : c.Overwrite
  case neg =>
    simp [sound_plain_iff hrefused hlarge hoverwrite, Safe, hrefused, hlarge, hoverwrite]
  by_cases hmatched : c.Mismatched
  · exact iff_of_true (sound_of_mismatched hrefused hlarge hoverwrite hmatched)
      (.inr (.inr (.inl ⟨hoverwrite, hmatched⟩)))
  · simp [sound_overwrite_iff hrefused hlarge hoverwrite hmatched, Safe, hrefused, hlarge,
      hoverwrite, hmatched]

/-! ## Calls that are not sound -/

/-- A receive with a buffer of 0 bytes gets a message of 24 bytes. -/
def emptyBuffer : ReceiveCall where
  option := 0
  rcvSize := 0
  notify := 0
  slistSize := 0
  copyinFails := false
  count := 0
  slist _ := ⟨0, 0, 0, 0, 0, 0⟩
  laterSlist _ := ⟨0, 0, 0, 0, 0, 0⟩
  slist_kept _ _ := rfl
  msghSize := 24
  complex := false
  gather := []
  headerCopyout := machMsgSuccess

/-- A scatter list of 12 bytes with 357913942 descriptors: 12 times as many and 4 are 12. -/
def wrappedList : ReceiveCall where
  option := machRcvOverwrite
  rcvSize := 48
  notify := 0
  slistSize := 36
  copyinFails := false
  count := 357913942
  slist _ := ⟨0x1000, 4, 0, machMsgOverwrite, 0, machMsgOolDescriptor⟩
  laterSlist _ := ⟨0x1000, 4, 0, machMsgOverwrite, 0, machMsgOolDescriptor⟩
  slist_kept _ _ := rfl
  msghSize := 40
  complex := true
  gather := [⟨0x2000, 4, 0, machMsgPhysicalCopy, 0, machMsgOolDescriptor⟩]
  headerCopyout := machMsgSuccess

/-- A list of one descriptor. -/
def wholeList : ReceiveCall :=
  { wrappedList with
    slistSize := 40
    count := 1
    slist_kept := fun _ _ => rfl }

/-- The region of the message goes where the descriptor says. -/
theorem sound_iff_safe_whole : (wholeList.machMsgReceive fun _ => 0).finish = some machMsgSuccess ∧
    (wholeList.machMsgReceive fun _ => 0).copiedOut.pairs.length = 1 ∧
      wholeList.Sound fun _ => 0 :=
  ⟨by decide, by decide,
    (sound_iff_safe _ _).mpr (.inr (.inr (.inr ⟨by decide, fun _ => .inl (by decide)⟩)))⟩

/-- The message does not fit into the buffer, and the descriptor does not lie in the list. -/
theorem receives_unsound : ¬emptyBuffer.Sound (fun _ => 0) ∧ ¬wrappedList.Sound (fun _ => 0) := by
  constructor
  · intro h
    exact absurd (h.fits (by rfl)) (by decide)
  · intro h
    have hread := h.within ⟨4, wrappedList.slist 4⟩ (by decide)
    exact absurd hread (by decide)

end ReceiveCall

end Kmsg

end MachVirtuTerm
