import MachVirtuTerm.Vm.FaultCopy

/-!
# The rounds of a copy from object to object

A part is not empty and lies in one page of the destination and one of the source, so what a
round copies begins where the one before it ended. A round gives back what it takes of pages and
objects, whatever it leads to.
-/

namespace MachVirtuTerm

namespace VmFaultCopy

open ForwardCopy Pages

/-! ## Parts -/

namespace Locals

variable {x : Locals}

theorem toNat_srcPo (x : Locals) : x.srcPo.toNat = x.srcOffset.toNat % pageSize :=
  toNat_sub_truncPage _

theorem toNat_dstPo (x : Locals) : x.dstPo.toNat = x.dstOffset.toNat % pageSize :=
  toNat_sub_truncPage _

theorem truncPage_add_srcPo (x : Locals) : truncPage x.srcOffset + x.srcPo = x.srcOffset := by
  rw [srcPo, BitVec.add_comm, BitVec.sub_add_cancel]

theorem truncPage_add_dstPo (x : Locals) : truncPage x.dstOffset + x.dstPo = x.dstOffset := by
  rw [dstPo, BitVec.add_comm, BitVec.sub_add_cancel]

/-- A part is some of what is left, in one page of the source and one of the destination. -/
structure PartOk (x : Locals) : Prop where
  pos : 0 < x.partSize.toNat
  le : x.partSize.toNat ≤ x.amountLeft.toNat
  src : x.srcOffset.toNat % pageSize + x.partSize.toNat ≤ pageSize
  dst : x.dstOffset.toNat % pageSize + x.partSize.toNat ≤ pageSize

/-- Every part is such a part. -/
theorem partOk (hleft : 0 < x.amountLeft.toNat) : x.PartOk := by
  have hpage : (pageMask + 1).toNat = pageSize := by decide
  have hpageSize : pageSize = 4096 := rfl
  have hsrc := x.toNat_srcPo
  have hdst := x.toNat_dstPo
  have hsrcLt : x.srcPo.toNat < pageSize := hsrc ▸ Nat.mod_lt _ (by decide)
  have hdstLt : x.dstPo.toNat < pageSize := hdst ▸ Nat.mod_lt _ (by decide)
  by_cases h : x.Unaligned
  · have hpart : x.partSize.toNat = min x.amountLeft.toNat
        (pageSize - max x.dstPo.toNat x.srcPo.toNat) := by
      have hsub : ∀ po : VmOffset, po.toNat < pageSize →
          (pageMask + 1 - po).toNat = pageSize - po.toNat := by
        intro po hpo
        rw [BitVec.toNat_sub_of_le (by rw [BitVec.le_def]; omega), hpage]
      simp only [partSize, if_pos h, gt_iff_lt]
      split <;> rename_i hpo <;> rw [BitVec.lt_def] at hpo <;> split <;> rename_i hle <;>
        rw [BitVec.lt_def, hsub _ ‹_›] at hle
      · omega
      · rw [hsub _ ‹_›]
        omega
      · omega
      · rw [hsub _ ‹_›]
        omega
    exact ⟨by omega, by omega, by omega, by omega⟩
  · have hpart : x.partSize.toNat = pageSize := by rw [partSize, if_neg h, hpage]
    simp only [Unaligned, not_or, not_not, pageAligned_iff] at h
    obtain ⟨hsrcMod, hdstMod, hleftMod⟩ := h
    rw [hpageSize] at hleftMod
    exact ⟨by omega, by omega, by omega, by omega⟩

end Locals

/-! ## Bytes -/

section Memory

variable {A β : Type*} [DecidableEq A] {dst src target source : ℕ → A} {mem₀ mem : A → β} {n : ℕ}
  {C : Prop}

/-- What `memcpy` copies. -/
theorem memcpy_copied {count : ℕ} (h : CopiedWhen mem₀ mem dst src n C)
    (hdst : ∀ i < n + count, ∀ j < n + count, dst i = dst j → i = j)
    (htarget : ∀ r < count, target r = dst (n + r))
    (hsource : ∀ r < count, source r = src (n + r)) :
    CopiedWhen mem₀ (memcpy target source count mem) dst src (n + count)
      (C ∧ ∀ r < count, Unharmed mem₀ dst src (n + readAt count r) (n + r)) := by
  have hcount : 4 * (count / 4) + count % 4 = count := Nat.div_add_mod count 4
  have hlongs : CopiedWhen mem₀ (copyChunks target source 0 4 (count / 4) mem) dst src
      (n + 4 * (count / 4)) _ := h.chunks (by decide)
    (fun i hi j hj => hdst i (by omega) j (by omega))
    (fun r hr => by rw [Nat.zero_add, htarget r (by omega)])
    (fun r hr => by rw [Nat.zero_add, hsource r (by omega)])
  have hbytes : CopiedWhen mem₀ (memcpy target source count mem) dst src
      (n + 4 * (count / 4) + 1 * (count % 4)) _ := hlongs.chunks Nat.one_pos
    (fun i hi j hj => hdst i (by omega) j (by omega))
    (fun r hr => by rw [htarget _ (by omega), Nat.add_assoc])
    (fun r hr => by rw [hsource _ (by omega), Nat.add_assoc])
  rw [Nat.add_assoc, Nat.one_mul, hcount] at hbytes
  refine hbytes.congr ?_
  rw [and_assoc]
  refine and_congr_right fun _ => ⟨fun ⟨hfirst, hlast⟩ r hr => ?_, fun hall => ⟨fun r hr => ?_, ?_⟩⟩
  · rw [readAt]
    split
    · exact hfirst r ‹_›
    · have := hlast (r - 4 * (count / 4)) (by omega)
      rwa [Nat.one_mul, Nat.div_one, Nat.add_assoc, Nat.add_sub_cancel' (by omega)] at this
  · have := hall r (by omega)
    rwa [readAt, if_pos hr] at this
  · intro r hr
    have := hall (4 * (count / 4) + r) (by omega)
    rw [readAt, if_neg (by omega), ← Nat.add_assoc] at this
    rwa [Nat.one_mul, Nat.div_one]

/-- What `bzero` clears. -/
theorem bzero_eq (mem : A → UInt8) {length : ℕ}
    (htarget : ∀ i < length, ∀ j < length, target i = target j → i = j) (x : A) :
    ((∃ i < length, x = target i) → bzero target length mem x = 0) ∧
      ((∀ i < length, x ≠ target i) → bzero target length mem x = mem x) := by
  constructor
  · rintro ⟨i, hi, rfl⟩
    have hzero := @writeRange_target A UInt8 target (fun _ => 0) 0 length mem _
      (by simpa using htarget) i hi
    rwa [Nat.zero_add] at hzero
  · intro hx
    exact writeRange_of_ne (by simpa using hx)

end Memory

/-! ## What a round takes -/

section Rounds

variable {Obj : Type*} {c : Call Obj} {x : Locals} {a : Answers Obj} {s s' s'' : Pages Obj}

/-- No page is wired or busy that was not, and no placeholder or paging reference is left. -/
structure Kept (s s' : Pages Obj) : Prop where
  wireCount : s'.wireCount = s.wireCount
  busy : ∀ p, s'.busy p = true → s.busy p = true
  topPage : ∀ p, s'.topPage p = true → s.topPage p = true
  pagingInProgress : s'.pagingInProgress = s.pagingInProgress

theorem Kept.refl (s : Pages Obj) : Kept s s := ⟨rfl, fun _ => id, fun _ => id, rfl⟩

theorem Kept.trans (h : Kept s s') (h' : Kept s' s'') : Kept s s'' :=
  ⟨h'.wireCount.trans h.wireCount, fun p hp => h.busy p (h'.busy p hp),
    fun p hp => h.topPage p (h'.topPage p hp), h'.pagingInProgress.trans h.pagingInProgress⟩

/-- Both pages are found. -/
def Finds (c : Call Obj) (x : Locals) (a : Answers Obj) : Prop :=
  (∃ dirtied, a.dst = .success dirtied) ∧
    ∀ src, c.src = some src → .own src (truncPage x.srcOffset) ≠ c.dstPage x →
      ∃ below, a.src = .success below

/-- The pages are found, and the map and the copy object are the same as before. -/
def Copies (c : Call Obj) (x : Locals) (a : Answers Obj) : Prop :=
  Finds c x a ∧ a.verified = true ∧ a.copyChanged = false

variable [DecidableEq Obj]

/-- The destination's page, wired. -/
def wiredDst (c : Call Obj) (x : Locals) (s : Pages Obj) (dirtied : Bool) : Pages Obj :=
  ((s.dstFault c.dst (truncPage x.dstOffset) dirtied).vmPageWire (c.dstPage x)).pageWakeupDone
    (c.dstPage x)

theorem wiredDst_contents (dirtied : Bool) : (wiredDst c x s dirtied).contents = s.contents := by
  cases dirtied <;> rfl

theorem wiredDst_dirty (dirtied : Bool) (p : Page Obj) :
    (wiredDst c x s dirtied).dirty p = true ↔
      s.dirty p = true ∨ dirtied = true ∧ p = c.dstPage x := by
  cases dirtied
  · simp [wiredDst, dstFault, pagingBegin, setBusy, vmPageWire, pageWakeupDone]
  · by_cases hp : p = c.dstPage x
    · simp [wiredDst, dstFault, pagingBegin, setBusy, setDirty, vmPageWire, pageWakeupDone, hp,
        Call.dstPage]
    · have hp' : p ≠ .own c.dst (truncPage x.dstOffset) := hp
      simp [wiredDst, dstFault, pagingBegin, setBusy, setDirty, vmPageWire, pageWakeupDone, hp, hp']

/-- What the destination takes is given back. -/
theorem wiredDst_kept {dirtied : Bool} (h : Kept (wiredDst c x s dirtied) s') :
    Kept s (s'.vmFaultCopyDstCleanup (c.dstPage x)) := by
  have hwire : s'.wireCount =
      fun p => if p = c.dstPage x then s.wireCount p + 1 else s.wireCount p := by
    rw [h.wireCount]
    cases dirtied <;> rfl
  have hpaging : s'.pagingInProgress =
      fun o => if o = c.dst then s.pagingInProgress o + 1 else s.pagingInProgress o := by
    rw [h.pagingInProgress]
    cases dirtied <;> rfl
  refine ⟨?_, fun p hp => ?_, fun p hp => ?_, ?_⟩
  · funext p
    simp only [vmFaultCopyDstCleanup, vmPageUnwire, pagingEnd, hwire]
    split <;> rfl
  · have hbusy := h.busy p hp
    have heq : (wiredDst c x s dirtied).busy p =
        if p = c.dstPage x then false else if p = c.dstPage x then true else s.busy p := by
      cases dirtied <;> rfl
    rw [heq] at hbusy
    split at hbusy
    · cases hbusy
    · exact hbusy
  · have htop := h.topPage p hp
    have heq : (wiredDst c x s dirtied).topPage p = s.topPage p := by cases dirtied <;> rfl
    rwa [heq] at htop
  · funext o
    simp only [vmFaultCopyDstCleanup, vmPageUnwire, pagingEnd, hpaging, Call.dstPage, Page.object]
    split <;> rfl

/-- Getting the source's page leaves the bytes and the dirty bits as they are, and what it takes
is given back. -/
theorem getSource_kept {answer : FaultAnswer (Option Obj)} {source : Source Obj}
    (h : getSource c x answer s = .ok (source, s')) :
    s'.contents = s.contents ∧ s'.dirty = s.dirty ∧
      ∀ t, Kept s' t → Kept s (cleanupSource c x source t) := by
  unfold getSource at h
  split at h
  · cases h
    exact ⟨rfl, rfl, fun t ht => ht⟩
  · rename_i src _
    split at h
    · cases h
      refine ⟨rfl, rfl, fun t ht => ?_⟩
      simpa [cleanupSource] using ht
    · rename_i hpage
      split at h
      · rename_i below
        cases below with
        | none =>
          cases h
          refine ⟨rfl, rfl, fun t ht => ?_⟩
          simp only [cleanupSource, if_pos hpage]
          refine ⟨ht.wireCount, fun p hp => ?_, ht.topPage, ?_⟩
          · simp only [vmFaultCopyCleanup, vmFaultCleanup, pagingEnd, pageWakeupDone] at hp
            split at hp
            · cases hp
            · have := ht.busy p hp
              simpa only [setBusy, setTopPage, pagingBegin, if_neg ‹_›] using this
          · funext o
            simp only [vmFaultCopyCleanup, vmFaultCleanup, pagingEnd, pageWakeupDone,
              ht.pagingInProgress, Page.object, setBusy, pagingBegin]
            split <;> rfl
        | some below =>
          cases h
          refine ⟨rfl, rfl, fun t ht => ?_⟩
          simp only [cleanupSource, Call.dstPage, ne_eq, reduceCtorEq, not_false_eq_true, if_true]
          refine ⟨ht.wireCount, fun p hp => ?_, fun p hp => ?_, ?_⟩
          · simp only [vmFaultCopyCleanup, vmFaultCleanup, pagingEnd, freeTopPage,
              pageWakeupDone] at hp
            split at hp
            · cases hp
            · have := ht.busy p hp
              simpa only [setBusy, setTopPage, pagingBegin, if_neg ‹_›] using this
          · simp only [vmFaultCopyCleanup, vmFaultCleanup, pagingEnd, freeTopPage,
              pageWakeupDone] at hp
            split at hp
            · cases hp
            · have := ht.topPage p hp
              simpa only [setBusy, setTopPage, pagingBegin, if_neg ‹_›] using this
          · funext o
            simp only [vmFaultCopyCleanup, vmFaultCleanup, pagingEnd, freeTopPage, pageWakeupDone,
              ht.pagingInProgress, Page.object, setBusy, setTopPage, pagingBegin]
            split <;> split <;> simp_all
      · cases h
      · cases h

/-- The source's page is got if it is found. -/
theorem getSource_eq_ok (h : Finds c x a) (s : Pages Obj) :
    ∃ source s', getSource c x a.src s = .ok (source, s') := by
  unfold getSource
  split
  · exact ⟨_, _, rfl⟩
  · split
    · exact ⟨_, _, rfl⟩
    · obtain ⟨below, hbelow⟩ := h.2 _ ‹_› ‹_›
      rw [hbelow]
      exact ⟨_, _, rfl⟩

/-- A round in which a page is not found ends the call with an error. -/
theorem copyRound_of_not_finds (h : ¬Finds c x a) (s : Pages Obj) :
    ∃ e s', copyRound c x a s = (e, s') ∧
      (e = .interrupted ∨ ∃ kr, kr ≠ .success ∧ e = .error kr) := by
  have herror : ∀ error : KernReturn,
      (if error ≠ .success then error else KernReturn.memoryError) ≠ .success := by
    intro error
    split
    · assumption
    · decide
  unfold copyRound
  cases hdst : a.dst with
  | interrupted => exact ⟨_, _, rfl, .inl rfl⟩
  | memoryError error => exact ⟨_, _, rfl, .inr ⟨_, herror error, rfl⟩⟩
  | success dirtied =>
    simp only [getSource]
    cases hsrc : c.src with
    | none => exact absurd ⟨⟨_, hdst⟩, fun src hsome => by rw [hsrc] at hsome; cases hsome⟩ h
    | some src =>
      by_cases hpage : .own src (truncPage x.srcOffset) = c.dstPage x
      · refine absurd ⟨⟨_, hdst⟩, fun src' hsome hne => ?_⟩ h
        rw [hsrc] at hsome
        cases hsome
        exact absurd hpage hne
      · simp only [if_neg hpage]
        cases hanswer : a.src with
        | interrupted => exact ⟨_, _, rfl, .inl rfl⟩
        | memoryError error => exact ⟨_, _, rfl, .inr ⟨_, herror error, rfl⟩⟩
        | success below => exact absurd ⟨⟨_, hdst⟩, fun _ _ _ => ⟨below, hanswer⟩⟩ h

/-- What the copy changes. -/
theorem copyPart_kept (s : Pages Obj) : Kept s (copyPart c x s) := by
  unfold copyPart
  split <;> split <;> exact ⟨rfl, fun _ => id, fun _ => id, rfl⟩

/-- A copied page is dirty; one that is filled with zeros is as it was. -/
theorem copyPart_dirty (s : Pages Obj) (p : Page Obj) :
    (copyPart c x s).dirty p = true ↔ s.dirty p = true ∨ c.src ≠ none ∧ p = c.dstPage x := by
  unfold copyPart
  cases hsrc : c.src with
  | none => split <;> simp [vmPagePartZeroFill, vmPageZeroFill]
  | some src =>
    by_cases hp : p = c.dstPage x <;> split <;> simp [vmPagePartCopy, vmPageCopy, setDirty, hp]

theorem copyPart_contents {t : Pages Obj} (h : t.contents = s.contents) :
    (copyPart c x t).contents = (copyPart c x s).contents := by
  unfold copyPart
  split <;> split <;>
    simp [vmPagePartZeroFill, vmPageZeroFill, vmPagePartCopy, vmPageCopy, setDirty, h]

/-- Giving back leaves the bytes and the dirty bits as they are. -/
theorem release_same (source : Source Obj) (t : Pages Obj) (page : Page Obj) :
    ((cleanupSource c x source t).vmFaultCopyDstCleanup page).contents = t.contents ∧
      ((cleanupSource c x source t).vmFaultCopyDstCleanup page).dirty = t.dirty := by
  unfold cleanupSource
  split
  · exact ⟨rfl, rfl⟩
  · split
    · cases source.top <;> exact ⟨rfl, rfl⟩
    · exact ⟨rfl, rfl⟩

/-- The bytes and the dirty bits when both pages are there. -/
theorem getSource_same {dirtied : Bool} {answer : FaultAnswer (Option Obj)} {source : Source Obj}
    (hdst : a.dst = .success dirtied)
    (h : getSource c x answer (wiredDst c x s dirtied) = .ok (source, s')) :
    s'.contents = s.contents ∧
      ∀ p, s'.dirty p = true ↔ s.dirty p = true ∨ a.dst = .success true ∧ p = c.dstPage x := by
  obtain ⟨hcontents, hdirty, -⟩ := getSource_kept h
  refine ⟨hcontents.trans (wiredDst_contents dirtied), fun p => ?_⟩
  rw [hdirty, wiredDst_dirty, hdst, FaultAnswer.success.injEq]

/-- A round that finds the pages, but the map or the copy object changed, ends the call. -/
theorem copyRound_stop (h : Finds c x a) (hstop : ¬Copies c x a) (s : Pages Obj) :
    ∃ s', copyRound c x a s = (.stop, s') ∧ Kept s s' ∧ s'.contents = s.contents ∧
      ∀ p, s'.dirty p = true ↔ s.dirty p = true ∨ a.dst = .success true ∧ p = c.dstPage x := by
  obtain ⟨dirtied, hdst⟩ := h.1
  obtain ⟨source, t, hsource⟩ := getSource_eq_ok h (wiredDst c x s dirtied)
  have hsame := getSource_same hdst hsource
  have hrelease := release_same (c := c) (x := x) source t (c.dstPage x)
  have htest : ¬a.verified ∨ a.copyChanged := by
    by_contra hno
    rw [not_or, not_not, Bool.not_eq_true] at hno
    exact hstop ⟨h, hno⟩
  refine ⟨(cleanupSource c x source t).vmFaultCopyDstCleanup (c.dstPage x), ?_,
    wiredDst_kept ((getSource_kept hsource).2.2 t (.refl _)), hrelease.1.trans hsame.1, fun p => ?_⟩
  · unfold copyRound
    rw [wiredDst] at hsource
    simp only [hdst, hsource, if_pos htest]
  · rw [hrelease.2]
    exact hsame.2 p

/-- A round that copies a part. -/
theorem copyRound_next (h : Copies c x a) (s : Pages Obj) :
    ∃ s', copyRound c x a s = (.next x.partSize, s') ∧ Kept s s' ∧
      s'.contents = (copyPart c x s).contents ∧
      ∀ p, s'.dirty p = true ↔
        s.dirty p = true ∨ (c.src ≠ none ∨ a.dst = .success true) ∧ p = c.dstPage x := by
  obtain ⟨dirtied, hdst⟩ := h.1.1
  obtain ⟨source, t, hsource⟩ := getSource_eq_ok h.1 (wiredDst c x s dirtied)
  have hsame := getSource_same hdst hsource
  have hrelease := release_same (c := c) (x := x) source (copyPart c x t) (c.dstPage x)
  have htest : ¬(¬a.verified ∨ a.copyChanged) := by simp [h.2]
  refine ⟨(cleanupSource c x source (copyPart c x t)).vmFaultCopyDstCleanup (c.dstPage x), ?_,
    wiredDst_kept ((getSource_kept hsource).2.2 _ (copyPart_kept t)),
    hrelease.1.trans (copyPart_contents hsame.1), fun p => ?_⟩
  · unfold copyRound
    rw [wiredDst] at hsource
    simp only [hdst, hsource, if_neg htest]
  · rw [hrelease.2, copyPart_dirty, hsame.2 p]
    tauto

end Rounds

end VmFaultCopy

end MachVirtuTerm
