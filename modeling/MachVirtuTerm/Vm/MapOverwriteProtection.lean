import MachVirtuTerm.Vm.MapCopyinProtection

/-!
# The protection of the destination of a copy

Which entries a call of `vm_map_copy_overwrite` writes to, whatever others do to the map
while it is unlocked.
-/

open List Option

namespace MachVirtuTerm

open MapState

/-- All bytes of the range are in an entry that can be written and needs no copy, and map
the object. -/
def WriteAllowed (entries : List VmMapEntry) (address size : VmOffset) (object : ℕ) : Prop :=
  ∃ entry ∈ entries, entry.Writable ∧ entry.needsCopy = false ∧ entry.object = some object ∧
    entry.vmeStart ≤ address ∧ address.toNat + size.toNat ≤ entry.vmeEnd.toNat

/-- Every entry with an address of the range can be written. -/
def WritableFrom (entries : List VmMapEntry) (start size : VmOffset) : Prop :=
  ∀ entry ∈ entries, ∀ address, entry.Contains address → start ≤ address →
    address.toNat < start.toNat + size.toNat → entry.Writable

/-- The addresses an entry has in a range go from the later start to the earlier end. -/
theorem writableFrom_iff {entries : List VmMapEntry} {start size : VmOffset} :
    WritableFrom entries start size ↔ ∀ entry ∈ entries,
      max entry.vmeStart.toNat start.toNat <
        min entry.vmeEnd.toNat (start.toNat + size.toNat) → entry.Writable := by
  constructor
  · intro h entry he hlt
    rcases Nat.le_total entry.vmeStart.toNat start.toNat with hle | hle
    · exact h entry he start ⟨hle, by bv_omega⟩ (BitVec.le_refl _) (by omega)
    · exact h entry he entry.vmeStart ⟨BitVec.le_refl _, by bv_omega⟩ hle (by omega)
  · intro h entry he address hc hle hlt
    obtain ⟨hstart, hend⟩ := hc
    exact h entry he (by bv_omega)

instance (entries : List VmMapEntry) (start size : VmOffset) :
    Decidable (WritableFrom entries start size) :=
  decidable_of_iff _ writableFrom_iff.symm

/-- No entry of a copy is empty. -/
def CopyNonempty (copyEntries : List VmMapEntry) : Prop :=
  ∀ entry ∈ copyEntries, entry.vmeStart < entry.vmeEnd

/-- A copy as `vm_map_copyin` makes it: every entry has a page at least. -/
def VmMapCopy.WellFormed (copy : VmMapCopy) : Prop :=
  ∀ entry ∈ copy.entries, entry.vmeStart.toNat + pageSize ≤ entry.vmeEnd.toNat

instance (copy : VmMapCopy) : Decidable copy.WellFormed :=
  inferInstanceAs (Decidable (∀ _ ∈ _, _))

variable {entries before after copyEntries : List VmMapEntry} {entry : VmMapEntry}
  {start size address : VmOffset}

/-- Part of a range that can be written. -/
theorem WritableFrom.mono {start' size' : VmOffset} (h : WritableFrom entries start size)
    (hstart : start ≤ start')
    (hend : start'.toNat + size'.toNat ≤ start.toNat + size.toNat) :
    WritableFrom entries start' size' := fun e he a hc hle hlt =>
  h e he a hc (by bv_omega) (by omega)

/-- Whether a range can be written depends on the ranges and the protections of entries only. -/
theorem WritableFrom.set {entry' : VmMapEntry}
    (h : WritableFrom (before ++ entry :: after) start size) (hrange : entry'.range = entry.range)
    (hprot : entry'.protection = entry.protection) :
    WritableFrom (before ++ entry' :: after) start size := by
  intro e he a hc hle hlt
  simp only [mem_append, mem_cons] at he
  simp only [VmMapEntry.range, Prod.mk.injEq] at hrange
  rcases he with he | rfl | he
  · exact h e (by simp [he]) a hc hle hlt
  · have hc' : entry.Contains a := by
      unfold VmMapEntry.Contains at hc ⊢
      rwa [hrange.1, hrange.2] at hc
    have hw := h entry (by simp) a hc' hle hlt
    unfold VmMapEntry.Writable at hw ⊢
    rwa [hprot]
  · exact h e (by simp [he]) a hc hle hlt

/-- What follows the part that is clipped off. -/
theorem EntriesSorted.clipEnd_tail (hs : EntriesSorted (entry :: after)) :
    EntriesSorted (vmMapClipEnd entry after address).2 := by
  have htail := hs.sublist (sublist_cons_self entry after)
  unfold vmMapClipEnd
  split
  · rename_i hend
    refine ⟨pairwise_cons.mpr ⟨fun e he => ?_, htail.pairwise⟩, fun e he => ?_⟩
    · exact @EntriesSorted.le_of_append [] _ _ hs _ he
    · rcases mem_cons.mp he with rfl | he
      · exact hend
      · exact htail.nonempty e he
  · exact htail

/-- A copy whose first entry is clipped. -/
theorem CopyNonempty.clipEnd (h : CopyNonempty (entry :: after)) (hstart : entry.vmeStart < address) :
    CopyNonempty ((vmMapClipEnd entry after address).1 :: (vmMapClipEnd entry after address).2) := by
  unfold vmMapClipEnd
  split
  · rename_i hend
    intro e he
    simp only [mem_cons] at he
    rcases he with rfl | rfl | he
    · exact hstart
    · exact hend
    · exact h e (by simp [he])
  · exact h

/-- A copy after the part clipped off. -/
theorem CopyNonempty.clipEnd_tail (h : CopyNonempty (entry :: after)) :
    CopyNonempty (vmMapClipEnd entry after address).2 := by
  unfold vmMapClipEnd
  split
  · rename_i hend
    intro e he
    rcases mem_cons.mp he with rfl | he
    · exact hend
    · exact h e (by simp [he])
  · exact fun e he => h e (by simp [he])

/-- What a clip to a size leaves of an entry. -/
theorem clipToSize_fst (after : List VmMapEntry) (hstart : entry.vmeStart < entry.vmeEnd)
    (hsize : 0 < size) :
    ∃ vmeEnd, entry.vmeStart < vmeEnd ∧ vmeEnd ≤ entry.vmeEnd ∧
      (clipToSize entry after size).1 = { entry with vmeEnd } := by
  unfold clipToSize vmMapClipEnd
  split
  · rename_i hlt
    rw [if_pos (by bv_omega)]
    exact ⟨entry.vmeStart + size, by bv_omega, by bv_omega, rfl⟩
  · exact ⟨entry.vmeEnd, hstart, BitVec.le_refl _, rfl⟩

/-- A clip to a size keeps entries sorted. -/
theorem EntriesSorted.clipToSize (hs : EntriesSorted (entry :: after)) (hsize : 0 < size) :
    EntriesSorted ((clipToSize entry after size).1 :: (clipToSize entry after size).2) := by
  have hstart := hs.nonempty entry (by simp)
  unfold MachVirtuTerm.clipToSize
  split
  · rename_i hlt
    exact @EntriesSorted.clipEnd [] _ _ _ hs (by bv_omega)
  · exact hs

/-- A clip to a size leaves no entry of a copy empty. -/
theorem CopyNonempty.clipToSize (h : CopyNonempty (entry :: after)) (hsize : 0 < size) :
    CopyNonempty ((clipToSize entry after size).1 :: (clipToSize entry after size).2) := by
  have hstart := h entry (by simp)
  unfold MachVirtuTerm.clipToSize
  split
  · rename_i hlt
    exact h.clipEnd (by bv_omega)
  · exact h

/-- Disposing of what was copied leaves no entry of a copy empty. -/
theorem CopyNonempty.disposeCopied (h : CopyNonempty copyEntries) (copySize : VmOffset) :
    CopyNonempty (disposeCopied copyEntries copySize) := by
  cases copyEntries with
  | nil => exact h
  | cons copyEntry rest =>
    simp only [MachVirtuTerm.disposeCopied]
    split
    · exact h.clipEnd_tail
    · exact h

/-- What can be copied is something, if there is something, and not too much. -/
theorem limitSize_spec {dstSize srcSize amountLeft : VmOffset} (hdst : 0 < dstSize)
    (hsrc : 0 < srcSize) (hleft : 0 < amountLeft) :
    0 < limitSize dstSize srcSize amountLeft ∧ limitSize dstSize srcSize amountLeft ≤ dstSize ∧
      limitSize dstSize srcSize amountLeft ≤ srcSize ∧
      limitSize dstSize srcSize amountLeft ≤ amountLeft := by
  unfold limitSize
  simp only
  split <;> split <;> bv_omega

/-- The first pass finds that every entry up to the end of the region can be written. -/
theorem passOne_ok {dstEnd : VmOffset} (hs : EntriesSorted entries)
    (h : passOne dstEnd before entries = .ok) :
    ∀ e ∈ entries, ∀ a, e.Contains a → a < dstEnd → e.Writable := by
  induction entries generalizing before with
  | nil => cases h
  | cons entry after ih =>
    intro e he a hc hlt
    unfold passOne at h
    split at h
    · cases h
    rename_i hentry
    rcases mem_cons.mp he with rfl | he
    · exact not_not.mp hentry
    split at h
    · cases h
    split at h
    · rename_i hend
      have hle := @EntriesSorted.le_of_append [] _ _ hs _ he
      have hge := hc.1
      bv_omega
    split at h
    · cases h
    · exact ih (hs.sublist (sublist_cons_self entry after)) h e he a hc hlt

/-- The entries with the mark for a wakeup have their ranges. -/
theorem passOne_wait {dstEnd : VmOffset} {waiting : List VmMapEntry}
    (h : passOne dstEnd before entries = .wait waiting) :
    waiting.map VmMapEntry.range = (before ++ entries).map VmMapEntry.range := by
  induction entries generalizing before with
  | nil => cases h
  | cons entry after ih =>
    unfold passOne at h
    split at h
    · cases h
    split at h
    · cases h
      simp [VmMapEntry.range]
    split at h
    · cases h
    split at h
    · cases h
    · simpa using ih h

namespace FaultCopy

variable {x : FaultCopy}

/-- What is copied of a page is not more than what is left. -/
theorem partSize_le (hleft : 0 < x.amountLeft) : x.partSize ≤ x.amountLeft := by
  unfold partSize
  split
  · simp only
    generalize (if x.dstOffset - truncPage x.dstOffset > _ then _ else _) = part
    split <;> bv_omega
  · rename_i haligned
    simp only [not_or, not_not] at haligned
    have hmod := (pageAligned_iff x.amountLeft).mp haligned.2.2
    have hpage : (pageMask + 1).toNat = pageSize := by decide
    have hge : pageSize ≤ x.amountLeft.toNat := Nat.le_of_dvd hleft (Nat.dvd_of_mod_eq_zero hmod)
    rw [BitVec.le_def, hpage]
    exact hge

/-- What a round of `vm_fault_copy` writes is allowed if what is left is, as long as the map is
in the version it was in. -/
theorem step_events {timestamp : BitVec 32} {fault : PageFault} (hleft : 0 < x.amountLeft)
    (hallowed : timestamp = x.version →
      WriteAllowed entries x.address x.amountLeft x.dstObject) :
    ∀ event ∈ (x.step timestamp fault).2, ∃ size offset,
      event = .wrote x.address size x.dstObject offset ∧
        WriteAllowed entries x.address size x.dstObject := by
  have hpart := partSize_le hleft
  cases fault with
  | failed kr => rintro event (_ | _)
  | found copyChanged =>
    unfold step
    simp only
    split
    · rintro event (_ | _)
    · rename_i hversion
      simp only [not_or, not_not] at hversion
      obtain ⟨entry, he, hw, hn, ho, hle, hend⟩ := hallowed hversion.1
      intro event hevent
      rw [mem_singleton.mp hevent]
      exact ⟨_, _, rfl, entry, he, hw, hn, ho, hle, by bv_omega⟩

/-- Where `vm_fault_copy` goes on, what is left of the part is allowed, too. -/
theorem step_more {x y : FaultCopy} {timestamp : BitVec 32} {fault : PageFault}
    (hleft : 0 < x.amountLeft) (hle : x.amountLeft ≤ x.copySize)
    (hallowed : timestamp = x.version →
      WriteAllowed entries x.address x.amountLeft x.dstObject)
    (h : (x.step timestamp fault).1 = .more y) :
    0 < y.amountLeft ∧ y.amountLeft ≤ y.copySize ∧ y.copySize = x.copySize ∧
      y.version = x.version ∧ WriteAllowed entries y.address y.amountLeft y.dstObject := by
  have hpart := partSize_le hleft
  cases fault with
  | failed kr => cases h
  | found copyChanged =>
    unfold step at h
    simp only at h
    split at h
    · cases h
    · rename_i hversion
      simp only [not_or, not_not] at hversion
      split at h
      · rename_i hmore
        cases h
        obtain ⟨entry, he, hw, hn, ho, hstart, hend⟩ := hallowed hversion.1
        refine ⟨hmore, ?_, rfl, rfl, entry, he, hw, hn, ho, ?_, ?_⟩
        · simp only
          bv_omega
        · simp only
          bv_omega
        · simp only
          bv_omega
      · cases h

/-- When `vm_fault_copy` returns it has copied no more than it was asked to. -/
theorem step_returned {timestamp : BitVec 32} {fault : PageFault} {kr : KernReturn}
    {copySize : VmOffset} (hleft : 0 < x.amountLeft) (hle : x.amountLeft ≤ x.copySize)
    (h : (x.step timestamp fault).1 = .returned kr copySize) : copySize ≤ x.copySize := by
  have hpart := partSize_le hleft
  cases fault with
  | failed kr =>
    cases h
    bv_omega
  | found copyChanged =>
    unfold step at h
    simp only at h
    split at h
    · cases h
      bv_omega
    · split at h
      · cases h
      · cases h
        bv_omega

end FaultCopy

/-- Something is left to copy, and the first entry of the copy has bytes left. -/
structure SourceLeft (u : Unaligned) : Prop where
  amountLeft : 0 < u.amountLeft
  nonempty : CopyNonempty u.copyEntries
  srcOffset : ∀ entry ∈ u.copyEntries.head?,
    entry.vmeStart.toNat + u.srcOffset.toNat < entry.vmeEnd.toNat

namespace OverwriteState

/-- What a call knows while `vm_fault_copy` copies to an entry of an aligned destination. -/
structure AlignedCopying (s : OverwriteState) (copyEntries : List VmMapEntry)
    (version : BitVec 32) : Prop where
  same : s.timestamp = version → EntriesSorted s.after
  changed : s.timestamp ≠ version → EntriesSorted s.entries
  nonempty : CopyNonempty copyEntries

/-- What a call knows while `vm_fault_copy` copies a part that is not aligned: as long as the
map is in the version it was in, all that is left can be written. -/
structure UnalignedCopying (s : OverwriteState) (u : Unaligned) (entryEnd : VmOffset)
    (version : BitVec 32) (copySize : VmOffset) : Prop where
  sorted : EntriesSorted s.entries
  source : SourceLeft u
  size_le : copySize ≤ u.amountLeft
  source_le : ∀ entry ∈ u.copyEntries.head?,
    entry.vmeStart.toNat + u.srcOffset.toNat + copySize.toNat ≤ entry.vmeEnd.toNat
  same : s.timestamp = version → ∃ entry after, s.after = entry :: after ∧
    entry.Contains u.start ∧ entry.vmeEnd = entryEnd ∧
    u.start.toNat + copySize.toNat ≤ entryEnd.toNat ∧ WritableFrom s.entries u.start u.amountLeft

/-- What `vm_fault_copy` can rely on. -/
structure FaultCopying (s : OverwriteState) (x : FaultCopy) : Prop where
  amountLeft : 0 < x.amountLeft
  amountLeft_le : x.amountLeft ≤ x.copySize
  allowed : s.timestamp = x.version →
    WriteAllowed s.entries x.address x.amountLeft x.dstObject

variable (s : OverwriteState)

/-- What a call knows of the map and of the copy, wherever it is. -/
def Inv : Prop :=
  match s.pc with
  | .enter _ copy => EntriesSorted s.entries ∧ copy.WellFormed
  | .aligned _ copyEntries =>
    s.locked = true ∧ EntriesSorted s.after ∧ CopyNonempty copyEntries
  | .alignedCopy _ copyEntries x => AlignedCopying s copyEntries x.version ∧ FaultCopying s x
  | .alignedCopied _ copyEntries version _ => AlignedCopying s copyEntries version
  | .unaligned u =>
    s.locked = true ∧ EntriesSorted s.entries ∧ SourceLeft u ∧
      (∃ entry after, s.after = entry :: after ∧ entry.Contains u.start) ∧
      WritableFrom s.entries u.start u.amountLeft
  | .unalignedCopy u entryEnd x =>
    UnalignedCopying s u entryEnd x.version x.copySize ∧ FaultCopying s x
  | .unalignedCopied u entryEnd version copySize => UnalignedCopying s u entryEnd version copySize
  | .retryLookup u => EntriesSorted s.entries ∧ SourceLeft u
  | .returned _ => True

/-- The end of a destination that is not aligned does not wrap around; and where the map has
changed before its place is looked up again, all that is left of the destination can be
written; and others do not lock the map so often that its version is again the one that was
saved. -/
def StepOk (l : OverwriteAction × List CopyEvent) : Prop :=
  match l.1 with
  | .others _ => s.pc.version ≠ some (s.timestamp + 1)
  | .run _ =>
    match s.pc with
    | .enter dstAddr copy =>
      aligned dstAddr copy = true ∨ dstAddr.toNat + copy.size.toNat ≤ (dstEnd dstAddr copy).toNat
    | .unalignedCopied u _ version copySize =>
      s.timestamp = version ∨ WritableFrom s.entries (u.start + copySize) (u.amountLeft - copySize)
    | .retryLookup u => WritableFrom s.entries u.start u.amountLeft
    | _ => True

/-- Bytes are written to entries only that can be written and need no copy, and entries that
can be written are replaced. -/
def EventOk : CopyEvent → Prop
  | .wrote address size object _ => WriteAllowed s.entries address size object
  | .replaced entry => ∃ e ∈ s.entries, e.Writable ∧ entry.Within e
  | .accepted _ _ => True

instance (s : OverwriteState) (l : OverwriteAction × List CopyEvent) : Decidable (StepOk s l) := by
  unfold StepOk
  repeat' split
  all_goals infer_instance

instance (s : OverwriteState) : (event : CopyEvent) → Decidable (EventOk s event)
  | .wrote address size object _ => inferInstanceAs (Decidable (∃ e ∈ s.entries, e.Writable ∧
      e.needsCopy = false ∧ e.object = some object ∧ e.vmeStart ≤ address ∧
      address.toNat + size.toNat ≤ e.vmeEnd.toNat))
  | .replaced entry => inferInstanceAs (Decidable (∃ e ∈ s.entries, e.Writable ∧
      e.vmeStart ≤ entry.vmeStart ∧ entry.vmeEnd ≤ e.vmeEnd))
  | .accepted .. => isTrue trivial

variable {s s' : OverwriteState} {u : Unaligned} {entryEnd copySize : VmOffset}
  {version : BitVec 32}

/-- A smaller part was copied. -/
theorem UnalignedCopying.mono {copySize' : VmOffset}
    (h : UnalignedCopying s u entryEnd version copySize) (hle : copySize' ≤ copySize) :
    UnalignedCopying s u entryEnd version copySize' := by
  have hsize := h.size_le
  refine ⟨h.sorted, h.source, by bv_omega, fun e he => ?_, fun hsame => ?_⟩
  · have hsource := h.source_le e he
    bv_omega
  · obtain ⟨entry, after, hafter, hc, hentryEnd, hend, hw⟩ := h.same hsame
    exact ⟨entry, after, hafter, hc, hentryEnd, by bv_omega, hw⟩

/-- A round of `vm_fault_copy` writes where it may, and what it leads to is as expected if
that is so for both ends of a round. -/
theorem faultCopyStep_spec {x : FaultCopy} {fault : PageFault} {copying : FaultCopy → OverwritePc}
    {copied : VmOffset → OverwritePc} (h : FaultCopying s x)
    (hmore : ∀ y, y.copySize = x.copySize → y.version = x.version → FaultCopying s y →
      Inv { s with pc := copying y })
    (hdone : ∀ copySize ≤ x.copySize, Inv { s with pc := copied copySize }) :
    Inv (faultCopyStep s x fault copying copied).1 ∧
      ∀ event ∈ (faultCopyStep s x fault copying copied).2, EventOk s event := by
  have hok : ∀ event ∈ (x.step s.timestamp fault).2, EventOk s event := by
    intro event hevent
    obtain ⟨size, offset, rfl, hallowed⟩ :=
      FaultCopy.step_events h.amountLeft h.allowed event hevent
    exact hallowed
  unfold faultCopyStep
  split
  · rename_i y events hstep
    rw [hstep] at hok
    obtain ⟨hleft, hle, hsize, hversion, hallowed⟩ :=
      FaultCopy.step_more h.amountLeft h.amountLeft_le h.allowed (congrArg Prod.fst hstep)
    exact ⟨hmore y hsize hversion ⟨hleft, hle, fun _ => hallowed⟩, hok⟩
  · rename_i copySize events hstep
    rw [hstep] at hok
    exact ⟨hdone copySize (FaultCopy.step_returned h.amountLeft h.amountLeft_le
      (congrArg Prod.fst hstep)), hok⟩
  · rename_i kr copySize events _ hstep
    rw [hstep] at hok
    exact ⟨trivial, hok⟩

/-- Whether a call that returns knows something does not matter. -/
theorem ret_inv (kr : KernReturn) : Inv (ret s kr) := trivial

/-- The first pass. -/
theorem enterStep_inv {dstAddr : VmOffset} {copy : VmMapCopy} (hsorted : EntriesSorted s.entries)
    (hcopy : copy.WellFormed)
    (hok : aligned dstAddr copy = true ∨
      dstAddr.toNat + copy.size.toNat ≤ (dstEnd dstAddr copy).toNat) :
    Inv (s.enterStep dstAddr copy) := by
  have hnonempty : CopyNonempty copy.entries := fun e he => by
    have hpage := hcopy e he
    have hpos : 0 < pageSize := by decide
    bv_omega
  unfold enterStep
  split
  · exact ret_inv _
  rename_i hsize
  simp only
  split
  swap
  · exact ret_inv _
  rename_i before entry after hlookup
  change vmMapLookupEntry s.entries dstAddr = _ at hlookup
  have happend := vmMapLookupEntry_append s.entries dstAddr
  rw [hlookup] at happend
  simp only at happend
  rw [← happend] at hsorted
  have hafter := hsorted.sublist (sublist_append_right before (entry :: after))
  obtain ⟨-, hcontains, -⟩ := clipStart_of_found hlookup
  by_cases haligned : aligned dstAddr copy = true
  · have hclip := hsorted.clipStart hcontains.2
    simp only [haligned, if_true]
    split
    · exact ⟨rfl, hclip.sublist (sublist_append_right _ _), hnonempty⟩
    · exact ret_inv _
    · rename_i hwait
      exact ⟨hclip.congr (passOne_wait hwait), hcopy⟩
  · have hend := hok.resolve_left haligned
    simp only [haligned]
    split
    · rename_i hpass
      have hpos : 0 < copy.size := by bv_omega
      refine ⟨rfl, hsorted, ⟨hpos, hnonempty, fun e he => ?_⟩, ⟨entry, after, rfl, hcontains⟩, ?_⟩
      · have hoffset := sub_truncPage_lt copy.offset
        have hpage := hcopy e (mem_of_mem_head? he)
        simp only
        omega
      · intro e he a hc hle hlt
        rcases mem_append.mp he with he | he
        · have hmem : e ∈ (vmMapLookupEntry s.entries dstAddr).2.1 := by
            rw [hlookup]
            exact he
          have hbefore : e.vmeEnd ≤ dstAddr := vmeEnd_le_of_lookup hmem
          have hlt' := hc.2
          bv_omega
        · exact passOne_ok hafter hpass e he a hc (by bv_omega)
    · exact ret_inv _
    · rename_i hwait
      exact ⟨hsorted.congr (passOne_wait hwait), hcopy⟩

/-- The loop of an aligned destination: it writes to an entry that it has found writable. -/
theorem alignedStep_spec {oracle : OverwriteOracle} {start : VmOffset}
    {copyEntries : List VmMapEntry} {events : List CopyEvent} (hlocked : s.locked = true)
    (hsorted : EntriesSorted s.after) (hcopy : CopyNonempty copyEntries)
    (h : s.alignedStep oracle start copyEntries = some (s', events)) :
    Inv s' ∧ ∀ event ∈ events, EventOk s event := by
  unfold alignedStep at h
  split at h
  · cases h
    exact ⟨ret_inv _, by rintro event (_ | _)⟩
  · split at h <;> cases h
    exact ⟨ret_inv _, by rintro event (_ | _)⟩
  rename_i copyEntry rest entry after hafter
  rw [hafter] at hsorted
  split at h
  · cases h
    exact ⟨ret_inv _, by rintro event (_ | _)⟩
  rename_i hstart
  split at h
  · cases h
    exact ⟨ret_inv _, by rintro event (_ | _)⟩
  rename_i hwritable
  have hnonempty := hsorted.nonempty entry (by simp)
  have hcopyEntry := hcopy copyEntry (by simp)
  have hcopySize : 0 < copyEntry.vmeEnd - copyEntry.vmeStart := by bv_omega
  have hclip := hsorted.clipToSize hcopySize
  obtain ⟨vmeEnd, hlt, hle, hfst⟩ := clipToSize_fst after hnonempty hcopySize
  generalize clipToSize entry after _ = clipped at h hclip hfst
  obtain ⟨entry₁, after₁⟩ := clipped
  obtain rfl : entry₁ = { entry with vmeEnd } := hfst
  have hsize : 0 < vmeEnd - entry.vmeStart := by bv_omega
  have hcopyClip := hcopy.clipToSize hsize
  simp only at h
  generalize clipToSize copyEntry rest _ = copyClipped at h hcopyClip
  obtain ⟨copyEntry₁, rest₁⟩ := copyClipped
  have hrest : CopyNonempty rest₁ := fun e he => hcopyClip e (mem_cons_of_mem _ he)
  have hafter₁ : EntriesSorted after₁ := hclip.sublist (sublist_cons_self _ _)
  simp only at h
  split at h
  · split at h
    · cases h
      exact ⟨⟨hlocked, hafter₁, hrest⟩, by rintro event (_ | _)⟩
    · cases h
      refine ⟨⟨hlocked, hafter₁, hrest⟩, fun event hevent => ?_⟩
      rw [mem_singleton.mp hevent]
      refine ⟨entry, ?_, not_not.mp hwritable, BitVec.le_refl _, hle⟩
      simp [entries, hafter]
  · rename_i hslow
    simp only [map_eq_some_iff, Prod.mk.injEq] at h
    obtain ⟨dstObject, hobject, rfl, rfl⟩ := h
    have hneeds : entry.needsCopy = false := by
      simp only [Bool.or_eq_true, not_or] at hslow
      simpa using hslow.2
    refine ⟨⟨⟨fun _ => hclip, fun h => absurd rfl h, hcopyClip⟩,
      ⟨hsize, BitVec.le_refl _, fun _ => ?_⟩⟩, by rintro event (_ | _)⟩
    refine ⟨{ entry with vmeEnd }, ?_, not_not.mp hwritable, hneeds, hobject, ?_, ?_⟩
    · simp [entries]
    · exact BitVec.le_of_eq (not_not.mp hstart)
    · have hstart : entry.vmeStart = start := not_not.mp hstart
      simp only
      bv_omega

/-- After a part of an aligned destination. -/
theorem alignedCopiedStep_inv {start : VmOffset} {copyEntries : List VmMapEntry}
    (h : AlignedCopying s copyEntries version) :
    Inv (s.alignedCopiedStep start copyEntries version copySize) := by
  have hrest := h.nonempty.disposeCopied copySize
  unfold alignedCopiedStep
  simp only
  split
  · rename_i hversion
    have hsame : s.timestamp = version := ((BitVec.add_left_inj 1).mp hversion).symm
    have hsorted := h.same hsame
    split
    · rename_i entry after hafter
      change s.after = _ at hafter
      rw [hafter] at hsorted
      exact ⟨rfl, hsorted.clipEnd_tail, hrest⟩
    · rename_i hafter
      refine ⟨rfl, ?_, hrest⟩
      exact hsorted
  · rename_i hversion
    have hchanged : s.timestamp ≠ version := fun hsame => hversion (by rw [← hsame]; rfl)
    have hsorted := h.changed hchanged
    split
    · rename_i before entry after hlookup
      change vmMapLookupEntry s.entries _ = _ at hlookup
      have happend := vmMapLookupEntry_append s.entries (start + copySize)
      rw [hlookup] at happend
      simp only at happend
      rw [← happend] at hsorted
      obtain ⟨-, hcontains, -⟩ := clipStart_of_found hlookup
      exact ⟨rfl, (hsorted.clipStart hcontains.2).sublist (sublist_append_right _ _), hrest⟩
    · exact ret_inv _

/-- The loop of a destination that is not aligned. -/
theorem unalignedStep_inv {oracle : OverwriteOracle} (hlocked : s.locked = true)
    (hsorted : EntriesSorted s.entries) (hsource : SourceLeft u)
    (hstart : ∃ entry after, s.after = entry :: after ∧ entry.Contains u.start)
    (hwritable : WritableFrom s.entries u.start u.amountLeft) (hpc : s.pc = .unaligned u)
    (h : s.unalignedStep oracle u = some s') : Inv s' := by
  obtain ⟨entry, after, hafter, hcontains⟩ := hstart
  have hentries : s.entries = s.before ++ entry :: after := by rw [entries, hafter]
  have hmem : entry ∈ s.entries := by simp [hentries]
  have hw : entry.Writable := by
    refine hwritable entry hmem u.start hcontains (BitVec.le_refl _) ?_
    have hleft := hsource.amountLeft
    bv_omega
  have hupgrade : ∀ entry' : VmMapEntry, entry'.range = entry.range →
      entry'.protection = entry.protection → Inv (upgrade s oracle u entry' after) := by
    intro entry' hrange hprot
    unfold upgrade
    split
    · rw [hentries] at hsorted hwritable
      unfold Inv
      simp only [hpc]
      refine ⟨hlocked, hsorted.congr (by simp [entries, hrange]), hsource,
        ⟨entry', after, rfl, ?_⟩, hwritable.set hrange hprot⟩
      simp only [VmMapEntry.range, Prod.mk.injEq] at hrange
      unfold VmMapEntry.Contains at hcontains ⊢
      rwa [hrange.1, hrange.2]
    · exact ⟨hsorted, hsource⟩
  unfold unalignedStep at h
  rw [hafter] at h
  split at h
  · rename_i copyEntry rest entry₀ after₀ hcopy heq
    cases heq
    split at h
    · cases h
      refine hupgrade _ ?_ ?_
      · unfold VmMapEntry.shadow
        split <;> rfl
      · unfold VmMapEntry.shadow
        split <;> rfl
    · rename_i hneeds
      split at h
      · cases h
        exact hupgrade _ rfl rfl
      · rename_i dstObject hobject
        cases h
        have hsrc := hsource.srcOffset copyEntry (by rw [hcopy]; rfl)
        have hleft := hsource.amountLeft
        have hdst := hcontains.2
        have hdstSize : 0 < entry.vmeEnd - u.start := by bv_omega
        have hsrcSize : 0 < copyEntry.vmeEnd - (copyEntry.vmeStart + u.srcOffset) := by bv_omega
        obtain ⟨hpos, hledst, hlesrc, hleleft⟩ := limitSize_spec hdstSize hsrcSize hleft
        have hneeds : entry.needsCopy = false := by simpa [hw] using hneeds
        refine ⟨⟨hsorted, hsource, hleleft, fun e he => ?_, fun _ => ?_⟩,
          ⟨hpos, BitVec.le_refl _, fun _ => ?_⟩⟩
        · simp only [hcopy, head?_cons, mem_def, Option.some.injEq] at he
          subst he
          simp only
          bv_omega
        · exact ⟨entry, after, hafter, hcontains, rfl, by simp only; bv_omega, hwritable⟩
        · refine ⟨entry, hmem, hw, hneeds, hobject, hcontains.1, ?_⟩
          simp only
          bv_omega
  · cases h

/-- A lookup in a map of which all that is left can be written. -/
theorem retryLookupStep_inv (hsorted : EntriesSorted s.entries) (hsource : SourceLeft u)
    (hwritable : WritableFrom s.entries u.start u.amountLeft) : Inv (s.retryLookupStep u) := by
  unfold retryLookupStep
  split
  · rename_i before after hlookup
    have happend := vmMapLookupEntry_append s.entries u.start
    rw [hlookup] at happend
    have hentries : before ++ after = s.entries := happend
    rw [← hentries] at hsorted hwritable
    refine ⟨rfl, hsorted, hsource, ?_, hwritable⟩
    cases after with
    | nil =>
      rw [vmMapLookupEntry] at hlookup
      simp only [Prod.mk.injEq] at hlookup
      simp [hlookup.2.2] at hlookup
    | cons entry after => exact ⟨entry, after, rfl, (clipStart_of_found hlookup).2.1⟩
  · exact ret_inv _

/-- What is left of the copy after a part, if something is. -/
theorem sourceLeft_advance {copyEntry : VmMapEntry} {rest : List VmMapEntry} (h : SourceLeft u)
    (hcopy : u.copyEntries = copyEntry :: rest)
    (hsource : copyEntry.vmeStart.toNat + u.srcOffset.toNat + copySize.toNat ≤
      copyEntry.vmeEnd.toNat) (hleft : u.amountLeft - copySize ≠ 0) :
    SourceLeft (u.advance copyEntry rest copySize) := by
  have hnonempty := h.nonempty
  rw [hcopy] at hnonempty
  unfold Unaligned.advance
  split
  · refine ⟨by simp only; bv_omega, fun e he => hnonempty e (mem_cons_of_mem _ he), fun e he => ?_⟩
    have hlt := hnonempty e (mem_cons_of_mem _ (mem_of_mem_head? he))
    simp only
    bv_omega
  · rename_i hdisposes
    refine ⟨by simp only; bv_omega, h.nonempty, fun e he => ?_⟩
    simp only [hcopy, head?_cons, mem_def, Option.some.injEq] at he
    subst he
    simp only
    bv_omega

theorem advance_start (u : Unaligned) (copyEntry : VmMapEntry) (rest : List VmMapEntry)
    (copySize : VmOffset) : (u.advance copyEntry rest copySize).start = u.start + copySize := by
  unfold Unaligned.advance
  split <;> rfl

theorem advance_amountLeft (u : Unaligned) (copyEntry : VmMapEntry) (rest : List VmMapEntry)
    (copySize : VmOffset) :
    (u.advance copyEntry rest copySize).amountLeft = u.amountLeft - copySize := by
  unfold Unaligned.advance
  split <;> rfl

/-- After a part of a destination that is not aligned. -/
theorem unalignedCopiedStep_inv (h : UnalignedCopying s u entryEnd version copySize)
    (hok : s.timestamp = version ∨
      WritableFrom s.entries (u.start + copySize) (u.amountLeft - copySize))
    (hstep : s.unalignedCopiedStep u entryEnd version copySize = some s') : Inv s' := by
  unfold unalignedCopiedStep at hstep
  split at hstep
  · cases hstep
  rename_i copyEntry rest hcopy
  have hsource := h.source_le copyEntry (by rw [hcopy]; rfl)
  have hadvance := sourceLeft_advance h.source hcopy hsource
  have hstart := advance_start u copyEntry rest copySize
  have hamount := advance_amountLeft u copyEntry rest copySize
  generalize u.advance copyEntry rest copySize = u' at hstep hadvance hstart hamount
  simp only at hstep
  split at hstep
  · cases hstep
    exact ret_inv _
  split at hstep
  · cases hstep
    exact ret_inv _
  rename_i hleft
  have hsource' := hadvance (by rw [← hamount]; exact hleft)
  rw [← hstart, ← hamount] at hok
  split at hstep
  · rename_i hsame
    obtain ⟨entry, after, hafter, hcontains, rfl, hend, hwritable⟩ := h.same hsame.symm
    have hentries : s.entries = s.before ++ entry :: after := by rw [entries, hafter]
    have hsorted := h.sorted
    have hsize := h.size_le
    have hlast := hcontains.2
    have hfirst := hcontains.1
    have hwritable' : WritableFrom s.entries u'.start u'.amountLeft :=
      hwritable.mono (by bv_omega) (by bv_omega)
    rw [hafter] at hstep
    rw [hentries] at hsorted hwritable'
    split at hstep
    · rename_i hnext
      split at hstep
      · rename_i entry₀ next after₀ heq
        cases heq
        split at hstep
        · rename_i hcontiguous
          cases hstep
          have hlt := hsorted.nonempty next (by simp)
          refine ⟨rfl, by simpa [entries] using hsorted, hsource',
            ⟨next, after₀, rfl, ?_⟩, by simpa [entries] using hwritable'⟩
          rw [← hcontiguous]
          exact ⟨BitVec.le_refl _, hlt⟩
        · cases hstep
          exact ret_inv _
      · split at hstep <;> cases hstep
        exact ret_inv _
    · rename_i hnext
      cases hstep
      exact ⟨rfl, hsorted, hsource', ⟨entry, after, rfl, by bv_omega, by bv_omega⟩, hwritable'⟩
  · rename_i hchanged
    cases hstep
    exact retryLookupStep_inv h.sorted hsource' (hok.resolve_left fun hsame => hchanged hsame.symm)

/-- What others do keeps what a call knows, unless they bring back the version it saved. -/
theorem others_inv {entries : List VmMapEntry} (hinv : Inv s) (hsorted : EntriesSorted entries)
    (hversion : s.pc.version ≠ some (s.timestamp + 1))
    (h : s.others [] entries = some s') : Inv s' := by
  unfold others at h
  split at h
  · cases h
  rename_i hlocked
  cases h
  unfold Inv at hinv ⊢
  cases hpc : s.pc with
  | enter dstAddr copy =>
    rw [hpc] at hinv
    exact ⟨hsorted, hinv.2⟩
  | aligned => exact absurd (by rw [hpc] at hinv; exact hinv.1) hlocked
  | alignedCopy start copyEntries x =>
    rw [hpc] at hinv hversion
    have hne : s.timestamp + 1 ≠ x.version := fun heq => hversion (congrArg some heq.symm)
    exact ⟨⟨fun heq => absurd heq hne, fun _ => hsorted, hinv.1.nonempty⟩,
      hinv.2.amountLeft, hinv.2.amountLeft_le, fun heq => absurd heq hne⟩
  | alignedCopied start copyEntries version copySize =>
    rw [hpc] at hinv hversion
    have hne : s.timestamp + 1 ≠ version := fun heq => hversion (congrArg some heq.symm)
    exact ⟨fun heq => absurd heq hne, fun _ => hsorted, hinv.nonempty⟩
  | unaligned => exact absurd (by rw [hpc] at hinv; exact hinv.1) hlocked
  | unalignedCopy u entryEnd x =>
    rw [hpc] at hinv hversion
    have hne : s.timestamp + 1 ≠ x.version := fun heq => hversion (congrArg some heq.symm)
    exact ⟨⟨hsorted, hinv.1.source, hinv.1.size_le, hinv.1.source_le,
      fun heq => absurd heq hne⟩, hinv.2.amountLeft, hinv.2.amountLeft_le,
      fun heq => absurd heq hne⟩
  | unalignedCopied u entryEnd version copySize =>
    rw [hpc] at hinv hversion
    have hne : s.timestamp + 1 ≠ version := fun heq => hversion (congrArg some heq.symm)
    exact ⟨hsorted, hinv.source, hinv.size_le, hinv.source_le, fun heq => absurd heq hne⟩
  | retryLookup u =>
    rw [hpc] at hinv
    exact ⟨hsorted, hinv.2⟩
  | returned => trivial

/-- What a call knows stays true, and it writes where it may only. -/
theorem step_spec {l : OverwriteAction × List CopyEvent} (hinv : Inv s) (hok : StepOk s l)
    (h : CopyStep step OverwriteAction.entries s l s') :
    Inv s' ∧ ∀ event ∈ l.2, EventOk s event := by
  obtain ⟨action, events⟩ := l
  obtain ⟨hstep, hothers⟩ := h
  cases action with
  | others entries =>
    simp only [step, map_eq_some_iff, Prod.mk.injEq] at hstep
    obtain ⟨t, hstep, rfl, rfl⟩ := hstep
    exact ⟨others_inv hinv (hothers entries rfl) hok hstep, by rintro event (_ | _)⟩
  | run oracle =>
    simp only [step] at hstep
    unfold Inv at hinv
    unfold StepOk at hok
    cases hpc : s.pc with
    | enter dstAddr copy =>
      rw [hpc] at hstep hinv hok
      cases hstep
      exact ⟨enterStep_inv hinv.1 hinv.2 hok, by rintro event (_ | _)⟩
    | aligned start copyEntries =>
      rw [hpc] at hstep hinv
      exact alignedStep_spec hinv.1 hinv.2.1 hinv.2.2 hstep
    | alignedCopy start copyEntries x =>
      rw [hpc] at hstep hinv
      change Inv (s', events).1 ∧ ∀ event ∈ (s', events).2, EventOk s event
      rw [← Option.some.inj hstep]
      refine faultCopyStep_spec hinv.2 (fun y _ hversion hy =>
        ⟨?_, hy.amountLeft, hy.amountLeft_le, hy.allowed⟩) fun _ _ => ?_
      · rw [hversion]
        exact ⟨hinv.1.same, hinv.1.changed, hinv.1.nonempty⟩
      · exact ⟨hinv.1.same, hinv.1.changed, hinv.1.nonempty⟩
    | alignedCopied start copyEntries version copySize =>
      rw [hpc] at hstep hinv
      cases hstep
      exact ⟨alignedCopiedStep_inv hinv, by rintro event (_ | _)⟩
    | unaligned u =>
      rw [hpc] at hstep hinv
      simp only [map_eq_some_iff, Prod.mk.injEq] at hstep
      obtain ⟨t, hstep, rfl, rfl⟩ := hstep
      obtain ⟨hlocked, hsorted, hsource, hstart, hwritable⟩ := hinv
      exact ⟨unalignedStep_inv hlocked hsorted hsource hstart hwritable hpc hstep,
        by rintro event (_ | _)⟩
    | unalignedCopy u entryEnd x =>
      rw [hpc] at hstep hinv
      change Inv (s', events).1 ∧ ∀ event ∈ (s', events).2, EventOk s event
      rw [← Option.some.inj hstep]
      refine faultCopyStep_spec hinv.2 (fun y hsize hversion hy =>
        ⟨?_, hy.amountLeft, hy.amountLeft_le, hy.allowed⟩) fun copySize hle => ?_
      · rw [hversion, hsize]
        obtain ⟨hsorted, hsource, hsize, hsourceLe, hsame⟩ := hinv.1
        exact ⟨hsorted, hsource, hsize, hsourceLe, hsame⟩
      · obtain ⟨hsorted, hsource, hsize, hsourceLe, hsame⟩ := hinv.1.mono hle
        exact ⟨hsorted, hsource, hsize, hsourceLe, hsame⟩
    | unalignedCopied u entryEnd version copySize =>
      rw [hpc] at hstep hinv hok
      simp only [map_eq_some_iff, Prod.mk.injEq] at hstep
      obtain ⟨t, hstep, rfl, rfl⟩ := hstep
      exact ⟨unalignedCopiedStep_inv hinv hok hstep, by rintro event (_ | _)⟩
    | retryLookup u =>
      rw [hpc] at hstep hinv hok
      cases hstep
      exact ⟨retryLookupStep_inv hinv.1 hinv.2 hok, by rintro event (_ | _)⟩
    | returned kr =>
      rw [hpc] at hstep
      cases hstep

/-- In a run of a call in which what is left of the destination can be written where the map
has changed, only what can be written is written. -/
theorem written_writable {init : OverwriteState} {dstAddr : VmOffset} {copy : VmMapCopy}
    {trace : List (OverwriteState × OverwriteAction × List CopyEvent)}
    (h : Run (CopyStep step OverwriteAction.entries) init trace s)
    (hpc : init.pc = .enter dstAddr copy) (hsorted : EntriesSorted init.entries)
    (hcopy : copy.WellFormed) (hok : ∀ x ∈ trace, StepOk x.1 x.2) :
    ∀ x ∈ trace, ∀ event ∈ x.2.2, EventOk x.1 event := by
  intro x hx
  have hinit : Inv init := by
    unfold Inv
    rw [hpc]
    exact ⟨hsorted, hcopy⟩
  obtain ⟨hinv, hokx, s', hstep⟩ := h.invariant_of_mem Inv hok hinit
    (fun s l s' hinv hok hstep => (step_spec hinv hok hstep).1) hx
  exact (step_spec hinv hokx hstep).2

end OverwriteState

end MachVirtuTerm
