import MachVirtuTerm.Lib.Tracks
import MachVirtuTerm.Vm.MemoryObject

/-!
# The pages of an object and those who wait for them

At each offset is one page at most, the absent pages are counted, and threads wait only for pages
that are busy.
-/

open Function

namespace MachVirtuTerm

open Function Bool

namespace PagedObject

variable {Page Thread : Type} {s s' : PagedObject Page Thread} {p q : Page} {m : ObjectPage}
  {t : Thread} {offset : BitVec 32}

/-- What the pages of an object agree on. -/
structure ObjectOk [Fintype Page] (s : PagedObject Page Thread) : Prop where
  resident : Tracks s.resident (fun m => m.tabled = true) s.page
  unique : ∀ p q, (s.page p).tabled = true → (s.page q).tabled = true →
    (s.page p).offset = (s.page q).offset → p = q
  zone : Tracks s.zone (fun m => m.free = true ∧ m.fictitious = true) s.page
  free : ∀ p, (s.page p).free = true → (s.page p).tabled = false
  absent : ∀ p, (s.page p).absent = true → (s.page p).tabled = true
  absentCount : s.absentCount = countWhere (fun m : ObjectPage => m.absent = true) s.page
  waiting : ∀ t p, s.waiting t = some p →
    (s.page p).tabled = true ∧ (s.page p).busy = true ∧ (s.page p).wanted = true

/-- What a step on a page of the object leaves alone. -/
structure SameCalls (s s' : PagedObject Page Thread) : Prop where
  call : s'.call = s.call
  readFreed : s'.readFreed = s.readFreed
  pagingOffset : s'.pagingOffset = s.pagingOffset

theorem SameCalls.refl (s : PagedObject Page Thread) : SameCalls s s := ⟨rfl, rfl, rfl⟩

theorem SameCalls.trans {s'' : PagedObject Page Thread} (h : SameCalls s s')
    (h' : SameCalls s' s'') : SameCalls s s'' :=
  ⟨h'.call.trans h.call, h'.readFreed.trans h.readFreed, h'.pagingOffset.trans h.pagingOffset⟩

/-- `vm_page_lookup` finds the page at an offset, if there is one. -/
theorem ObjectOk.lookup [Fintype Page] (h : ObjectOk s) (offset : BitVec 32) :
    (s.vmPageLookup offset = none ∧
      ∀ p, (s.page p).tabled = true → (s.page p).offset ≠ offset) ∨
    ∃ p, s.vmPageLookup offset = some p ∧ (s.page p).tabled = true ∧
      (s.page p).offset = offset := by
  unfold vmPageLookup
  generalize hfind : s.resident.find? (fun p => (s.page p).offset = offset) = found
  cases found with
  | none =>
    refine .inl ⟨rfl, ?_⟩
    intro p hp hoffset
    exact List.find?_eq_none.mp hfind p ((h.resident.mem p).mpr hp) (decide_eq_true hoffset)
  | some p =>
    have hoffset : (s.page p).offset = offset := by simpa using List.find?_some hfind
    exact .inr ⟨p, rfl, (h.resident.mem p).mp (List.mem_of_find?_eq_some hfind), hoffset⟩

/-- Nothing else changes, but nobody waits for a page that was wanted. -/
structure Woken (s : PagedObject Page Thread) (p : Page) (s' : PagedObject Page Thread) :
    Prop where
  resident : s'.resident = s.resident
  zone : s'.zone = s.zone
  absentCount : s'.absentCount = s.absentCount
  same : SameCalls s s'
  waiting : ∀ t q, s'.waiting t = some q →
    s.waiting t = some q ∧ (q = p → (s.page p).wanted = false)

/-- Nobody waits for a page after a wakeup. -/
theorem Woken.notWaiting [Fintype Page] (hwoken : Woken s p s') (h : ObjectOk s)
    (hq : s'.waiting t = some q) : s.waiting t = some q ∧ q ≠ p := by
  obtain ⟨hold, hwanted⟩ := hwoken.waiting t q hq
  refine ⟨hold, ?_⟩
  rintro rfl
  exact absurd ((hwanted rfl).symm.trans (h.waiting t q hold).2.2) false_ne_true

/-- What else changes does not matter. -/
theorem ObjectOk.of_eq [Fintype Page] (h : ObjectOk s) (hpage : s'.page = s.page)
    (hresident : s'.resident = s.resident) (hzone : s'.zone = s.zone)
    (hcount : s'.absentCount = s.absentCount) (hwaiting : s'.waiting = s.waiting) :
    ObjectOk s' := by
  constructor
  · rw [hresident, hpage]
    exact h.resident
  · rw [hpage]
    exact h.unique
  · rw [hzone, hpage]
    exact h.zone
  · rw [hpage]
    exact h.free
  · rw [hpage]
    exact h.absent
  · rw [hcount, hpage]
    exact h.absentCount
  · rw [hwaiting, hpage]
    exact h.waiting

variable [DecidableEq Page]

/-- One page changes, and with it the lists it is on and those who wait for it. -/
theorem ObjectOk.update [Fintype Page] (h : ObjectOk s)
    (hpage : s'.page = update s.page p m)
    (hresident : Tracks s'.resident (fun m => m.tabled = true) (update s.page p m))
    (hunique : m.tabled = true → ∀ q, q ≠ p → (s.page q).tabled = true →
      (s.page q).offset ≠ m.offset)
    (hzone : Tracks s'.zone (fun m => m.free = true ∧ m.fictitious = true) (update s.page p m))
    (hfree : m.free = true → m.tabled = false) (habsent : m.absent = true → m.tabled = true)
    (hcount : s'.absentCount = s.absentCount -
      weight (fun m : ObjectPage => m.absent = true) (s.page p) +
        weight (fun m : ObjectPage => m.absent = true) m)
    (hwaiting : ∀ t q, s'.waiting t = some q → (q ≠ p → s.waiting t = some q) ∧
      (q = p → m.tabled = true ∧ m.busy = true ∧ m.wanted = true)) : ObjectOk s' := by
  constructor
  · rw [hpage]
    exact hresident
  · intro q r hq hr hsame
    rw [hpage] at hq hr hsame
    by_cases hqp : q = p
    · subst hqp
      by_cases hrq : r = q
      · exact hrq.symm
      · rw [update_self] at hq hsame
        rw [update_of_ne hrq] at hr hsame
        exact absurd hsame.symm (hunique hq r hrq hr)
    · rw [update_of_ne hqp] at hq hsame
      by_cases hrp : r = p
      · subst hrp
        rw [update_self] at hr hsame
        exact absurd hsame (hunique hr q hqp hq)
      · rw [update_of_ne hrp] at hr hsame
        exact h.unique q r hq hr hsame
  · rw [hpage]
    exact hzone
  · intro q hq
    rw [hpage] at hq ⊢
    by_cases hqp : q = p
    · subst hqp
      rw [update_self] at hq ⊢
      exact hfree hq
    · rw [update_of_ne hqp] at hq ⊢
      exact h.free q hq
  · intro q hq
    rw [hpage] at hq ⊢
    by_cases hqp : q = p
    · subst hqp
      rw [update_self] at hq ⊢
      exact habsent hq
    · rw [update_of_ne hqp] at hq ⊢
      exact h.absent q hq
  · rw [hcount, hpage, countWhere_update, h.absentCount]
  · intro t q hq
    obtain ⟨hother, hthis⟩ := hwaiting t q hq
    rw [hpage]
    by_cases hqp : q = p
    · subst hqp
      rw [update_self]
      exact hthis rfl
    · rw [update_of_ne hqp]
      exact h.waiting t q (hother hqp)

section Wakeup

variable (s : PagedObject Page Thread)

variable (p : Page)

theorem pageWakeup_page :
    (s.pageWakeup p).page = update s.page p { s.page p with wanted := false } := by
  unfold pageWakeup
  split
  · rfl
  next hwanted =>
    have hsame : { s.page p with wanted := false } = s.page p := by
      rw [← eq_false_iff.mpr hwanted]
    rw [hsame, update_eq_self]

theorem pageWakeup_woken : Woken s p (s.pageWakeup p) := by
  unfold pageWakeup
  split
  · refine ⟨rfl, rfl, rfl, ⟨rfl, rfl, rfl⟩, ?_⟩
    intro t q hq
    dsimp only at hq
    split at hq
    · cases hq
    next hne =>
      refine ⟨hq, ?_⟩
      rintro rfl
      exact absurd hq hne
  next hwanted =>
    exact ⟨rfl, rfl, rfl, SameCalls.refl s, fun t q hq =>
      ⟨hq, fun _ => eq_false_iff.mpr hwanted⟩⟩

/-- `PAGE_WAKEUP_DONE`: the page is not busy any more. -/
theorem pageWakeupDone_page : (s.pageWakeupDone p).page = update s.page p { s.page p with
      busy := false
      wanted := false } := by
  unfold pageWakeupDone
  rw [pageWakeup_page]
  simp only [setPage]
  rw [update_self, update_idem]

theorem pageWakeupDone_woken : Woken s p (s.pageWakeupDone p) := by
  have h := pageWakeup_woken (s.setPage p { s.page p with busy := false }) p
  refine ⟨h.resident, h.zone, h.absentCount,
    ⟨h.same.call, h.same.readFreed, h.same.pagingOffset⟩, ?_⟩
  intro t q hq
  obtain ⟨hold, hwanted⟩ := h.waiting t q hq
  refine ⟨hold, fun heq => ?_⟩
  have hfalse := hwanted heq
  simp only [setPage, update_self] at hfalse
  exact hfalse

end Wakeup

section Free

/-- What becomes of a page structure that is freed. -/
def freedPage (m : ObjectPage) : ObjectPage :=
  if m.fictitious then { m with
    offset := if m.tabled then 0 else m.offset
    tabled := false
    clustered := false
    wanted := false
    pageLock := 0
    unlockRequest := 0
    busy := true
    absent := false
    error := false
    dirty := false
    precious := false
    pageError := kernSuccess
    free := true }
  else { ObjectPage.init false with free := true }

/-- A freed page is free and in no other state. -/
theorem freedPage_free (m : ObjectPage) : (freedPage m).free = true ∧
    (freedPage m).tabled = false ∧ (freedPage m).absent = false ∧
      (freedPage m).fictitious = m.fictitious := by
  unfold freedPage
  split
  next hfict => exact ⟨rfl, rfl, rfl, rfl⟩
  next hfict => exact ⟨rfl, rfl, rfl, (eq_false_iff.mpr hfict).symm⟩

theorem freedPage_clustered (m : ObjectPage) : (freedPage m).clustered = false := by
  unfold freedPage
  split
  · rfl
  · rfl

/-- `vm_page_free`, all in all. -/
structure PageFreed (s : PagedObject Page Thread) (p : Page) (s' : PagedObject Page Thread) :
    Prop where
  page : s'.page = update s.page p (freedPage (s.page p))
  resident : s'.resident = if (s.page p).tabled then s.resident.erase p else s.resident
  zone : s'.zone = if (s.page p).fictitious then p :: s.zone else s.zone
  absentCount : s'.absentCount = if (s.page p).absent then s.absentCount - 1 else s.absentCount
  same : SameCalls s s'
  waiting : ∀ t q, s'.waiting t = some q →
    s.waiting t = some q ∧ (q = p → (s.page p).wanted = false)

theorem vmPageFree_freed (s : PagedObject Page Thread) (hfree : (s.page p).free = false) :
    ∃ s', s.vmPageFree p = some s' ∧ PageFreed s p s' := by
  obtain ⟨s₁, hs₁, hpage₁, hresident₁, hrest₁⟩ : ∃ s₁, (if (s.page p).tabled = true then
      s.vmPageRemove p else s) = s₁ ∧ s₁.page = update s.page p { s.page p with
        offset := if (s.page p).tabled then 0 else (s.page p).offset
        tabled := false } ∧
      s₁.resident = (if (s.page p).tabled then s.resident.erase p else s.resident) ∧
      s₁.zone = s.zone ∧ s₁.absentCount = s.absentCount ∧ SameCalls s s₁ ∧
      s₁.waiting = s.waiting := by
    refine ⟨_, rfl, ?_⟩
    split
    next htabled =>
      exact ⟨rfl, rfl, rfl, rfl, ⟨rfl, rfl, rfl⟩, rfl⟩
    next htabled =>
      have hsame : { s.page p with
          offset := (s.page p).offset
          tabled := false } = s.page p := by
        rw [← eq_false_iff.mpr htabled]
      refine ⟨?_, rfl, rfl, rfl, ⟨rfl, rfl, rfl⟩, rfl⟩
      rw [hsame, update_eq_self]
  obtain ⟨hzone₁, hcount₁, hsame₁, hwaiting₁⟩ := hrest₁
  have hwoken := pageWakeup_woken (s₁.setPage p { s₁.page p with clustered := false }) p
  have hpage₂ : ((s₁.setPage p { s₁.page p with clustered := false }).pageWakeup p).page =
      update s.page p { s.page p with
        offset := if (s.page p).tabled then 0 else (s.page p).offset
        tabled := false
        clustered := false
        wanted := false } := by
    rw [pageWakeup_page]
    simp only [setPage]
    rw [update_self, update_idem, hpage₁, update_self, update_idem]
  unfold vmPageFree
  rw [if_neg (eq_false_iff.mp hfree)]
  dsimp only
  rw [hs₁]
  generalize (s₁.setPage p { s₁.page p with clustered := false }).pageWakeup p = s₂ at *
  have hp₂ : s₂.page p = { s.page p with
      offset := if (s.page p).tabled then 0 else (s.page p).offset
      tabled := false
      clustered := false
      wanted := false } := by rw [hpage₂, update_self]
  have hwanted₁ : (s₁.page p).wanted = (s.page p).wanted := by
    rw [hpage₁, update_self]
  have hwaiting₂ (t : Thread) (q : Page) (hq : s₂.waiting t = some q) :
      s.waiting t = some q ∧ (q = p → (s.page p).wanted = false) := by
    obtain ⟨hold, hwanted⟩ := hwoken.waiting t q hq
    refine ⟨by rwa [← hwaiting₁], fun heq => ?_⟩
    have hfalse := hwanted heq
    simp only [setPage, update_self] at hfalse
    rwa [← hwanted₁]
  have habsent₂ : (s₂.page p).absent = (s.page p).absent := by rw [hp₂]
  have hfict₂ : (s₂.page p).fictitious = (s.page p).fictitious := by rw [hp₂]
  obtain ⟨s₃, hs₃, hpage₃, hcount₃, hrest₃⟩ : ∃ s₃, (if (s₂.page p).absent = true then
      { s₂ with absentCount := s₂.absentCount - 1 } else s₂) = s₃ ∧ s₃.page = s₂.page ∧
      s₃.absentCount = (if (s.page p).absent then s.absentCount - 1 else s.absentCount) ∧
      s₃.resident = s₂.resident ∧ s₃.zone = s₂.zone ∧ SameCalls s₂ s₃ ∧
      s₃.waiting = s₂.waiting := by
    refine ⟨_, rfl, ?_⟩
    rw [habsent₂]
    have hcount : s₂.absentCount = s.absentCount := hwoken.absentCount.trans hcount₁
    split
    · exact ⟨rfl, by rw [← hcount], rfl, rfl, ⟨rfl, rfl, rfl⟩, rfl⟩
    · exact ⟨rfl, hcount, rfl, rfl, ⟨rfl, rfl, rfl⟩, rfl⟩
  obtain ⟨hresident₃, hzone₃, hsame₃, hwaiting₃⟩ := hrest₃
  have hzone : s₃.zone = s.zone := (hzone₃.trans hwoken.zone).trans hzone₁
  have hresident : s₃.resident = if (s.page p).tabled then s.resident.erase p
      else s.resident := (hresident₃.trans hwoken.resident).trans hresident₁
  have hsame₂ : SameCalls s₁ s₂ :=
    ⟨hwoken.same.call, hwoken.same.readFreed, hwoken.same.pagingOffset⟩
  have hsame : SameCalls s s₃ := (hsame₁.trans hsame₂).trans hsame₃
  rw [hs₃]
  have hp₃ : s₃.page p = s₂.page p := by rw [hpage₃]
  have hfict₃ : (s₃.page p).fictitious = (s.page p).fictitious := by rw [hp₃, hfict₂]
  split
  next hfict =>
    refine ⟨_, rfl, ⟨?_, hresident, ?_, hcount₃, ⟨hsame.call, hsame.readFreed,
      hsame.pagingOffset⟩, ?_⟩⟩
    · simp only [setPage]
      rw [hpage₃, hpage₂, update_idem, update_self, freedPage, if_pos (hfict₃.symm.trans hfict)]
    · rw [if_pos (hfict₃.symm.trans hfict)]
      exact congrArg (p :: ·) hzone
    · intro t q hq
      exact hwaiting₂ t q (by rw [← hwaiting₃]; exact hq)
  next hfict =>
    have hnot : ¬ (s.page p).fictitious = true := fun htrue => hfict (hfict₃.trans htrue)
    refine ⟨_, rfl, ⟨?_, hresident, ?_, hcount₃, ⟨hsame.call, hsame.readFreed,
      hsame.pagingOffset⟩, ?_⟩⟩
    · simp only [setPage]
      rw [hpage₃, hpage₂, update_idem, freedPage, if_neg hnot]
    · rw [if_neg hnot]
      exact hzone
    · intro t q hq
      exact hwaiting₂ t q (by rw [← hwaiting₃]; exact hq)

/-- A page that is freed leaves the object in order. -/
theorem PageFreed.ok [Fintype Page] (hfreed : PageFreed s p s') (h : ObjectOk s)
    (hfree : (s.page p).free = false) : ObjectOk s' := by
  obtain ⟨hfree', htabled', habsent', hfict'⟩ := freedPage_free (s.page p)
  apply h.update hfreed.page
  · rw [hfreed.resident]
    split
    · exact h.resident.erase (eq_false_iff.mp htabled')
    next htabled => exact h.resident.congr (iff_of_false (eq_false_iff.mp htabled') htabled)
  · intro htrue
    exact absurd (htabled'.symm.trans htrue) false_ne_true
  · rw [hfreed.zone]
    have hold : ¬ ((s.page p).free = true ∧ (s.page p).fictitious = true) := fun hin =>
      false_ne_true (hfree.symm.trans hin.1)
    split
    next hfict => exact h.zone.cons hold ⟨hfree', hfict'.trans hfict⟩
    next hfict =>
      apply h.zone.congr
      exact iff_of_false (fun hin => hfict (hfict'.symm.trans hin.2)) hold
  · intro _
    exact htabled'
  · intro htrue
    exact absurd (habsent'.symm.trans htrue) false_ne_true
  · rw [hfreed.absentCount, weight_of_not (P := fun m : ObjectPage => m.absent = true)
      (eq_false_iff.mp habsent'), add_zero]
    split
    next habsent => rw [weight_of (P := fun m : ObjectPage => m.absent = true) habsent]
    next habsent =>
      rw [weight_of_not (P := fun m : ObjectPage => m.absent = true) habsent, sub_zero]
  · intro t q hq
    obtain ⟨hold, hwanted⟩ := hfreed.waiting t q hq
    refine ⟨fun _ => hold, ?_⟩
    rintro rfl
    exact absurd ((hwanted rfl).symm.trans (h.waiting t q hold).2.2) false_ne_true

end Free

end PagedObject

end MachVirtuTerm
