import MachVirtuTerm.Vm.MemoryObjectInv

/-!
# Errors and unavailable pages

`memory_object_data_error` and `memory_object_data_unavailable` change only pages that are absent
or missing, and wake up who waits for them.
-/

open List Function Option

namespace MachVirtuTerm

namespace PagedObject

variable {Page Thread : Type} [Fintype Page]
  {s s' : PagedObject Page Thread} {p q : Page} {m : ObjectPage} {offset : BitVec 32}

/-- An answer for one page. -/
structure PageAnswered (s : PagedObject Page Thread) (offset : BitVec 32)
    (s' : PagedObject Page Thread) : Prop where
  ok : ObjectOk s'
  same : SameCalls s s'
  others : ∀ p, (s.page p).free = false →
    ¬ ((s.page p).absent = true ∧ (s.page p).offset = offset) → s'.page p = s.page p
  waiting : ∀ t q, s'.waiting t = some q →
    s.waiting t = some q ∧ ¬ ((s.page q).absent = true ∧ (s.page q).offset = offset)

/-- There is nothing to answer. -/
theorem PageAnswered.refl (h : ObjectOk s)
    (hnone : ∀ p, (s.page p).absent = true → (s.page p).busy = true →
      (s.page p).offset ≠ offset) : PageAnswered s offset s := by
  refine ⟨h, SameCalls.refl s, fun _ _ _ => rfl, ?_⟩
  intro t q hq
  refine ⟨hq, ?_⟩
  rintro ⟨habsent, hoffset⟩
  exact hnone q habsent (h.waiting t q hq).2.1 hoffset

/-- The page at an offset is no absent busy one. -/
theorem ObjectOk.notAbsent (h : ObjectOk s) (htabled : (s.page p).tabled = true)
    (hoffset : (s.page p).offset = offset)
    (hnot : ¬ ((s.page p).busy = true ∧ (s.page p).absent = true)) (q : Page)
    (habsent : (s.page q).absent = true) (hbusy : (s.page q).busy = true) :
    (s.page q).offset ≠ offset := by
  intro heq
  have hqp := h.unique q p (h.absent q habsent) htabled (heq.trans hoffset.symm)
  subst hqp
  exact hnot ⟨hbusy, habsent⟩

section Error

variable [DecidableEq Page]

/-- An absent page gets an error, and is no longer busy. -/
theorem ObjectOk.setError (h : ObjectOk s) (htabled : (s.page p).tabled = true)
    (habsent : (s.page p).absent = true) (hplace : m.tabled = (s.page p).tabled ∧
      m.offset = (s.page p).offset ∧ m.free = (s.page p).free ∧
      m.fictitious = (s.page p).fictitious)
    (hm : m.absent = false) (hpage : s'.page = Function.update s.page p m)
    (hlists : s'.resident = s.resident ∧ s'.zone = s.zone)
    (hcount : s'.absentCount = s.absentCount - 1)
    (hwaiting : ∀ t q, s'.waiting t = some q → s.waiting t = some q ∧ q ≠ p) :
    ObjectOk s' := by
  obtain ⟨htabled', hoffset', hfree', hfict'⟩ := hplace
  apply h.update hpage
  · rw [hlists.1]
    exact h.resident.congr (by rw [htabled'])
  · intro _ q hqp hq heq
    exact hqp (h.unique q p hq htabled (heq.trans hoffset'))
  · rw [hlists.2]
    exact h.zone.congr (by rw [hfree', hfict'])
  · intro hfree
    exact absurd ((h.free p (hfree'.symm.trans hfree)).symm.trans htabled) Bool.false_ne_true
  · intro htrue
    exact absurd (hm.symm.trans htrue) Bool.false_ne_true
  · rw [hcount, weight_of (P := fun m : ObjectPage => m.absent = true) habsent,
      weight_of_not (P := fun m : ObjectPage => m.absent = true) (Bool.eq_false_iff.mp hm),
      add_zero]
  · intro t q hq
    obtain ⟨hold, hne⟩ := hwaiting t q hq
    exact ⟨fun _ => hold, fun heq => absurd heq hne⟩

/-- `memory_object_data_error` for one page. -/
theorem errorPage_answered (h : ObjectOk s) {errorValue : ℤ}
    (hdone : s.errorPage errorValue offset = some s') : PageAnswered s offset s' := by
  unfold errorPage at hdone
  rcases h.lookup offset with ⟨hnone, hmissing⟩ | ⟨p, hfound, htabled, hoffset⟩
  · rw [hnone] at hdone
    cases hdone
    exact .refl h fun p habsent _ => hmissing p (h.absent p habsent)
  · rw [hfound] at hdone
    dsimp only at hdone
    split at hdone
    next hasked =>
      obtain ⟨hbusy, habsent⟩ := hasked
      obtain ⟨m, hm, hplace, hclustered⟩ : ∃ m, (if errorValue = kernMemoryDataMoved then
          { s.page p with restart := true }
        else { s.page p with
          pageError := if errorValue > kernReturnMax then errorValue else kernMemoryError
          error := true }) = m ∧ (m.tabled = (s.page p).tabled ∧ m.offset = (s.page p).offset ∧
            m.free = (s.page p).free ∧ m.fictitious = (s.page p).fictitious) ∧
          m.clustered = (s.page p).clustered := by
        refine ⟨_, rfl, ?_⟩
        split
        · exact ⟨⟨rfl, rfl, rfl, rfl⟩, rfl⟩
        · exact ⟨⟨rfl, rfl, rfl, rfl⟩, rfl⟩
      rw [hm] at hdone
      generalize hs₁ : ({ s.setPage p { m with absent := false } with
        absentCount := s.absentCount - 1 } : PagedObject Page Thread) = s₁ at hdone
      have hpage₁ : s₁.page = update s.page p { m with absent := false } := by
        rw [← hs₁]
        rfl
      have hwoken := pageWakeupDone_woken s₁ p
      have hpage₂ : (s₁.pageWakeupDone p).page = update s.page p { m with
          absent := false
          busy := false
          wanted := false } := by
        rw [pageWakeupDone_page, hpage₁, update_self, update_idem]
      have hwaiting (t : Thread) (q : Page) (hq : (s₁.pageWakeupDone p).waiting t = some q) :
          s.waiting t = some q ∧ q ≠ p := by
        obtain ⟨hold, hwanted⟩ := hwoken.waiting t q hq
        rw [← hs₁] at hold
        refine ⟨hold, ?_⟩
        rintro rfl
        have hfalse := hwanted rfl
        have hwant := (h.waiting t q hold).2.2
        have hsame : m.wanted = (s.page q).wanted := by
          rw [← hm]
          split <;> rfl
        rw [hpage₁, update_self] at hfalse
        exact absurd (hfalse.symm.trans (hsame.trans hwant)) Bool.false_ne_true
      generalize hs₂ : s₁.pageWakeupDone p = s₂ at *
      have hsame₂ : SameCalls s s₂ := by
        refine ⟨hwoken.same.call.trans ?_, hwoken.same.readFreed.trans ?_,
          hwoken.same.pagingOffset.trans ?_⟩
        · rw [← hs₁]
          rfl
        · rw [← hs₁]
          rfl
        · rw [← hs₁]
          rfl
      have hlists : s₂.resident = s.resident ∧ s₂.zone = s.zone := by
        rw [hwoken.resident, hwoken.zone, ← hs₁]
        exact ⟨rfl, rfl⟩
      have hcount : s₂.absentCount = s.absentCount - 1 := by rw [hwoken.absentCount, ← hs₁]
      have hok₂ : ObjectOk s₂ :=
        h.setError (m := { m with
          absent := false
          busy := false
          wanted := false }) htabled habsent hplace rfl hpage₂ hlists hcount hwaiting
      have hanswered : PageAnswered s offset s₂ := by
        refine ⟨hok₂, hsame₂, ?_, ?_⟩
        · intro q _ hnot
          have hqp : q ≠ p := by
            rintro rfl
            exact hnot ⟨habsent, hoffset⟩
          rw [hpage₂, update_of_ne hqp]
        · intro t q hq
          obtain ⟨hold, hne⟩ := hwaiting t q hq
          refine ⟨hold, ?_⟩
          rintro ⟨habsent', hoffset'⟩
          exact hne (h.unique q p (h.absent q habsent') htabled (hoffset'.trans hoffset.symm))
      split at hdone
      · have hfree₂ : (s₂.page p).free = false := by
          rw [hpage₂, update_self]
          apply Bool.eq_false_iff.mpr
          intro hfree
          exact absurd ((h.free p (hplace.2.2.1.symm.trans hfree)).symm.trans htabled)
            Bool.false_ne_true
        obtain ⟨s₃, hs₃, hfreed⟩ := vmPageFree_freed s₂ hfree₂
        obtain rfl := Option.some.inj (hdone.symm.trans hs₃)
        refine ⟨hfreed.ok hok₂ hfree₂, hsame₂.trans hfreed.same, ?_, ?_⟩
        · intro q hfree hnot
          have hqp : q ≠ p := by
            rintro rfl
            exact hnot ⟨habsent, hoffset⟩
          rw [hfreed.page, update_of_ne hqp]
          exact hanswered.others q hfree hnot
        · intro t q hq
          exact hanswered.waiting t q (hfreed.waiting t q hq).1
      · cases hdone
        exact hanswered
    next hnot =>
      cases hdone
      exact .refl h (h.notAbsent htabled hoffset hnot)

end Error

section Unavailable

variable [DecidableEq Page]

/-- A page structure that was free enters the object as an absent page. -/
theorem ObjectOk.enter (h : ObjectOk s) {rest : List Page} (hzone : s.zone = p :: rest)
    (hmissing : ∀ q, (s.page q).tabled = true → (s.page q).offset ≠ offset)
    (hm : m.tabled = true ∧ m.offset = offset ∧ m.free = false ∧ m.absent = true)
    (hpage : s'.page = Function.update s.page p m)
    (hlists : s'.resident = p :: s.resident ∧ s'.zone = rest)
    (hcount : s'.absentCount = s.absentCount + 1)
    (hwaiting : ∀ t q, s'.waiting t = some q → s.waiting t = some q) : ObjectOk s' := by
  obtain ⟨htabled, hoffset, hfree, habsent⟩ := hm
  have hmem : p ∈ s.zone := by
    rw [hzone]
    exact mem_cons_self ..
  have hout := h.free p ((h.zone.mem p).mp hmem).1
  have hold : ¬ (s.page p).tabled = true := Bool.eq_false_iff.mp hout
  have hnotAbsent : ¬ (s.page p).absent = true := fun htrue => hold (h.absent p htrue)
  apply h.update hpage
  · rw [hlists.1]
    exact h.resident.cons hold htabled
  · intro _ q _ hq heq
    exact hmissing q hq (heq.trans hoffset)
  · have herase : rest = s.zone.erase p := by rw [hzone, erase_cons_head]
    rw [hlists.2, herase]
    exact h.zone.erase fun hin => Bool.false_ne_true (hfree.symm.trans hin.1)
  · intro htrue
    exact absurd (hfree.symm.trans htrue) Bool.false_ne_true
  · intro _
    exact htabled
  · rw [hcount, weight_of_not (P := fun m : ObjectPage => m.absent = true) hnotAbsent,
      weight_of (P := fun m : ObjectPage => m.absent = true) habsent, sub_zero]
  · intro t q hq
    refine ⟨fun _ => hwaiting t q hq, ?_⟩
    rintro rfl
    exact absurd (h.waiting t q (hwaiting t q hq)).1 hold

/-- `memory_object_data_unavailable` for one page. -/
theorem unavailablePage_answered (h : ObjectOk s) {absentMax : ℤ}
    (hdone : s.unavailablePage absentMax offset = some s') : PageAnswered s offset s' := by
  unfold unavailablePage at hdone
  rcases h.lookup offset with ⟨hnone, hmissing⟩ | ⟨p, hfound, htabled, hoffset⟩
  · have hrefl : PageAnswered s offset s :=
      .refl h fun p habsent _ => hmissing p (h.absent p habsent)
    rw [hnone] at hdone
    dsimp only at hdone
    by_cases hroom : s.absentCount < absentMax
    · rw [if_pos hroom] at hdone
      unfold vmPageGrabFictitious at hdone
      cases hzone : s.zone with
      | nil =>
        simp only [hzone] at hdone
        cases hdone
        exact hrefl
      | cons p rest =>
        simp only [hzone] at hdone
        obtain ⟨s₁, hinsert, hs'⟩ := bind_eq_some_iff.mp hdone
        cases hs'
        have hmem : p ∈ s.zone := by
          rw [hzone]
          exact mem_cons_self ..
        have hfree := ((h.zone.mem p).mp hmem).1
        have hold : (s.page p).tabled = false := h.free p hfree
        simp only [vmPageInsert, setPage, update_self, update_idem, hold,
          Bool.false_eq_true, if_false] at hinsert
        have hs₁ := Option.some.inj hinsert
        have hwoken := pageWakeupDone_woken s₁ p
        have hpage : (s₁.pageWakeupDone p).page = update s.page p { s.page p with
            free := false
            absent := true
            unusual := true
            clustered := false
            offset := offset
            tabled := true
            busy := false
            wanted := false } := by
          rw [pageWakeupDone_page, ← hs₁]
          simp only [update_self, update_idem]
        have hwaiting (t : Thread) (q : Page)
            (hq : (s₁.pageWakeupDone p).waiting t = some q) : s.waiting t = some q := by
          have hbefore := (hwoken.waiting t q hq).1
          rw [← hs₁] at hbefore
          exact hbefore
        refine ⟨?_, ?_, ?_, ?_⟩
        · apply h.enter hzone hmissing (m := { s.page p with
              free := false
              absent := true
              unusual := true
              clustered := false
              offset := offset
              tabled := true
              busy := false
              wanted := false }) ⟨rfl, rfl, rfl, rfl⟩ hpage _ _ hwaiting
          · rw [hwoken.resident, hwoken.zone, ← hs₁]
            exact ⟨rfl, rfl⟩
          · rw [hwoken.absentCount, ← hs₁]
        · refine ⟨hwoken.same.call.trans ?_, hwoken.same.readFreed.trans ?_,
            hwoken.same.pagingOffset.trans ?_⟩
          · rw [← hs₁]
          · rw [← hs₁]
          · rw [← hs₁]
        · intro q hq _
          have hqp : q ≠ p := by
            rintro rfl
            exact absurd (hq.symm.trans hfree) Bool.false_ne_true
          rw [hpage, update_of_ne hqp]
        · intro t q hq
          have hbefore := hwaiting t q hq
          refine ⟨hbefore, ?_⟩
          rintro ⟨habsent, hoffset⟩
          exact hmissing q (h.absent q habsent) hoffset
    · rw [if_neg hroom] at hdone
      cases hdone
      exact hrefl
  · rw [hfound] at hdone
    dsimp only at hdone
    split at hdone
    next hasked =>
      cases hdone
      obtain ⟨hbusy, habsent⟩ := hasked
      have hwoken := pageWakeupDone_woken (s.setPage p { s.page p with clustered := false }) p
      have hpage : ((s.setPage p { s.page p with clustered := false }).pageWakeupDone p).page =
          update s.page p { s.page p with
            clustered := false
            busy := false
            wanted := false } := by
        rw [pageWakeupDone_page]
        simp only [setPage, update_self, update_idem]
      have hwaiting (t : Thread) (q : Page) (hq : ((s.setPage p { s.page p with
          clustered := false }).pageWakeupDone p).waiting t = some q) :
          s.waiting t = some q ∧ q ≠ p := by
        obtain ⟨hold, hwanted⟩ := hwoken.waiting t q hq
        refine ⟨hold, ?_⟩
        rintro rfl
        have hfalse := hwanted rfl
        simp only [setPage, update_self] at hfalse
        exact absurd (hfalse.symm.trans (h.waiting t q hold).2.2) Bool.false_ne_true
      refine ⟨?_, ⟨hwoken.same.call, hwoken.same.readFreed, hwoken.same.pagingOffset⟩, ?_, ?_⟩
      · apply h.update hpage
        · rw [hwoken.resident]
          exact h.resident.congr Iff.rfl
        · intro _ q hqp hq heq
          exact hqp (h.unique q p hq htabled heq)
        · rw [hwoken.zone]
          exact h.zone.congr Iff.rfl
        · exact h.free p
        · exact h.absent p
        · rw [hwoken.absentCount]
          exact (sub_add_cancel _ _).symm
        · intro t q hq
          obtain ⟨hold, hne⟩ := hwaiting t q hq
          exact ⟨fun _ => hold, fun heq => absurd heq hne⟩
      · intro q _ hnot
        have hqp : q ≠ p := by
          rintro rfl
          exact hnot ⟨habsent, hoffset⟩
        rw [hpage, update_of_ne hqp]
      · intro t q hq
        obtain ⟨hold, hne⟩ := hwaiting t q hq
        refine ⟨hold, ?_⟩
        rintro ⟨habsent', hoffset'⟩
        exact hne (h.unique q p (h.absent q habsent') htabled (hoffset'.trans hoffset.symm))
    next hnot =>
      cases hdone
      exact .refl h (h.notAbsent htabled hoffset hnot)

end Unavailable

section Range

/-- The offset of a page of a range. -/
def pageAt (offset : BitVec 32) (k : ℕ) : BitVec 32 := offset + BitVec.ofNat 32 (k * pageSize)

theorem pageAt_succ (offset : BitVec 32) (k : ℕ) :
    pageAt (offset + BitVec.ofNat 32 pageSize) k = pageAt offset (k + 1) := by
  unfold pageAt
  rw [BitVec.add_assoc, ← BitVec.ofNat_add]
  congr 2
  ring

/-- An answer for a range: no page in use is changed, and nobody waits any more for an absent
page in the range. -/
structure RangeAnswered (s : PagedObject Page Thread) (offset : BitVec 32) (n : ℕ)
    (s' : PagedObject Page Thread) : Prop where
  ok : ObjectOk s'
  same : SameCalls s s'
  inUse : ∀ p, (s.page p).free = false → (s.page p).absent = false → s'.page p = s.page p
  waiting : ∀ t q, s'.waiting t = some q → s.waiting t = some q ∧
    ((s.page q).absent = true → ∀ k < n, (s.page q).offset ≠ pageAt offset k)

/-- Each page of the range is answered. -/
theorem eachPage_answered
    {f : PagedObject Page Thread → BitVec 32 → Option (PagedObject Page Thread)}
    (hf : ∀ s s' offset, ObjectOk s → f s offset = some s' → PageAnswered s offset s')
    (h : ObjectOk s) {n : ℕ} (hdone : eachPage f offset n s = some s') :
    RangeAnswered s offset n s' := by
  induction n generalizing s offset with
  | zero =>
    cases hdone
    refine ⟨h, SameCalls.refl _, fun _ _ _ => rfl, fun t q hq => ⟨hq, ?_⟩⟩
    intro _ k hk
    cases hk
  | succ n ih =>
    obtain ⟨s₁, hfirst, hrest⟩ := bind_eq_some_iff.mp hdone
    have hpage := hf s s₁ offset h hfirst
    have hrange := ih hpage.ok hrest
    refine ⟨hrange.ok, hpage.same.trans hrange.same, ?_, ?_⟩
    · intro p hfree habsent
      have hsame := hpage.others p hfree fun hboth =>
        Bool.false_ne_true (habsent.symm.trans hboth.1)
      rw [← hsame]
      exact hrange.inUse p (by rwa [hsame]) (by rwa [hsame])
    · intro t q hq
      obtain ⟨hmiddle, htail⟩ := hrange.waiting t q hq
      obtain ⟨hbefore, hhead⟩ := hpage.waiting t q hmiddle
      refine ⟨hbefore, ?_⟩
      intro habsent k hk
      have hfree : (s.page q).free = false := by
        apply Bool.eq_false_iff.mpr
        intro hfree
        exact absurd ((h.free q hfree).symm.trans (h.absent q habsent)) Bool.false_ne_true
      have hsame := hpage.others q hfree hhead
      rw [hsame] at htail
      cases k with
      | zero =>
        intro hoffset
        refine hhead ⟨habsent, hoffset.trans ?_⟩
        unfold pageAt
        rw [Nat.zero_mul]
        exact BitVec.add_zero offset
      | succ k =>
        rw [← pageAt_succ]
        exact htail habsent k (by omega)

end Range

end PagedObject

end MachVirtuTerm

/-!
# Data of a pager

The pages of the copies that `memory_object_data_supply` works on are inserted one after the
other; each belongs to one call until then.
-/

namespace MachVirtuTerm

variable {Page Thread : Type}

section Held

variable (c : SupplyCall Page)

/-- The pages of `data_copy` that are not inserted yet. -/
def SupplyCall.held : List Page :=
  match c.dataCopy with
  | none => []
  | some copy => copy.pageList.filterMap id

/-- They are on its list. -/
theorem SupplyCall.mem_held {c : SupplyCall Page} {p : Page} :
    p ∈ c.held ↔ ∃ copy ∈ c.dataCopy, some p ∈ copy.pageList := by
  unfold SupplyCall.held
  cases hcopy : c.dataCopy with
  | none => simp
  | some copy => simp

theorem filterMap_pages (n : ℕ) (pages : List Page) :
    (replicate n none ++ pages.map some).filterMap id = pages := by
  rw [filterMap_append, filterMap_replicate_of_none rfl, nil_append, filterMap_map]
  exact filterMap_some

theorem SupplyCall.held_of_list {c : SupplyCall Page} {copy : PageListCopy Page} {n : ℕ}
    {pages : List Page} (hcopy : c.dataCopy = some copy)
    (hlist : copy.pageList = replicate n none ++ pages.map some) : c.held = pages := by
  unfold SupplyCall.held
  rw [hcopy]
  dsimp only
  rw [hlist]
  exact filterMap_pages n pages

/-- `data_copy` is one of the copies. -/
theorem SupplyCall.dataCopy_congr {c c' : SupplyCall Page} (hother : c'.otherCopy = c.otherCopy)
    (horig : c'.origCopy = c.origCopy) : c'.dataCopy = c.dataCopy := by
  unfold SupplyCall.dataCopy
  rw [hother, horig]

theorem SupplyCall.held_congr {c c' : SupplyCall Page} (hother : c'.otherCopy = c.otherCopy)
    (horig : c'.origCopy = c.origCopy) : c'.held = c.held := by
  unfold SupplyCall.held
  rw [SupplyCall.dataCopy_congr hother horig]

theorem SupplyCall.dataCopy_setDataCopy (copy : PageListCopy Page) :
    (c.setDataCopy copy).dataCopy = some copy := by
  unfold SupplyCall.setDataCopy
  cases h : c.otherCopy with
  | none => rfl
  | some other => rfl

/-- Only the copies change. -/
theorem SupplyCall.setDataCopy_fields (copy : PageListCopy Page) :
    (c.setDataCopy copy).given = c.given ∧ (c.setDataCopy copy).inserted = c.inserted ∧
      (c.setDataCopy copy).next = c.next ∧ (c.setDataCopy copy).phase = c.phase ∧
      (c.setDataCopy copy).result = c.result ∧
      ((c.setDataCopy copy).otherCopy = none ↔ c.otherCopy = none) ∧
      (c.otherCopy ≠ none → (c.setDataCopy copy).origCopy = c.origCopy) := by
  unfold SupplyCall.setDataCopy
  cases h : c.otherCopy with
  | none => exact ⟨rfl, rfl, rfl, rfl, rfl, by simp, fun hne => absurd rfl hne⟩
  | some other => exact ⟨rfl, rfl, rfl, rfl, rfl, by simp, fun _ => rfl⟩

/-- The page that is next on a list. -/
theorem getElem?_pages {n : ℕ} {pages : List Page} {p : Page}
    (h : ((replicate n none ++ pages.map some)[n]?).join = some p) :
    ∃ rest, pages = p :: rest := by
  rw [getElem?_append_right (by simp)] at h
  simp only [length_replicate, Nat.sub_self] at h
  cases pages with
  | nil => cases h
  | cons q rest =>
    obtain rfl : q = p := by simpa using h
    exact ⟨rest, rfl⟩

/-- Its place becomes `VM_PAGE_NULL`. -/
theorem set_pages (n : ℕ) (p : Page) (rest : List Page) :
    (replicate n none ++ (p :: rest).map some).set n none =
      replicate (n + 1) none ++ rest.map some := by
  rw [set_append_right _ _ (by simp)]
  simp only [length_replicate, Nat.sub_self, map_cons, set_cons_zero]
  rw [replicate_succ', append_assoc]
  rfl

end Held

namespace PagedObject

variable {s s' : PagedObject Page Thread} {c c' : SupplyCall Page} {p q : Page}
  {m : ObjectPage} {t : Thread}

/-- The call knows where it is in its copies, and holds pages of its own. -/
structure CallOk (s : PagedObject Page Thread) (c : SupplyCall Page) : Prop where
  list : ∀ copy, c.dataCopy = some copy → copy.pageList =
    replicate c.next none ++ c.held.map some ∧ copy.npages = c.held.length
  nodup : c.held.Nodup
  held : ∀ p ∈ c.held, (s.page p).tabled = false ∧ (s.page p).free = false ∧
    (s.page p).absent = false
  given : (c.inserted ++ c.held).Perm c.given
  invoking : c.phase = .invoking → c.held = []
  orig : c.otherCopy ≠ none → c.origCopy.npages = 0

/-- Between two sections the object is in order, and calls have no pages in common. -/
structure Inv [Fintype Page] (s : PagedObject Page Thread) : Prop where
  object : ObjectOk s
  call : ∀ t c, s.call t = some c → CallOk s c
  apart : ∀ t t' c c', t ≠ t' → s.call t = some c → s.call t' = some c' →
    ∀ p ∈ c.held, p ∉ c'.held

/-- The pages that the call holds stay as they are. -/
theorem CallOk.congr (h : CallOk s c) (hheld : ∀ p ∈ c.held, s'.page p = s.page p) :
    CallOk s' c := by
  refine ⟨h.list, h.nodup, ?_, h.given, h.invoking, h.orig⟩
  intro p hp
  rw [hheld p hp]
  exact h.held p hp

/-- A call leaves its loop. -/
theorem CallOk.leave (h : CallOk s c) (hsame : c'.otherCopy = c.otherCopy ∧
    c'.origCopy = c.origCopy ∧ c'.next = c.next ∧ c'.inserted = c.inserted ∧
    c'.given = c.given) (hleft : c'.phase = .left) : CallOk s c' := by
  obtain ⟨hother, horig, hnext, hinserted, hgiven⟩ := hsame
  have hheld := SupplyCall.held_congr hother horig
  refine ⟨?_, ?_, ?_, ?_, ?_, ?_⟩
  · rw [SupplyCall.dataCopy_congr hother horig, hheld, hnext]
    exact h.list
  · rw [hheld]
    exact h.nodup
  · rw [hheld]
    exact h.held
  · rw [hinserted, hheld, hgiven]
    exact h.given
  · intro hinvoking
    cases hleft.symm.trans hinvoking
  · rw [hother, horig]
    exact h.orig

variable [Fintype Page]

/-- A step on the pages of the object that leaves those of the calls alone. -/
theorem Inv.congr (h : Inv s) (hok : ObjectOk s') (hsame : s'.call = s.call)
    (hpage : ∀ p, (s.page p).tabled = false → (s.page p).free = false →
      (s.page p).absent = false → s'.page p = s.page p) : Inv s' := by
  refine ⟨hok, ?_, ?_⟩
  · intro t c hc
    rw [hsame] at hc
    apply (h.call t c hc).congr
    intro p hp
    obtain ⟨htabled, hfree, habsent⟩ := (h.call t c hc).held p hp
    exact hpage p htabled hfree habsent
  · rw [hsame]
    exact h.apart

/-- The object is as it was when only a call goes on. -/
theorem ObjectOk.setCall [DecidableEq Thread] (h : ObjectOk s) (t : Thread)
    (c : Option (SupplyCall Page)) : ObjectOk (s.setCall t c) :=
  ⟨h.resident, h.unique, h.zone, h.free, h.absent, h.absentCount, h.waiting⟩

/-- A page of the pager is put where the object has none. -/
theorem ObjectOk.place [DecidableEq Page] (h : ObjectOk s) {offset : BitVec 32}
    (hmissing : ∀ q, (s.page q).tabled = true → (s.page q).offset ≠ offset)
    (hout : (s.page p).tabled = false) (hnotFree : (s.page p).free = false)
    (hnotAbsent : (s.page p).absent = false)
    (hm : m.tabled = true ∧ m.offset = offset ∧ m.free = false ∧ m.absent = false)
    (hpage : s'.page = Function.update s.page p m)
    (hlists : s'.resident = p :: s.resident ∧ s'.zone = s.zone)
    (hcount : s'.absentCount = s.absentCount) (hwaiting : s'.waiting = s.waiting) :
    ObjectOk s' := by
  obtain ⟨htabled, hoffset, hfree, habsent⟩ := hm
  have hold : ¬ (s.page p).tabled = true := Bool.eq_false_iff.mp hout
  apply h.update hpage
  · rw [hlists.1]
    exact h.resident.cons hold htabled
  · intro _ q _ hq heq
    exact hmissing q hq (heq.trans hoffset)
  · rw [hlists.2]
    apply h.zone.congr
    exact iff_of_false (fun hin => Bool.false_ne_true (hfree.symm.trans hin.1))
      fun hin => Bool.false_ne_true (hnotFree.symm.trans hin.1)
  · intro htrue
    exact absurd (hfree.symm.trans htrue) Bool.false_ne_true
  · intro _
    exact htabled
  · have hsame : m.absent = true ↔ (s.page p).absent = true := by rw [habsent, hnotAbsent]
    rw [hcount, weight_congr (P := fun m : ObjectPage => m.absent = true) hsame, sub_add_cancel]
  · intro t q hq
    rw [hwaiting] at hq
    refine ⟨fun _ => hq, ?_⟩
    rintro rfl
    exact absurd (h.waiting t q hq).1 hold

variable [DecidableEq Thread]

/-- A call goes on or ends, with pages that no other call has. -/
theorem Inv.setCall {s₁ : PagedObject Page Thread} {x : Option (SupplyCall Page)} (h : Inv s)
    (hok : ObjectOk s₁) (hsame : SameCalls s s₁)
    (hothers : ∀ t' c', t' ≠ t → s.call t' = some c' → ∀ q ∈ c'.held, s₁.page q = s.page q)
    (hx : ∀ c, x = some c → CallOk s₁ c ∧
      ∀ t' c', t' ≠ t → s.call t' = some c' → ∀ q ∈ c.held, q ∉ c'.held) :
    Inv (s₁.setCall t x) := by
  refine ⟨hok.setCall t _, ?_, ?_⟩
  · intro t' c' hc'
    simp only [PagedObject.setCall] at hc'
    by_cases ht : t' = t
    · subst ht
      rw [update_self] at hc'
      exact (hx c' hc').1.congr fun _ _ => rfl
    · rw [update_of_ne ht, hsame.call] at hc'
      exact (h.call t' c' hc').congr fun q hq => hothers t' c' ht hc' q hq
  · intro t₁ t₂ c₁ c₂ hne h₁ h₂
    simp only [PagedObject.setCall] at h₁ h₂
    by_cases ht₁ : t₁ = t
    · subst ht₁
      rw [update_self] at h₁
      rw [update_of_ne hne.symm, hsame.call] at h₂
      exact (hx c₁ h₁).2 t₂ c₂ hne.symm h₂
    · rw [update_of_ne ht₁, hsame.call] at h₁
      by_cases ht₂ : t₂ = t
      · subst ht₂
        rw [update_self] at h₂
        intro p hp hp'
        exact (hx c₂ h₂).2 t₁ c₁ ht₁ h₁ p hp' hp
      · rw [update_of_ne ht₂, hsame.call] at h₂
        exact h.apart t₁ t₂ c₁ c₂ hne h₁ h₂

/-- A call goes on with no more pages than it had. -/
theorem Inv.advance (h : Inv s) (hcall : s.call t = some c) (hc' : CallOk s c')
    (hsub : ∀ p ∈ c'.held, p ∈ c.held) : Inv (s.setCall t (some c')) := by
  apply h.setCall h.object (SameCalls.refl s) fun _ _ _ _ _ _ => rfl
  rintro c₁ ⟨⟩
  refine ⟨hc', ?_⟩
  intro t' c'' ht hc'' p hp hp'
  exact h.apart t' t c'' c ht hc'' hcall p hp' (hsub p hp)

section Insert

variable [DecidableEq Page]

/-- A page that was next is inserted, and the call goes on behind it. -/
theorem Inv.supplyInsert (h : Inv s) (hcall : s.call t = some c) {copy : PageListCopy Page}
    (hcopy : c.dataCopy = some copy) (hnext : (copy.pageList[c.next]?).join = some p)
    (hphase : c.phase = .looping) {wasClustered : Bool}
    (hmissing : ∀ q, (s.page q).tabled = true → (s.page q).offset ≠ c.offset)
    (hdone : s.supplyInsert t c copy p wasClustered = some s') :
    Inv s' ∧ (∀ q, (s.page q).tabled = true → s'.page q = s.page q) ∧
      s'.waiting = s.waiting ∧ s'.readFreed = s.readFreed := by
  have hok := h.call t c hcall
  obtain ⟨hlist, hnpages⟩ := hok.list copy hcopy
  rw [hlist] at hnext
  obtain ⟨rest, hheld⟩ := getElem?_pages hnext
  rw [hheld] at hlist hnpages
  have hmem : p ∈ c.held := by
    rw [hheld]
    exact mem_cons_self ..
  obtain ⟨hout, hfree, habsent⟩ := hok.held p hmem
  have hnodup := hok.nodup
  rw [hheld] at hnodup
  obtain ⟨hpRest, hrestNodup⟩ := nodup_cons.mp hnodup
  obtain ⟨s₁, hinsert, hgoes⟩ := bind_eq_some_iff.mp hdone
  have hs₁ : s₁ = { s.setPage p { suppliedPage c wasClustered (s.page p) with
      offset := c.offset
      tabled := true } with
    resident := p :: s.resident } := by
    unfold vmPageInsert at hinsert
    have hout' : (suppliedPage c wasClustered (s.page p)).tabled = false := hout
    simp only [PagedObject.setPage, update_self, update_idem, hout',
      Bool.false_eq_true, if_false] at hinsert
    exact (Option.some.inj hinsert).symm
  have hpage₁ : s₁.page = update s.page p { suppliedPage c wasClustered (s.page p) with
      offset := c.offset
      tabled := true } := by
    rw [hs₁]
    rfl
  have hok₁ : ObjectOk s₁ := by
    apply h.object.place (m := { suppliedPage c wasClustered (s.page p) with
      offset := c.offset
      tabled := true }) hmissing hout hfree habsent ⟨rfl, rfl, hfree, habsent⟩ hpage₁
    · rw [hs₁]
      exact ⟨rfl, rfl⟩
    · rw [hs₁]
      rfl
    · rw [hs₁]
      rfl
  dsimp only at hgoes
  obtain ⟨hgiven, -, -, hphase₁, -, hother, horig⟩ := c.setDataCopy_fields { copy with
    pageList := copy.pageList.set c.next none
    npages := copy.npages - 1 }
  have hdata := c.dataCopy_setDataCopy { copy with
    pageList := copy.pageList.set c.next none
    npages := copy.npages - 1 }
  generalize hc₁ : c.setDataCopy { copy with
    pageList := copy.pageList.set c.next none
    npages := copy.npages - 1 } = c₁ at hgiven hphase₁ hother horig hdata hgoes
  have hlist' : copy.pageList.set c.next none = replicate (c.next + 1) none ++ rest.map some := by
    rw [hlist]
    exact set_pages c.next p rest
  have hheld₁ : c₁.held = rest := SupplyCall.held_of_list hdata hlist'
  -- the call as it is behind the page, in the loop or in the continuation
  have hbehind (c' : SupplyCall Page) (hsame : c'.next = c.next + 1 ∧
      c'.inserted = c.inserted ++ [p] ∧ c'.given = c.given ∧ c'.otherCopy = c₁.otherCopy ∧
      c'.origCopy = c₁.origCopy)
      (hinvoking : c'.phase = .invoking → rest = []) : CallOk s₁ c' ∧ c'.held = rest := by
    obtain ⟨hnext', hinserted', hgiven', hother', horig'⟩ := hsame
    have hdata' := SupplyCall.dataCopy_congr hother' horig'
    have hheld' : c'.held = rest := by
      unfold SupplyCall.held
      rw [hdata']
      exact hheld₁
    refine ⟨⟨?_, ?_, ?_, ?_, ?_, ?_⟩, hheld'⟩
    · intro copy' hcopy'
      rw [hdata', hdata] at hcopy'
      cases hcopy'
      rw [hheld', hnext']
      refine ⟨hlist', ?_⟩
      simp [hnpages]
    · rw [hheld']
      exact hrestNodup
    · rw [hheld']
      intro q hq
      have hqp : q ≠ p := fun heq => hpRest (heq ▸ hq)
      rw [hpage₁, update_of_ne hqp]
      apply hok.held
      rw [hheld]
      exact mem_cons_of_mem _ hq
    · rw [hinserted', hheld', hgiven', append_assoc]
      have hperm := hok.given
      rw [hheld] at hperm
      exact hperm
    · intro hinv
      rw [hheld']
      exact hinvoking hinv
    · intro hne
      rw [horig', horig (fun hnone => hne (hother'.trans (hother.mpr hnone)))]
      exact hok.orig fun hnone => hne (hother'.trans (hother.mpr hnone))
  have hsame₁ : SameCalls s s₁ := by
    rw [hs₁]
    exact ⟨rfl, rfl, rfl⟩
  have hwaiting₁ : s₁.waiting = s.waiting := by
    rw [hs₁]
    rfl
  have hinv₁ (c' : SupplyCall Page) (hc' : CallOk s₁ c' ∧ c'.held = rest) :
      Inv (s₁.setCall t (some c')) := by
    apply h.setCall hok₁ hsame₁
    · intro t' c'' ht hc'' q hq
      have hqp : q ≠ p := by
        rintro rfl
        exact h.apart t' t c'' c ht hc'' hcall q hq hmem
      rw [hpage₁, update_of_ne hqp]
    · rintro c'' ⟨⟩
      refine ⟨hc'.1, ?_⟩
      intro t' c'' ht hc'' q hq hq'
      rw [hc'.2] at hq
      refine h.apart t' t c'' c ht hc'' hcall q hq' ?_
      rw [hheld]
      exact mem_cons_of_mem _ hq
  have hinUse (q : Page) (hq : (s.page q).tabled = true) : s₁.page q = s.page q := by
    have hqp : q ≠ p := by
      rintro rfl
      exact absurd (hout.symm.trans hq) Bool.false_ne_true
    rw [hpage₁, update_of_ne hqp]
  split at hgoes
  next hlast =>
    cases hgoes
    refine ⟨hinv₁ _ (hbehind _ ⟨rfl, rfl, hgiven, rfl, rfl⟩ ?_), hinUse, hwaiting₁,
      hsame₁.readFreed⟩
    intro _
    have hzero := hlast.1
    rw [hnpages] at hzero
    simpa using hzero
  next =>
    cases hgoes
    refine ⟨hinv₁ _ (hbehind _ ⟨rfl, rfl, hgiven, rfl, rfl⟩ ?_), hinUse, hwaiting₁,
      hsame₁.readFreed⟩
    intro hinv
    have hfalse := hphase.symm.trans (hphase₁.symm.trans hinv)
    cases hfalse

end Insert

end PagedObject

end MachVirtuTerm
