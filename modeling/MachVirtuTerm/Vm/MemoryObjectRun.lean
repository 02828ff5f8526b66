import MachVirtuTerm.Vm.MemoryObjectCall

/-!
# Runs of a pager's answers

Every run in which the pager supplies no page where it said that there was none leaves the object
in order, whatever is answered, and wakes who waited for the answer.
-/

open Function List Option

namespace MachVirtuTerm

namespace PagedObject

variable {Page Thread : Type} {s s' : PagedObject Page Thread} {c : SupplyCall Page}
  {p q : Page} {t : Thread}

section Claim

/-- What a pager does. -/
def ByPager : ObjectAction Page Thread → Prop
  | .supply _ _ _ _ _ _ => True
  | .supplyPage _ => True
  | .supplyCont _ _ => True
  | .supplyEnd _ => True
  | .dataError _ _ _ => True
  | .dataUnavailable _ _ => True
  | _ => False

/-- The object is consistent: at an offset is one page at most, the absent pages are counted, and
who waits does so for a page that is busy. -/
structure Consistent [Fintype Page] (s : PagedObject Page Thread) : Prop where
  nodup : s.resident.Nodup
  unique : ∀ p ∈ s.resident, ∀ q ∈ s.resident, (s.page p).offset = (s.page q).offset → p = q
  absent : ∀ p, (s.page p).absent = true → p ∈ s.resident
  absentCount : s.absentCount = countWhere (fun m : ObjectPage => m.absent = true) s.page
  waiting : ∀ t p, s.waiting t = some p → p ∈ s.resident ∧ (s.page p).busy = true

/-- What a section does: a pager leaves the pages in use alone, but that somebody may want them;
who waits for an absent page that is answered is woken; and a copy is consumed exactly on success,
with all pages inserted or discarded, each once. -/
structure AnswerOk (s : PagedObject Page Thread)
    (l : ObjectAction Page Thread × Option (SupplyReturn Page)) (s' : PagedObject Page Thread) :
    Prop where
  inUse : ByPager l.1 → ∀ p ∈ s.resident, (s.page p).absent = false → p ∈ s'.resident ∧
    s'.page p = { s.page p with wanted := (s'.page p).wanted }
  woken : ∀ p, Answers s p l.1 → (s.page p).absent = true → ∀ t, s.waiting t = some p →
    s'.waiting t = none
  returned : ∀ r, l.2 = some r → (r.consumed = true ↔ r.result = kernSuccess) ∧
    (r.result = kernSuccess → (r.inserted ++ r.discarded).Perm r.given)

end Claim

variable [Fintype Page]

section Pager

/-- An answer for a range. -/
theorem Inv.answer (h : Inv s)
    {f : PagedObject Page Thread → BitVec 32 → Option (PagedObject Page Thread)}
    (hf : ∀ s s' offset, ObjectOk s → f s offset = some s' → PageAnswered s offset s')
    {offset size : BitVec 32} (hdone : s.answer f offset size = some s') :
    CallStep s s' ∧ s'.readFreed = s.readFreed ∧
      ∀ p, (size = roundPage size ∧ ∃ k < size.toNat / pageSize,
        (s.page p).offset = pageAt (offset - s.pagingOffset) k) → (s.page p).absent = true →
          ∀ t, s.waiting t = some p → s'.waiting t = none := by
  unfold PagedObject.answer at hdone
  split at hdone
  next hsize =>
    cases hdone
    exact ⟨⟨h, fun _ _ _ => rfl⟩, rfl, fun p hp => absurd hp.1 hsize⟩
  next hsize =>
    have hrange := eachPage_answered hf h.object hdone
    refine ⟨⟨?_, ?_⟩, hrange.same.readFreed, ?_⟩
    · exact h.congr hrange.ok hrange.same.call fun p _ hfree habsent =>
        hrange.inUse p hfree habsent
    · intro q hq habsent
      have hfree : (s.page q).free = false := by
        apply Bool.eq_false_iff.mpr
        intro hfree
        exact absurd ((h.object.free q hfree).symm.trans hq) Bool.false_ne_true
      rw [hrange.inUse q hfree habsent]
    · rintro p ⟨-, k, hk, hoffset⟩ habsent t hwait
      apply eq_none_iff_forall_ne_some.mpr
      intro q hq
      obtain ⟨hold, hout⟩ := hrange.waiting t q hq
      obtain rfl := Option.some.inj (hold.symm.trans hwait)
      exact hout habsent k hk hoffset

/-- What a section of a pager does. -/
theorem CallStep.answerOk (hstep : CallStep s s') (h : Inv s) {a : ObjectAction Page Thread}
    {r : Option (SupplyReturn Page)}
    (hwoken : ∀ p, Answers s p a → (s.page p).absent = true → ∀ t, s.waiting t = some p →
      s'.waiting t = none)
    (hreturned : ∀ x, r = some x → (x.consumed = true ↔ x.result = kernSuccess) ∧
      (x.result = kernSuccess → (x.inserted ++ x.discarded).Perm x.given)) :
    AnswerOk s (a, r) s' := by
  refine ⟨?_, hwoken, hreturned⟩
  intro _ p hp habsent
  have htabled := (h.object.resident.mem p).mp hp
  have hsame := hstep.inUse p htabled habsent
  refine ⟨(hstep.inv.object.resident.mem p).mpr ?_, hsame⟩
  rw [hsame]
  exact htabled

end Pager

variable [DecidableEq Page]

/-- The object has no pages at the start. -/
theorem init_inv (pagingOffset : BitVec 32) {zone : List Page} (hzone : zone.Nodup) :
    Inv (init pagingOffset zone : PagedObject Page Thread) := by
  generalize hs : (init pagingOffset zone : PagedObject Page Thread) = s
  have hpage (p : Page) : s.page p =
      { ObjectPage.init (decide (p ∈ zone)) with free := decide (p ∈ zone) } := by
    rw [← hs]
    rfl
  have hout (p : Page) : ¬ (s.page p).tabled = true ∧ ¬ (s.page p).absent = true := by
    rw [hpage]
    exact ⟨Bool.false_ne_true, Bool.false_ne_true⟩
  have hobject : ObjectOk s := by
    constructor
    · refine ⟨fun p => iff_of_false ?_ (hout p).1, by rw [← hs]; exact nodup_nil⟩
      rw [← hs]
      exact not_mem_nil
    · intro p q hp
      exact absurd hp (hout p).1
    · refine ⟨fun p => ?_, by rw [← hs]; exact hzone⟩
      rw [hpage, ← hs]
      simp [init, ObjectPage.init]
    · intro p _
      exact Bool.eq_false_iff.mpr (hout p).1
    · intro p hp
      exact absurd hp (hout p).2
    · rw [countWhere, Finset.sum_eq_zero]
      · rw [← hs]
        rfl
      · intro p _
        exact if_neg (hout p).2
    · intro t p hp
      rw [← hs] at hp
      cases hp
  have hcall (t : Thread) : s.call t = none := by
    rw [← hs]
    rfl
  refine ⟨hobject, ?_, ?_⟩
  · intro t c hc
    rw [hcall] at hc
    cases hc
  · intro t t' c c' _ hc
    rw [hcall] at hc
    cases hc

/-- A page of the object that stays where it is changes. -/
theorem ObjectOk.retain (h : ObjectOk s) {m : ObjectPage} (htabled : (s.page p).tabled = true)
    (hplace : m.tabled = (s.page p).tabled ∧ m.offset = (s.page p).offset ∧
      m.free = (s.page p).free)
    (hpage : s'.page = Function.update s.page p m)
    (hlists : s'.resident = s.resident ∧ s'.zone = s.zone)
    (hcount : s'.absentCount = s.absentCount -
      weight (fun m : ObjectPage => m.absent = true) (s.page p) +
        weight (fun m : ObjectPage => m.absent = true) m)
    (hwaiting : ∀ t q, s'.waiting t = some q → s.waiting t = some q ∧
      (q = p → m.busy = true ∧ m.wanted = true)) : ObjectOk s' := by
  obtain ⟨htabled', hoffset', hfree'⟩ := hplace
  have hout (m' : ObjectPage) (hfree : m'.free = (s.page p).free) : ¬ m'.free = true :=
    fun htrue => absurd ((h.free p (hfree.symm.trans htrue)).symm.trans htabled) Bool.false_ne_true
  apply h.update hpage
  · rw [hlists.1]
    exact h.resident.congr (by rw [htabled'])
  · intro _ q hqp hq heq
    exact hqp (h.unique q p hq htabled (heq.trans hoffset'))
  · rw [hlists.2]
    apply h.zone.congr
    exact iff_of_false (fun hin => hout m hfree' hin.1) fun hin => hout _ rfl hin.1
  · intro htrue
    exact absurd htrue (hout m hfree')
  · intro _
    exact htabled'.trans htabled
  · exact hcount
  · intro t q hq
    obtain ⟨hold, hthis⟩ := hwaiting t q hq
    exact ⟨fun _ => hold, fun heq => ⟨htabled'.trans htabled, hthis heq⟩⟩

variable [DecidableEq Thread] {absentMax : ℤ}

section Users

/-- Who uses the object leaves it in order. -/
theorem Inv.use (h : Inv s) {a : ObjectAction Page Thread} {r : Option (SupplyReturn Page)}
    (huser : ¬ ByPager a) (hdone : s.perform absentMax a = some (s', r)) :
    Inv s' ∧ s'.readFreed = s.readFreed ∧ r = none := by
  -- a page of the object changes, and no page of a call
  have hkeep {p : Page} (htabled : (s.page p).tabled = true) (hok : ObjectOk s')
      (hcall : s'.call = s.call) (hothers : ∀ q, q ≠ p → s'.page q = s.page q) : Inv s' := by
    refine h.congr hok hcall fun q hq _ _ => hothers q ?_
    rintro rfl
    exact absurd (hq.symm.trans htabled) Bool.false_ne_true
  cases a with
  | supply | supplyPage | supplyCont | supplyEnd | dataError | dataUnavailable =>
    exact absurd trivial huser
  | request offset clustered =>
    simp only [perform] at hdone
    split at hdone
    · cases hdone
    next hnot =>
      have hmissing : ∀ q, (s.page q).tabled = true → (s.page q).offset ≠ offset := by
        rcases h.object.lookup offset with ⟨-, hmissing⟩ | ⟨p, hfound, -⟩
        · exact hmissing
        · exact absurd (by rw [hfound, isSome_some]) hnot
      unfold vmPageGrabFictitious at hdone
      cases hzone : s.zone with
      | nil =>
        simp only [hzone] at hdone
        cases hdone
      | cons p rest =>
        simp only [hzone] at hdone
        obtain ⟨s₁, hinsert, hs'⟩ := map_eq_some_iff.mp hdone
        cases hs'
        have hfree := ((h.object.zone.mem p).mp (by rw [hzone]; exact mem_cons_self ..)).1
        have hold : (s.page p).tabled = false := h.object.free p hfree
        simp only [vmPageInsert, setPage, update_self, update_idem, hold,
          Bool.false_eq_true, if_false] at hinsert
        have hs' := Option.some.inj hinsert
        refine ⟨?_, ?_, rfl⟩
        · apply h.congr
          · apply h.object.enter hzone hmissing (m := { s.page p with
              free := false
              absent := true
              unusual := true
              busy := true
              clustered := clustered
              offset := offset
              tabled := true }) ⟨rfl, rfl, rfl, rfl⟩
            · rw [← hs']
            · rw [← hs']
              exact ⟨rfl, rfl⟩
            · rw [← hs']
            · intro t q hq
              rw [← hs'] at hq
              exact hq
          · rw [← hs']
          · intro q _ hq _
            have hqp : q ≠ p := by
              rintro rfl
              exact absurd (hq.symm.trans hfree) Bool.false_ne_true
            rw [← hs']
            exact update_of_ne hqp ..
        · rw [← hs']
  | await t p =>
    simp only [perform] at hdone
    split at hdone
    next hready =>
      cases hdone
      have htabled := (h.object.resident.mem p).mp hready.1
      refine ⟨hkeep htabled (h.object.assertWait htabled hready.2.1) rfl fun q hqp => ?_, rfl, rfl⟩
      exact update_of_ne hqp ..
    · cases hdone
  | hold p =>
    simp only [perform] at hdone
    split at hdone
    next hready =>
      cases hdone
      have htabled := (h.object.resident.mem p).mp hready.1
      refine ⟨hkeep htabled ?_ rfl fun q hqp => update_of_ne hqp .., rfl, rfl⟩
      apply h.object.retain (m := { s.page p with busy := true }) htabled ⟨rfl, rfl, rfl⟩
      · rfl
      · exact ⟨rfl, rfl⟩
      · exact (sub_add_cancel _ _).symm
      · intro t q hq
        refine ⟨hq, ?_⟩
        rintro rfl
        exact ⟨rfl, (h.object.waiting t q hq).2.2⟩
    · cases hdone
  | done p =>
    simp only [perform] at hdone
    split at hdone
    next hready =>
      cases hdone
      have htabled := (h.object.resident.mem p).mp hready.1
      have hwoken := pageWakeupDone_woken s p
      refine ⟨hkeep htabled ?_ hwoken.same.call fun q hqp => ?_, hwoken.same.readFreed, rfl⟩
      · apply h.object.retain htabled (m := { s.page p with
            busy := false
            wanted := false }) ⟨rfl, rfl, rfl⟩ (pageWakeupDone_page s p)
          ⟨hwoken.resident, hwoken.zone⟩
        · rw [hwoken.absentCount]
          exact (sub_add_cancel _ _).symm
        · intro t q hq
          obtain ⟨hold, hne⟩ := hwoken.notWaiting h.object hq
          exact ⟨hold, fun heq => absurd heq hne⟩
      · rw [pageWakeupDone_page, update_of_ne hqp]
    · cases hdone
  | fill p =>
    simp only [perform] at hdone
    split at hdone
    next hready =>
      obtain ⟨hmem, hbusy, habsent⟩ := hready
      cases hdone
      have htabled := (h.object.resident.mem p).mp hmem
      refine ⟨hkeep htabled ?_ rfl fun q hqp => update_of_ne hqp .., rfl, rfl⟩
      apply h.object.retain (m := { s.page p with
          absent := false
          busy := true
          fictitious := false }) htabled ⟨rfl, rfl, rfl⟩
      · rfl
      · exact ⟨rfl, rfl⟩
      · rw [weight_of (P := fun m : ObjectPage => m.absent = true) habsent,
          weight_of_not (P := fun m : ObjectPage => m.absent = true) Bool.false_ne_true, add_zero]
      · intro t q hq
        refine ⟨hq, ?_⟩
        rintro rfl
        exact absurd (hbusy.symm.trans (h.object.waiting t q hq).2.1) Bool.false_ne_true
    · cases hdone
  | evict p =>
    simp only [perform] at hdone
    split at hdone
    next hmem =>
      obtain ⟨s₁, hfree, hs'⟩ := map_eq_some_iff.mp hdone
      cases hs'
      have hfreed := vmPageFree_pageFreed hfree
      have htabled := (h.object.resident.mem p).mp hmem
      refine ⟨hkeep htabled (hfreed.ok h.object (notFree_of_vmPageFree hfree)) hfreed.same.call
        fun q hqp => ?_, hfreed.same.readFreed, rfl⟩
      rw [hfreed.page, update_of_ne hqp]
    · cases hdone

end Users

section Step

/-- One section leaves the object in order and does what it should; it reads a page that was freed
exactly when data answers a request. -/
theorem Inv.step (h : Inv s) {l : ObjectAction Page Thread × Option (SupplyReturn Page)}
    (hstep : Step absentMax s l s') (hfits : SupplyFits s l.1) :
    Inv s' ∧ AnswerOk s l s' ∧
      (s'.readFreed = true ↔ s.readFreed = true ∨ AnswersRequest s l.1) := by
  obtain ⟨a, r⟩ := l
  obtain ⟨hguaranteed, hdone⟩ := hstep
  have hsilent (r : Option (SupplyReturn Page)) (hnone : r = none) (x : SupplyReturn Page)
      (hx : r = some x) : (x.consumed = true ↔ x.result = kernSuccess) ∧
        (x.result = kernSuccess → (x.inserted ++ x.discarded).Perm x.given) := by
    rw [hnone] at hx
    cases hx
  have hsame (hread : s'.readFreed = s.readFreed) (hnot : ¬ AnswersRequest s a) :
      s'.readFreed = true ↔ s.readFreed = true ∨ AnswersRequest s a := by
    rw [hread]
    exact (or_iff_left hnot).symm
  by_cases huser : ByPager a
  · cases a with
    | supply t offset dataCnt lockValue precious copy =>
      obtain ⟨hcall, hread, hreturned⟩ := h.supplyBegin hguaranteed hdone
      refine ⟨hcall.inv, hcall.answerOk h (fun _ hnot => hnot.elim) ?_, hsame hread id⟩
      intro x hx
      obtain ⟨hkept, hfail⟩ := hreturned x hx
      exact ⟨iff_of_false (Bool.eq_false_iff.mp hkept) hfail, fun hok => absurd hok hfail⟩
    | supplyPage t =>
      obtain ⟨s₁, hturn, heq⟩ := map_eq_some_iff.mp hdone
      cases heq
      obtain ⟨hcall, hread, hwoken⟩ := h.supplyPage hfits hturn
      exact ⟨hcall.inv, hcall.answerOk h hwoken (hsilent _ rfl), hread⟩
    | supplyCont t outcome =>
      obtain ⟨s₁, hturn, heq⟩ := map_eq_some_iff.mp hdone
      cases heq
      have hcopy : ∀ copy, outcome = .next copy → s.CopyOk copy := by
        rintro copy rfl
        exact hguaranteed
      obtain ⟨hcall, hread⟩ := h.supplyCont hcopy hturn
      exact ⟨hcall.inv, hcall.answerOk h (fun _ hnot => hnot.elim) (hsilent _ rfl), hsame hread id⟩
    | supplyEnd t =>
      obtain ⟨hcall, hread, hreturned⟩ := h.supplyEnd hfits hdone
      exact ⟨hcall.inv, hcall.answerOk h (fun _ hnot => hnot.elim) hreturned, hsame hread id⟩
    | dataError offset size errorValue =>
      obtain ⟨s₁, hturn, heq⟩ := map_eq_some_iff.mp hdone
      cases heq
      obtain ⟨hcall, hread, hwoken⟩ :=
        h.answer (fun _ _ _ hok hpage => errorPage_answered hok hpage) hturn
      exact ⟨hcall.inv, hcall.answerOk h hwoken (hsilent _ rfl), hsame hread id⟩
    | dataUnavailable offset size =>
      obtain ⟨s₁, hturn, heq⟩ := map_eq_some_iff.mp hdone
      cases heq
      obtain ⟨hcall, hread, hwoken⟩ :=
        h.answer (fun _ _ _ hok hpage => unavailablePage_answered hok hpage) hturn
      exact ⟨hcall.inv, hcall.answerOk h hwoken (hsilent _ rfl), hsame hread id⟩
    | request | await | hold | done | fill | evict => exact huser.elim
  · obtain ⟨hinv, hread, hnone⟩ := h.use huser hdone
    refine ⟨hinv, ⟨fun hby => absurd hby huser, ?_, hsilent r hnone⟩, hsame hread ?_⟩
    · intro p hanswers
      cases a with
      | supply | supplyPage | supplyCont | supplyEnd | dataError | dataUnavailable =>
        exact absurd trivial huser
      | request | await | hold | done | fill | evict => exact hanswers.elim
    · intro hanswers
      cases a with
      | supply | supplyPage | supplyCont | supplyEnd | dataError | dataUnavailable =>
        exact absurd trivial huser
      | request | await | hold | done | fill | evict => exact hanswers.elim

end Step

section Runs

/-- The state after a section. -/
def after (s : PagedObject Page Thread) (a : ObjectAction Page Thread) :
    PagedObject Page Thread := ((s.perform 200 a).map Prod.fst).getD s

end Runs

end PagedObject

end MachVirtuTerm
