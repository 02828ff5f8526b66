import MachVirtuTerm.Vm.MemoryObjectSupply

/-!
# The sections of `memory_object_data_supply`

A call takes the pages of its copies over, puts them into the object and discards what is left at
its end; pages in use are not touched.
-/

open List Function

namespace MachVirtuTerm

open SupplyCall Option

namespace PagedObject

variable {Page Thread : Type} {s s' : PagedObject Page Thread}
  {c : SupplyCall Page} {p q : Page} {t : Thread}

section Sections

section

variable (s : PagedObject Page Thread)

/-- A `memory_object_data_supply` that finds no page answered as unavailable, which is absent and
not busy, and that on success has used a copy up, or not at all. -/
def SupplyFits : ObjectAction Page Thread → Prop
  | .supplyPage t => ∀ c, s.call t = some c → c.phase = .looping → c.dataCnt ≠ 0 →
    ∀ p, s.vmPageLookup c.offset = some p → (s.page p).absent = true → (s.page p).busy = true
  | .supplyEnd t => ∀ c, s.call t = some c → c.result = kernSuccess →
    ∀ copy, c.dataCopy = some copy → c.next = 0 ∨ copy.npages = 0
  | _ => True

/-- A `memory_object_data_supply` that answers a request: it finds a page absent and busy. -/
def AnswersRequest : ObjectAction Page Thread → Prop
  | .supplyPage t => ∃ c, s.call t = some c ∧ c.phase = .looping ∧ c.dataCnt ≠ 0 ∧
    ∃ p, s.vmPageLookup c.offset = some p ∧ (s.page p).absent = true ∧ (s.page p).busy = true
  | _ => False

/-- The pages that a section answers. -/
def Answers (p : Page) : ObjectAction Page Thread → Prop
  | .supplyPage t => ∃ c, s.call t = some c ∧ c.phase = .looping ∧ c.dataCnt ≠ 0 ∧
    s.vmPageLookup c.offset = some p
  | .dataError offset size _ => size = roundPage size ∧
    ∃ k < size.toNat / pageSize, (s.page p).offset = pageAt (offset - s.pagingOffset) k
  | .dataUnavailable offset size => size = roundPage size ∧
    ∃ k < size.toNat / pageSize, (s.page p).offset = pageAt (offset - s.pagingOffset) k
  | _ => False

end

/-- A section of a call: pages in use stay as they are, but that somebody may want them. -/
structure CallStep [Fintype Page] (s s' : PagedObject Page Thread) : Prop where
  inv : Inv s'
  inUse : ∀ q, (s.page q).tabled = true → (s.page q).absent = false →
    s'.page q = { s.page q with wanted := (s'.page q).wanted }

/-- The pages that a call holds are freed with its copy. -/
structure HeldFreed [Fintype Page] (s : PagedObject Page Thread) (c : SupplyCall Page) (freed : List Page)
    (s' : PagedObject Page Thread) : Prop where
  ok : ObjectOk s'
  same : SameCalls s s'
  others : ∀ q, q ∉ c.held → s'.page q = s.page q
  inUse : ∀ q, (s.page q).tabled = true → s'.page q = s.page q
  freed : c.next = 0 ∨ c.held = [] → freed.Perm c.held

theorem HeldFreed.refl [Fintype Page] (h : ObjectOk s) (hheld : c.held = []) : HeldFreed s c [] s := by
  refine ⟨h, SameCalls.refl s, fun _ _ => rfl, fun _ _ => rfl, ?_⟩
  intro _
  rw [hheld]

end Sections

section Begin

variable [Fintype Page] [DecidableEq Thread]

/-- A call begins with the pages of a copy that nobody else has, or refuses it. -/
theorem Inv.supplyBegin (h : Inv s) {offset dataCnt lockValue : BitVec 32} {precious : Bool}
    {copy : PageListCopy Page} (hcopy : s.CopyOk copy) {r : Option (SupplyReturn Page)}
    (hdone : s.supply t offset dataCnt lockValue precious copy = some (s', r)) :
    CallStep s s' ∧ s'.readFreed = s.readFreed ∧
      ∀ x, r = some x → x.consumed = false ∧ x.result ≠ kernSuccess := by
  unfold supply at hdone
  split at hdone
  · cases hdone
  · split at hdone
    · cases hdone
      refine ⟨⟨h, fun _ _ _ => rfl⟩, rfl, ?_⟩
      rintro x ⟨⟩
      exact ⟨rfl, show kernInvalidArgument ≠ kernSuccess by decide⟩
    · cases hdone
      refine ⟨⟨?_, fun _ _ _ => rfl⟩, rfl, fun x hx => by cases hx⟩
      obtain ⟨pages, hlist, hnpages, hnodup, hpages⟩ := hcopy
      apply h.setCall h.object (SameCalls.refl s) fun _ _ _ _ _ _ => rfl
      intro c hx
      obtain ⟨hdata, hnext, hother, hinserted, hgiven, hphase⟩ : c.dataCopy = some copy ∧
          c.next = 0 ∧ c.otherCopy = none ∧ c.inserted = [] ∧
          c.given = copy.pageList.filterMap id ∧ c.phase = .looping := by
        rw [← some.inj hx]
        exact ⟨rfl, rfl, rfl, rfl, rfl, rfl⟩
      have hheld : c.held = pages := held_of_list (n := 0) hdata hlist
      refine ⟨⟨?_, ?_, ?_, ?_, ?_, ?_⟩, ?_⟩
      · intro copy' hcopy'
        obtain rfl := some.inj (hdata.symm.trans hcopy')
        rw [hheld, hnext]
        exact ⟨hlist, hnpages⟩
      · rw [hheld]
        exact hnodup
      · rw [hheld]
        intro p hp
        obtain ⟨hout, hfree, -, habsent, -⟩ := hpages p hp
        exact ⟨hout, hfree, habsent⟩
      · rw [hinserted, hgiven, hheld, hlist, filterMap_map]
        exact (List.Perm.refl pages).trans (List.Perm.of_eq filterMap_some.symm)
      · intro hinvoking
        cases hphase.symm.trans hinvoking
      · intro hne
        exact absurd hother hne
      · rw [hheld]
        intro t' c' _ hc' q hq hq'
        obtain ⟨copy', hcopy', hmem⟩ := mem_held.mp hq'
        exact (hpages q hq).2.2.2.2.2.2 t' c' hc' copy' hcopy' hmem

end Begin

section Continue

variable [Fintype Page] [DecidableEq Thread]

/-- A continuation that returned gives the pages of another copy, or no more. -/
theorem Inv.supplyCont (h : Inv s) {outcome : ContResult Page}
    (hcopy : ∀ copy, outcome = .next copy → s.CopyOk copy)
    (hdone : s.supplyCont t outcome = some s') :
    CallStep s s' ∧ s'.readFreed = s.readFreed := by
  unfold PagedObject.supplyCont at hdone
  obtain ⟨c, hcall, hdone⟩ := bind_eq_some_iff.mp hdone
  dsimp only at hdone
  split at hdone
  · cases hdone
  next hphase =>
  have hphase := not_not.mp hphase
  obtain ⟨copy, hdata, hdone⟩ := bind_eq_some_iff.mp hdone
  have hc := h.call t c hcall
  have hheld := hc.invoking hphase
  obtain ⟨hlist, hnpages⟩ := hc.list copy hdata
  obtain ⟨hgiven, hinserted, hnext, -, -, hother, horig⟩ :=
    c.setDataCopy_fields { copy with hasCont := false }
  have hdata₁ := c.dataCopy_setDataCopy { copy with hasCont := false }
  generalize c.setDataCopy { copy with hasCont := false } = c₁
    at hgiven hinserted hnext hother horig hdata₁ hdone
  have hheld₁ : c₁.held = [] := by
    apply held_of_list (n := c.next) hdata₁
    rw [← hheld]
    exact hlist
  have horig₁ : c₁.origCopy.npages = 0 := by
    by_cases hnone : c.otherCopy = none
    · have hsame : c₁.dataCopy = some c₁.origCopy := by
        unfold dataCopy
        rw [hother.mpr hnone]
      rw [some.inj (hsame.symm.trans hdata₁)]
      exact hnpages.trans (by rw [hheld, length_nil])
    · rw [horig hnone]
      exact hc.orig hnone
  have hperm : c₁.inserted.Perm c₁.given := by
    rw [hinserted, hgiven]
    have hperm := hc.given
    rwa [hheld, append_nil] at hperm
  -- behind the continuation the call holds the pages of another copy, if any
  have hbehind (c' : SupplyCall Page) (pages : List Page) (hdata' : ∀ copy', c'.dataCopy =
      some copy' → copy'.pageList = replicate c'.next none ++ pages.map some ∧
        copy'.npages = pages.length) (hheld' : c'.held = pages) (hnodup : pages.Nodup)
      (hpages : ∀ p ∈ pages, (s.page p).tabled = false ∧ (s.page p).free = false ∧
        (s.page p).absent = false)
      (hapart : ∀ p ∈ pages, ∀ t c, s.call t = some c → p ∉ c.held)
      (hsame : c'.inserted = c₁.inserted ∧ c'.given = c₁.given ++ pages ∧
        c'.origCopy = c₁.origCopy) (hphase' : c'.phase ≠ .invoking) :
      CallStep s (s.setCall t (some c')) := by
    refine ⟨?_, fun _ _ _ => rfl⟩
    apply h.setCall h.object (SameCalls.refl s) fun _ _ _ _ _ _ => rfl
    rintro c'' ⟨⟩
    refine ⟨⟨?_, ?_, ?_, ?_, fun hinv => absurd hinv hphase', ?_⟩, ?_⟩
    · rw [hheld']
      exact hdata'
    · rw [hheld']
      exact hnodup
    · rw [hheld']
      exact hpages
    · rw [hsame.1, hheld', hsame.2.1]
      exact hperm.append_right pages
    · intro _
      rw [hsame.2.2]
      exact horig₁
    · rw [hheld']
      intro t' c'' _ hc'' q hq
      exact hapart q hq t' c'' hc''
  cases outcome with
  | fail result =>
    dsimp only at hdone
    split at hdone
    · cases hdone
    · cases hdone
      refine ⟨hbehind _ [] ?_ ?_ nodup_nil (fun p hp => by cases hp)
        (fun p hp => by cases hp) ⟨rfl, (append_nil _).symm, rfl⟩
        (fun hphase' => by cases hphase'), rfl⟩
      · intro copy' hcopy'
        obtain rfl := some.inj (hdata₁.symm.trans hcopy')
        rw [← hheld, hnext]
        exact ⟨hlist, hnpages⟩
      · exact hheld₁
  | null =>
    cases hdone
    exact ⟨hbehind _ [] (fun copy' hcopy' => by cases hcopy') rfl nodup_nil
      (fun p hp => by cases hp) (fun p hp => by cases hp)
      ⟨rfl, (append_nil _).symm, rfl⟩ (fun hphase' => by cases hphase'), rfl⟩
  | next new =>
    cases hdone
    obtain ⟨pages, hlist', hnpages', hnodup, hpages⟩ := hcopy new rfl
    refine ⟨hbehind _ pages ?_ ?_ hnodup ?_ ?_ ⟨rfl, ?_, rfl⟩
      (fun hphase' => by cases hphase'), rfl⟩
    · rintro copy' ⟨⟩
      exact ⟨hlist', hnpages'⟩
    · exact held_of_list (n := 0) rfl hlist'
    · intro p hp
      obtain ⟨hout, hfree, -, habsent, -⟩ := hpages p hp
      exact ⟨hout, hfree, habsent⟩
    · intro p hp t' c' hc' hmem
      obtain ⟨copy', hcopy', hmem⟩ := mem_held.mp hmem
      exact (hpages p hp).2.2.2.2.2.2 t' c' hc' copy' hcopy' hmem
    · rw [hlist', filterMap_map]
      exact congrArg (c₁.given ++ ·) filterMap_some

end Continue

variable [DecidableEq Page]

section Discard

/-- `vm_page_free` of a page that is free fails. -/
theorem notFree_of_vmPageFree (hfree : s.vmPageFree p = some s') : (s.page p).free = false := by
  apply Bool.eq_false_iff.mpr
  intro htrue
  unfold vmPageFree at hfree
  rw [if_pos htrue] at hfree
  cases hfree

theorem vmPageFree_pageFreed (hfree : s.vmPageFree p = some s') : PageFreed s p s' := by
  obtain ⟨s₁, hs₁, hfreed⟩ := vmPageFree_freed s (notFree_of_vmPageFree hfree)
  obtain rfl := some.inj (hfree.symm.trans hs₁)
  exact hfreed

/-- From a list of pages that are in no table all that are asked for are freed, the last
first. -/
theorem pageDiscard_pages {pages : List Page}
    (hpages : ∀ p ∈ pages, (s.page p).tabled = false) {n : ℕ} (hn : n ≤ pages.length)
    {freed : List Page} (hdone : pageDiscard (pages.map some) n s = some (s', freed)) :
    freed = (pages.take n).reverse := by
  induction n generalizing s freed with
  | zero =>
    cases hdone
    rfl
  | succ n ih =>
    have hlt : n < pages.length := hn
    have hget : ((pages.map some)[n]?).join = some pages[n] := by
      rw [getElem?_map, getElem?_eq_getElem hlt]
      rfl
    have hout := hpages _ (getElem_mem hlt)
    unfold pageDiscard at hdone
    rw [hget] at hdone
    dsimp only at hdone
    rw [if_neg (Bool.eq_false_iff.mp hout)] at hdone
    obtain ⟨s₁, hfree, hdone⟩ := bind_eq_some_iff.mp hdone
    obtain ⟨⟨s₂, freed₂⟩, hrest, hdone⟩ := bind_eq_some_iff.mp hdone
    cases hdone
    have hfreed := vmPageFree_pageFreed hfree
    have hpages₁ : ∀ p ∈ pages, (s₁.page p).tabled = false := by
      intro p hp
      rw [hfreed.page]
      by_cases hpn : p = pages[n]
      · subst hpn
        rw [update_self]
        exact (freedPage_free _).2.1
      · rw [update_of_ne hpn]
        exact hpages p hp
    rw [ih hpages₁ (by omega) hrest, take_succ_eq_append_getElem hlt, reverse_append]
    rfl

variable [Fintype Page]

/-- `vm_map_copy_page_discard`: pages are freed that are on the list. -/
structure Discarded (s : PagedObject Page Thread) (pageList : List (Option Page))
    (s' : PagedObject Page Thread) : Prop where
  ok : ObjectOk s'
  same : SameCalls s s'
  others : ∀ q, some q ∉ pageList → s'.page q = s.page q
  inUse : ∀ q, (s.page q).tabled = true → s'.page q = s.page q

theorem pageDiscard_discarded {pageList : List (Option Page)} {npages : ℕ} {freed : List Page}
    (h : ObjectOk s) (hdone : pageDiscard pageList npages s = some (s', freed)) :
    Discarded s pageList s' := by
  induction npages generalizing s freed with
  | zero =>
    cases hdone
    exact ⟨h, SameCalls.refl _, fun _ _ => rfl, fun _ _ => rfl⟩
  | succ npages ih =>
    unfold pageDiscard at hdone
    split at hdone
    · exact ih h hdone
    next p hp =>
      split at hdone
      · exact ih h hdone
      next hout =>
        obtain ⟨s₁, hfree, hdone⟩ := bind_eq_some_iff.mp hdone
        obtain ⟨⟨s₂, freed₂⟩, hrest, hdone⟩ := bind_eq_some_iff.mp hdone
        cases hdone
        have hnotFree := notFree_of_vmPageFree hfree
        have hfreed := vmPageFree_pageFreed hfree
        have hrest := ih (hfreed.ok h hnotFree) hrest
        have hmem : some p ∈ pageList := mem_of_getElem? (join_eq_some_iff.mp hp)
        refine ⟨hrest.ok, hfreed.same.trans hrest.same, ?_, ?_⟩
        · intro q hq
          have hqp : q ≠ p := by
            rintro rfl
            exact hq hmem
          rw [hrest.others q hq, hfreed.page, update_of_ne hqp]
        · intro q hq
          have hqp : q ≠ p := by
            rintro rfl
            exact hout hq
          have hsame : s₁.page q = s.page q := by
            rw [hfreed.page, update_of_ne hqp]
          rw [hrest.inUse q (by rwa [hsame]), hsame]

theorem CallOk.discard (hc : CallOk s c) (h : ObjectOk s) {copy : PageListCopy Page}
    (hcopy : c.dataCopy = some copy) {freed : List Page}
    (hdone : pageDiscard copy.pageList copy.npages s = some (s', freed)) :
    HeldFreed s c freed s' := by
  obtain ⟨hlist, hnpages⟩ := hc.list copy hcopy
  have hdiscarded := pageDiscard_discarded h hdone
  refine ⟨hdiscarded.ok, hdiscarded.same, ?_, hdiscarded.inUse, ?_⟩
  · intro q hq
    apply hdiscarded.others
    intro hmem
    rw [hlist] at hmem
    rcases mem_append.mp hmem with hmem | hmem
    · cases eq_of_mem_replicate hmem
    · obtain ⟨p, hp, hpq⟩ := mem_map.mp hmem
      cases hpq
      exact hq hp
  · rintro (hnext | hheld)
    · rw [hlist, hnpages, hnext] at hdone
      rw [pageDiscard_pages (fun p hp => (hc.held p hp).1) le_rfl hdone, take_length]
      exact reverse_perm c.held
    · rw [hnpages, hheld] at hdone
      cases hdone
      rw [hheld]

end Discard

variable [Fintype Page] [DecidableEq Thread]

section Turn

/-- A thread waits for a page that is busy. -/
theorem ObjectOk.assertWait (h : ObjectOk s) (htabled : (s.page p).tabled = true)
    (hbusy : (s.page p).busy = true) : ObjectOk (s.pageAssertWait t p) := by
  apply h.update (p := p) (m := { s.page p with wanted := true })
  · rfl
  · exact h.resident.congr Iff.rfl
  · intro _ q hqp hq heq
    exact hqp (h.unique q p hq htabled heq)
  · exact h.zone.congr Iff.rfl
  · exact h.free p
  · exact h.absent p
  · exact (sub_add_cancel _ _).symm
  · intro t' q hq
    simp only [pageAssertWait] at hq
    by_cases ht : t' = t
    · subst ht
      rw [update_self] at hq
      cases hq
      exact ⟨fun hne => absurd rfl hne, fun _ => ⟨htabled, hbusy, rfl⟩⟩
    · rw [update_of_ne ht] at hq
      refine ⟨fun _ => hq, ?_⟩
      rintro rfl
      exact ⟨htabled, hbusy, rfl⟩

/-- One turn of the loop of `memory_object_data_supply`: a page that was asked for is answered,
and read after it was freed. -/
theorem Inv.supplyPage (h : Inv s) (hfits : SupplyFits s (.supplyPage t))
    (hdone : s.supplyPage t = some s') :
    CallStep s s' ∧ (s'.readFreed = true ↔ s.readFreed = true ∨
        AnswersRequest s (.supplyPage t)) ∧
      ∀ p, Answers s p (.supplyPage t) → (s.page p).absent = true → ∀ t', s.waiting t' = some p →
        s'.waiting t' = none := by
  unfold PagedObject.supplyPage at hdone
  obtain ⟨c, hcall, hdone⟩ := bind_eq_some_iff.mp hdone
  dsimp only at hdone
  have hother (c' : SupplyCall Page) (hc' : s.call t = some c') : c' = c :=
    some.inj (hc'.symm.trans hcall)
  -- a turn that finds no page that was asked for
  have hquiet (hstep : CallStep s s') (hsame : s'.readFreed = s.readFreed)
      (hnot : c.dataCnt = 0 ∨ ∀ p, s.vmPageLookup c.offset = some p → (s.page p).absent = false) :
      CallStep s s' ∧ (s'.readFreed = true ↔ s.readFreed = true ∨
          AnswersRequest s (.supplyPage t)) ∧
        ∀ p, Answers s p (.supplyPage t) → (s.page p).absent = true →
          ∀ t', s.waiting t' = some p → s'.waiting t' = none := by
    have hfalse (p : Page) (c' : SupplyCall Page) (hc' : s.call t = some c')
        (hcnt : c'.dataCnt ≠ 0) (hfound : s.vmPageLookup c'.offset = some p) :
        (s.page p).absent = false := by
      obtain rfl := hother c' hc'
      rcases hnot with hzero | hnot
      · exact absurd hzero hcnt
      · exact hnot p hfound
    refine ⟨hstep, ?_, ?_⟩
    · rw [hsame]
      refine (or_iff_left ?_).symm
      rintro ⟨c', hc', -, hcnt, p, hfound, habsent, -⟩
      exact Bool.false_ne_true ((hfalse p c' hc' hcnt hfound).symm.trans habsent)
    · rintro p ⟨c', hc', -, hcnt, hfound⟩ habsent
      exact absurd ((hfalse p c' hc' hcnt hfound).symm.trans habsent) Bool.false_ne_true
  split at hdone
  · cases hdone
  next hready =>
  obtain ⟨hphase, hawake⟩ := not_or.mp hready
  have hphase := not_not.mp hphase
  have hleave (c' : SupplyCall Page) (hsame : c'.otherCopy = c.otherCopy ∧
      c'.origCopy = c.origCopy ∧ c'.next = c.next ∧ c'.inserted = c.inserted ∧
      c'.given = c.given) (hleft : c'.phase = .left) : Inv (s.setCall t (some c')) :=
    h.advance hcall ((h.call t c hcall).leave hsame hleft)
      fun p hp => (held_congr hsame.1 hsame.2.1) ▸ hp
  split at hdone
  next hzero =>
    cases hdone
    exact hquiet ⟨hleave _ ⟨rfl, rfl, rfl, rfl, rfl⟩ rfl, fun _ _ _ => rfl⟩ rfl (.inl hzero)
  next hcnt =>
  obtain ⟨copy, hcopy, hdone⟩ := bind_eq_some_iff.mp hdone
  obtain ⟨p, hnext, hdone⟩ := bind_eq_some_iff.mp hdone
  split at hdone
  · cases hdone
  rcases h.object.lookup c.offset with ⟨hnone, hmissing⟩ | ⟨m, hfound, htabled, hoffset⟩
  · rw [hnone] at hdone
    obtain ⟨hinv, hinUse, -, hread⟩ :=
      h.supplyInsert hcall hcopy hnext hphase hmissing hdone
    refine hquiet ⟨hinv, fun q hq _ => ?_⟩ hread (.inr fun q hq => ?_)
    · rw [hinUse q hq]
    · rw [hnone] at hq
      cases hq
  · rw [hfound] at hdone
    dsimp only at hdone
    have hpresent (habsent : (s.page m).absent = false) (q : Page)
        (hq : s.vmPageLookup c.offset = some q) : (s.page q).absent = false := by
      rw [hfound] at hq
      cases hq
      exact habsent
    split at hdone
    next habsent =>
      have hbusy := hfits c hcall hphase hcnt m hfound habsent
      rw [if_pos hbusy] at hdone
      obtain ⟨s₂, hfree₂, hdone⟩ := bind_eq_some_iff.mp hdone
      obtain ⟨s₁, hfree₁, hs₂⟩ := map_eq_some_iff.mp hfree₂
      have hfreed := vmPageFree_pageFreed hfree₁
      have hok₁ := hfreed.ok h.object (notFree_of_vmPageFree hfree₁)
      generalize hs₃ : s₂.setPage m { s₂.page m with clustered := false } = s₃ at hdone
      obtain ⟨hpage₃, hread₃, hcall₃, hwaiting₃, hok₃⟩ : s₃.page = s₁.page ∧
          s₃.readFreed = true ∧ s₃.call = s.call ∧ s₃.waiting = s₁.waiting ∧ ObjectOk s₃ := by
        rw [← hs₃, ← hs₂]
        have hpage : (({ s₁ with readFreed := true } : PagedObject Page Thread).setPage m
            { s₁.page m with clustered := false }).page = s₁.page := by
          have hsame : { s₁.page m with clustered := false } = s₁.page m := by
            rw [hfreed.page, update_self, ← freedPage_clustered (s.page m)]
          simp only [PagedObject.setPage]
          rw [hsame, update_eq_self]
        exact ⟨hpage, rfl, hfreed.same.call, rfl, hok₁.of_eq hpage rfl rfl rfl rfl⟩
      have hothers (q : Page) (hqm : q ≠ m) : s₃.page q = s.page q := by
        rw [hpage₃, hfreed.page, update_of_ne hqm]
      have hgone : (s₃.page m).tabled = false := by
        rw [hpage₃, hfreed.page, update_self]
        exact (freedPage_free _).2.1
      have hinv₃ : Inv s₃ := by
        refine h.congr hok₃ hcall₃ fun q hq _ _ => hothers q ?_
        rintro rfl
        exact absurd (hq.symm.trans htabled) Bool.false_ne_true
      have hmissing₃ (q : Page) (hq : (s₃.page q).tabled = true) :
          (s₃.page q).offset ≠ c.offset := by
        have hqm : q ≠ m := by
          rintro rfl
          exact absurd (hgone.symm.trans hq) Bool.false_ne_true
        rw [hothers q hqm] at hq ⊢
        intro heq
        exact hqm (h.object.unique q m hq htabled (heq.trans hoffset.symm))
      obtain ⟨hinv, hinUse, hwaiting, hread⟩ := hinv₃.supplyInsert
        (by rw [hcall₃]; exact hcall) hcopy hnext hphase hmissing₃ hdone
      refine ⟨⟨hinv, ?_⟩, ?_, ?_⟩
      · intro q hq hqAbsent
        have hqm : q ≠ m := by
          rintro rfl
          exact absurd (hqAbsent.symm.trans habsent) Bool.false_ne_true
        rw [hinUse q (by rwa [hothers q hqm]), hothers q hqm]
      · rw [hread, hread₃]
        exact iff_of_true rfl (.inr ⟨c, hcall, hphase, hcnt, m, hfound, habsent, hbusy⟩)
      · rintro q ⟨c', hc', -, -, hq⟩ _ t' hwait
        obtain rfl := hother c' hc'
        obtain rfl := some.inj (hfound.symm.trans hq)
        rw [hwaiting, hwaiting₃]
        apply eq_none_iff_forall_ne_some.mpr
        intro q hq
        obtain ⟨hold, hwanted⟩ := hfreed.waiting t' q hq
        have hqm := some.inj (hold.symm.trans hwait)
        exact absurd ((hwanted hqm).symm.trans (h.object.waiting t' m hwait).2.2) Bool.false_ne_true
    next hpres =>
      have habsent := Bool.eq_false_iff.mpr hpres
      split at hdone
      next hbusy =>
        cases hdone
        refine hquiet ⟨?_, ?_⟩ rfl (.inr (hpresent habsent))
        · refine h.congr (h.object.assertWait htabled hbusy) rfl fun q hq _ _ => ?_
          have hqm : q ≠ m := by
            rintro rfl
            exact absurd (hq.symm.trans htabled) Bool.false_ne_true
          exact update_of_ne hqm ..
        · intro q _ _
          by_cases hqm : q = m
          · subst hqm
            simp only [pageAssertWait, setPage, update_self]
          · simp only [pageAssertWait, setPage]
            rw [update_of_ne hqm]
      next hidle =>
        cases hdone
        exact hquiet ⟨hleave _ ⟨rfl, rfl, rfl, rfl, rfl⟩ rfl, fun _ _ _ => rfl⟩ rfl
          (.inr (hpresent habsent))

end Turn

section Leave

/-- The end of a call: on success every page that came was inserted, or is discarded. -/
theorem Inv.supplyEnd (h : Inv s) (hfits : SupplyFits s (.supplyEnd t))
    {r : Option (SupplyReturn Page)} (hdone : s.supplyEnd t = some (s', r)) :
    CallStep s s' ∧ s'.readFreed = s.readFreed ∧
      ∀ x, r = some x → (x.consumed = true ↔ x.result = kernSuccess) ∧
        (x.result = kernSuccess → (x.inserted ++ x.discarded).Perm x.given) := by
  unfold PagedObject.supplyEnd at hdone
  obtain ⟨c, hcall, hdone⟩ := bind_eq_some_iff.mp hdone
  dsimp only at hdone
  have hc := h.call t c hcall
  split at hdone
  · cases hdone
  obtain ⟨⟨s₁, discarded⟩, hfirst, hdone⟩ := bind_eq_some_iff.mp hdone
  obtain ⟨⟨s₂, discardedLast⟩, hlast, hdone⟩ := bind_eq_some_iff.mp hdone
  -- `orig_copy` has no pages left when another copy is in use
  obtain ⟨rfl, rfl⟩ : s₂ = s₁ ∧ discardedLast = [] := by
    unfold discardOrigCopy at hlast
    split at hlast
    next hboth =>
      rw [hc.orig (isSome_iff_ne_none.mp hboth.1)] at hlast
      cases hlast
      exact ⟨rfl, rfl⟩
    · cases hlast
      exact ⟨rfl, rfl⟩
  have hfreed : HeldFreed s c discarded s₂ ∨ s₂ = s ∧ c.result ≠ kernSuccess := by
    unfold discardDataCopy at hfirst
    split at hfirst
    next hnone =>
      have hdata : c.dataCopy = some c.origCopy := by
        unfold dataCopy
        rw [hnone]
      split at hfirst
      · exact .inl (hc.discard h.object hdata hfirst)
      next hkept =>
        cases hfirst
        exact .inr ⟨rfl, fun hsuccess => hkept (.inr hsuccess)⟩
    next hnone =>
      cases hfirst
      refine .inl (HeldFreed.refl h.object ?_)
      unfold held dataCopy
      rw [hnone]
    next copy hsome =>
      refine .inl (hc.discard h.object ?_ hfirst)
      unfold dataCopy
      rw [hsome]
  cases hdone
  refine ⟨⟨?_, ?_⟩, ?_, ?_⟩
  · rcases hfreed with hfreed | ⟨rfl, -⟩
    · apply h.setCall hfreed.ok hfreed.same
      · intro t' c' ht hc' q hq
        exact hfreed.others q (h.apart t' t c' c ht hc' hcall q hq)
      · intro c' hc'
        cases hc'
    · apply h.setCall h.object (SameCalls.refl _) fun _ _ _ _ _ _ => rfl
      intro c' hc'
      cases hc'
  · intro q hq _
    rcases hfreed with hfreed | ⟨rfl, -⟩
    · have hsame : (s₂.setCall t none).page q = s.page q := hfreed.inUse q hq
      rw [hsame]
    · rfl
  · rcases hfreed with hfreed | ⟨rfl, -⟩
    · exact hfreed.same.readFreed
    · rfl
  · rintro x ⟨⟩
    refine ⟨decide_eq_true_iff, ?_⟩
    intro hsuccess
    rcases hfreed with hfreed | ⟨-, hfail⟩
    · have hused : c.next = 0 ∨ c.held = [] := by
        cases hdata : c.dataCopy with
        | none =>
          refine .inr ?_
          unfold held
          rw [hdata]
        | some copy =>
          refine (hfits c hcall hsuccess copy hdata).imp_right fun hzero => ?_
          have hlength := (hc.list copy hdata).2
          rw [hzero] at hlength
          exact eq_nil_of_length_eq_zero hlength.symm
      rw [append_nil]
      exact ((hfreed.freed hused).append_left c.inserted).trans hc.given
    · exact absurd hsuccess hfail

end Leave

end PagedObject

end MachVirtuTerm
