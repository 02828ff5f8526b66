import MachVirtuTerm.Vm.ResidentWire

/-!
# Placing a page, and giving it other memory

The routines that put a page into the table, move it or exchange it for another leave everything
accounted for.
-/

open List Function Option

namespace MachVirtuTerm

variable {Page Obj : Type} [DecidableEq Page] [Fintype Page] {hash : Obj → ℕ → ℕ}
  {s s' : ResidentState Page Obj} {p : Page} {object : Obj} {offset : ℕ}

namespace ResidentState

section Convert

/-- `vm_page_grab` hands out a page that is loose. -/
theorem Accounted.grab (h : Accounted hash s) {privilege : Bool} {r : Option Page}
    (hgrab : s.vmPageGrab privilege = some (s', r)) :
    Accounted hash s' ∧ ((r = none ∧ s' = s) ∨ ∃ p, r = some p ∧ (s.page p).FreeReal ∧
      s'.page = update s.page p { s.page p with free := false } ∧
      s'.queueLimbo = s.queueLimbo) := by
  obtain ⟨hinv, hnone | ⟨p, rfl, hreal, hpage, hsame⟩⟩ := h.queues.grab hgrab
  · obtain ⟨rfl, rfl⟩ := hnone
    exact ⟨h, .inl ⟨rfl, rfl⟩⟩
  · exact ⟨h.of_update hinv hsame hpage ⟨rfl, rfl, rfl⟩ (h.queues.notMem_limbo hreal.1),
      .inr ⟨p, rfl, hreal, hpage, hsame.limbo.queueLimbo⟩⟩

/-- A loose page that is no limbo page is released as a fictitious one. -/
theorem Accounted.releaseFictitious (h : Accounted hash s) (hloose : Loose (s.page p))
    (hlimbo : (s.page p).limbo = false) (hfictitious : (s.page p).fictitious = true)
    (hshadow : (s.page p).shadow = false) (hqueue : p ∉ s.queueLimbo)
    (hrelease : s.vmPageReleaseFictitious p = some s') : Accounted hash s' := by
  obtain ⟨s'', hs'', hinv, hsame, hpage⟩ :=
    h.queues.releaseFictitious hloose hlimbo hfictitious hshadow hqueue
  obtain rfl := Option.some.inj (hrelease.symm.trans hs'')
  exact h.of_update hinv hsame hpage ⟨rfl, rfl, rfl⟩ hqueue

/-- A loose page with memory of its own is released. -/
theorem Accounted.release (h : Accounted hash s) (hloose : Loose (s.page p))
    (hlimbo : (s.page p).limbo = false) (hreal : (s.page p).Real) (hqueue : p ∉ s.queueLimbo)
    (hrelease : s.vmPageRelease p = some s') : Accounted hash s' := by
  obtain ⟨s'', hs'', hinv, hsame, hpage⟩ := h.queues.release hloose hlimbo hreal hqueue
  obtain rfl := Option.some.inj (hrelease.symm.trans hs'')
  exact h.of_update hinv hsame hpage ⟨rfl, rfl, rfl⟩ hqueue

/-- A page structure without memory gets some, and is counted on its queue. -/
theorem QueueInv.getMemory (h : QueueInv s) (physAddr : ℕ) (hqueue : p ∉ s.queueLimbo)
    (hfree : (s.page p).free = false) (hfictitious : (s.page p).fictitious = true)
    (hgobbled : (s.page p).gobbled = false) (hwire : (s.page p).wireCount = 0) :
    QueueInv { s.setPage p { s.page p with
        physAddr := physAddr
        fictitious := false } with
      activeCount := if (s.page p).active then s.activeCount + 1 else s.activeCount
      inactiveCount :=
        if (s.page p).active = false ∧ (s.page p).inactive = true then s.inactiveCount + 1
        else s.inactiveCount } := by
  have hflags := h.flags p
  have hnotFree : ¬ (s.page p).free = true := Bool.eq_false_iff.mp hfree
  apply h.update rfl
  · exact ⟨hflags.active, hflags.queued, hflags.gobbled, hflags.free⟩
  · exact h.free.congr (iff_of_false (fun hin => hnotFree hin.1) fun hin => hnotFree hin.1)
  · exact h.zone.congr (iff_of_false (fun hin => hnotFree hin.1) fun hin => hnotFree hin.1)
  · exact h.active.congr Iff.rfl
  · exact h.inactive.congr Iff.rfl
  · exact hqueue
  · rfl
  · simp [weight, ResidentPage.FreeReal, hfree, setPage]
  · cases hactive : (s.page p).active with
    | true => simp [weight, ResidentPage.ActiveReal, hactive, hfictitious]
    | false => simp [weight, ResidentPage.ActiveReal, hactive]
  · cases hinactive : (s.page p).inactive with
    | true =>
      have hactive : (s.page p).active = false := by
        apply Bool.eq_false_iff.mpr
        intro hactive
        exact absurd ((hflags.active hactive).symm.trans hinactive) Bool.false_ne_true
      simp [weight, ResidentPage.InactiveReal, hactive, hinactive, hfictitious]
    | false => simp [weight, ResidentPage.InactiveReal, hinactive]
  · simp [weight, ResidentPage.Wired, hgobbled, hwire, setPage]
  · exact (sub_add_cancel _ _).symm

/-- `vm_page_convert` of a fictitious page that is not wired. -/
theorem Accounted.convert (h : Accounted hash s) {privilege : Bool} {r : Option Page}
    (hqueue : p ∉ s.queueLimbo) (hfree : (s.page p).free = false)
    (hfictitious : (s.page p).fictitious = true) (hgobbled : (s.page p).gobbled = false)
    (hwire : (s.page p).wireCount = 0)
    (hconvert : s.vmPageConvert p privilege = some (s', r)) : Accounted hash s' := by
  obtain ⟨⟨s₁, real⟩, hgrab, hrest⟩ := bind_eq_some_iff.mp hconvert
  obtain ⟨hacc, ⟨rfl, rfl⟩ | ⟨q, rfl, hfreeReal, hpage, hqueue₁⟩⟩ := h.grab hgrab
  · cases hrest
    exact hacc
  · obtain ⟨s₂, hrelease, hdone⟩ := bind_eq_some_iff.mp hrest
    cases hdone
    have hpq : p ≠ q := by
      rintro rfl
      exact absurd (hfree.symm.trans hfreeReal.1) Bool.false_ne_true
    have hp : s₁.page p = s.page p := by rw [hpage, update_of_ne hpq]
    have hq : s₁.page q = { s.page q with free := false } := by rw [hpage, update_self]
    have hloose : Loose (s₁.page q) := by
      rw [hq]
      exact FlagsOk.loose (h.queues.flags q) hfreeReal.1
    obtain ⟨-, hlimbo, -, hshadow⟩ := (h.queues.flags q).free hfreeReal.1
    have hpLimbo : p ∉ s₁.queueLimbo := by rwa [hqueue₁]
    have hqLimbo : q ∉ s₁.queueLimbo := by
      rw [hqueue₁]
      exact h.queues.notMem_limbo hfreeReal.1
    have hmemory := hacc.queues.getMemory (s₁.page q).physAddr hpLimbo (by rwa [hp]) (by rwa [hp])
      (by rwa [hp]) (by rwa [hp])
    have hacc₁ := hacc.of_update hmemory ⟨rfl, rfl, rfl, ⟨rfl, rfl, rfl⟩⟩ rfl ⟨rfl, rfl, rfl⟩
      hpLimbo
    generalize hs₂ : ({ s₁.setPage p { s₁.page p with
        physAddr := (s₁.page q).physAddr
        fictitious := false } with
      activeCount := if (s₁.page p).active then s₁.activeCount + 1 else s₁.activeCount
      inactiveCount :=
        if (s₁.page p).active = false ∧ (s₁.page p).inactive = true then s₁.inactiveCount + 1
        else s₁.inactiveCount } : ResidentState Page Obj) = s₃ at hacc₁
    have hq₃ : s₃.page q = s₁.page q := by
      rw [← hs₂]
      exact update_of_ne hpq.symm ..
    have hqueue₃ : q ∉ s₃.queueLimbo := by
      rw [← hs₂]
      exact hqLimbo
    have hloose₃ : Loose (s₃.page q) := by rwa [hq₃]
    have hnew : Loose { s₃.page q with
        physAddr := fictitiousAddr
        fictitious := true } :=
      ⟨hloose₃.active, hloose₃.inactive, hloose₃.wireCount, hloose₃.gobbled, hloose₃.free,
        hloose₃.tabled⟩
    have hacc₂ := hacc₁.of_update (hacc₁.queues.setIdle hloose₃.idle hnew.idle hqueue₃)
      ⟨rfl, rfl, rfl, ⟨rfl, rfl, rfl⟩⟩ rfl ⟨rfl, rfl, rfl⟩ hqueue₃
    have hset : (s₃.setPage q { s₃.page q with
        physAddr := fictitiousAddr
        fictitious := true }).page q = { s₃.page q with
        physAddr := fictitiousAddr
        fictitious := true } := update_self ..
    apply hacc₂.releaseFictitious (p := q)
    · rwa [hset]
    · rw [hset, hq₃, hq]
      exact hlimbo
    · rw [hset]
    · rw [hset, hq₃, hq]
      exact hshadow
    · exact hqueue₃
    · rw [← hs₂]
      exact hrelease

end Convert

variable [DecidableEq Obj]

section Place

variable (h : Accounted hash s)

include h

/-- `vm_page_insert` of a page that is in no table, at a place that is free. -/
theorem Accounted.insert (hqueue : p ∉ s.queueLimbo)
    (hfree : (s.page p).free = false) (hvacant : s.Vacant object offset)
    (hinsert : s.vmPageInsert hash p object offset = some s') : Accounted hash s' := by
  have hflags := h.queues.flags p
  unfold ResidentState.vmPageInsert at hinsert
  split at hinsert
  · cases hinsert
  next htabled =>
    have htabled : (s.page p).tabled = false := Bool.eq_false_iff.mpr htabled
    obtain ⟨s'', hs'', htable⟩ := h.table.insert htabled hvacant
    unfold ResidentState.vmPageInsert at hs''
    rw [htabled, if_neg Bool.false_ne_true] at hs''
    cases hinsert
    cases hs''
    refine ⟨htable, ?_, h.limbo.setPage hqueue rfl ⟨rfl, rfl, rfl⟩⟩
    apply h.queues.retag rfl
    · constructor
      · exact hflags.active
      · exact hflags.queued
      · exact hflags.gobbled
      · intro htrue
        exact absurd (hfree.symm.trans htrue) Bool.false_ne_true
    · rfl
    · rfl
    · rfl
    · rfl
    · exact hqueue
    · exact ⟨rfl, rfl, rfl, rfl, rfl⟩
    · exact ⟨rfl, rfl, rfl⟩
    · exact (sub_add_cancel _ _).symm
    · exact (sub_add_cancel _ _).symm

/-- `vm_page_remove` of a page in the table. -/
theorem Accounted.remove (htabled : (s.page p).tabled = true)
    (hremove : s.vmPageRemove hash p = some s') :
    Accounted hash s' ∧ Clearing hash s p s' ∧ (s'.page p).tabled = false := by
  obtain ⟨s'', hs'', hclear, hout⟩ := remove_clearing h.table h.queues htabled
  obtain rfl := Option.some.inj (hremove.symm.trans hs'')
  exact ⟨⟨hclear.table, hclear.queues, hclear.limboInv h.limbo⟩, hclear, hout⟩

/-- `vm_page_rename` to a place that is free. -/
theorem Accounted.rename (htabled : (s.page p).tabled = true) (hvacant : s.Vacant object offset)
    (hrename : s.vmPageRename hash p object offset = some s') : Accounted hash s' := by
  have hfree := (h.queues.flags p).free_eq_false (.inr (.inr (.inl htabled)))
  obtain ⟨s₁, hs₁, hinsert⟩ := bind_eq_some_iff.mp hrename
  obtain ⟨hacc, hclear, hout⟩ := h.remove htabled hs₁
  refine hacc.insert (p := p) ?_ (hclear.free.trans hfree) ?_ hinsert
  · rw [hclear.same.queueLimbo]
    exact h.queues.notMem_limbo_of_tabled htabled
  · intro q hq
    have hne : q ≠ p := by
      rintro rfl
      exact absurd (hout.symm.trans hq) Bool.false_ne_true
    rw [hclear.others q hne] at hq ⊢
    exact hvacant q hq

/-- `vm_page_free` of a page in use. -/
theorem Accounted.free (hqueue : p ∉ s.queueLimbo)
    (hfree : (s.page p).free = false) (hreal : (s.page p).limbo = true → (s.page p).Real)
    (hdone : s.vmPageFree hash p = some s') : Accounted hash s' := by
  obtain ⟨s'', hs'', hfreed⟩ := vmPageFree_freed h.table h.queues hqueue hfree hreal
  obtain rfl := Option.some.inj (hdone.symm.trans hs'')
  exact ⟨hfreed.table, hfreed.queues, hfreed.limboInv h.limbo⟩

/-- `vm_page_replace`: what was at the place is freed. -/
theorem Accounted.replace (hqueue : p ∉ s.queueLimbo) (hfree : (s.page p).free = false)
    (hreal : ∀ q, (s.page q).tabled = true → (s.page q).object = some object →
      (s.page q).offset = offset → (s.page q).limbo = true → (s.page q).Real)
    (hreplace : s.vmPageReplace hash p object offset = some s') : Accounted hash s' := by
  unfold vmPageReplace at hreplace
  split at hreplace
  · cases hreplace
  next hout =>
    generalize hfind : ((s.bucket (hash object offset)).find? fun q =>
      (s.page q).object = some object ∧ (s.page q).offset = offset) = found at hreplace
    rcases h.table.find hfind with ⟨rfl, hvacant⟩ | ⟨q, rfl, htabled, hobject, hoffset⟩
    · exact h.insert hqueue hfree hvacant hreplace
    · obtain ⟨s₂, hs₂, hinsert⟩ := bind_eq_some_iff.mp hreplace
      have hpq : p ≠ q := by
        rintro rfl
        exact hout htabled
      -- the old page leaves the table as in `vm_page_remove`, and is freed
      have hgone := h.table.untable (m := { s.page q with tabled := false }) htabled hobject rfl
      have hqueues := h.queues.untable hash htabled object (s.page q).object (s.page q).offset
      have hpage : (s.untable hash q object { s.page q with tabled := false }).page =
        update s.page q { s.page q with tabled := false } := rfl
      have hqueue' := h.queues.notMem_limbo_of_tabled htabled
      obtain ⟨s', hs', hfreed⟩ := vmPageFree_freed (p := q) hgone hqueues hqueue'
        (by
          rw [hpage, update_self]
          exact (h.queues.flags q).free_eq_false (.inr (.inr (.inl htabled))))
        (by
          rw [hpage, update_self]
          exact hreal q htabled hobject hoffset)
      obtain rfl := Option.some.inj (hs₂.symm.trans hs')
      have hacc : Accounted hash s₂ := ⟨hfreed.table, hfreed.queues, hfreed.limboInv
        (h.limbo.setPage hqueue' hpage ⟨rfl, rfl, rfl⟩)⟩
      refine hacc.insert (p := p) ?_ ?_ ?_ hinsert
      · intro hmem
        exact hqueue (hfreed.queued p hpq hmem)
      · rw [hfreed.page p hpq, hpage, update_of_ne hpq]
        exact hfree
      · intro r hr hplace
        by_cases hrq : r = q
        · subst hrq
          exact absurd (hfreed.untabled.symm.trans hr) Bool.false_ne_true
        · rw [hfreed.page r hrq, hpage, update_of_ne hrq] at hr hplace
          exact hrq (h.table.unique r q hr htabled (hplace.1.trans hobject.symm)
            (hplace.2.trans hoffset.symm))

end Place

end ResidentState

end MachVirtuTerm

/-!
# The limbo queue

`cleanup_limbo_queue` frees the pages that nobody has prepared or pinned any more, and takes the
memory of the others.
-/

namespace MachVirtuTerm

variable {Page Obj : Type} [DecidableEq Page] {hash : Obj → ℕ → ℕ}
  {s s' : ResidentState Page Obj} {p q : Page}

namespace ResidentState

section Exchange

/-- The pages that `vm_page_limbo_exchange` is for: one in limbo on no queue, and a fictitious
page that was just grabbed. -/
structure Exchangeable (limboM newM : ResidentPage Obj) : Prop where
  limbo : limboM.limbo = true
  real : limboM.fictitious = false
  active : limboM.active = false
  inactive : limboM.inactive = false
  tabled : limboM.tabled = false
  loose : Loose newM

/-- Neither page is in the table. -/
theorem TableInv.exchange (h : TableInv hash s) (hne : q ≠ p)
    (hok : Exchangeable (s.page p) (s.page q)) : TableInv hash (s.vmPageLimboExchange p q) := by
  have hsame : (s.vmPageLimboExchange p q).bucket = s.bucket ∧
    (s.vmPageLimboExchange p q).memq = s.memq ∧
      (s.vmPageLimboExchange p q).residentPageCount = s.residentPageCount := ⟨rfl, rfl, rfl⟩
  apply h.congr hsame.1 hsame.2.1 hsame.2.2
  intro r
  unfold vmPageLimboExchange
  simp only [ResidentState.setPage]
  by_cases hrp : r = p
  · subst hrp
    rw [update_self, hok.tabled]
    exact ⟨rfl, fun hfalse => absurd hfalse Bool.false_ne_true⟩
  · rw [update_of_ne hrp]
    by_cases hrq : r = q
    · subst hrq
      rw [update_self, hok.loose.tabled]
      exact ⟨hok.tabled, fun hfalse => absurd hfalse Bool.false_ne_true⟩
    · rw [update_of_ne hrq]
      exact ⟨rfl, fun _ => ⟨rfl, rfl⟩⟩

/-- The limbo queue sees neither page. -/
theorem LimboInv.exchange (h : LimboInv s) (hp : p ∉ s.queueLimbo) (hq : q ∉ s.queueLimbo) :
    LimboInv (s.vmPageLimboExchange p q) := by
  have hsame : SameLimbo s (s.vmPageLimboExchange p q) := ⟨rfl, rfl, rfl⟩
  apply h.congr hsame
  intro r hr
  have hrp : r ≠ p := fun heq => hp (heq ▸ hr)
  have hrq : r ≠ q := fun heq => hq (heq ▸ hr)
  unfold vmPageLimboExchange
  simp only [ResidentState.setPage]
  rw [update_of_ne hrp, update_of_ne hrq]

variable [Fintype Page]

/-- `vm_page_limbo_exchange`: what was wired or gobbled still is, as the other page. -/
theorem QueueInv.exchange (h : QueueInv s) (hne : q ≠ p)
    (hok : Exchangeable (s.page p) (s.page q)) (hp : p ∉ s.queueLimbo) (hq : q ∉ s.queueLimbo) :
    QueueInv (s.vmPageLimboExchange p q) := by
  have hflags := h.flags p
  have hfree := hflags.free_eq_false (.inr (.inr (.inr hok.limbo)))
  obtain ⟨m', hm'⟩ : ∃ m' : ResidentPage Obj, m' = { s.page p with
      limbo := false
      prepPinCount := 0 } := ⟨_, rfl⟩
  obtain ⟨f, hf⟩ : ∃ f : ResidentPage Obj, f = { ResidentPage.init fictitiousAddr with
      fictitious := true
      limbo := true
      prepPinCount := (s.page p).prepPinCount } := ⟨_, rfl⟩
  obtain ⟨hqFree, hqZone, hqActive, hqInactive, hqActiveReal, hqInactiveReal, hqWired,
    hqGobbled⟩ := hok.loose.idle.notIn
  have hmFree : ¬ m'.free = true := by
    rw [hm']
    exact Bool.eq_false_iff.mp hfree
  have hmActive : ¬ m'.active = true := by
    rw [hm']
    exact Bool.eq_false_iff.mp hok.active
  have hmInactive : ¬ m'.inactive = true := by
    rw [hm']
    exact Bool.eq_false_iff.mp hok.inactive
  have hmWired : m'.Wired ↔ (s.page p).Wired := by
    rw [hm']
    exact Iff.rfl
  have hmGobbled : m'.gobbled = true ↔ (s.page p).gobbled = true := by rw [hm']
  -- halfway the memory is counted twice
  have hhalf : QueueInv { s.setPage q m' with
      wireCount := s.wireCount + weight ResidentPage.Wired m'
      gobbleCount := s.gobbleCount + weight (fun m : ResidentPage Obj => m.gobbled = true) m' } := by
    apply h.update rfl
    · constructor
      · intro hactive
        exact absurd hactive hmActive
      · rintro (hactive | hinactive)
        · exact absurd hactive hmActive
        · exact absurd hinactive hmInactive
      · intro hgobbled
        rw [hm']
        rw [hm'] at hgobbled
        exact hflags.gobbled hgobbled
      · intro htrue
        exact absurd htrue hmFree
    · exact h.free.congr (iff_of_false (fun hin => hmFree hin.1) hqFree)
    · exact h.zone.congr (iff_of_false (fun hin => hmFree hin.1) hqZone)
    · exact h.active.congr (iff_of_false hmActive hqActive)
    · exact h.inactive.congr (iff_of_false hmInactive hqInactive)
    · exact hq
    · rfl
    · rw [weight_congr (iff_of_false (fun hin => hmFree hin.1) hqFree), sub_add_cancel]
      rfl
    · rw [weight_congr (iff_of_false (fun hin => hmActive hin.1) hqActiveReal), sub_add_cancel]
      rfl
    · rw [weight_congr (iff_of_false (fun hin => hmInactive hin.1) hqInactiveReal), sub_add_cancel]
      rfl
    · rw [weight_of_not hqWired, sub_zero]
    · rw [weight_of_not (P := fun m : ResidentPage Obj => m.gobbled = true) hqGobbled, sub_zero]
  have hpage : (Function.update s.page q m') p = s.page p := update_of_ne hne.symm ..
  have hloose : Loose f := by
    rw [hf]
    exact ⟨rfl, rfl, rfl, rfl, rfl, rfl⟩
  obtain ⟨hfFree, hfZone, hfActive, hfInactive, hfActiveReal, hfInactiveReal, hfWired,
    hfGobbled⟩ := hloose.idle.notIn
  have hpFree : ¬ (s.page p).free = true := Bool.eq_false_iff.mp hfree
  have hpActive : ¬ (s.page p).active = true := Bool.eq_false_iff.mp hok.active
  have hpInactive : ¬ (s.page p).inactive = true := Bool.eq_false_iff.mp hok.inactive
  have hfull : s.vmPageLimboExchange p q = (s.setPage q m').setPage p f := by
    rw [hm', hf]
    rfl
  rw [hfull]
  apply hhalf.update (p := p) (m := f) rfl hloose.idle.flagsOk
  · apply hhalf.free.congr
    exact iff_of_false hfFree (by simp only [ResidentState.setPage, hpage]; exact fun hin => hpFree hin.1)
  · apply hhalf.zone.congr
    exact iff_of_false hfZone (by simp only [ResidentState.setPage, hpage]; exact fun hin => hpFree hin.1)
  · apply hhalf.active.congr
    exact iff_of_false hfActive (by simp only [ResidentState.setPage, hpage]; exact hpActive)
  · apply hhalf.inactive.congr
    exact iff_of_false hfInactive (by simp only [ResidentState.setPage, hpage]; exact hpInactive)
  · exact hp
  · rfl
  · simp only [ResidentState.setPage, hpage]
    rw [weight_congr (iff_of_false hfFree fun hin => hpFree hin.1), sub_add_cancel]
  · simp only [ResidentState.setPage, hpage]
    rw [weight_congr (iff_of_false hfActiveReal fun hin => hpActive hin.1), sub_add_cancel]
  · simp only [ResidentState.setPage, hpage]
    rw [weight_congr (iff_of_false hfInactiveReal fun hin => hpInactive hin.1), sub_add_cancel]
  · simp only [ResidentState.setPage, hpage]
    rw [weight_congr hmWired, add_sub_cancel_right, weight_of_not hfWired, add_zero]
  · simp only [ResidentState.setPage, hpage]
    rw [weight_congr (P := fun m : ResidentPage Obj => m.gobbled = true) hmGobbled,
      add_sub_cancel_right,
      weight_of_not (P := fun m : ResidentPage Obj => m.gobbled = true) hfGobbled, add_zero]

/-- `vm_page_limbo_exchange` of pages that are on no queue. -/
theorem Accounted.exchange (h : Accounted hash s) (hne : q ≠ p)
    (hok : Exchangeable (s.page p) (s.page q)) (hp : p ∉ s.queueLimbo) (hq : q ∉ s.queueLimbo) :
    Accounted hash (s.vmPageLimboExchange p q) :=
  ⟨h.table.exchange hne hok, h.queues.exchange hne hok hp hq, h.limbo.exchange hp hq⟩

end Exchange

section Cleanup

variable [Fintype Page]

/-- `vm_page_grab_fictitious` hands out a page structure that is loose. -/
theorem Accounted.grabFictitious (h : Accounted hash s) {r : Option Page}
    (hgrab : s.vmPageGrabFictitious = (s', r)) :
    Accounted hash s' ∧ ((r = none ∧ s' = s) ∨ ∃ p, r = some p ∧ (s.page p).FreeFictitious ∧
      s'.page = update s.page p { s.page p with free := false } ∧
      SameElsewhere s s') := by
  unfold vmPageGrabFictitious at hgrab
  split at hgrab
  · cases hgrab
    exact ⟨h, .inl ⟨rfl, rfl⟩⟩
  next p rest hzone =>
    cases hgrab
    have hmem : p ∈ s.zone := by
      rw [hzone]
      exact mem_cons_self ..
    have hin := (h.queues.zone.mem p).mp hmem
    have hqueue := h.queues.notMem_limbo hin.1
    have hloose := FlagsOk.loose (h.queues.flags p) hin.1
    have hsame : SameElsewhere s { s.setPage p { s.page p with free := false } with
      zone := rest } := ⟨rfl, rfl, rfl, ⟨rfl, rfl, rfl⟩⟩
    refine ⟨h.of_update ?_ hsame rfl ⟨rfl, rfl, rfl⟩ hqueue, .inr ⟨p, rfl, hin, rfl, hsame⟩⟩
    apply h.queues.update rfl hloose.idle.flagsOk
    · apply h.queues.free.congr
      refine iff_of_false (fun hnew => Bool.false_ne_true hnew.1) ?_
      intro hold
      exact Bool.false_ne_true (hold.2.symm.trans hin.2)
    · have herase : rest = s.zone.erase p := by rw [hzone, erase_cons_head]
      rw [herase]
      exact h.queues.zone.erase fun hnew => Bool.false_ne_true hnew.1
    · exact h.queues.active.congr Iff.rfl
    · exact h.queues.inactive.congr Iff.rfl
    · exact hqueue
    · rfl
    · simp [weight, ResidentPage.FreeReal, hin.2, setPage]
    · exact (sub_add_cancel _ _).symm
    · exact (sub_add_cancel _ _).symm
    · exact (sub_add_cancel _ _).symm
    · exact (sub_add_cancel _ _).symm

/-- A page leaves the limbo queue. -/
theorem Accounted.leaveLimbo (h : Accounted hash s) (hmem : p ∈ s.queueLimbo) :
    Accounted hash { s with
      queueLimbo := s.queueLimbo.erase p
      limboCount := s.limboCount - 1
      limboRealCount :=
        if (s.page p).fictitious then s.limboRealCount else s.limboRealCount - 1 } := by
  obtain ⟨htable, ⟨hflags, hfree, hzone, hactive, hinactive, hlimbo, hnodup, hfreeCount,
    hactiveCount, hinactiveCount, hwireCount, hgobbleCount⟩, hlim⟩ := h
  have hlength := length_erase_of_mem hmem
  have hpos := length_pos_of_mem hmem
  refine ⟨?_, ?_, ?_⟩
  · exact ⟨htable.bucket, htable.memq, htable.object, htable.unique, htable.count⟩
  · exact ⟨hflags, hfree, hzone, hactive, hinactive, fun q hq => hlimbo q (mem_of_mem_erase hq),
      hnodup.erase p, hfreeCount, hactiveCount, hinactiveCount, hwireCount, hgobbleCount⟩
  · constructor
    · exact hlim.order.sublist erase_sublist
    · dsimp only
      rw [hlim.count, hlength]
      omega
    · dsimp only
      have hperm := perm_cons_erase hmem
      have hcount := (hperm.filter fun q => !(s.page q).fictitious).length_eq
      rw [hlim.realCount, hcount]
      cases hfict : (s.page p).fictitious with
      | true => simp [hfict]
      | false => simp [hfict]

/-- The first loop of `cleanup_limbo_queue`. -/
theorem Accounted.freeUnprepped [DecidableEq Obj] (h : Accounted hash s) {l : List Page}
    (hl : ∀ p ∈ l, p ∈ s.queueLimbo) (hnodup : l.Nodup)
    (hdone : s.freeUnprepped hash l = some s') : Accounted hash s' := by
  induction l generalizing s with
  | nil =>
    cases hdone
    exact h
  | cons p rest ih =>
    obtain ⟨hnotMem, hrest⟩ := nodup_cons.mp hnodup
    unfold ResidentState.freeUnprepped at hdone
    split at hdone
    · obtain ⟨s₁, hfree, hdone⟩ := bind_eq_some_iff.mp hdone
      have hmem : p ∈ s.queueLimbo := hl p (mem_cons_self ..)
      have hok := h.queues.limbo p hmem
      have hleft := h.leaveLimbo hmem
      have hqueue : p ∉ s.queueLimbo.erase p := h.queues.nodup.not_mem_erase
      have hnotFree := (h.queues.flags p).free_eq_false (.inr (.inr (.inr hok.limbo)))
      obtain ⟨s₀, hs₀⟩ : ∃ s₀ : ResidentState Page Obj, s₀ = { s with
          queueLimbo := s.queueLimbo.erase p
          limboCount := s.limboCount - 1
          limboRealCount :=
            if (s.page p).fictitious then s.limboRealCount else s.limboRealCount - 1 } := ⟨_, rfl⟩
      rw [← hs₀] at hleft
      have hqueue₀ : p ∉ s₀.queueLimbo := by
        rw [hs₀]
        exact hqueue
      have hpage₀ : s₀.page = s.page := by rw [hs₀]
      have hflags := hleft.queues.flags p
      have hset : Accounted hash (s₀.setPage p { s₀.page p with limbo := false }) := by
        refine hleft.of_update ?_ ⟨rfl, rfl, rfl, ⟨rfl, rfl, rfl⟩⟩ rfl ⟨rfl, rfl, rfl⟩ hqueue₀
        apply hleft.queues.retag rfl
        · refine ⟨hflags.active, hflags.queued, hflags.gobbled, ?_⟩
          intro htrue
          obtain ⟨hwire, -, htabled, hshadow⟩ := hflags.free htrue
          exact ⟨hwire, rfl, htabled, hshadow⟩
        · rfl
        · rfl
        · rfl
        · rfl
        · exact hqueue₀
        · exact ⟨rfl, rfl, rfl, rfl, rfl⟩
        · exact ⟨rfl, rfl, rfl⟩
        · exact (sub_add_cancel _ _).symm
        · exact (sub_add_cancel _ _).symm
      have hpage : (s₀.setPage p { s₀.page p with limbo := false }).page p =
        { s.page p with limbo := false } := by
        rw [← hpage₀]
        exact update_self ..
      obtain ⟨s₂, hs₂, hfreed⟩ := vmPageFree_freed (p := p) hset.table hset.queues hqueue₀
        (by rwa [hpage])
        (by
          rw [hpage]
          intro hfalse
          cases hfalse)
      have hsame : s₂ = s₁ := by
        rw [hs₀] at hs₂
        exact Option.some.inj (hs₂.symm.trans hfree)
      subst hsame
      refine ih ⟨hfreed.table, hfreed.queues, hfreed.limboInv hset.limbo⟩ ?_ hrest hdone
      intro q hq
      have hne : q ≠ p := fun heq => hnotMem (heq ▸ hq)
      have hlimbo := hfreed.same (by rw [hpage])
      rw [hlimbo.queueLimbo]
      have hin : q ∈ s.queueLimbo.erase p :=
        (mem_erase_of_ne hne).mpr (hl q (mem_cons_of_mem _ hq))
      rw [hs₀]
      exact hin
    · exact ih h (fun q hq => hl q (mem_cons_of_mem _ hq)) hrest hdone

/-- A page that left the limbo queue comes back without its memory. -/
theorem Accounted.exchangeHead (h : Accounted hash s) {rest : List Page} {f : ℤ}
    (hqueue : s.queueLimbo = p :: rest) (hreal : (s.page p).fictitious = false)
    (hloose : Loose (s.page q)) (hqLimbo : q ∉ s.queueLimbo)
    (hf : f = s.limboRealCount - 1) :
    Accounted hash { s.vmPageLimboExchange p q with
      queueLimbo := rest ++ [p]
      limboRealCount := f } := by
  have hmem : p ∈ s.queueLimbo := by
    rw [hqueue]
    exact mem_cons_self ..
  have hok := h.queues.limbo p hmem
  have hne : q ≠ p := fun heq => hqLimbo (heq ▸ hmem)
  have hnodup := h.queues.nodup
  rw [hqueue] at hnodup hqLimbo
  have hpRest := (nodup_cons.mp hnodup).1
  have hqRest : q ∉ rest := fun hin => hqLimbo (mem_cons_of_mem _ hin)
  have hleft := h.leaveLimbo hmem
  rw [hqueue, erase_cons_head, hreal] at hleft
  simp only [Bool.false_eq_true, if_false] at hleft
  have hchanged := hleft.exchange hne
    ⟨hok.limbo, hreal, hok.active, hok.inactive, hok.tabled, hloose⟩ hpRest hqRest
  generalize hs₁ : ResidentState.vmPageLimboExchange { s with
    queueLimbo := rest
    limboCount := s.limboCount - 1
    limboRealCount := s.limboRealCount - 1 } p q = s₁ at hchanged
  have hpage : s₁.page p = { ResidentPage.init fictitiousAddr with
      fictitious := true
      limbo := true
      prepPinCount := (s.page p).prepPinCount } := by
    rw [← hs₁]
    exact update_self ..
  have hpQueue : p ∉ s₁.queueLimbo := by
    rw [← hs₁]
    exact hpRest
  have hlimboOk : (s₁.page p).LimboOk := by
    rw [hpage]
    exact ⟨rfl, rfl, rfl, rfl, rfl, rfl, rfl⟩
  have hqueues := hchanged.queues.releaseLimbo hlimboOk hpQueue
  have hlim := hchanged.limbo.releaseLimbo (p := p)
  have hout : s₁.vmPageReleaseLimbo p = { s.vmPageLimboExchange p q with
      queueLimbo := rest ++ [p]
      limboRealCount := f } := by
    unfold vmPageReleaseLimbo
    rw [hpage, hf, ← hs₁]
    simp only [if_true, vmPageLimboExchange, ResidentState.setPage, sub_add_cancel]
  rw [hout] at hqueues hlim
  refine ⟨?_, hqueues, hlim⟩
  have htable := h.table.exchange hne
    ⟨hok.limbo, hreal, hok.active, hok.inactive, hok.tabled, hloose⟩
  exact ⟨htable.bucket, htable.memq, htable.object, htable.unique, htable.count⟩

/-- The second loop of `cleanup_limbo_queue`. -/
theorem Accounted.exchangeReal [DecidableEq Obj] {turns : ℕ} (h : Accounted hash s)
    (hcount : (turns : ℤ) ≤ s.limboRealCount)
    (hdone : exchangeReal hash turns s = some s') : Accounted hash s' := by
  induction turns generalizing s with
  | zero =>
    cases hdone
    exact h
  | succ turns ih =>
    unfold ResidentState.exchangeReal at hdone
    split at hdone
    · cases hdone
    next p rest hqueue =>
      have hmem : p ∈ s.queueLimbo := by
        rw [hqueue]
        exact mem_cons_self ..
      have hok := h.queues.limbo p hmem
      have hreal := h.limbo.head_real hqueue (by omega)
      generalize hgrab : s.vmPageGrabFictitious = r at hdone
      obtain ⟨s₁, r⟩ := r
      obtain ⟨hacc, ⟨rfl, rfl⟩ | ⟨q, rfl, hfree, hpage, hsame⟩⟩ := h.grabFictitious hgrab
      · cases hdone
        exact h
      · dsimp only at hdone
        obtain ⟨s₂, hfreeq, hdone⟩ := bind_eq_some_iff.mp hdone
        have hqLimbo := h.queues.notMem_limbo hfree.1
        have hne : p ≠ q := fun heq => hqLimbo (heq ▸ hmem)
        have hp : s₁.page p = s.page p := by rw [hpage, update_of_ne hne]
        have hqueue₁ := hsame.limbo.queueLimbo
        have hexchange := hacc.exchangeHead (hqueue₁.trans hqueue) (by rwa [hp])
          (by
            rw [hpage, update_self]
            exact FlagsOk.loose (h.queues.flags q) hfree.1)
          (by rwa [hqueue₁]) rfl
        -- the page that is freed has taken the place of the one in limbo
        generalize hs₃ : ({ s₁.vmPageLimboExchange p q with
          queueLimbo := rest ++ [p] } : ResidentState Page Obj) = s₃ at hfreeq
        have hqueue₃ : s₃.queueLimbo = rest ++ [p] := by rw [← hs₃]
        have hq₃ : s₃.page q = { s₁.page p with
            limbo := false
            prepPinCount := 0 } := by
          rw [← hs₃]
          unfold vmPageLimboExchange
          simp only [ResidentState.setPage]
          rw [update_of_ne hne.symm, update_self]
        have hqueues₃ : QueueInv s₃ := by
          obtain ⟨hflags, hfree, hzone, hactive, hinactive, hlimbo, hnodup, hfreeCount,
            hactiveCount, hinactiveCount, hwireCount, hgobbleCount⟩ := hexchange.queues
          rw [← hs₃]
          exact ⟨hflags, hfree, hzone, hactive, hinactive, hlimbo, hnodup, hfreeCount,
            hactiveCount, hinactiveCount, hwireCount, hgobbleCount⟩
        have htable₃ : TableInv hash s₃ := by
          obtain ⟨hbucket, hmemq, hobject, hunique, hcounts⟩ := hexchange.table
          rw [← hs₃]
          exact ⟨hbucket, hmemq, hobject, hunique, hcounts⟩
        have hqQueue : q ∉ s₃.queueLimbo := by
          rw [hqueue₃]
          intro hin
          rcases mem_append.mp hin with hin | hin
          · exact hqLimbo (hqueue ▸ mem_cons_of_mem _ hin)
          · exact hne (mem_singleton.mp hin).symm
        obtain ⟨s₄, hs₄, hfreed⟩ := vmPageFree_freed htable₃ hqueues₃ hqQueue
          (by
            rw [hq₃, hp]
            exact (h.queues.flags p).free_eq_false (.inr (.inr (.inr hok.limbo))))
          (by
            rw [hq₃]
            intro hfalse
            cases hfalse)
        obtain rfl := Option.some.inj (hfreeq.symm.trans hs₄)
        have hsame₃ := hfreed.same (by rw [hq₃])
        refine ih ⟨?_, ?_, ?_⟩ ?_ hdone
        · obtain ⟨hbucket, hmemq, hobject, hunique, hcounts⟩ := hfreed.table
          exact ⟨hbucket, hmemq, hobject, hunique, hcounts⟩
        · obtain ⟨hflags, hfree, hzone, hactive, hinactive, hlimbo, hnodup, hfreeCount,
            hactiveCount, hinactiveCount, hwireCount, hgobbleCount⟩ := hfreed.queues
          exact ⟨hflags, hfree, hzone, hactive, hinactive, hlimbo, hnodup, hfreeCount,
            hactiveCount, hinactiveCount, hwireCount, hgobbleCount⟩
        · apply hexchange.limbo.congr
          · refine ⟨hsame₃.queueLimbo.trans hqueue₃, ?_, ?_⟩
            · rw [← hs₃] at hsame₃
              exact hsame₃.limboCount
            · rw [← hs₃] at hsame₃
              exact congrArg (· - 1) hsame₃.limboRealCount
          · intro r hr
            have hrq : r ≠ q := by
              rintro rfl
              apply hqQueue
              rw [hqueue₃]
              exact hr
            have hpage₃ := hfreed.page r hrq
            rw [← hs₃] at hpage₃
            exact congrArg ResidentPage.fictitious hpage₃
        · have hreal₃ := hsame₃.limboRealCount
          rw [← hs₃] at hreal₃
          have hreal₁ := hsame.limbo.limboRealCount
          dsimp only [vmPageLimboExchange, ResidentState.setPage] at hreal₃ ⊢
          omega

/-- `cleanup_limbo_queue`. -/
theorem Accounted.cleanup [DecidableEq Obj] (h : Accounted hash s)
    (hdone : s.cleanupLimboQueue hash = some s') : Accounted hash s' := by
  obtain ⟨s₁, hfree, hexchange⟩ := bind_eq_some_iff.mp hdone
  have hacc := h.freeUnprepped (fun _ hp => hp) h.queues.nodup hfree
  refine hacc.exchangeReal ?_ hexchange
  rw [hacc.limbo.realCount]
  simp

end Cleanup

end ResidentState

end MachVirtuTerm
