import MachVirtuTerm.Vm.ResidentInv

/-!
# The queues of resident pages

What each routine does to one page leaves queues, flags and counters in agreement.
-/

open Function List

namespace MachVirtuTerm

variable {Page Obj : Type} {s s' : ResidentState Page Obj} {p q : Page} {m : ResidentPage Obj}

namespace ResidentState

/-- The limbo queue and its counters are the same. -/
structure SameLimbo (s s' : ResidentState Page Obj) : Prop where
  queueLimbo : s'.queueLimbo = s.queueLimbo
  limboCount : s'.limboCount = s.limboCount
  limboRealCount : s'.limboRealCount = s.limboRealCount

theorem SameLimbo.trans {s'' : ResidentState Page Obj} (h : SameLimbo s s')
    (h' : SameLimbo s' s'') : SameLimbo s s'' where
  queueLimbo := h'.queueLimbo.trans h.queueLimbo
  limboCount := h'.limboCount.trans h.limboCount
  limboRealCount := h'.limboRealCount.trans h.limboRealCount

/-- The table and the limbo queue are the same. -/
structure SameElsewhere (s s' : ResidentState Page Obj) : Prop where
  bucket : s'.bucket = s.bucket
  memq : s'.memq = s.memq
  residentPageCount : s'.residentPageCount = s.residentPageCount
  limbo : SameLimbo s s'

theorem SameElsewhere.trans {s'' : ResidentState Page Obj} (h : SameElsewhere s s')
    (h' : SameElsewhere s' s'') : SameElsewhere s s'' where
  bucket := h'.bucket.trans h.bucket
  memq := h'.memq.trans h.memq
  residentPageCount := h'.residentPageCount.trans h.residentPageCount
  limbo := h.limbo.trans h'.limbo

section Limbo

/-- The limbo queue is the same, and its pages have memory if they had. -/
theorem LimboInv.congr (h : LimboInv s) (hsame : SameLimbo s s')
    (hpage : ∀ p ∈ s.queueLimbo, (s'.page p).fictitious = (s.page p).fictitious) :
    LimboInv s' := by
  obtain ⟨hqueue, hcount, hreal⟩ := hsame
  constructor
  · rw [hqueue]
    apply h.order.imp_of_mem
    intro p q hp hq himp
    rw [hpage p hp, hpage q hq]
    exact himp
  · rw [hqueue, hcount]
    exact h.count
  · rw [hqueue, hreal, h.realCount]
    congr 2
    apply filter_congr
    intro p hp
    rw [hpage p hp]

/-- While real pages are counted, the first page on the limbo queue is real. -/
theorem LimboInv.head_real (h : LimboInv s) {rest : List Page}
    (hqueue : s.queueLimbo = p :: rest) (hpos : 0 < s.limboRealCount) :
    (s.page p).fictitious = false := by
  apply Bool.eq_false_iff.mpr
  intro hfict
  have horder := h.order
  rw [hqueue] at horder
  have hall := (pairwise_cons.mp horder).1
  have hnone : s.queueLimbo.filter (fun q => !(s.page q).fictitious) = [] := by
    rw [hqueue, filter_eq_nil_iff]
    intro q hq
    rcases mem_cons.mp hq with rfl | hq
    · simp [hfict]
    · simp [hall q hq hfict]
  rw [h.realCount, hnone] at hpos
  simp at hpos

/-- It goes before or after the others, by whether it has memory. -/
theorem LimboInv.releaseLimbo (h : LimboInv s) : LimboInv (s.vmPageReleaseLimbo p) := by
  unfold vmPageReleaseLimbo
  split
  next hfict =>
    constructor
    · refine pairwise_append.mpr ⟨h.order, pairwise_singleton _ _, ?_⟩
      intro q _ r hr _
      rw [mem_singleton.mp hr]
      exact hfict
    · simp [h.count]
    · simp [h.realCount, filter_append, hfict]
  next hreal =>
    constructor
    · refine pairwise_cons.mpr ⟨?_, h.order⟩
      intro q _ hfict
      exact absurd hfict hreal
    · simp [h.count]
    · simp [h.realCount, hreal]

variable [Fintype Page]

/-- Free pages are not in limbo. -/
theorem QueueInv.notMem_limbo (h : QueueInv s) (hfree : (s.page p).free = true) :
    p ∉ s.queueLimbo := by
  intro hmem
  have hlimbo := (h.limbo p hmem).limbo
  rw [((h.flags p).free hfree).2.1] at hlimbo
  cases hlimbo

/-- Pages in the table are not in limbo. -/
theorem QueueInv.notMem_limbo_of_tabled (h : QueueInv s) (htabled : (s.page p).tabled = true) :
    p ∉ s.queueLimbo := by
  intro hmem
  have hfalse := (h.limbo p hmem).tabled
  rw [htabled] at hfalse
  cases hfalse

/-- A page that is not in use goes to the limbo queue. -/
theorem QueueInv.releaseLimbo (h : QueueInv s) (hok : (s.page p).LimboOk)
    (hqueue : p ∉ s.queueLimbo) : QueueInv (s.vmPageReleaseLimbo p) := by
  have hmem (q : Page) : q ∈ (s.vmPageReleaseLimbo p).queueLimbo ↔ q = p ∨ q ∈ s.queueLimbo := by
    unfold vmPageReleaseLimbo
    split
    · simp [or_comm]
    · simp
  have hpage : (s.vmPageReleaseLimbo p).page = s.page := by
    unfold vmPageReleaseLimbo
    split <;> rfl
  have hnodup : (s.vmPageReleaseLimbo p).queueLimbo.Nodup := by
    unfold vmPageReleaseLimbo
    split
    · exact (perm_append_singleton p s.queueLimbo).nodup_iff.mpr (nodup_cons.mpr ⟨hqueue, h.nodup⟩)
    · exact nodup_cons.mpr ⟨hqueue, h.nodup⟩
  have hlimbo : ∀ q ∈ (s.vmPageReleaseLimbo p).queueLimbo, (s.page q).LimboOk := by
    intro q hq
    rcases (hmem q).mp hq with rfl | hq
    · exact hok
    · exact h.limbo q hq
  obtain ⟨hflags, hfree, hzone, hactive, hinactive, -, -, hfreeCount, hactiveCount,
    hinactiveCount, hwireCount, hgobbleCount⟩ := h
  unfold vmPageReleaseLimbo at *
  split at hpage <;> rename_i hfict
  · simp only [hfict, if_true] at hnodup hlimbo ⊢
    exact ⟨hflags, hfree, hzone, hactive, hinactive, hlimbo, hnodup, hfreeCount, hactiveCount,
      hinactiveCount, hwireCount, hgobbleCount⟩
  · simp only [hfict, Bool.false_eq_true, if_false] at hnodup hlimbo ⊢
    exact ⟨hflags, hfree, hzone, hactive, hinactive, hlimbo, hnodup, hfreeCount, hactiveCount,
      hinactiveCount, hwireCount, hgobbleCount⟩

end Limbo

variable [DecidableEq Page]

/-- One page changes, and the lists and counters with it. -/
theorem QueueInv.update [Fintype Page] (h : QueueInv s) (hpage : s'.page = Function.update s.page p m)
    (hflags : m.FlagsOk)
    (hfree : Tracks s'.queueFree ResidentPage.FreeReal (Function.update s.page p m))
    (hzone : Tracks s'.zone ResidentPage.FreeFictitious (Function.update s.page p m))
    (hactive : Tracks s'.queueActive (fun m => m.active = true) (Function.update s.page p m))
    (hinactive : Tracks s'.queueInactive (fun m => m.inactive = true) (Function.update s.page p m))
    (hlimbo : p ∉ s.queueLimbo) (hsame : s'.queueLimbo = s.queueLimbo)
    (hfreeCount : s'.freeCount = s.freeCount - weight ResidentPage.FreeReal (s.page p) +
      weight ResidentPage.FreeReal m)
    (hactiveCount : s'.activeCount = s.activeCount - weight ResidentPage.ActiveReal (s.page p) +
      weight ResidentPage.ActiveReal m)
    (hinactiveCount : s'.inactiveCount =
      s.inactiveCount - weight ResidentPage.InactiveReal (s.page p) + weight ResidentPage.InactiveReal m)
    (hwireCount : s'.wireCount = s.wireCount - weight ResidentPage.Wired (s.page p) +
      weight ResidentPage.Wired m)
    (hgobbleCount : s'.gobbleCount = s.gobbleCount -
      weight (fun m : ResidentPage Obj => m.gobbled = true) (s.page p) +
        weight (fun m : ResidentPage Obj => m.gobbled = true) m) :
    QueueInv s' := by
  constructor
  · intro q
    rw [hpage]
    by_cases hq : q = p
    · subst hq
      rw [update_self]
      exact hflags
    · rw [update_of_ne hq]
      exact h.flags q
  · rw [hpage]
    exact hfree
  · rw [hpage]
    exact hzone
  · rw [hpage]
    exact hactive
  · rw [hpage]
    exact hinactive
  · intro q hq
    rw [hsame] at hq
    have hne : q ≠ p := fun heq => hlimbo (heq ▸ hq)
    rw [hpage, update_of_ne hne]
    exact h.limbo q hq
  · rw [hsame]
    exact h.nodup
  · rw [hfreeCount, hpage, countWhere_update, h.freeCount]
  · rw [hactiveCount, hpage, countWhere_update, h.activeCount]
  · rw [hinactiveCount, hpage, countWhere_update, h.inactiveCount]
  · rw [hwireCount, hpage, countWhere_update, h.wireCount]
  · rw [hgobbleCount, hpage, countWhere_update, h.gobbleCount]

/-- A page stays on its queue or on none, and only whether it is wired or gobbled changes. -/
theorem QueueInv.retag [Fintype Page] (h : QueueInv s) (hpage : s'.page = Function.update s.page p m)
    (hflags : m.FlagsOk) (hfree : m.free = (s.page p).free)
    (hfictitious : m.fictitious = (s.page p).fictitious) (hactive : m.active = (s.page p).active)
    (hinactive : m.inactive = (s.page p).inactive) (hlimbo : p ∉ s.queueLimbo)
    (hlists : s'.queueFree = s.queueFree ∧ s'.zone = s.zone ∧ s'.queueActive = s.queueActive ∧
      s'.queueInactive = s.queueInactive ∧ s'.queueLimbo = s.queueLimbo)
    (hcounts : s'.freeCount = s.freeCount ∧ s'.activeCount = s.activeCount ∧
      s'.inactiveCount = s.inactiveCount)
    (hwireCount : s'.wireCount = s.wireCount - weight ResidentPage.Wired (s.page p) +
      weight ResidentPage.Wired m)
    (hgobbleCount : s'.gobbleCount = s.gobbleCount -
      weight (fun m : ResidentPage Obj => m.gobbled = true) (s.page p) +
        weight (fun m : ResidentPage Obj => m.gobbled = true) m) :
    QueueInv s' := by
  obtain ⟨hqueueFree, hzone, hqueueActive, hqueueInactive, hqueueLimbo⟩ := hlists
  obtain ⟨hfreeCount, hactiveCount, hinactiveCount⟩ := hcounts
  have hfreeSame : m.FreeReal ↔ (s.page p).FreeReal := by
    unfold ResidentPage.FreeReal
    rw [hfree, hfictitious]
  have hactiveSame : m.ActiveReal ↔ (s.page p).ActiveReal := by
    unfold ResidentPage.ActiveReal
    rw [hactive, hfictitious]
  have hinactiveSame : m.InactiveReal ↔ (s.page p).InactiveReal := by
    unfold ResidentPage.InactiveReal
    rw [hinactive, hfictitious]
  apply h.update hpage hflags
  · rw [hqueueFree]
    exact h.free.congr hfreeSame
  · rw [hzone]
    exact h.zone.congr (by unfold ResidentPage.FreeFictitious; rw [hfree, hfictitious])
  · rw [hqueueActive]
    exact h.active.congr (by rw [hactive])
  · rw [hqueueInactive]
    exact h.inactive.congr (by rw [hinactive])
  · exact hlimbo
  · exact hqueueLimbo
  · rw [hfreeCount, weight_congr hfreeSame, sub_add_cancel]
  · rw [hactiveCount, weight_congr hactiveSame, sub_add_cancel]
  · rw [hinactiveCount, weight_congr hinactiveSame, sub_add_cancel]
  · exact hwireCount
  · exact hgobbleCount

section Remove

section

variable (s : ResidentState Page Obj)

variable (p : Page)

theorem activeRemove_page :
    (s.activeRemove p).page = Function.update s.page p { s.page p with active := false } := by
  unfold activeRemove
  split
  · rfl
  next hfalse =>
    have hsame : { s.page p with active := false } = s.page p := by
      rw [← Bool.eq_false_iff.mpr hfalse]
    rw [hsame, update_eq_self]

theorem inactiveRemove_page :
    (s.inactiveRemove p).page = Function.update s.page p { s.page p with inactive := false } := by
  unfold inactiveRemove
  split
  · rfl
  next hfalse =>
    have hsame : { s.page p with inactive := false } = s.page p := by
      rw [← Bool.eq_false_iff.mpr hfalse]
    rw [hsame, update_eq_self]

/-- `VM_PAGE_QUEUES_REMOVE` changes two flags of the page. -/
theorem queuesRemove_page : (s.queuesRemove p).page = Function.update s.page p { s.page p with
      active := false
      inactive := false } := by
  unfold queuesRemove
  rw [inactiveRemove_page, activeRemove_page, update_self, update_idem]

theorem activeRemove_same : SameElsewhere s (s.activeRemove p) := by
  unfold ResidentState.activeRemove
  split
  · exact ⟨rfl, rfl, rfl, ⟨rfl, rfl, rfl⟩⟩
  · exact ⟨rfl, rfl, rfl, ⟨rfl, rfl, rfl⟩⟩

theorem inactiveRemove_same : SameElsewhere s (s.inactiveRemove p) := by
  unfold ResidentState.inactiveRemove
  split
  · exact ⟨rfl, rfl, rfl, ⟨rfl, rfl, rfl⟩⟩
  · exact ⟨rfl, rfl, rfl, ⟨rfl, rfl, rfl⟩⟩

/-- `VM_PAGE_QUEUES_REMOVE` leaves the rest alone. -/
theorem queuesRemove_same : SameElsewhere s (s.queuesRemove p) :=
  (activeRemove_same s p).trans (inactiveRemove_same _ p)

end

variable [Fintype Page]

/-- A page that leaves the active list leaves the rest in agreement. -/
theorem QueueInv.activeRemove (h : QueueInv s) (hlimbo : p ∉ s.queueLimbo) :
    QueueInv (s.activeRemove p) := by
  have hflags := h.flags p
  unfold ResidentState.activeRemove
  split
  next hactive =>
    obtain ⟨hwire, hgobbled, hshadow, hfree⟩ := hflags.queued (.inl hactive)
    apply h.update rfl
    · constructor
      · intro htrue
        cases htrue
      · intro hq
        rcases hq with hq | hq
        · cases hq
        · exact hflags.queued (.inr hq)
      · exact hflags.gobbled
      · exact hflags.free
    · exact h.free.congr Iff.rfl
    · exact h.zone.congr Iff.rfl
    · exact h.active.erase Bool.false_ne_true
    · exact h.inactive.congr Iff.rfl
    · exact hlimbo
    · rfl
    · exact (sub_add_cancel _ _).symm
    · cases hfict : (s.page p).fictitious with
      | true => simp [weight, ResidentPage.ActiveReal, hfict]
      | false => simp [weight, ResidentPage.ActiveReal, hfict, hactive]
    · exact (sub_add_cancel _ _).symm
    · exact (sub_add_cancel _ _).symm
    · exact (sub_add_cancel _ _).symm
  next => exact h

/-- A page that leaves the inactive list leaves the rest in agreement. -/
theorem QueueInv.inactiveRemove (h : QueueInv s) (hlimbo : p ∉ s.queueLimbo) :
    QueueInv (s.inactiveRemove p) := by
  have hflags := h.flags p
  unfold ResidentState.inactiveRemove
  split
  next hinactive =>
    apply h.update rfl
    · constructor
      · intro htrue
        rfl
      · intro hq
        rcases hq with hq | hq
        · exact hflags.queued (.inl hq)
        · cases hq
      · exact hflags.gobbled
      · exact hflags.free
    · exact h.free.congr Iff.rfl
    · exact h.zone.congr Iff.rfl
    · exact h.active.congr Iff.rfl
    · exact h.inactive.erase Bool.false_ne_true
    · exact hlimbo
    · rfl
    · exact (sub_add_cancel _ _).symm
    · exact (sub_add_cancel _ _).symm
    · cases hfict : (s.page p).fictitious with
      | true => simp [weight, ResidentPage.InactiveReal, hfict]
      | false => simp [weight, ResidentPage.InactiveReal, hfict, hinactive]
    · exact (sub_add_cancel _ _).symm
    · exact (sub_add_cancel _ _).symm
  next => exact h

/-- A page that is taken from its queue leaves the rest in agreement. -/
theorem QueueInv.queuesRemove (h : QueueInv s) (hlimbo : p ∉ s.queueLimbo) :
    QueueInv (s.queuesRemove p) := by
  have hsame := (activeRemove_same s p).limbo.queueLimbo
  exact (h.activeRemove hlimbo).inactiveRemove (by rwa [hsame])

end Remove

section Free

variable [Fintype Page]

/-- The page is on no queue, in no table, and not in use. -/
structure Loose (m : ResidentPage Obj) : Prop where
  active : m.active = false
  inactive : m.inactive = false
  wireCount : m.wireCount = 0
  gobbled : m.gobbled = false
  free : m.free = false
  tabled : m.tabled = false

/-- `vm_page_grab` hands out a page that was free. -/
theorem QueueInv.grab (h : QueueInv s) {privilege : Bool} {r : Option Page}
    (hgrab : s.vmPageGrab privilege = some (s', r)) :
    QueueInv s' ∧ ((r = none ∧ s' = s) ∨ ∃ p, r = some p ∧ (s.page p).FreeReal ∧
      s'.page = Function.update s.page p { s.page p with free := false } ∧
      SameElsewhere s s') := by
  unfold vmPageGrab at hgrab
  split at hgrab
  · cases hgrab
    exact ⟨h, .inl ⟨rfl, rfl⟩⟩
  · split at hgrab
    · cases hgrab
    next p rest hqueue =>
      cases hgrab
      have hmem : p ∈ s.queueFree := by
        rw [hqueue]
        exact mem_cons_self ..
      have hreal := (h.free.mem p).mp hmem
      obtain ⟨hwire, -, htabled, hshadow⟩ := (h.flags p).free hreal.1
      refine ⟨?_, .inr ⟨p, rfl, hreal, rfl, rfl, rfl, rfl, ⟨rfl, rfl, rfl⟩⟩⟩
      apply h.update rfl
      · constructor
        · exact (h.flags p).active
        · intro hq
          have hnot := ((h.flags p).queued hq).2.2.2
          rw [hreal.1] at hnot
          cases hnot
        · intro hgobbled
          exact ⟨hwire, rfl⟩
        · intro hfree
          cases hfree
      · have herase : rest = s.queueFree.erase p := by rw [hqueue, erase_cons_head]
        rw [herase]
        exact h.free.erase fun hnew => Bool.false_ne_true hnew.1
      · apply h.zone.congr
        refine iff_of_false (fun hnew => Bool.false_ne_true hnew.1) ?_
        intro hold
        exact Bool.false_ne_true (hreal.2.symm.trans hold.2)
      · exact h.active.congr Iff.rfl
      · exact h.inactive.congr Iff.rfl
      · exact h.notMem_limbo hreal.1
      · rfl
      · simp [weight, ResidentPage.FreeReal, hreal.1, hreal.2]
      · exact (sub_add_cancel _ _).symm
      · exact (sub_add_cancel _ _).symm
      · exact (sub_add_cancel _ _).symm
      · exact (sub_add_cancel _ _).symm

/-- The flags of a page structure that is free. -/
theorem flagsOk_free (hloose : Loose m) (hlimbo : m.limbo = false) (hshadow : m.shadow = false) :
    ResidentPage.FlagsOk { m with free := true } := by
  constructor
  · intro hactive
    exact hloose.inactive
  · rintro (hq | hq)
    · exact absurd (hloose.active.symm.trans hq) Bool.false_ne_true
    · exact absurd (hloose.inactive.symm.trans hq) Bool.false_ne_true
  · intro hgobbled
    exact absurd (hloose.gobbled.symm.trans hgobbled) Bool.false_ne_true
  · intro _
    exact ⟨hloose.wireCount, hlimbo, hloose.tabled, hshadow⟩

/-- `vm_page_release` takes back a page that is not in use. -/
theorem QueueInv.release (h : QueueInv s) (hloose : Loose (s.page p))
    (hlimbo : (s.page p).limbo = false) (hreal : (s.page p).Real) (hqueue : p ∉ s.queueLimbo) :
    ∃ s', s.vmPageRelease p = some s' ∧ QueueInv s' ∧ SameElsewhere s s' ∧
      s'.page = Function.update s.page p { s.page p with free := true } := by
  unfold vmPageRelease
  rw [hloose.free, if_neg Bool.false_ne_true]
  refine ⟨_, rfl, ?_, ⟨rfl, rfl, rfl, ⟨rfl, rfl, rfl⟩⟩, rfl⟩
  apply h.update rfl
  · exact flagsOk_free hloose hlimbo hreal.1
  · exact h.free.cons (fun hold => Bool.false_ne_true (hloose.free.symm.trans hold.1))
      ⟨rfl, hreal.2⟩
  · apply h.zone.congr
    refine iff_of_false (fun hnew => ?_) fun hold => ?_
    · exact Bool.false_ne_true (hreal.2.symm.trans hnew.2)
    · exact Bool.false_ne_true (hreal.2.symm.trans hold.2)
  · exact h.active.congr Iff.rfl
  · exact h.inactive.congr Iff.rfl
  · exact hqueue
  · rfl
  · simp [weight, ResidentPage.FreeReal, hloose.free, hreal.2]
  · exact (sub_add_cancel _ _).symm
  · exact (sub_add_cancel _ _).symm
  · exact (sub_add_cancel _ _).symm
  · exact (sub_add_cancel _ _).symm

/-- `vm_page_release_fictitious` takes back a page structure that is not in use. -/
theorem QueueInv.releaseFictitious (h : QueueInv s) (hloose : Loose (s.page p))
    (hlimbo : (s.page p).limbo = false) (hfictitious : (s.page p).fictitious = true)
    (hshadow : (s.page p).shadow = false) (hqueue : p ∉ s.queueLimbo) :
    ∃ s', s.vmPageReleaseFictitious p = some s' ∧ QueueInv s' ∧ SameElsewhere s s' ∧
      s'.page = Function.update s.page p { s.page p with free := true } := by
  unfold vmPageReleaseFictitious
  rw [hloose.free, if_neg Bool.false_ne_true]
  refine ⟨_, rfl, ?_, ⟨rfl, rfl, rfl, ⟨rfl, rfl, rfl⟩⟩, rfl⟩
  apply h.update rfl
  · exact flagsOk_free hloose hlimbo hshadow
  · apply h.free.congr
    refine iff_of_false (fun hnew => ?_) fun hold => ?_
    · exact Bool.false_ne_true (hnew.2.symm.trans hfictitious)
    · exact Bool.false_ne_true (hold.2.symm.trans hfictitious)
  · exact h.zone.cons (fun hold => Bool.false_ne_true (hloose.free.symm.trans hold.1))
      ⟨rfl, hfictitious⟩
  · exact h.active.congr Iff.rfl
  · exact h.inactive.congr Iff.rfl
  · exact hqueue
  · rfl
  · simp [weight, ResidentPage.FreeReal, hfictitious, setPage]
  · exact (sub_add_cancel _ _).symm
  · exact (sub_add_cancel _ _).symm
  · exact (sub_add_cancel _ _).symm
  · exact (sub_add_cancel _ _).symm

/-- `vm_page_free` of a page that is on no queue: it is not wired, gobbled or in the laundry. -/
theorem QueueInv.clearPage (h : QueueInv s) (hqueue : p ∉ s.queueLimbo) :
    QueueInv (s.clearPage p) := by
  have hflags := h.flags p
  unfold ResidentState.clearPage
  apply h.retag rfl
  · constructor
    · exact hflags.active
    · intro hq
      obtain ⟨-, -, hshadow, hfree⟩ := hflags.queued hq
      exact ⟨rfl, rfl, hshadow, hfree⟩
    · intro hfalse
      cases hfalse
    · intro hfree
      obtain ⟨-, hlimbo, htabled, hshadow⟩ := hflags.free hfree
      exact ⟨rfl, hlimbo, htabled, hshadow⟩
  · rfl
  · rfl
  · rfl
  · rfl
  · exact hqueue
  · exact ⟨rfl, rfl, rfl, rfl, rfl⟩
  · exact ⟨rfl, rfl, rfl⟩
  · have hnew : weight ResidentPage.Wired { s.page p with
        clustered := false
        wireCount := 0
        gobbled := false
        laundry := false } = 0 := by
      apply if_neg
      rintro ⟨-, hwire | hgobbled⟩
      · exact hwire rfl
      · cases hgobbled
    by_cases hwired : (s.page p).Wired
    · rw [hnew, weight, if_pos hwired]
      have hboth : ((s.page p).wireCount ≠ 0 ∨ (s.page p).gobbled = true) ∧
          (s.page p).Real := hwired.symm
      simp only [if_pos hboth, add_zero]
    · rw [hnew, weight, if_neg hwired]
      have hnot : ¬ (((s.page p).wireCount ≠ 0 ∨ (s.page p).gobbled = true) ∧
          (s.page p).Real) := fun hboth => hwired hboth.symm
      simp only [if_neg hnot, sub_zero, add_zero]
  · by_cases hgobbled : (s.page p).gobbled = true
    · simp [weight, hgobbled, (hflags.gobbled hgobbled).1]
    · simp [weight, hgobbled]

end Free

end ResidentState

end MachVirtuTerm
