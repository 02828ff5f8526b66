import MachVirtuTerm.Vm.ResidentFree

/-!
# Wiring, activating and deactivating a page

What these routines do to one page leaves everything accounted for.
-/

open Function

namespace MachVirtuTerm

open ResidentState Bool

variable {Page Obj : Type}

section Flags

/-- A page that is used is not free. -/
theorem ResidentPage.FlagsOk.free_eq_false {m : ResidentPage Obj} (h : m.FlagsOk)
    (hused : m.wireCount ≠ 0 ∨ m.gobbled = true ∨ m.tabled = true ∨ m.limbo = true) :
    m.free = false := by
  apply eq_false_iff.mpr
  intro hfree
  obtain ⟨hwire, hlimbo, htabled, -⟩ := h.free hfree
  rcases hused with hused | hused | hused | hused
  · exact hused hwire
  · exact false_ne_true ((h.gobbled hused).2.symm.trans hfree)
  · exact false_ne_true (htabled.symm.trans hused)
  · exact false_ne_true (hlimbo.symm.trans hused)

/-- A wired page is on no queue. -/
theorem ResidentPage.FlagsOk.notQueued {m : ResidentPage Obj} (h : m.FlagsOk) (hwire : m.wireCount ≠ 0) :
    m.active = false ∧ m.inactive = false ∧ m.gobbled = false := by
  refine ⟨?_, ?_, ?_⟩
  · apply eq_false_iff.mpr
    intro hactive
    exact hwire (h.queued (.inl hactive)).1
  · apply eq_false_iff.mpr
    intro hinactive
    exact hwire (h.queued (.inr hinactive)).1
  · apply eq_false_iff.mpr
    intro hgobbled
    exact hwire (h.gobbled hgobbled).1

end Flags

variable [DecidableEq Page] [Fintype Page] {hash : Obj → ℕ → ℕ} {s s' : ResidentState Page Obj}
  {p : Page} {m : ResidentPage Obj}

namespace ResidentState

/-- Table, queues and counters agree with the pages. -/
structure Accounted [Fintype Page] (hash : Obj → ℕ → ℕ) (s : ResidentState Page Obj) :
    Prop where
  table : TableInv hash s
  queues : QueueInv s
  limbo : LimboInv s

/-- A page changes that stays at its place and out of limbo. -/
theorem Accounted.of_update (h : Accounted hash s) (hqueues : QueueInv s')
    (hsame : SameElsewhere s s') (hpage : s'.page = update s.page p m)
    (hplace : m.tabled = (s.page p).tabled ∧ m.object = (s.page p).object ∧
      m.offset = (s.page p).offset) (hqueue : p ∉ s.queueLimbo) : Accounted hash s' := by
  constructor
  · exact h.table.setPage hplace.1 (fun _ => hplace.2) hpage hsame.bucket hsame.memq
      hsame.residentPageCount
  · exact hqueues
  · exact h.limbo.setPage hqueue hpage hsame.limbo

section Wire

/-- The first wiring takes the page off its queue, and counts it unless it is gobbled already. -/
theorem QueueInv.wireFirst (h : QueueInv s) (hqueue : p ∉ s.queueLimbo)
    (hfree : (s.page p).free = false) (hwire : (s.page p).wireCount = 0) :
    QueueInv (s.vmPageWire p) := by
  unfold vmPageWire
  rw [if_pos hwire]
  have hremoved := h.queuesRemove hqueue
  have hqueue' : p ∉ (s.queuesRemove p).queueLimbo := by
    rwa [(queuesRemove_same s p).limbo.queueLimbo]
  have hpage : (s.queuesRemove p).page p = { s.page p with
      active := false
      inactive := false } := by
    rw [queuesRemove_page, update_self]
  have hone : (s.page p).wireCount + 1 ≠ 0 := by
    rw [hwire]
    decide
  apply hremoved.retag rfl
  · rw [hpage]
    constructor
    · intro hfalse
      cases hfalse
    · rintro (hfalse | hfalse)
      · cases hfalse
      · cases hfalse
    · intro hfalse
      cases hfalse
    · intro htrue
      rw [hfree] at htrue
      cases htrue
  · rfl
  · rfl
  · rfl
  · rfl
  · exact hqueue'
  · exact ⟨rfl, rfl, rfl, rfl, rfl⟩
  · exact ⟨rfl, rfl, rfl⟩
  · by_cases hreal : (s.page p).Real
    · cases hgobbled : (s.page p).gobbled with
      | true => simp [weight, ResidentPage.Wired, ResidentPage.Real, hpage, hreal.1, hreal.2, hgobbled, hwire]
      | false => simp [weight, ResidentPage.Wired, ResidentPage.Real, hpage, hreal.1, hreal.2, hgobbled, hwire]
    · have hold : ¬ ((s.queuesRemove p).page p).Wired := by
        rw [hpage]
        exact fun hwired => hreal hwired.1
      have hnot : ¬ (((s.queuesRemove p).page p).Real ∧
          ((s.queuesRemove p).page p).gobbled = false) := by
        rw [hpage]
        exact fun hboth => hreal hboth.1
      have hnew : ¬ ResidentPage.Wired { (s.queuesRemove p).page p with
          gobbled := false
          wireCount := ((s.queuesRemove p).page p).wireCount + 1 } := by
        rw [hpage]
        exact fun hwired => hreal hwired.1
      rw [weight, if_neg hold, weight, if_neg hnew]
      simp only [if_neg hnot, sub_zero, add_zero]
  · cases hgobbled : (s.page p).gobbled with
    | true => simp [weight, hpage, hgobbled]
    | false => simp [weight, hpage, hgobbled]

/-- A page that is wired stays so with another count. -/
theorem QueueInv.rewire (h : QueueInv s) (hwire : (s.page p).wireCount ≠ 0) {n : BitVec 16}
    (hn : n ≠ 0) : QueueInv (s.setPage p { s.page p with wireCount := n }) := by
  have hflags := h.flags p
  obtain ⟨hactive, hinactive, hgobbled⟩ := hflags.notQueued hwire
  have hfree := hflags.free_eq_false (.inl hwire)
  apply h.retag rfl
  · constructor
    · exact hflags.active
    · rintro (hfalse | hfalse)
      · exact absurd (hactive.symm.trans hfalse) false_ne_true
      · exact absurd (hinactive.symm.trans hfalse) false_ne_true
    · intro hfalse
      exact absurd (hgobbled.symm.trans hfalse) false_ne_true
    · intro hfalse
      exact absurd (hfree.symm.trans hfalse) false_ne_true
  · rfl
  · rfl
  · rfl
  · rfl
  · intro hmem
    exact hwire (h.limbo p hmem).wireCount
  · exact ⟨rfl, rfl, rfl, rfl, rfl⟩
  · exact ⟨rfl, rfl, rfl⟩
  · have hsame : ResidentPage.Wired { s.page p with wireCount := n } ↔
        (s.page p).Wired := by
      apply and_congr_right
      intro _
      exact iff_of_true (.inl hn) (.inl hwire)
    rw [weight_congr hsame, sub_add_cancel]
    rfl
  · exact (sub_add_cancel _ _).symm

/-- `vm_page_wire`, where the wire count does not wrap. -/
theorem Accounted.wire (h : Accounted hash s) (hqueue : p ∉ s.queueLimbo)
    (hfree : (s.page p).free = false) (hbound : (s.page p).wireCount ≠ 65535) :
    Accounted hash (s.vmPageWire p) := by
  have hnext : (s.page p).wireCount + 1 ≠ 0 := by
    intro hzero
    apply hbound
    bv_omega
  by_cases hwire : (s.page p).wireCount = 0
  · have hinv := h.queues.wireFirst hqueue hfree hwire
    have hsame := queuesRemove_same s p
    apply h.of_update (p := p) (m := { s.page p with
      active := false
      inactive := false
      gobbled := false
      wireCount := (s.page p).wireCount + 1 }) hinv
    · unfold vmPageWire
      rw [if_pos hwire]
      exact ⟨hsame.bucket, hsame.memq, hsame.residentPageCount, hsame.limbo.queueLimbo,
        hsame.limbo.limboCount, hsame.limbo.limboRealCount⟩
    · unfold vmPageWire
      rw [if_pos hwire]
      simp only [setPage]
      rw [queuesRemove_page, update_self, update_idem]
    · exact ⟨rfl, rfl, rfl⟩
    · exact hqueue
  · unfold vmPageWire
    rw [if_neg hwire]
    exact h.of_update (h.queues.rewire hwire hnext) ⟨rfl, rfl, rfl, ⟨rfl, rfl, rfl⟩⟩ rfl
      ⟨rfl, rfl, rfl⟩ hqueue

/-- `vm_page_gobble` of a page that was just grabbed. -/
theorem Accounted.gobble (h : Accounted hash s) (hqueue : p ∉ s.queueLimbo)
    (hfree : (s.page p).free = false) (hactive : (s.page p).active = false)
    (hinactive : (s.page p).inactive = false) (hgobbled : (s.page p).gobbled = false)
    (hwire : (s.page p).wireCount = 0) : Accounted hash (s.vmPageGobble p) := by
  have hinv : QueueInv (s.vmPageGobble p) := by
    apply h.queues.retag rfl
    · constructor
      · exact (h.queues.flags p).active
      · rintro (hfalse | hfalse)
        · exact absurd (hactive.symm.trans hfalse) false_ne_true
        · exact absurd (hinactive.symm.trans hfalse) false_ne_true
      · intro _
        exact ⟨hwire, hfree⟩
      · intro hfalse
        exact absurd (hfree.symm.trans hfalse) false_ne_true
    · rfl
    · rfl
    · rfl
    · rfl
    · exact hqueue
    · exact ⟨rfl, rfl, rfl, rfl, rfl⟩
    · exact ⟨rfl, rfl, rfl⟩
    · by_cases hreal : (s.page p).Real
      · simp [vmPageGobble, weight, ResidentPage.Wired, ResidentPage.Real, hreal.1, hreal.2, hgobbled, hwire]
      · have hold : ¬ (s.page p).Wired := fun hwired => hreal hwired.1
        have hnew : ¬ ResidentPage.Wired { s.page p with gobbled := true } :=
          fun hwired => hreal hwired.1
        have hnot : ¬ ((s.page p).gobbled = false ∧ (s.page p).wireCount = 0 ∧
          (s.page p).Real) := fun hall => hreal hall.2.2
        rw [weight, if_neg hold, weight, if_neg hnew]
        simp only [vmPageGobble, if_neg hnot, sub_zero, add_zero]
    · simp [vmPageGobble, weight, hgobbled]
  exact h.of_update hinv ⟨rfl, rfl, rfl, ⟨rfl, rfl, rfl⟩⟩ rfl ⟨rfl, rfl, rfl⟩ hqueue

end Wire

section Activate

/-- The last wiring of a page goes, and the page becomes active. -/
theorem QueueInv.unwireLast (h : QueueInv s) (hwire : (s.page p).wireCount ≠ 0)
    (hreal : (s.page p).Real) (hlast : (s.page p).wireCount - 1 = 0) :
    QueueInv (s.vmPageUnwire p) := by
  have hflags := h.flags p
  obtain ⟨hactive, hinactive, hgobbled⟩ := hflags.notQueued hwire
  have hfree := hflags.free_eq_false (.inl hwire)
  unfold vmPageUnwire
  dsimp only
  rw [if_pos hlast]
  apply h.update rfl
  · constructor
    · intro _
      exact hinactive
    · intro _
      exact ⟨rfl, hgobbled, hreal.1, hfree⟩
    · intro htrue
      exact absurd (hgobbled.symm.trans htrue) false_ne_true
    · intro htrue
      exact absurd (hfree.symm.trans htrue) false_ne_true
  · exact h.free.congr Iff.rfl
  · exact h.zone.congr Iff.rfl
  · exact h.active.append (eq_false_iff.mp hactive) rfl
  · exact h.inactive.congr Iff.rfl
  · intro hmem
    exact hwire (h.limbo p hmem).wireCount
  · rfl
  · exact (sub_add_cancel _ _).symm
  · simp [weight, ResidentPage.ActiveReal, hactive, hreal.2]
  · exact (sub_add_cancel _ _).symm
  · have hold : (s.page p).Wired := ⟨hreal, .inl hwire⟩
    have hnew : ¬ ResidentPage.Wired { s.page p with
        wireCount := 0
        active := true
        reference := true } := by
      rintro ⟨-, hwired | htrue⟩
      · exact hwired rfl
      · exact absurd (hgobbled.symm.trans htrue) false_ne_true
    rw [weight, weight, if_pos hold, if_neg hnew, add_zero]
  · exact (sub_add_cancel _ _).symm

/-- `vm_page_unwire` of a wired page, which is real when it is the last wiring. -/
theorem Accounted.unwire (h : Accounted hash s) (hwire : (s.page p).wireCount ≠ 0)
    (hreal : (s.page p).wireCount = 1 → (s.page p).Real) :
    Accounted hash (s.vmPageUnwire p) := by
  have hqueue : p ∉ s.queueLimbo := fun hmem => hwire (h.queues.limbo p hmem).wireCount
  by_cases hlast : (s.page p).wireCount - 1 = 0
  · have hone : (s.page p).wireCount = 1 := by bv_omega
    have hinv := h.queues.unwireLast hwire (hreal hone) hlast
    unfold vmPageUnwire at hinv ⊢
    dsimp only at hinv ⊢
    rw [if_pos hlast] at hinv ⊢
    exact h.of_update hinv ⟨rfl, rfl, rfl, ⟨rfl, rfl, rfl⟩⟩ rfl ⟨rfl, rfl, rfl⟩ hqueue
  · unfold vmPageUnwire
    dsimp only
    rw [if_neg hlast]
    exact h.of_update (h.queues.rewire hwire hlast) ⟨rfl, rfl, rfl, ⟨rfl, rfl, rfl⟩⟩ rfl
      ⟨rfl, rfl, rfl⟩ hqueue

/-- A gobbled page is given back by the rest of the kernel. -/
theorem QueueInv.ungobble (h : QueueInv s) (hqueue : p ∉ s.queueLimbo) :
    QueueInv (s.ungobble p) := by
  have hflags := h.flags p
  unfold ResidentState.ungobble
  dsimp only
  split
  next hgobbled =>
    obtain ⟨hwire, hfree⟩ := hflags.gobbled hgobbled
    apply h.retag rfl
    · constructor
      · exact hflags.active
      · intro hq
        obtain ⟨-, -, hshadow, -⟩ := hflags.queued hq
        exact ⟨hwire, rfl, hshadow, hfree⟩
      · intro hfalse
        cases hfalse
      · exact hflags.free
    · rfl
    · rfl
    · rfl
    · rfl
    · exact hqueue
    · exact ⟨rfl, rfl, rfl, rfl, rfl⟩
    · exact ⟨rfl, rfl, rfl⟩
    · have hnew : ¬ ResidentPage.Wired { s.page p with gobbled := false } := by
        rintro ⟨-, hwired | hfalse⟩
        · exact hwired hwire
        · cases hfalse
      have hold : (s.page p).Wired ↔ (s.page p).Real :=
        ⟨fun hwired => hwired.1, fun hreal => ⟨hreal, .inr hgobbled⟩⟩
      rw [weight, weight, if_neg hnew]
      by_cases hreal : (s.page p).Real
      · simp only [if_pos hreal, if_pos (hold.mpr hreal), add_zero]
      · simp only [if_neg hreal, if_neg (fun hwired => hreal (hold.mp hwired)), sub_zero, add_zero]
    · simp [weight, hgobbled]
  next => exact h

/-- What `vm_page_deactivate` and `vm_page_activate` do first leaves the page not gobbled. -/
theorem Accounted.ungobble (h : Accounted hash s) (hqueue : p ∉ s.queueLimbo) :
    Accounted hash (s.ungobble p) ∧ ((s.ungobble p).page p).gobbled = false ∧
      ((s.ungobble p).page p).free = (s.page p).free ∧ p ∉ (s.ungobble p).queueLimbo := by
  have hinv := h.queues.ungobble hqueue
  unfold ResidentState.ungobble at hinv ⊢
  dsimp only at hinv ⊢
  split
  next hgobbled =>
    rw [if_pos hgobbled] at hinv
    refine ⟨h.of_update hinv ⟨rfl, rfl, rfl, ⟨rfl, rfl, rfl⟩⟩ rfl ⟨rfl, rfl, rfl⟩ hqueue, ?_, ?_,
      hqueue⟩
    · simp [setPage]
    · simp [setPage]
  next hgobbled => exact ⟨h, eq_false_iff.mpr hgobbled, rfl, hqueue⟩

/-- A page that is on no queue and not in use enters the inactive list. -/
theorem QueueInv.enterInactive (h : QueueInv s) (hqueue : p ∉ s.queueLimbo)
    (hfree : (s.page p).free = false) (hactive : (s.page p).active = false)
    (hinactive : (s.page p).inactive = false) (hgobbled : (s.page p).gobbled = false)
    (hshadow : (s.page p).shadow = false) (hwire : (s.page p).wireCount = 0) :
    QueueInv { s.setPage p { s.page p with inactive := true } with
      queueInactive := s.queueInactive ++ [p]
      inactiveCount := if (s.page p).fictitious then s.inactiveCount else s.inactiveCount + 1 } := by
  apply h.update rfl
  · constructor
    · intro htrue
      exact absurd (hactive.symm.trans htrue) false_ne_true
    · intro _
      exact ⟨hwire, hgobbled, hshadow, hfree⟩
    · intro htrue
      exact absurd (hgobbled.symm.trans htrue) false_ne_true
    · intro htrue
      exact absurd (hfree.symm.trans htrue) false_ne_true
  · exact h.free.congr Iff.rfl
  · exact h.zone.congr Iff.rfl
  · exact h.active.congr Iff.rfl
  · exact h.inactive.append (eq_false_iff.mp hinactive) rfl
  · exact hqueue
  · rfl
  · exact (sub_add_cancel _ _).symm
  · exact (sub_add_cancel _ _).symm
  · cases hfict : (s.page p).fictitious with
    | true => simp [weight, ResidentPage.InactiveReal, hfict]
    | false => simp [weight, ResidentPage.InactiveReal, hfict, hinactive]
  · exact (sub_add_cancel _ _).symm
  · exact (sub_add_cancel _ _).symm

/-- A page that is on no queue and not in use enters the active list. -/
theorem QueueInv.enterActive (h : QueueInv s) (hqueue : p ∉ s.queueLimbo)
    (hfree : (s.page p).free = false) (hactive : (s.page p).active = false)
    (hinactive : (s.page p).inactive = false) (hgobbled : (s.page p).gobbled = false)
    (hshadow : (s.page p).shadow = false) (hwire : (s.page p).wireCount = 0) :
    QueueInv { s.setPage p { s.page p with
        active := true
        reference := true } with
      queueActive := s.queueActive ++ [p]
      activeCount := if (s.page p).fictitious then s.activeCount else s.activeCount + 1 } := by
  apply h.update rfl
  · constructor
    · intro _
      exact hinactive
    · intro _
      exact ⟨hwire, hgobbled, hshadow, hfree⟩
    · intro htrue
      exact absurd (hgobbled.symm.trans htrue) false_ne_true
    · intro htrue
      exact absurd (hfree.symm.trans htrue) false_ne_true
  · exact h.free.congr Iff.rfl
  · exact h.zone.congr Iff.rfl
  · exact h.active.append (eq_false_iff.mp hactive) rfl
  · exact h.inactive.congr Iff.rfl
  · exact hqueue
  · rfl
  · exact (sub_add_cancel _ _).symm
  · cases hfict : (s.page p).fictitious with
    | true => simp [weight, ResidentPage.ActiveReal, hfict]
    | false => simp [weight, ResidentPage.ActiveReal, hfict, hactive]
  · exact (sub_add_cancel _ _).symm
  · exact (sub_add_cancel _ _).symm
  · exact (sub_add_cancel _ _).symm

variable (h : Accounted hash s)

include h

variable (hqueue : p ∉ s.queueLimbo)

include hqueue

/-- The reference bit is cleared. -/
theorem Accounted.setReference :
    Accounted hash (s.setPage p { s.page p with reference := false }) := by
  have hflags := h.queues.flags p
  refine h.of_update ?_ ⟨rfl, rfl, rfl, ⟨rfl, rfl, rfl⟩⟩ rfl ⟨rfl, rfl, rfl⟩ hqueue
  apply h.queues.retag rfl
  · exact ⟨hflags.active, hflags.queued, hflags.gobbled, hflags.free⟩
  · rfl
  · rfl
  · rfl
  · rfl
  · exact hqueue
  · exact ⟨rfl, rfl, rfl, rfl, rfl⟩
  · exact ⟨rfl, rfl, rfl⟩
  · exact (sub_add_cancel _ _).symm
  · exact (sub_add_cancel _ _).symm

/-- `VM_PAGE_QUEUES_REMOVE`. -/
theorem Accounted.queuesRemove : Accounted hash (s.queuesRemove p) :=
  h.of_update (h.queues.queuesRemove hqueue) (queuesRemove_same s p) (queuesRemove_page s p)
    ⟨rfl, rfl, rfl⟩ hqueue

/-- `vm_page_deactivate` of a page that is neither free nor in limbo. -/
theorem Accounted.deactivate
    (hfree : (s.page p).free = false) : Accounted hash (s.vmPageDeactivate p) := by
  obtain ⟨hun, hgobbled, hfree₁, hqueue₁⟩ := h.ungobble hqueue
  rw [hfree] at hfree₁
  unfold vmPageDeactivate
  generalize s.ungobble p = s₁ at hun hgobbled hfree₁ hqueue₁ ⊢
  dsimp only
  split
  · exact hun
  next hused =>
    have hshadow : (s₁.page p).shadow = false := eq_false_iff.mpr fun hs => hused (.inl hs)
    have hwire : (s₁.page p).wireCount = 0 := by
      by_contra hwire
      exact hused (.inr hwire)
    -- either the page is taken from its queue, or it was not active
    obtain ⟨s₂, hs₂, hacc, hqueue₂, hactive, hfields⟩ : ∃ s₂, (if (s₁.page p).active = true ∨
        (s₁.page p).inactive = true ∧ (s₁.page p).reference = true then
          (s₁.setPage p { s₁.page p with reference := false }).queuesRemove p else s₁) = s₂ ∧
        Accounted hash s₂ ∧ p ∉ s₂.queueLimbo ∧ (s₂.page p).active = false ∧
        (s₂.page p).gobbled = false ∧ (s₂.page p).shadow = false ∧
        (s₂.page p).wireCount = 0 ∧ (s₂.page p).free = false := by
      refine ⟨_, rfl, ?_⟩
      split
      next =>
        have hset := hun.setReference hqueue₁
        have hpage := queuesRemove_page (s₁.setPage p { s₁.page p with reference := false }) p
        refine ⟨hset.queuesRemove hqueue₁, ?_, ?_⟩
        · rw [(queuesRemove_same _ p).limbo.queueLimbo]
          exact hqueue₁
        · rw [hpage, update_self]
          simp only [setPage, update_self]
          exact ⟨trivial, hgobbled, hshadow, hwire, hfree₁⟩
      next hidle =>
        refine ⟨hun, hqueue₁, ?_, hgobbled, hshadow, hwire, hfree₁⟩
        exact eq_false_iff.mpr fun hactive => hidle (.inl hactive)
    obtain ⟨hgobbled₂, hshadow₂, hwire₂, hfree₂⟩ := hfields
    rw [hs₂]
    split
    · exact hacc
    next hinactive =>
      exact hacc.of_update (hacc.queues.enterInactive hqueue₂ hfree₂ hactive
        (eq_false_iff.mpr hinactive) hgobbled₂ hshadow₂ hwire₂)
        ⟨rfl, rfl, rfl, ⟨rfl, rfl, rfl⟩⟩ rfl ⟨rfl, rfl, rfl⟩ hqueue₂

/-- A page leaves the inactive list. -/
theorem Accounted.inactiveRemove : Accounted hash (s.inactiveRemove p) :=
  h.of_update (h.queues.inactiveRemove hqueue) (inactiveRemove_same s p)
    (inactiveRemove_page s p) ⟨rfl, rfl, rfl⟩ hqueue

/-- `vm_page_activate` of a page that is neither free nor in limbo. -/
theorem Accounted.activate
    (hfree : (s.page p).free = false) (hactivate : s.vmPageActivate p = some s') :
    Accounted hash s' := by
  obtain ⟨hun, hgobbled, hfree₁, hqueue₁⟩ := h.ungobble hqueue
  rw [hfree] at hfree₁
  unfold vmPageActivate at hactivate
  generalize s.ungobble p = s₁ at hun hgobbled hfree₁ hqueue₁ hactivate
  dsimp only at hactivate
  split at hactivate
  · cases hactivate
    exact hun
  next hshadow =>
    have hacc := hun.inactiveRemove hqueue₁
    have hqueue₂ : p ∉ (s₁.inactiveRemove p).queueLimbo := by
      rwa [(inactiveRemove_same s₁ p).limbo.queueLimbo]
    have hpage : (s₁.inactiveRemove p).page p = { s₁.page p with inactive := false } := by
      rw [inactiveRemove_page, update_self]
    split at hactivate
    next hwire =>
      split at hactivate
      · cases hactivate
      next hactive =>
        cases hactivate
        refine hacc.of_update (hacc.queues.enterActive hqueue₂ ?_
          (eq_false_iff.mpr hactive) ?_ ?_ ?_ hwire) ⟨rfl, rfl, rfl, ⟨rfl, rfl, rfl⟩⟩ rfl
          ⟨rfl, rfl, rfl⟩ hqueue₂
        · rw [hpage]
          exact hfree₁
        · rw [hpage]
        · rw [hpage]
          exact hgobbled
        · rw [hpage]
          exact eq_false_iff.mpr hshadow
    · cases hactivate
      exact hacc

end Activate

end ResidentState

end MachVirtuTerm
