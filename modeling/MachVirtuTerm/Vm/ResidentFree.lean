import MachVirtuTerm.Vm.ResidentQueues

/-!
# Freeing a resident page

`vm_page_free` takes a page out of the table and off its queue, clears it, and puts it on a free
list or in limbo.
-/

open Function

namespace MachVirtuTerm

open ResidentState Bool

variable {Page Obj : Type} {hash : Obj → ℕ → ℕ} {s s' : ResidentState Page Obj}
  {p q : Page} {m : ResidentPage Obj}

namespace ResidentState

/-- The page is on no queue, and neither wired, gobbled nor free. -/
structure Idle (m : ResidentPage Obj) : Prop where
  active : m.active = false
  inactive : m.inactive = false
  wireCount : m.wireCount = 0
  gobbled : m.gobbled = false
  free : m.free = false

theorem Loose.idle (h : Loose m) : Idle m :=
  ⟨h.active, h.inactive, h.wireCount, h.gobbled, h.free⟩

/-- An idle page structure has consistent flags. -/
theorem Idle.flagsOk (h : Idle m) : m.FlagsOk := by
  constructor
  · intro _
    exact h.inactive
  · rintro (hq | hq)
    · exact absurd (h.active.symm.trans hq) false_ne_true
    · exact absurd (h.inactive.symm.trans hq) false_ne_true
  · intro hgobbled
    exact absurd (h.gobbled.symm.trans hgobbled) false_ne_true
  · intro hfree
    exact absurd (h.free.symm.trans hfree) false_ne_true

/-- A free page is on no other list and not in use. -/
theorem FlagsOk.loose (h : m.FlagsOk) (hfree : m.free = true) : Loose { m with free := false } := by
  obtain ⟨hwire, -, htabled, -⟩ := h.free hfree
  constructor
  · apply eq_false_iff.mpr
    intro hactive
    have hnot := (h.queued (.inl hactive)).2.2.2
    rw [hfree] at hnot
    cases hnot
  · apply eq_false_iff.mpr
    intro hinactive
    have hnot := (h.queued (.inr hinactive)).2.2.2
    rw [hfree] at hnot
    cases hnot
  · exact hwire
  · apply eq_false_iff.mpr
    intro hgobbled
    have hnot := (h.gobbled hgobbled).2
    rw [hfree] at hnot
    cases hnot
  · rfl
  · exact htabled

/-- The lists and counters that an idle page is not in. -/
theorem Idle.notIn (h : Idle m) :
    ¬ m.FreeReal ∧ ¬ m.FreeFictitious ∧ ¬ m.active = true ∧ ¬ m.inactive = true ∧
      ¬ m.ActiveReal ∧ ¬ m.InactiveReal ∧ ¬ m.Wired ∧ ¬ m.gobbled = true := by
  have hactive : ¬ m.active = true := eq_false_iff.mp h.active
  have hinactive : ¬ m.inactive = true := eq_false_iff.mp h.inactive
  have hgobbled : ¬ m.gobbled = true := eq_false_iff.mp h.gobbled
  have hfree : ¬ m.free = true := eq_false_iff.mp h.free
  refine ⟨fun hin => hfree hin.1, fun hin => hfree hin.1, hactive, hinactive,
    fun hin => hactive hin.1, fun hin => hinactive hin.1, ?_, hgobbled⟩
  rintro ⟨-, hwire | hin⟩
  · exact hwire h.wireCount
  · exact hgobbled hin

/-- What `vm_page_free` does before it puts the page away: the table and the queues stay in
agreement, and of the page itself what decides where it goes is the same. -/
structure Clearing [Fintype Page] (hash : Obj → ℕ → ℕ) (s : ResidentState Page Obj) (p : Page)
    (s' : ResidentState Page Obj) : Prop where
  table : TableInv hash s'
  queues : QueueInv s'
  others : ∀ q, q ≠ p → s'.page q = s.page q
  same : SameLimbo s s'
  free : (s'.page p).free = (s.page p).free
  limbo : (s'.page p).limbo = (s.page p).limbo
  shadow : (s'.page p).shadow = (s.page p).shadow
  fictitious : (s'.page p).fictitious = (s.page p).fictitious

theorem Clearing.trans [Fintype Page] {s'' : ResidentState Page Obj} (h : Clearing hash s p s')
    (h' : Clearing hash s' p s'') : Clearing hash s p s'' where
  table := h'.table
  queues := h'.queues
  others := fun q hq => (h'.others q hq).trans (h.others q hq)
  same := h.same.trans h'.same
  free := h'.free.trans h.free
  limbo := h'.limbo.trans h.limbo
  shadow := h'.shadow.trans h.shadow
  fictitious := h'.fictitious.trans h.fictitious

variable [DecidableEq Page]

/-- An idle page changes and stays idle. -/
theorem QueueInv.setIdle [Fintype Page] (h : QueueInv s) (hold : Idle (s.page p))
    (hnew : Idle m) (hlimbo : p ∉ s.queueLimbo) : QueueInv (s.setPage p m) := by
  obtain ⟨hfree, hzone, hactive, hinactive, hactiveReal, hinactiveReal, hwired, hgobbled⟩ :=
    hold.notIn
  obtain ⟨hfree', hzone', hactive', hinactive', hactiveReal', hinactiveReal', hwired',
    hgobbled'⟩ := hnew.notIn
  apply h.update rfl hnew.flagsOk
  · exact h.free.congr (iff_of_false hfree' hfree)
  · exact h.zone.congr (iff_of_false hzone' hzone)
  · exact h.active.congr (iff_of_false hactive' hactive)
  · exact h.inactive.congr (iff_of_false hinactive' hinactive)
  · exact hlimbo
  · rfl
  · rw [weight_congr (iff_of_false hfree' hfree), sub_add_cancel]
    rfl
  · rw [weight_congr (iff_of_false hactiveReal' hactiveReal), sub_add_cancel]
    rfl
  · rw [weight_congr (iff_of_false hinactiveReal' hinactiveReal), sub_add_cancel]
    rfl
  · rw [weight_congr (iff_of_false hwired' hwired), sub_add_cancel]
    rfl
  · rw [weight_congr (P := fun m : ResidentPage Obj => m.gobbled = true)
      (iff_of_false hgobbled' hgobbled), sub_add_cancel]
    rfl

/-- The limbo queue does not see a page that is not on it. -/
theorem LimboInv.setPage (h : LimboInv s) (hlimbo : p ∉ s.queueLimbo)
    (hpage : s'.page = update s.page p m) (hsame : SameLimbo s s') : LimboInv s' := by
  apply h.congr hsame
  intro q hq
  have hne : q ≠ p := fun heq => hlimbo (heq ▸ hq)
  rw [hpage, update_of_ne hne]

/-- A step on one page: the table, the queues and the limbo queue stay in agreement, other pages
are as they were, and outside of limbo the limbo queue is too. -/
structure Freed (hash : Obj → ℕ → ℕ) [Fintype Page] (s : ResidentState Page Obj) (p : Page)
    (limbo : Bool) (s' : ResidentState Page Obj) : Prop where
  table : TableInv hash s'
  queues : QueueInv s'
  page : ∀ q, q ≠ p → s'.page q = s.page q
  queued : ∀ q, q ≠ p → q ∈ s'.queueLimbo → q ∈ s.queueLimbo
  untabled : (s'.page p).tabled = false
  same : limbo = false → SameLimbo s s'
  limboInv : LimboInv s → LimboInv s'

variable [Fintype Page]

/-- A page that is in no table goes to a list other than the limbo queue. -/
theorem Freed.of_same {limbo : Bool} (ht : TableInv hash s) (h : QueueInv s')
    (hsame : SameElsewhere s s') (hpage : s'.page = update s.page p m)
    (hold : (s.page p).tabled = false) (hnew : m.tabled = false) (hqueue : p ∉ s.queueLimbo) :
    Freed hash s p limbo s' := by
  constructor
  · apply ht.setPage (hnew.trans hold.symm) _ hpage hsame.bucket hsame.memq hsame.residentPageCount
    intro htrue
    rw [hold] at htrue
    cases htrue
  · exact h
  · intro q hq
    rw [hpage, update_of_ne hq]
  · intro q _ hmem
    rwa [hsame.limbo.queueLimbo] at hmem
  · rw [hpage, update_self]
    exact hnew
  · intro _
    exact hsame.limbo
  · intro hlim
    exact hlim.setPage hqueue hpage hsame.limbo

/-- The end of `vm_page_free`. -/
theorem putPage_freed (ht : TableInv hash s) (h : QueueInv s) (hloose : Loose (s.page p))
    (hqueue : p ∉ s.queueLimbo) (hreal : (s.page p).limbo = true → (s.page p).Real) :
    ∃ s', s.putPage p = some s' ∧ Freed hash s p (s.page p).limbo s' := by
  unfold putPage
  dsimp only
  split
  next hlimbo =>
    have hok : (s.page p).LimboOk := ⟨hlimbo, hloose.active, hloose.inactive, hloose.tabled,
      hloose.wireCount, hloose.gobbled, (hreal hlimbo).1⟩
    have hpage : (s.vmPageReleaseLimbo p).page = s.page ∧
        (s.vmPageReleaseLimbo p).bucket = s.bucket ∧ (s.vmPageReleaseLimbo p).memq = s.memq ∧
        (s.vmPageReleaseLimbo p).residentPageCount = s.residentPageCount := by
      unfold vmPageReleaseLimbo
      split
      · exact ⟨rfl, rfl, rfl, rfl⟩
      · exact ⟨rfl, rfl, rfl, rfl⟩
    have hmem (q : Page) (hq : q ≠ p) (hin : q ∈ (s.vmPageReleaseLimbo p).queueLimbo) :
        q ∈ s.queueLimbo := by
      unfold vmPageReleaseLimbo at hin
      split at hin
      · exact (List.mem_append.mp hin).resolve_right fun hlast => hq (List.mem_singleton.mp hlast)
      · exact (List.mem_cons.mp hin).resolve_left hq
    refine ⟨_, rfl, ?_, h.releaseLimbo hok hqueue, ?_, hmem, ?_, ?_, LimboInv.releaseLimbo⟩
    · apply ht.congr hpage.2.1 hpage.2.2.1 hpage.2.2.2
      intro q
      rw [hpage.1]
      exact ⟨rfl, fun _ => ⟨rfl, rfl⟩⟩
    · intro q _
      rw [hpage.1]
    · rw [hpage.1]
      exact hloose.tabled
    · intro hfalse
      rw [hlimbo] at hfalse
      cases hfalse
  next hlimbo =>
    have hlimbo : (s.page p).limbo = false := eq_false_iff.mpr hlimbo
    split
    next hpriv =>
      -- what is private has no memory of its own any more, the others had none
      obtain ⟨m, hm, hloose', hfields⟩ : ∃ m : ResidentPage Obj, (if (s.page p).shadow = true then
          { s.page p with
            reference := false
            shadow := false
            fictitious := true
            physAddr := fictitiousAddr } else { s.page p with reference := false }) = m ∧
          Loose m ∧ m.limbo = false ∧ m.fictitious = true ∧ m.shadow = false ∧
          m.tabled = (s.page p).tabled := by
        refine ⟨_, rfl, ?_⟩
        split
        next =>
          exact ⟨⟨hloose.active, hloose.inactive, hloose.wireCount, hloose.gobbled, hloose.free,
            hloose.tabled⟩, hlimbo, rfl, rfl, rfl⟩
        next hshadow =>
          exact ⟨⟨hloose.active, hloose.inactive, hloose.wireCount, hloose.gobbled, hloose.free,
            hloose.tabled⟩, hlimbo, hpriv.resolve_left hshadow, eq_false_iff.mpr hshadow,
            rfl⟩
      obtain ⟨hlimbo', hfict, hshadow, htabled⟩ := hfields
      rw [hm]
      have hset := h.setIdle hloose.idle hloose'.idle hqueue
      have hpage : (s.setPage p m).page p = m := update_self ..
      obtain ⟨s', hs', hinv, hsame, hupdate⟩ := hset.releaseFictitious (p := p) (by rwa [hpage])
        (by rwa [hpage]) (by rwa [hpage]) (by rwa [hpage]) hqueue
      refine ⟨s', hs', Freed.of_same (m := { m with free := true }) ht hinv
        ⟨hsame.1, hsame.2, hsame.3, ⟨hsame.4.1, hsame.4.2, hsame.4.3⟩⟩ ?_ hloose.tabled hloose'.tabled
        hqueue⟩
      rw [hupdate, hpage]
      exact update_idem ..
    next hpriv =>
      have hnew : Loose (ResidentPage.init (s.page p).physAddr : ResidentPage Obj) :=
        ⟨rfl, rfl, rfl, rfl, rfl, rfl⟩
      have hset := h.setIdle hloose.idle hnew.idle hqueue
      have hpage : (s.setPage p (.init (s.page p).physAddr)).page p =
        ResidentPage.init (s.page p).physAddr := update_self ..
      obtain ⟨s', hs', hinv, hsame, hupdate⟩ := hset.release (p := p) (by rwa [hpage])
        (by rw [hpage]; rfl) (by rw [hpage]; exact ⟨rfl, rfl⟩) hqueue
      refine ⟨s', hs', Freed.of_same (m := { ResidentPage.init (s.page p).physAddr with free := true })
        ht hinv ⟨hsame.1, hsame.2, hsame.3, ⟨hsame.4.1, hsame.4.2, hsame.4.3⟩⟩ ?_ hloose.tabled rfl
        hqueue⟩
      rw [hupdate, hpage]
      exact update_idem ..

/-- The limbo queue sees nothing of it. -/
theorem Clearing.limboInv (h : Clearing hash s p s') (hlim : LimboInv s) : LimboInv s' := by
  apply hlim.congr h.same
  intro q _
  by_cases hq : q = p
  · subst hq
    exact h.fictitious
  · rw [h.others q hq]

/-- A page leaves the table, and stays on its queue. -/
theorem QueueInv.untable [DecidableEq Obj] (h : QueueInv s) (hash : Obj → ℕ → ℕ)
    (htabled : (s.page p).tabled = true) (object : Obj) (o : Option Obj) (offset : ℕ) :
    QueueInv (s.untable hash p object { s.page p with
      object := o
      offset := offset
      tabled := false }) := by
  have hflags := h.flags p
  apply h.retag (p := p) rfl
  · constructor
    · exact hflags.active
    · exact hflags.queued
    · exact hflags.gobbled
    · intro hfree
      obtain ⟨hwire, hlimbo, -, hshadow⟩ := hflags.free hfree
      exact ⟨hwire, hlimbo, rfl, hshadow⟩
  · rfl
  · rfl
  · rfl
  · rfl
  · exact h.notMem_limbo_of_tabled htabled
  · exact ⟨rfl, rfl, rfl, rfl, rfl⟩
  · exact ⟨rfl, rfl, rfl⟩
  · exact (sub_add_cancel _ _).symm
  · exact (sub_add_cancel _ _).symm

/-- `vm_page_remove` of a page in the table. -/
theorem remove_clearing [DecidableEq Obj] (ht : TableInv hash s) (h : QueueInv s)
    (htabled : (s.page p).tabled = true) :
    ∃ s', s.vmPageRemove hash p = some s' ∧ Clearing hash s p s' ∧
      (s'.page p).tabled = false := by
  obtain ⟨object, hobject⟩ := Option.ne_none_iff_exists'.mp (ht.object p htabled)
  unfold vmPageRemove
  rw [hobject]
  refine ⟨_, rfl, ⟨ht.untable htabled hobject rfl, h.untable hash htabled object none 0, ?_,
    ⟨rfl, rfl, rfl⟩, ?_, ?_, ?_, ?_⟩, ?_⟩
  · intro q hq
    exact update_of_ne hq ..
  · simp [untable, setPage]
  · simp [untable, setPage]
  · simp [untable, setPage]
  · simp [untable, setPage]
  · simp [untable, setPage]

/-- A page that is in no table is taken from its queue and cleared. -/
theorem clear_clearing (ht : TableInv hash s) (h : QueueInv s) (hqueue : p ∉ s.queueLimbo)
    (htabled : (s.page p).tabled = false) (hfree : (s.page p).free = false) :
    Clearing hash s p ((s.queuesRemove p).clearPage p) ∧
      Loose (((s.queuesRemove p).clearPage p).page p) := by
  have hsame := queuesRemove_same s p
  have hqueue' : p ∉ (s.queuesRemove p).queueLimbo := by rwa [hsame.limbo.queueLimbo]
  have hpage : ((s.queuesRemove p).clearPage p).page = update s.page p { s.page p with
      active := false
      inactive := false
      clustered := false
      wireCount := 0
      gobbled := false
      laundry := false } := by
    unfold clearPage
    simp only [setPage]
    rw [queuesRemove_page, update_self, update_idem]
  refine ⟨⟨?_, (h.queuesRemove hqueue).clearPage hqueue', ?_, ?_, ?_, ?_, ?_, ?_⟩, ?_⟩
  · apply ht.setPage (p := p) _ _ hpage hsame.bucket hsame.memq hsame.residentPageCount
    · rfl
    · intro _
      exact ⟨rfl, rfl⟩
  · intro q hq
    rw [hpage, update_of_ne hq]
  · exact ⟨hsame.limbo.queueLimbo, hsame.limbo.limboCount, hsame.limbo.limboRealCount⟩
  · rw [hpage, update_self]
  · rw [hpage, update_self]
  · rw [hpage, update_self]
  · rw [hpage, update_self]
  · rw [hpage, update_self]
    exact ⟨rfl, rfl, rfl, rfl, hfree, htabled⟩

/-- `vm_page_free` of a page that is not free, in or out of limbo. -/
theorem vmPageFree_freed [DecidableEq Obj] (ht : TableInv hash s) (h : QueueInv s)
    (hqueue : p ∉ s.queueLimbo) (hfree : (s.page p).free = false)
    (hreal : (s.page p).limbo = true → (s.page p).Real) :
    ∃ s', s.vmPageFree hash p = some s' ∧ Freed hash s p (s.page p).limbo s' := by
  obtain ⟨s₁, hs₁, hclear₁, htabled⟩ : ∃ s₁, (if (s.page p).tabled = true then
      s.vmPageRemove hash p else some s) = some s₁ ∧ Clearing hash s p s₁ ∧
        (s₁.page p).tabled = false := by
    split
    next htabled => exact remove_clearing ht h htabled
    next htabled =>
      exact ⟨s, rfl, ⟨ht, h, fun _ _ => rfl, ⟨rfl, rfl, rfl⟩, rfl, rfl, rfl, rfl⟩,
        eq_false_iff.mpr htabled⟩
  have hqueue₁ : p ∉ s₁.queueLimbo := by rwa [hclear₁.same.queueLimbo]
  obtain ⟨hclear₂, hloose⟩ := clear_clearing hclear₁.table hclear₁.queues hqueue₁ htabled
    (hclear₁.free.trans hfree)
  have hclear := hclear₁.trans hclear₂
  have hdef : s.vmPageFree hash p = ((s₁.queuesRemove p).clearPage p).putPage p := by
    unfold vmPageFree
    split at hs₁
    next htrue =>
      simp only [htrue, if_true, hs₁]
      rfl
    next hfalse =>
      cases hs₁
      simp only [hfalse]
      rfl
  rw [hdef]
  obtain ⟨s', hs', hfreed⟩ := putPage_freed hclear.table hclear.queues hloose
    (by rwa [hclear.same.queueLimbo])
    (by rw [hclear.limbo]; exact fun hlimbo =>
      ⟨hclear.shadow.trans (hreal hlimbo).1, hclear.fictitious.trans (hreal hlimbo).2⟩)
  refine ⟨s', hs', hfreed.table, hfreed.queues, ?_, ?_, hfreed.untabled, ?_, ?_⟩
  · intro q hq
    exact (hfreed.page q hq).trans (hclear.others q hq)
  · intro q hq hmem
    have hmem := hfreed.queued q hq hmem
    rwa [hclear.same.queueLimbo] at hmem
  · intro hlimbo
    exact hclear.same.trans (hfreed.same (hclear.limbo.trans hlimbo))
  · intro hlim
    exact hfreed.limboInv (hclear.limboInv hlim)

end ResidentState

end MachVirtuTerm
