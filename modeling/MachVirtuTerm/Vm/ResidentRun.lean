import MachVirtuTerm.Lib.Run
import MachVirtuTerm.Vm.ResidentLimbo

/-!
# Runs of the resident page routines

From the pages that are there at the start, every run of the routines whose callers keep to what
they guarantee has all pages accounted for, if no page is wired once too often.
-/

open List Function Option

namespace MachVirtuTerm

open ResidentState

variable {Page Obj : Type}

/-- The calls of the routines, and what their callers do to pages themselves. -/
inductive ResidentAction (Page Obj : Type) where
  | grab (privilege : Bool)
  | release (p : Page)
  | grabFictitious
  | releaseFictitious (p : Page)
  | insert (p : Page) (object : Obj) (offset : ℕ)
  | replace (p : Page) (object : Obj) (offset : ℕ)
  | remove (p : Page)
  | rename (p : Page) (newObject : Obj) (newOffset : ℕ)
  | wire (p : Page)
  | unwire (p : Page)
  | gobble (p : Page)
  | activate (p : Page)
  | deactivate (p : Page)
  | queuesRemove (p : Page)
  | convert (p : Page) (privilege : Bool)
  | limboExchange (limboM newM : Page)
  | releaseLimbo (p : Page)
  | cleanupLimboQueue
  | free (p : Page)
  /-- A caller changes a page that it holds. -/
  | own (p : Page) (m : ResidentPage Obj)
  /-- A page is prepared or pinned, or no longer. -/
  | prep (p : Page) (prepPinCount : ℕ)

namespace ResidentState

section Step

variable [DecidableEq Page] [DecidableEq Obj]

/-- One call; `none` is a panic, or a wait. -/
def perform (hash : Obj → ℕ → ℕ) (s : ResidentState Page Obj) :
    ResidentAction Page Obj → Option (ResidentState Page Obj)
  | .grab privilege => (s.vmPageGrab privilege).map Prod.fst
  | .release p => s.vmPageRelease p
  | .grabFictitious => some s.vmPageGrabFictitious.1
  | .releaseFictitious p => s.vmPageReleaseFictitious p
  | .insert p object offset => s.vmPageInsert hash p object offset
  | .replace p object offset => s.vmPageReplace hash p object offset
  | .remove p => s.vmPageRemove hash p
  | .rename p newObject newOffset => s.vmPageRename hash p newObject newOffset
  | .wire p => some (s.vmPageWire p)
  | .unwire p => some (s.vmPageUnwire p)
  | .gobble p => some (s.vmPageGobble p)
  | .activate p => s.vmPageActivate p
  | .deactivate p => some (s.vmPageDeactivate p)
  | .queuesRemove p => some (s.queuesRemove p)
  | .convert p privilege => (s.vmPageConvert p privilege).map Prod.fst
  | .limboExchange limboM newM => some (s.vmPageLimboExchange limboM newM)
  | .releaseLimbo p => some (s.vmPageReleaseLimbo p)
  | .cleanupLimboQueue => s.cleanupLimboQueue hash
  | .free p => s.vmPageFree hash p
  | .own p m => some (s.setPage p m)
  | .prep p prepPinCount => some (s.setPage p { s.page p with prepPinCount := prepPinCount })

end Step

/-- A page that a caller may work on: it is allocated, and not put away in limbo. -/
def Held (s : ResidentState Page Obj) (p : Page) : Prop :=
  (s.page p).free = false ∧ p ∉ s.queueLimbo

/-- What a caller may do to a page that it holds: it may give memory of its own only to a page
that is on no queue, not wired and not gobbled. -/
structure Owned (m m' : ResidentPage Obj) : Prop where
  object : m'.object = m.object
  offset : m'.offset = m.offset
  wireCount : m'.wireCount = m.wireCount
  inactive : m'.inactive = m.inactive
  active : m'.active = m.active
  free : m'.free = m.free
  gobbled : m'.gobbled = m.gobbled
  tabled : m'.tabled = m.tabled
  memory : m'.fictitious = m.fictitious ∧ m'.shadow = m.shadow ∨
    m.active = false ∧ m.inactive = false ∧ m.wireCount = 0 ∧ m.gobbled = false

/-- What the callers of the routines guarantee: what the routines assert, and what they rely
on. -/
def Guaranteed (s : ResidentState Page Obj) : ResidentAction Page Obj → Prop
  | .release p => s.Held p ∧ Loose (s.page p) ∧ (s.page p).limbo = false ∧ (s.page p).Real
  | .releaseFictitious p => s.Held p ∧ Loose (s.page p) ∧ (s.page p).limbo = false ∧
    (s.page p).fictitious = true ∧ (s.page p).shadow = false
  | .insert p object offset => s.Held p ∧ s.Vacant object offset
  | .replace p object offset => s.Held p ∧ ∀ q, (s.page q).tabled = true →
    (s.page q).object = some object → (s.page q).offset = offset → (s.page q).limbo = true →
      (s.page q).Real
  | .remove p => (s.page p).tabled = true
  | .rename p newObject newOffset => (s.page p).tabled = true ∧ s.Vacant newObject newOffset
  | .wire p => s.Held p
  | .unwire p => (s.page p).wireCount ≠ 0 ∧ ((s.page p).wireCount = 1 → (s.page p).Real)
  | .gobble p => s.Held p ∧ (s.page p).active = false ∧ (s.page p).inactive = false ∧
    (s.page p).gobbled = false ∧ (s.page p).wireCount = 0
  | .activate p => s.Held p
  | .deactivate p => s.Held p
  | .queuesRemove p => s.Held p
  | .convert p _ => s.Held p ∧ (s.page p).fictitious = true ∧ (s.page p).gobbled = false ∧
    (s.page p).wireCount = 0
  | .limboExchange limboM newM => newM ≠ limboM ∧
    Exchangeable (s.page limboM) (s.page newM) ∧ limboM ∉ s.queueLimbo ∧ newM ∉ s.queueLimbo
  | .releaseLimbo p => p ∉ s.queueLimbo ∧ (s.page p).LimboOk
  | .free p => s.Held p ∧ ((s.page p).limbo = true → (s.page p).Real)
  | .own p m => s.Held p ∧ Owned (s.page p) m
  | _ => True

/-- A wiring that the count of the page has room for. -/
def WireFits (s : ResidentState Page Obj) : ResidentAction Page Obj → Prop
  | .wire p => (s.page p).wireCount ≠ 65535
  | _ => True

/-- A call in a state that its caller guarantees. -/
def residentStep [DecidableEq Page] [DecidableEq Obj] (hash : Obj → ℕ → ℕ)
    (s : ResidentState Page Obj) (a : ResidentAction Page Obj) (s' : ResidentState Page Obj) :
    Prop :=
  Guaranteed s a ∧ s.perform hash a = some s'

/-- The pages as `vm_page_bootstrap` leaves them, memory and page structures without: all are
free. -/
def boot [DecidableEq Page] (memory zone : List Page) (physAddr : Page → ℕ) (freeReserved : ℤ) :
    ResidentState Page Obj where
  page p :=
    { ResidentPage.init (if p ∈ memory then physAddr p else fictitiousAddr) with
      fictitious := decide (p ∉ memory)
      free := decide (p ∈ memory ∨ p ∈ zone) }
  bucket _ := []
  memq _ := []
  residentPageCount _ := 0
  queueFree := memory
  zone := zone
  queueActive := []
  queueInactive := []
  queueLimbo := []
  freeCount := memory.length
  freeReserved := freeReserved
  activeCount := 0
  inactiveCount := 0
  wireCount := 0
  gobbleCount := 0
  limboCount := 0
  limboRealCount := 0
  laundryCount := 0

/-- Everything is accounted for: a page is tabled if it is in one bucket, that of its place, and
on the list of its object; no two pages are at one place; and each page is on at most one queue,
that of its flags, and counted there. -/
structure AllAccounted [Fintype Page] (hash : Obj → ℕ → ℕ) (s : ResidentState Page Obj) :
    Prop where
  tabled : ∀ p, (s.page p).tabled = true ↔ ∃ object, (s.page p).object = some object ∧
    (∀ b, p ∈ s.bucket b ↔ b = hash object (s.page p).offset) ∧ p ∈ s.memq object
  untabled : ∀ p, (s.page p).tabled = false → (∀ b, p ∉ s.bucket b) ∧ ∀ object, p ∉ s.memq object
  once : (∀ b, (s.bucket b).Nodup) ∧ ∀ object, (s.memq object).Nodup
  unique : ∀ p q, (s.page p).tabled = true → (s.page q).tabled = true →
    (s.page p).object = (s.page q).object → (s.page p).offset = (s.page q).offset → p = q
  residentPageCount : ∀ object, s.residentPageCount object = (s.memq object).length
  queued : (s.queueFree ++ s.queueActive ++ s.queueInactive ++ s.queueLimbo).Nodup
  free : ∀ p, p ∈ s.queueFree ↔ (s.page p).free = true ∧ (s.page p).fictitious = false
  active : ∀ p, p ∈ s.queueActive ↔ (s.page p).active = true
  inactive : ∀ p, p ∈ s.queueInactive ↔ (s.page p).inactive = true
  limbo : ∀ p ∈ s.queueLimbo, (s.page p).limbo = true
  freeCount : s.freeCount = s.queueFree.length
  activeCount : s.activeCount = countWhere ResidentPage.ActiveReal s.page
  inactiveCount : s.inactiveCount = countWhere ResidentPage.InactiveReal s.page
  wireCount : s.wireCount = countWhere ResidentPage.Wired s.page
  gobbleCount : s.gobbleCount = countWhere (fun m : ResidentPage Obj => m.gobbled = true) s.page
  limboCount : s.limboCount = s.queueLimbo.length

variable {hash : Obj → ℕ → ℕ} {s s' : ResidentState Page Obj} {p : Page} {m : ResidentPage Obj}

section Agree

variable [Fintype Page]

/-- Lists of pages in different states have no page in common. -/
theorem Accounted.queued (h : Accounted hash s) :
    (s.queueFree ++ s.queueActive ++ s.queueInactive ++ s.queueLimbo).Nodup := by
  have hflags (p : Page) := h.queues.flags p
  have hfree {p : Page} (hp : p ∈ s.queueFree) := ((h.queues.free.mem p).mp hp).1
  have hactive {p : Page} (hp : p ∈ s.queueActive) := (h.queues.active.mem p).mp hp
  have hinactive {p : Page} (hp : p ∈ s.queueInactive) := (h.queues.inactive.mem p).mp hp
  refine nodup_append.mpr ⟨nodup_append.mpr ⟨nodup_append.mpr
    ⟨h.queues.free.nodup, h.queues.active.nodup, ?_⟩, h.queues.inactive.nodup, ?_⟩,
    h.queues.nodup, ?_⟩
  · rintro p hp q hq rfl
    have hnot := ((hflags p).queued (.inl (hactive hq))).2.2.2
    exact Bool.false_ne_true (hnot.symm.trans (hfree hp))
  · rintro p hp q hq rfl
    rcases mem_append.mp hp with hp | hp
    · have hnot := ((hflags p).queued (.inr (hinactive hq))).2.2.2
      exact Bool.false_ne_true (hnot.symm.trans (hfree hp))
    · exact Bool.false_ne_true (((hflags p).active (hactive hp)).symm.trans (hinactive hq))
  · rintro p hp q hq rfl
    have hok := h.queues.limbo p hq
    rcases mem_append.mp hp with hp | hp
    · rcases mem_append.mp hp with hp | hp
      · exact h.queues.notMem_limbo (hfree hp) hq
      · exact Bool.false_ne_true (hok.active.symm.trans (hactive hp))
    · exact Bool.false_ne_true (hok.inactive.symm.trans (hinactive hp))

variable [DecidableEq Page]

/-- What the routines keep up accounts for everything. -/
theorem Accounted.all (h : Accounted hash s) : AllAccounted hash s where
  tabled p := by
    constructor
    · intro htabled
      obtain ⟨object, hobject⟩ := ne_none_iff_exists'.mp (h.table.object p htabled)
      refine ⟨object, hobject, ?_, ((h.table.memq object).mem p).mpr ⟨htabled, hobject⟩⟩
      intro b
      rw [(h.table.bucket b).mem]
      constructor
      · rintro ⟨-, o, ho, hb⟩
        rw [hobject] at ho
        cases ho
        exact hb.symm
      · rintro rfl
        exact ⟨htabled, object, hobject, rfl⟩
    · rintro ⟨object, -, -, hmem⟩
      exact (((h.table.memq object).mem p).mp hmem).1
  untabled p hout := by
    constructor
    · intro b hmem
      exact Bool.false_ne_true (hout.symm.trans (((h.table.bucket b).mem p).mp hmem).1)
    · intro object hmem
      exact Bool.false_ne_true (hout.symm.trans (((h.table.memq object).mem p).mp hmem).1)
  once := ⟨fun b => (h.table.bucket b).nodup, fun object => (h.table.memq object).nodup⟩
  unique := h.table.unique
  residentPageCount := h.table.count
  queued := h.queued
  free := h.queues.free.mem
  active := h.queues.active.mem
  inactive := h.queues.inactive.mem
  limbo p hp := (h.queues.limbo p hp).limbo
  freeCount := h.queues.freeCount.trans h.queues.free.length.symm
  activeCount := h.queues.activeCount
  inactiveCount := h.queues.inactiveCount
  wireCount := h.queues.wireCount
  gobbleCount := h.queues.gobbleCount
  limboCount := h.limbo.count

/-- Nothing that is counted is so at the start but the free pages. -/
theorem boot_accounted {memory zone : List Page} (hnodup : (memory ++ zone).Nodup)
    (physAddr : Page → ℕ) (freeReserved : ℤ) :
    Accounted hash (boot memory zone physAddr freeReserved : ResidentState Page Obj) := by
  obtain ⟨hmemory, hzone, hdisjoint⟩ := nodup_append.mp hnodup
  generalize hs : (boot memory zone physAddr freeReserved : ResidentState Page Obj) = s
  have hpage (p : Page) : s.page p =
      { ResidentPage.init (if p ∈ memory then physAddr p else fictitiousAddr) with
        fictitious := decide (p ∉ memory)
        free := decide (p ∈ memory ∨ p ∈ zone) } := by
    rw [← hs]
    rfl
  have hfree : Tracks s.queueFree ResidentPage.FreeReal s.page := by
    refine ⟨?_, by rw [← hs]; exact hmemory⟩
    intro p
    rw [hpage, ← hs]
    simp only [ResidentPage.FreeReal, decide_eq_true_eq, decide_eq_false_iff_not, not_not]
    exact ⟨fun hp => ⟨.inl hp, hp⟩, fun hp => hp.2⟩
  have hnone {P : ResidentPage Obj → Prop} [DecidablePred P] (hP : ∀ p, ¬ P (s.page p)) :
      (0 : ℤ) = countWhere P s.page := by
    rw [countWhere, Finset.sum_eq_zero]
    intro p _
    exact if_neg (hP p)
  have hidle (p : Page) : (s.page p).active = false ∧ (s.page p).inactive = false ∧
      (s.page p).wireCount = 0 ∧ (s.page p).gobbled = false ∧ (s.page p).tabled = false ∧
      (s.page p).limbo = false ∧ (s.page p).shadow = false := by
    rw [hpage]
    exact ⟨rfl, rfl, rfl, rfl, rfl, rfl, rfl⟩
  have hactive (p : Page) : ¬ (s.page p).active = true := Bool.eq_false_iff.mp (hidle p).1
  have hinactive (p : Page) : ¬ (s.page p).inactive = true := Bool.eq_false_iff.mp (hidle p).2.1
  have hgobbled (p : Page) : ¬ (s.page p).gobbled = true :=
    Bool.eq_false_iff.mp (hidle p).2.2.2.1
  have htabled (p : Page) : ¬ (s.page p).tabled = true :=
    Bool.eq_false_iff.mp (hidle p).2.2.2.2.1
  have hlimbo : s.queueLimbo = [] := by rw [← hs]; rfl
  have htable : TableInv hash s := by
    constructor
    · intro b
      refine ⟨fun p => ?_, by rw [← hs]; exact nodup_nil⟩
      refine iff_of_false ?_ fun hin => htabled p hin.1
      rw [← hs]
      exact not_mem_nil
    · intro object
      refine ⟨fun p => ?_, by rw [← hs]; exact nodup_nil⟩
      refine iff_of_false ?_ fun hin => htabled p hin.1
      rw [← hs]
      exact not_mem_nil
    · intro p hp
      exact absurd hp (htabled p)
    · intro p q hp
      exact absurd hp (htabled p)
    · intro object
      rw [← hs]
      rfl
  have hqueues : QueueInv s := by
    constructor
    · intro p
      obtain ⟨_, _, hwire, _, hout, hnot, hshadow⟩ := hidle p
      refine ⟨fun htrue => absurd htrue (hactive p), ?_, fun htrue => absurd htrue (hgobbled p),
        fun _ => ⟨hwire, hnot, hout, hshadow⟩⟩
      rintro (htrue | htrue)
      · exact absurd htrue (hactive p)
      · exact absurd htrue (hinactive p)
    · exact hfree
    · refine ⟨?_, by rw [← hs]; exact hzone⟩
      intro p
      rw [hpage, ← hs]
      simp only [ResidentPage.FreeFictitious, decide_eq_true_eq]
      constructor
      · intro hp
        exact ⟨.inr hp, fun hmem => hdisjoint p hmem p hp rfl⟩
      · rintro ⟨hp | hp, hnot⟩
        · exact absurd hp hnot
        · exact hp
    · refine ⟨fun p => ?_, by rw [← hs]; exact nodup_nil⟩
      refine iff_of_false ?_ (hactive p)
      rw [← hs]
      exact not_mem_nil
    · refine ⟨fun p => ?_, by rw [← hs]; exact nodup_nil⟩
      refine iff_of_false ?_ (hinactive p)
      rw [← hs]
      exact not_mem_nil
    · rw [hlimbo]
      intro p hp
      cases hp
    · rw [hlimbo]
      exact nodup_nil
    · rw [← hfree.length, ← hs]
      rfl
    · rw [← hnone fun p hin => hactive p hin.1, ← hs]
      rfl
    · rw [← hnone fun p hin => hinactive p hin.1, ← hs]
      rfl
    · rw [← hnone (P := ResidentPage.Wired) fun p hin =>
        hin.2.elim (fun hwire => hwire (hidle p).2.2.1) (hgobbled p), ← hs]
      rfl
    · rw [← hnone (P := fun m : ResidentPage Obj => m.gobbled = true) hgobbled, ← hs]
      rfl
  refine ⟨htable, hqueues, ?_⟩
  constructor
  · rw [hlimbo]
    exact List.Pairwise.nil
  · rw [hlimbo, ← hs]
    rfl
  · rw [hlimbo, ← hs]
    rfl

end Agree

section Callers

variable [Fintype Page]

/-- A page that is in limbo and on no queue is queued there. -/
theorem Accounted.releaseLimbo (h : Accounted hash s) (hqueue : p ∉ s.queueLimbo)
    (hok : (s.page p).LimboOk) : Accounted hash (s.vmPageReleaseLimbo p) := by
  refine ⟨?_, h.queues.releaseLimbo hok hqueue, h.limbo.releaseLimbo⟩
  have hpage : (s.vmPageReleaseLimbo p).page = s.page ∧
      (s.vmPageReleaseLimbo p).bucket = s.bucket ∧ (s.vmPageReleaseLimbo p).memq = s.memq ∧
      (s.vmPageReleaseLimbo p).residentPageCount = s.residentPageCount := by
    unfold vmPageReleaseLimbo
    split
    · exact ⟨rfl, rfl, rfl, rfl⟩
    · exact ⟨rfl, rfl, rfl, rfl⟩
  apply h.table.congr hpage.2.1 hpage.2.2.1 hpage.2.2.2
  intro q
  rw [hpage.1]
  exact ⟨rfl, fun _ => ⟨rfl, rfl⟩⟩

variable [DecidableEq Page]

/-- What a caller does to a page that it holds. -/
theorem Accounted.own (h : Accounted hash s) (hheld : s.Held p) (howned : Owned (s.page p) m) :
    Accounted hash (s.setPage p m) := by
  have hflags := h.queues.flags p
  obtain ⟨hfree, hqueue⟩ := hheld
  refine h.of_update ?_ ⟨rfl, rfl, rfl, ⟨rfl, rfl, rfl⟩⟩ rfl
    ⟨howned.tabled, howned.object, howned.offset⟩ hqueue
  rcases howned.memory with ⟨hfict, hshadow⟩ | ⟨hactive, hinactive, hwire, hgobbled⟩
  · apply h.queues.retag rfl
    · constructor
      · rw [howned.active, howned.inactive]
        exact hflags.active
      · rw [howned.active, howned.inactive, howned.wireCount, howned.gobbled, hshadow, howned.free]
        exact hflags.queued
      · rw [howned.gobbled, howned.wireCount, howned.free]
        exact hflags.gobbled
      · rw [howned.free, hfree]
        intro hfalse
        cases hfalse
    · exact howned.free
    · exact hfict
    · exact howned.active
    · exact howned.inactive
    · exact hqueue
    · exact ⟨rfl, rfl, rfl, rfl, rfl⟩
    · exact ⟨rfl, rfl, rfl⟩
    · have hsame : m.Wired ↔ (s.page p).Wired := by
        unfold ResidentPage.Wired ResidentPage.Real
        rw [hfict, hshadow, howned.wireCount, howned.gobbled]
      rw [weight_congr hsame, sub_add_cancel]
      rfl
    · have hsame : m.gobbled = true ↔ (s.page p).gobbled = true := by rw [howned.gobbled]
      rw [weight_congr (P := fun m : ResidentPage Obj => m.gobbled = true) hsame, sub_add_cancel]
      rfl
  · have hold : Idle (s.page p) := ⟨hactive, hinactive, hwire, hgobbled, hfree⟩
    have hnew : Idle m := ⟨howned.active.trans hactive, howned.inactive.trans hinactive,
      howned.wireCount.trans hwire, howned.gobbled.trans hgobbled, howned.free.trans hfree⟩
    exact h.queues.setIdle hold hnew hqueue

/-- Who prepares or pins a page, or no longer, changes nothing that is counted, also if the page
is in limbo. -/
theorem Accounted.prep (h : Accounted hash s) (p : Page) (n : ℕ) :
    Accounted hash (s.setPage p { s.page p with prepPinCount := n }) := by
  have hflags := h.queues.flags p
  have hcount {P : ResidentPage Obj → Prop} [DecidablePred P]
      (hP : P { s.page p with prepPinCount := n } ↔ P (s.page p)) :
      countWhere P s.page = countWhere P (s.setPage p { s.page p with prepPinCount := n }).page :=
    (countWhere_congr hP).symm
  refine ⟨?_, ?_, ?_⟩
  · exact h.table.setPage (m := { s.page p with prepPinCount := n }) rfl (fun _ => ⟨rfl, rfl⟩)
      rfl rfl rfl rfl
  · constructor
    · intro q
      by_cases hq : q = p
      · subst hq
        simp only [setPage, update_self]
        exact ⟨hflags.active, hflags.queued, hflags.gobbled, hflags.free⟩
      · simp only [setPage, update_of_ne hq]
        exact h.queues.flags q
    · exact h.queues.free.congr Iff.rfl
    · exact h.queues.zone.congr Iff.rfl
    · exact h.queues.active.congr Iff.rfl
    · exact h.queues.inactive.congr Iff.rfl
    · intro q hq
      have hok := h.queues.limbo q hq
      by_cases hqp : q = p
      · subst hqp
        simp only [setPage, update_self]
        exact ⟨hok.limbo, hok.active, hok.inactive, hok.tabled, hok.wireCount, hok.gobbled,
          hok.shadow⟩
      · simp only [setPage, update_of_ne hqp]
        exact hok
    · exact h.queues.nodup
    · exact h.queues.freeCount.trans (hcount Iff.rfl)
    · exact h.queues.activeCount.trans (hcount Iff.rfl)
    · exact h.queues.inactiveCount.trans (hcount Iff.rfl)
    · exact h.queues.wireCount.trans (hcount Iff.rfl)
    · exact h.queues.gobbleCount.trans
        (hcount (P := fun m : ResidentPage Obj => m.gobbled = true) Iff.rfl)
  · have hsame : SameLimbo s (s.setPage p { s.page p with prepPinCount := n }) :=
      ⟨rfl, rfl, rfl⟩
    apply h.limbo.congr hsame
    intro q _
    by_cases hqp : q = p
    · subst hqp
      simp only [setPage, update_self]
    · simp only [setPage, update_of_ne hqp]

end Callers

section Run

variable [DecidableEq Page] [DecidableEq Obj]

/-- A page that is wired already is wired again and again. -/
theorem run_wires (hash : Obj → ℕ → ℕ) {w : BitVec 16} (hheld : s.Held p) (hwire : (s.page p).wireCount = w)
    (hw : w ≠ 0) (n : ℕ) (hn : w.toNat + n ≤ 65536) : ∃ trace, Run (residentStep hash) s trace
      (s.setPage p { s.page p with wireCount := w + BitVec.ofNat 16 n }) := by
  induction n with
  | zero =>
    have hsame : s.setPage p { s.page p with wireCount := w + BitVec.ofNat 16 0 } = s := by
      have hzero : w + BitVec.ofNat 16 0 = (s.page p).wireCount := by
        rw [hwire]
        exact BitVec.add_zero w
      unfold setPage
      rw [hzero, update_eq_self]
    rw [hsame]
    exact ⟨[], .nil⟩
  | succ n ih =>
    obtain ⟨trace, hrun⟩ := ih (by omega)
    have hstep : residentStep hash
        (s.setPage p { s.page p with wireCount := w + BitVec.ofNat 16 n }) (.wire p)
        (s.setPage p { s.page p with wireCount := w + BitVec.ofNat 16 (n + 1) }) := by
      have hfree : ((s.setPage p { s.page p with
          wireCount := w + BitVec.ofNat 16 n }).page p).free = false := by
        simp only [setPage, update_self]
        exact hheld.1
      refine ⟨⟨hfree, hheld.2⟩, ?_⟩
      have hcount : w + BitVec.ofNat 16 n ≠ 0 := by
        intro hzero
        apply hw
        bv_omega
      have hnext : w + BitVec.ofNat 16 n + 1 = w + BitVec.ofNat 16 (n + 1) := by
        rw [BitVec.add_assoc]
        congr 1
        exact (BitVec.ofNat_add n 1).symm
      simp only [perform, vmPageWire, setPage, update_self, if_neg hcount, update_idem, hnext]
    exact ⟨_, hrun.cons hstep⟩

variable [Fintype Page]

/-- Each call leaves everything accounted for. -/
theorem Accounted.step (h : Accounted hash s) {a : ResidentAction Page Obj}
    (hstep : residentStep hash s a s') (hfits : WireFits s a) : Accounted hash s' := by
  obtain ⟨hguaranteed, hperform⟩ := hstep
  cases a with
  | grab privilege =>
    obtain ⟨⟨s₁, r⟩, hgrab, rfl⟩ := map_eq_some_iff.mp hperform
    exact (h.grab hgrab).1
  | release p =>
    obtain ⟨hheld, hloose, hlimbo, hreal⟩ := hguaranteed
    exact h.release hloose hlimbo hreal hheld.2 hperform
  | grabFictitious =>
    cases hperform
    exact (h.grabFictitious rfl).1
  | releaseFictitious p =>
    obtain ⟨hheld, hloose, hlimbo, hfict, hshadow⟩ := hguaranteed
    exact h.releaseFictitious hloose hlimbo hfict hshadow hheld.2 hperform
  | insert p object offset => exact h.insert hguaranteed.1.2 hguaranteed.1.1 hguaranteed.2 hperform
  | replace p object offset =>
    exact h.replace hguaranteed.1.2 hguaranteed.1.1 hguaranteed.2 hperform
  | remove p => exact (h.remove hguaranteed hperform).1
  | rename p object offset => exact h.rename hguaranteed.1 hguaranteed.2 hperform
  | wire p =>
    cases hperform
    exact h.wire hguaranteed.2 hguaranteed.1 hfits
  | unwire p =>
    cases hperform
    exact h.unwire hguaranteed.1 hguaranteed.2
  | gobble p =>
    cases hperform
    obtain ⟨hheld, hactive, hinactive, hgobbled, hwire⟩ := hguaranteed
    exact h.gobble hheld.2 hheld.1 hactive hinactive hgobbled hwire
  | activate p => exact h.activate hguaranteed.2 hguaranteed.1 hperform
  | deactivate p =>
    cases hperform
    exact h.deactivate hguaranteed.2 hguaranteed.1
  | queuesRemove p =>
    cases hperform
    exact h.queuesRemove hguaranteed.2
  | convert p privilege =>
    obtain ⟨⟨s₁, r⟩, hconvert, rfl⟩ := map_eq_some_iff.mp hperform
    obtain ⟨hheld, hfict, hgobbled, hwire⟩ := hguaranteed
    exact h.convert hheld.2 hheld.1 hfict hgobbled hwire hconvert
  | limboExchange limboM newM =>
    cases hperform
    obtain ⟨hne, hok, hlimboM, hnewM⟩ := hguaranteed
    exact h.exchange hne hok hlimboM hnewM
  | releaseLimbo p =>
    cases hperform
    exact h.releaseLimbo hguaranteed.1 hguaranteed.2
  | cleanupLimboQueue => exact h.cleanup hperform
  | free p => exact h.free hguaranteed.1.2 hguaranteed.1.1 hguaranteed.2 hperform
  | own p m =>
    cases hperform
    exact h.own hguaranteed.1 hguaranteed.2
  | prep p n =>
    cases hperform
    exact h.prep p n

end Run

end ResidentState

section Claim

variable [DecidableEq Page] [DecidableEq Obj] [Fintype Page]

open ResidentState in
/-- In every run from the start in which no page is wired that has as many wirings as it can
count, all pages are accounted for. -/
theorem resident_pages_accounted (hash : Obj → ℕ → ℕ) (memory zone : List Page)
    (physAddr : Page → ℕ) (freeReserved : ℤ) (hnodup : (memory ++ zone).Nodup)
    {trace : List (ResidentState Page Obj × ResidentAction Page Obj)}
    {s : ResidentState Page Obj}
    (hrun : Run (residentStep hash) (boot memory zone physAddr freeReserved) trace s)
    (hfits : ∀ x ∈ trace, WireFits x.1 x.2) : AllAccounted hash s := by
  have haccounted : Accounted hash s := by
    refine hrun.invariant (Accounted hash) hfits (boot_accounted hnodup physAddr freeReserved) ?_
    intro s a s' h hfits hstep
    exact h.step hstep hfits
  exact haccounted.all

open ResidentState in
/-- Two pages of memory and a page structure without: one page gets a place and is wired. -/
theorem wired_page_accounted : ∃ trace s,
    Run (residentStep fun _ offset => offset)
      (boot [0, 1] [2] (fun p => p.val) 1 : ResidentState (Fin 3) Unit) trace s ∧
    s.wireCount = 1 ∧ s.freeCount = 1 ∧ AllAccounted (fun _ offset => offset) s := by
  have hrun := @Run.nil _ _ (residentStep fun _ offset => offset)
    (boot [0, 1] [2] (fun p => p.val) 1 : ResidentState (Fin 3) Unit)
  have hrun := hrun.cons (show residentStep _ _ (.grab false) _ from ⟨trivial, rfl⟩)
  have hrun := hrun.cons (show residentStep _ _ (.insert 0 () 7) _ from
    ⟨⟨⟨rfl, not_mem_nil⟩, by unfold Vacant; decide⟩, rfl⟩)
  have hrun := hrun.cons (show residentStep _ _ (.wire 0) _ from ⟨⟨rfl, not_mem_nil⟩, rfl⟩)
  refine ⟨_, _, hrun, rfl, rfl, resident_pages_accounted _ _ _ _ _ (by decide) hrun ?_⟩
  simp only [forall_mem_cons, not_mem_nil, false_imp_iff, implies_true, and_true]
  exact ⟨fun hfull => absurd hfull (by decide), trivial, trivial⟩

open ResidentState in
/-- A page that is wired 65536 times counts as not wired. -/
theorem wire_count_wraps : ¬ ∀ (trace : List (ResidentState (Fin 1) Unit × _))
    (s : ResidentState (Fin 1) Unit),
    Run (residentStep fun _ offset => offset) (boot [0] [] (fun _ => 0) 0) trace s →
      AllAccounted (fun _ offset => offset) s := by
  intro hall
  have hgrab := (@Run.nil _ _ (residentStep fun _ offset => offset)
    (boot [0] [] (fun _ => 0) 0 : ResidentState (Fin 1) Unit)).cons
    (show residentStep _ _ (.grab false) _ from ⟨trivial, rfl⟩)
  have hwire := hgrab.cons (show residentStep _ _ (.wire 0) _ from ⟨⟨rfl, not_mem_nil⟩, rfl⟩)
  obtain ⟨s₂, ⟨_, hrun⟩, hheld, hone, hgobbled, hcount⟩ : ∃ s₂ : ResidentState (Fin 1) Unit,
      (∃ trace, Run (residentStep fun _ offset => offset) (boot [0] [] (fun _ => 0) 0) trace s₂) ∧
        s₂.Held 0 ∧ (s₂.page 0).wireCount = 1 ∧ (s₂.page 0).gobbled = false ∧ s₂.wireCount = 1 :=
    ⟨_, ⟨_, hwire⟩, ⟨rfl, not_mem_nil⟩, rfl, rfl, rfl⟩
  obtain ⟨trace, hwires⟩ :=
    run_wires (fun _ offset => offset) hheld hone (by decide) 65535 (by decide)
  have hwired := (hall _ _ (hrun.trans hwires)).wireCount
  have hnone : countWhere ResidentPage.Wired (s₂.setPage 0 { s₂.page 0 with
      wireCount := 1 + BitVec.ofNat 16 65535 }).page = 0 := by
    apply Finset.sum_eq_zero
    intro p _
    have hp : p = 0 := Subsingleton.elim p 0
    rw [hp, if_neg]
    simp only [setPage, update_self]
    rintro ⟨-, hnonzero | htrue⟩
    · exact hnonzero (show (1 : BitVec 16) + BitVec.ofNat 16 65535 = 0 by decide)
    · exact absurd (hgobbled.symm.trans htrue) Bool.false_ne_true
  rw [hnone] at hwired
  exact absurd (hcount.symm.trans hwired) one_ne_zero

end Claim

end MachVirtuTerm
