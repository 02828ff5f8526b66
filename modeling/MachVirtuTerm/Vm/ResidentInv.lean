import MachVirtuTerm.Lib.Tracks
import MachVirtuTerm.Vm.Resident

/-!
# What the tables and queues of resident pages agree on

The hash table and the page lists of the objects track the tabled pages, the queues track the
flags of the pages, and the counters follow them.
-/

open Function List

namespace MachVirtuTerm

variable {Page Obj : Type} {hash : Obj → ℕ → ℕ} {s s' : ResidentState Page Obj}
  {p q : Page} {m : ResidentPage Obj} {object : Obj} {offset : ℕ}

section Flags

/-- The page belongs in a bucket. -/
def ResidentPage.InBucket (hash : Obj → ℕ → ℕ) (b : ℕ) (m : ResidentPage Obj) : Prop :=
  m.tabled = true ∧ ∃ object, m.object = some object ∧ hash object m.offset = b

/-- The page belongs on the page list of an object. -/
def ResidentPage.OnMemq (object : Obj) (m : ResidentPage Obj) : Prop :=
  m.tabled = true ∧ m.object = some object

section

variable (m : ResidentPage Obj)

/-- The page is free memory. -/
def ResidentPage.FreeReal : Prop := m.free = true ∧ m.fictitious = false

/-- The page structure is free and has no memory. -/
def ResidentPage.FreeFictitious : Prop := m.free = true ∧ m.fictitious = true

/-- The page is active memory. -/
def ResidentPage.ActiveReal : Prop := m.active = true ∧ m.fictitious = false

/-- The page is inactive memory. -/
def ResidentPage.InactiveReal : Prop := m.inactive = true ∧ m.fictitious = false

/-- The page is memory that is wired, or used inside of the kernel. -/
def ResidentPage.Wired : Prop := m.Real ∧ (m.wireCount ≠ 0 ∨ m.gobbled = true)

end

instance (m : ResidentPage Obj) : Decidable m.FreeReal := inferInstanceAs (Decidable (_ ∧ _))
instance (m : ResidentPage Obj) : Decidable m.ActiveReal := inferInstanceAs (Decidable (_ ∧ _))
instance (m : ResidentPage Obj) : Decidable m.InactiveReal := inferInstanceAs (Decidable (_ ∧ _))
instance (m : ResidentPage Obj) : Decidable m.Wired := inferInstanceAs (Decidable (_ ∧ _))

/-- A page is in one state at a time. -/
structure ResidentPage.FlagsOk (m : ResidentPage Obj) : Prop where
  active : m.active = true → m.inactive = false
  queued : m.active = true ∨ m.inactive = true →
    m.wireCount = 0 ∧ m.gobbled = false ∧ m.shadow = false ∧ m.free = false
  gobbled : m.gobbled = true → m.wireCount = 0 ∧ m.free = false
  free : m.free = true →
    m.wireCount = 0 ∧ m.limbo = false ∧ m.tabled = false ∧ m.shadow = false

/-- A page on the limbo queue is in no other state. -/
structure ResidentPage.LimboOk (m : ResidentPage Obj) : Prop where
  limbo : m.limbo = true
  active : m.active = false
  inactive : m.inactive = false
  tabled : m.tabled = false
  wireCount : m.wireCount = 0
  gobbled : m.gobbled = false
  shadow : m.shadow = false

end Flags

namespace ResidentState

/-- Tabled pages, and they alone, are in their bucket and on the list of their object, one for
each place, and are counted. -/
structure TableInv (hash : Obj → ℕ → ℕ) (s : ResidentState Page Obj) : Prop where
  bucket : ∀ b, Tracks (s.bucket b) (ResidentPage.InBucket hash b) s.page
  memq : ∀ object, Tracks (s.memq object) (ResidentPage.OnMemq object) s.page
  object : ∀ p, (s.page p).tabled = true → (s.page p).object ≠ none
  unique : ∀ p q, (s.page p).tabled = true → (s.page q).tabled = true →
    (s.page p).object = (s.page q).object → (s.page p).offset = (s.page q).offset → p = q
  count : ∀ object, s.residentPageCount object = (s.memq object).length

/-- The queues have the pages that their flags name, and the counters say how many. -/
structure QueueInv [Fintype Page] (s : ResidentState Page Obj) : Prop where
  flags : ∀ p, (s.page p).FlagsOk
  free : Tracks s.queueFree ResidentPage.FreeReal s.page
  zone : Tracks s.zone ResidentPage.FreeFictitious s.page
  active : Tracks s.queueActive (fun m => m.active = true) s.page
  inactive : Tracks s.queueInactive (fun m => m.inactive = true) s.page
  limbo : ∀ p ∈ s.queueLimbo, (s.page p).LimboOk
  nodup : s.queueLimbo.Nodup
  freeCount : s.freeCount = countWhere ResidentPage.FreeReal s.page
  activeCount : s.activeCount = countWhere ResidentPage.ActiveReal s.page
  inactiveCount : s.inactiveCount = countWhere ResidentPage.InactiveReal s.page
  wireCount : s.wireCount = countWhere ResidentPage.Wired s.page
  gobbleCount : s.gobbleCount = countWhere (fun m : ResidentPage Obj => m.gobbled = true) s.page

/-- On the limbo queue memory is before page structures without, and both are counted. -/
structure LimboInv (s : ResidentState Page Obj) : Prop where
  order : s.queueLimbo.Pairwise fun p q => (s.page p).fictitious = true →
    (s.page q).fictitious = true
  count : s.limboCount = s.queueLimbo.length
  realCount : s.limboRealCount = (s.queueLimbo.filter fun p => !(s.page p).fictitious).length

section Table

/-- The table is the same, and the pages are at the same places. -/
theorem TableInv.congr (h : TableInv hash s) (hbucket : s'.bucket = s.bucket)
    (hmemq : s'.memq = s.memq) (hcount : s'.residentPageCount = s.residentPageCount)
    (hpage : ∀ p, (s'.page p).tabled = (s.page p).tabled ∧ ((s.page p).tabled = true →
      (s'.page p).object = (s.page p).object ∧ (s'.page p).offset = (s.page p).offset)) :
    TableInv hash s' := by
  have hin (b : ℕ) (p : Page) : (s'.page p).InBucket hash b ↔ (s.page p).InBucket hash b := by
    obtain ⟨htabled, hplace⟩ := hpage p
    unfold ResidentPage.InBucket
    rw [htabled]
    apply and_congr_right
    intro htrue
    rw [(hplace htrue).1, (hplace htrue).2]
  have hon (object : Obj) (p : Page) : (s'.page p).OnMemq object ↔ (s.page p).OnMemq object := by
    obtain ⟨htabled, hplace⟩ := hpage p
    unfold ResidentPage.OnMemq
    rw [htabled]
    apply and_congr_right
    intro htrue
    rw [(hplace htrue).1]
  constructor
  · intro b
    rw [hbucket]
    exact ⟨fun p => ((h.bucket b).mem p).trans (hin b p).symm, (h.bucket b).nodup⟩
  · intro object
    rw [hmemq]
    exact ⟨fun p => ((h.memq object).mem p).trans (hon object p).symm, (h.memq object).nodup⟩
  · intro p hp
    have htrue := (hpage p).1.symm.trans hp
    rw [((hpage p).2 htrue).1]
    exact h.object p htrue
  · intro p q hp hq hobject hoffset
    have htrue := (hpage p).1.symm.trans hp
    have htrue' := (hpage q).1.symm.trans hq
    rw [((hpage p).2 htrue).1, ((hpage q).2 htrue').1] at hobject
    rw [((hpage p).2 htrue).2, ((hpage q).2 htrue').2] at hoffset
    exact h.unique p q htrue htrue' hobject hoffset
  · rw [hmemq, hcount]
    exact h.count

/-- The place of a page is free. -/
def Vacant (s : ResidentState Page Obj) (object : Obj) (offset : ℕ) : Prop :=
  ∀ q, (s.page q).tabled = true →
    ¬ ((s.page q).object = some object ∧ (s.page q).offset = offset)

/-- The bucket is searched for the page at a place. -/
theorem TableInv.find [DecidableEq Obj] (ht : TableInv hash s) {found : Option Page}
    (hfind : ((s.bucket (hash object offset)).find? fun q =>
      (s.page q).object = some object ∧ (s.page q).offset = offset) = found) :
    (found = none ∧ s.Vacant object offset) ∨ ∃ q, found = some q ∧ (s.page q).tabled = true ∧
      (s.page q).object = some object ∧ (s.page q).offset = offset := by
  cases found with
  | none =>
    refine .inl ⟨rfl, ?_⟩
    intro q htabled hplace
    have hmem : q ∈ s.bucket (hash object offset) :=
      ((ht.bucket _).mem q).mpr ⟨htabled, object, hplace.1, by rw [hplace.2]⟩
    have hnot := find?_eq_none.mp hfind q hmem
    exact hnot (decide_eq_true hplace)
  | some q =>
    have hplace : (s.page q).object = some object ∧ (s.page q).offset = offset := by
      simpa using find?_some hfind
    have hin := ((ht.bucket _).mem q).mp (mem_of_find?_eq_some hfind)
    exact .inr ⟨q, rfl, hin.1, hplace⟩

variable [DecidableEq Page]

/-- A page structure changes, but not its place. -/
theorem TableInv.setPage (h : TableInv hash s) (htabled : m.tabled = (s.page p).tabled)
    (hplace : (s.page p).tabled = true →
      m.object = (s.page p).object ∧ m.offset = (s.page p).offset)
    (hpage : s'.page = update s.page p m) (hbucket : s'.bucket = s.bucket)
    (hmemq : s'.memq = s.memq) (hcount : s'.residentPageCount = s.residentPageCount) :
    TableInv hash s' := by
  apply h.congr hbucket hmemq hcount
  intro q
  rw [hpage]
  by_cases hq : q = p
  · subst hq
    rw [update_self]
    exact ⟨htabled, hplace⟩
  · rw [update_of_ne hq]
    exact ⟨rfl, fun _ => ⟨rfl, rfl⟩⟩

variable [DecidableEq Obj]

/-- `vm_page_insert` at a place that is free. -/
theorem TableInv.insert (h : TableInv hash s) (htabled : (s.page p).tabled = false)
    (hvacant : s.Vacant object offset) :
    ∃ s', s.vmPageInsert hash p object offset = some s' ∧ TableInv hash s' := by
  unfold vmPageInsert
  rw [htabled]
  refine ⟨_, if_neg Bool.false_ne_true, ?_⟩
  obtain ⟨m, hm⟩ : ∃ m : ResidentPage Obj, m = { s.page p with
      object := some object
      offset := offset
      tabled := true } := ⟨_, rfl⟩
  have hobject : m.object = some object := by rw [hm]
  have hoffset : m.offset = offset := by rw [hm]
  have htrue : m.tabled = true := by rw [hm]
  simp only [ResidentState.setPage]
  rw [← hm]
  have hold (b : ℕ) : ¬ (s.page p).InBucket hash b := fun hin =>
    absurd (htabled.symm.trans hin.1) Bool.false_ne_true
  have hold' (o : Obj) : ¬ (s.page p).OnMemq o := fun hon =>
    absurd (htabled.symm.trans hon.1) Bool.false_ne_true
  constructor
  · intro b
    by_cases hb : b = hash object offset
    · subst hb
      simp only [update_self]
      exact (h.bucket _).cons (hold _) ⟨htrue, object, hobject, by rw [hoffset]⟩
    · simp only [update_of_ne hb]
      apply (h.bucket b).congr
      refine iff_of_false ?_ (hold b)
      rintro ⟨-, o, ho, hhash⟩
      rw [hobject] at ho
      cases ho
      rw [hoffset] at hhash
      exact hb hhash.symm
  · intro o
    by_cases ho : o = object
    · subst ho
      simp only [update_self]
      exact (h.memq o).append (hold' o) ⟨htrue, hobject⟩
    · simp only [update_of_ne ho]
      apply (h.memq o).congr
      refine iff_of_false ?_ (hold' o)
      rintro ⟨-, hsome⟩
      rw [hobject] at hsome
      exact ho (Option.some.inj hsome).symm
  · intro q hq
    by_cases hqp : q = p
    · subst hqp
      simp [hobject]
    · simp only [update_of_ne hqp] at hq ⊢
      exact h.object q hq
  · intro q r hq hr hsame hsame'
    by_cases hqp : q = p
    · subst hqp
      by_cases hrp : r = q
      · exact hrp.symm
      · simp only [update_self, update_of_ne hrp] at hr hsame hsame'
        exact absurd ⟨hsame.symm.trans hobject, hsame'.symm.trans hoffset⟩ (hvacant r hr)
    · by_cases hrp : r = p
      · subst hrp
        simp only [update_self, update_of_ne hqp] at hq hsame hsame'
        exact absurd ⟨hsame.trans hobject, hsame'.trans hoffset⟩ (hvacant q hq)
      · simp only [update_of_ne hqp, update_of_ne hrp] at hq hr hsame hsame'
        exact h.unique q r hq hr hsame hsame'
  · intro o
    by_cases ho : o = object
    · subst ho
      simp [h.count o]
    · simp only [update_of_ne ho]
      exact h.count o

/-- A page leaves its bucket and the list of its object. -/
theorem TableInv.untable (h : TableInv hash s) (htabled : (s.page p).tabled = true)
    (hobject : (s.page p).object = some object) (hm : m.tabled = false) :
    TableInv hash (s.untable hash p object m) := by
  have hnew (b : ℕ) : ¬ m.InBucket hash b := fun hin =>
    absurd (hm.symm.trans hin.1) Bool.false_ne_true
  have hnew' (o : Obj) : ¬ m.OnMemq o := fun hon =>
    absurd (hm.symm.trans hon.1) Bool.false_ne_true
  have hmem : p ∈ s.memq object := ((h.memq object).mem p).mpr ⟨htabled, hobject⟩
  unfold ResidentState.untable
  constructor
  · intro b
    simp only [ResidentState.setPage]
    by_cases hb : b = hash object (s.page p).offset
    · subst hb
      simp only [update_self]
      exact (h.bucket _).erase (hnew _)
    · simp only [update_of_ne hb]
      apply (h.bucket b).congr
      refine iff_of_false (hnew b) ?_
      rintro ⟨-, o, ho, hhash⟩
      rw [hobject] at ho
      cases ho
      exact hb hhash.symm
  · intro o
    simp only [ResidentState.setPage]
    by_cases ho : o = object
    · subst ho
      simp only [update_self]
      exact (h.memq o).erase (hnew' o)
    · simp only [update_of_ne ho]
      apply (h.memq o).congr
      refine iff_of_false (hnew' o) ?_
      rintro ⟨-, hsome⟩
      exact ho (Option.some.inj (hsome.symm.trans hobject))
  · intro q hq
    simp only [ResidentState.setPage] at hq ⊢
    by_cases hqp : q = p
    · subst hqp
      rw [update_self, hm] at hq
      cases hq
    · rw [update_of_ne hqp] at hq ⊢
      exact h.object q hq
  · intro q r hq hr hsame hsame'
    simp only [ResidentState.setPage] at hq hr hsame hsame'
    have hqp : q ≠ p := by
      rintro rfl
      rw [update_self, hm] at hq
      cases hq
    have hrp : r ≠ p := by
      rintro rfl
      rw [update_self, hm] at hr
      cases hr
    simp only [update_of_ne hqp, update_of_ne hrp] at hq hr hsame hsame'
    exact h.unique q r hq hr hsame hsame'
  · intro o
    by_cases ho : o = object
    · subst ho
      simp only [update_self]
      have hlength := length_erase_of_mem hmem
      have hpos := length_pos_of_mem hmem
      rw [h.count o, hlength]
      omega
    · simp only [update_of_ne ho]
      exact h.count o

end Table

end ResidentState

end MachVirtuTerm
