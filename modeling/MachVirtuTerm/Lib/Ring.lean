import Mathlib.Data.List.Chain
import Mathlib.Data.List.Nodup

/-!
# Circular doubly linked queues

The cells of a queue are linked in a ring in both directions, and a base points to the
first cell. Cells carry their links with them, so one pair of link functions holds any
number of queues; an operation on one queue touches the links of its own cells only.
-/

variable {α : Type*}

/-- The links of all cells. -/
structure Links (α : Type*) where
  next : α → α
  prev : α → α

open List

namespace Links

/-- Two cells next to each other. -/
def Linked (L : Links α) (a b : α) : Prop := L.next a = b ∧ L.prev b = a

/-- The cells of a list are linked in a ring. -/
def Ring (L : Links α) (l : List α) : Prop :=
  l.IsChain L.Linked ∧ ∀ h : l ≠ [], L.Linked (l.getLast h) (l.head h)

/-- A cell in no queue of several cells: its links lead to itself. -/
def Single (L : Links α) (a : α) : Prop := L.next a = a ∧ L.prev a = a

/-- A queue with a base holds the cells of a list, in this order, each once. -/
structure Queue (L : Links α) (base : Option α) (l : List α) : Prop where
  base_eq : base = l.head?
  ring : L.Ring l
  nodup : l.Nodup

/-- Two sets of links agree on a cell. -/
def AgreeOn (L L' : Links α) (a : α) : Prop := L'.next a = L.next a ∧ L'.prev a = L.prev a

section Operations

variable [DecidableEq α] (L : Links α)

/-- Store a link forwards. -/
def setNext (a b : α) : Links α := { L with next := Function.update L.next a b }

/-- Store a link backwards. -/
def setPrev (a b : α) : Links α := { L with prev := Function.update L.prev a b }

/-- Make a cell a ring of its own. -/
def init (a : α) : Links α := (L.setNext a a).setPrev a a

/-- Put a cell at the end of the queue. -/
def enqueue (base : Option α) (a : α) : Links α × Option α :=
  match base with
  | none => (L, some a)
  | some first =>
    let last := L.prev first
    let L := L.setNext a first
    let L := L.setPrev a last
    let L := L.setPrev first a
    let L := L.setNext last a
    (L, some first)

/-- Take out the first cell of the queue. -/
def removeFirst (a : α) : Links α × Option α :=
  let next := L.next a
  if next = a then (L, none)
  else
    let prev := L.prev a
    let L := L.setPrev next prev
    let L := L.setNext prev next
    (L.init a, some next)

/-- Take a cell out of the queue. -/
def remove (base : Option α) (a : α) : Links α × Option α :=
  let next := L.next a
  let prev := L.prev a
  if next = a then (L, none)
  else
    let base := if base = some a then some next else base
    let L := L.setPrev next prev
    let L := L.setNext prev next
    (L.init a, base)

end Operations

variable {L L' : Links α} {a b first last : α} {l pre post : List α} {base : Option α}

section Rings

/-- A ring depends on the links of its own cells only. -/
theorem Ring.congr (h : L.Ring l) (heq : ∀ a ∈ l, L.AgreeOn L' a) : L'.Ring l := by
  obtain ⟨hchain, hclose⟩ := h
  refine ⟨hchain.imp_of_mem_imp fun x y hx hy hxy => ?_, fun hne => ?_⟩
  · exact ⟨(heq x hx).1.trans hxy.1, (heq y hy).2.trans hxy.2⟩
  · have hlast := heq _ (l.getLast_mem hne)
    have hfirst := heq _ (l.head_mem hne)
    exact ⟨hlast.1.trans (hclose hne).1, hfirst.2.trans (hclose hne).2⟩

/-- The links inside a list do not depend on those of its ends that lead out of it. -/
theorem isChain_congr (h : l.IsChain L.Linked) (hnext : ∀ x ∈ l.dropLast, L'.next x = L.next x)
    (hprev : ∀ y ∈ l.tail, L'.prev y = L.prev y) : l.IsChain L'.Linked := by
  induction l with
  | nil => exact .nil
  | cons a l ih =>
    cases l with
    | nil => exact .singleton a
    | cons b l =>
      obtain ⟨hab, hl⟩ := isChain_cons_cons.mp h
      refine isChain_cons_cons.mpr ⟨⟨?_, ?_⟩, ih hl (fun x hx => ?_) fun y hy => ?_⟩
      · exact (hnext a (by simp)).trans hab.1
      · exact (hprev b (by simp)).trans hab.2
      · exact hnext x (by simp [hx])
      · exact hprev y (mem_of_mem_tail hy)

/-- A ring can be read from any of its cells. -/
theorem Ring.rotate (pre : List α) (h : L.Ring (pre ++ post)) : L.Ring (post ++ pre) := by
  by_cases hpre : pre = []
  · simpa [hpre] using h
  by_cases hpost : post = []
  · simpa [hpost] using h
  obtain ⟨hchain, hclose⟩ := h
  obtain ⟨hchainPre, hchainPost, hmid⟩ := isChain_append.mp hchain
  have hne : pre ++ post ≠ [] := append_ne_nil_of_left_ne_nil hpre post
  have hclose := hclose hne
  rw [getLast_append_of_ne_nil hne hpost, head_append_of_ne_nil hpre] at hclose
  refine ⟨isChain_append.mpr ⟨hchainPost, hchainPre, ?_⟩, fun hne' => ?_⟩
  · intro x hx y hy
    rw [getLast?_eq_getLast_of_ne_nil hpost] at hx
    rw [head?_eq_some_head hpre] at hy
    cases hx
    cases hy
    exact hclose
  · rw [getLast_append_of_ne_nil hne' hpre, head_append_of_ne_nil hpost]
    exact hmid _ (getLast?_eq_getLast_of_ne_nil hpre) _ (head?_eq_some_head hpost)

/-- The links of a ring with a first cell, another one and a last one. -/
theorem ring_cons_iff (hne : l ≠ []) :
    L.Ring (a :: l) ↔
      l.IsChain L.Linked ∧ L.Linked a (l.head hne) ∧ L.Linked (l.getLast hne) a := by
  obtain ⟨b, m, rfl⟩ := exists_cons_of_ne_nil hne
  simp only [Ring, isChain_cons_cons, head_cons, ne_eq, reduceCtorEq,
    not_false_eq_true, getLast_cons, forall_const]
  constructor
  · rintro ⟨⟨hab, hchain⟩, hclose⟩
    exact ⟨hchain, hab, hclose⟩
  · rintro ⟨hchain, hab, hclose⟩
    exact ⟨⟨hab, hchain⟩, hclose⟩

/-- A cell alone is a ring when its links lead to itself. -/
theorem ring_singleton : L.Ring [a] ↔ L.Single a := by
  simp [Ring, Linked, Single]

end Rings

section Queues

/-- The last cell of a list without duplicates is not before the end. -/
theorem ne_getLast_of_mem_dropLast (hn : l.Nodup) (hne : l ≠ []) (ha : a ∈ l.dropLast) :
    a ≠ l.getLast hne := by
  rintro rfl
  rw [← dropLast_append_getLast hne] at hn
  exact (disjoint_of_nodup_append hn) ha (by simp)

/-- The first cell of a list without duplicates is not after the beginning. -/
theorem ne_head_of_mem_tail (hn : l.Nodup) (hne : l ≠ []) (ha : a ∈ l.tail) : a ≠ l.head hne := by
  rintro rfl
  rw [← cons_head_tail hne] at hn
  exact (nodup_cons.mp hn).1 ha

/-- The base of a queue with cells is the first of them. -/
theorem Queue.base_eq_some (h : L.Queue base l) (hne : l ≠ []) : base = some (l.head hne) :=
  h.base_eq.trans (head?_eq_some_head hne)

/-- A queue without cells has no base. -/
theorem queue_nil : L.Queue none [] := ⟨rfl, ⟨.nil, fun h => absurd rfl h⟩, nodup_nil⟩

/-- A queue depends on the links of its own cells only. -/
theorem Queue.congr (h : L.Queue base l) (heq : ∀ a ∈ l, L.AgreeOn L' a) : L'.Queue base l :=
  ⟨h.base_eq, h.ring.congr heq, h.nodup⟩

/-- A cell that is not alone in its ring leads to another one. -/
theorem Ring.next_ne (h : L.Ring (a :: l)) (ha : a ∉ l) (hne : l ≠ []) : L.next a ≠ a := by
  obtain ⟨-, hnext, -⟩ := (ring_cons_iff hne).mp h
  rw [hnext.1]
  intro heq
  exact ha (heq ▸ head_mem hne)

/-- Following the links from a cell on, two lists that end at the same cell are the same. -/
theorem isChain_unique {m : List α} (hl : (a :: (l ++ [b])).IsChain L.Linked)
    (hm : (a :: (m ++ [b])).IsChain L.Linked) (hbl : b ∉ l) (hbm : b ∉ m) : l = m := by
  induction l generalizing a m with
  | nil =>
    cases m with
    | nil => rfl
    | cons y m =>
      obtain ⟨hab, -⟩ := isChain_cons_cons.mp hl
      obtain ⟨hay, -⟩ := isChain_cons_cons.mp hm
      exact absurd (by simp [← hab.1, hay.1]) hbm
  | cons x l ih =>
    cases m with
    | nil =>
      obtain ⟨hax, -⟩ := isChain_cons_cons.mp hl
      obtain ⟨hab, -⟩ := isChain_cons_cons.mp hm
      exact absurd (by simp [← hab.1, hax.1]) hbl
    | cons y m =>
      obtain ⟨hax, hl⟩ := isChain_cons_cons.mp hl
      obtain ⟨hay, hm⟩ := isChain_cons_cons.mp hm
      obtain rfl : x = y := hax.1.symm.trans hay.1
      rw [ih hl hm (fun h => hbl (by simp [h])) fun h => hbm (by simp [h])]

/-- A ring read from its first cell until that cell comes again. -/
theorem Ring.isChain_cons (h : L.Ring (a :: l)) : (a :: (l ++ [a])).IsChain L.Linked := by
  by_cases hne : l = []
  · obtain rfl := hne
    exact isChain_cons_cons.mpr ⟨ring_singleton.mp h, .singleton a⟩
  · obtain ⟨hchain, hfirst, hlast⟩ := (ring_cons_iff hne).mp h
    rw [← cons_append, isChain_append]
    refine ⟨h.1, .singleton a, ?_⟩
    intro x hx y hy
    obtain ⟨b, m, rfl⟩ := exists_cons_of_ne_nil hne
    rw [getLast?_cons_cons, getLast?_eq_getLast_of_ne_nil hne] at hx
    cases hx
    cases hy
    exact hlast

/-- The links and the base determine the cells of a queue. -/
theorem Queue.unique {m : List α} (hl : L.Queue base l) (hm : L.Queue base m) : l = m := by
  cases l with
  | nil =>
    have hnone : m.head? = none := hm.base_eq.symm.trans hl.base_eq
    exact (head?_eq_none_iff.mp hnone).symm
  | cons a l =>
    have hsome : m.head? = some a := hm.base_eq.symm.trans hl.base_eq
    obtain ⟨m, rfl⟩ := head?_eq_some_iff.mp hsome
    have heq := isChain_unique hl.ring.isChain_cons hm.ring.isChain_cons
      (nodup_cons.mp hl.nodup).1 (nodup_cons.mp hm.nodup).1
    rw [heq]

variable [DecidableEq α]

/-- A cell put at the end of a ring. -/
theorem Ring.enqueue (h : L.Ring l) (hn : l.Nodup) (hne : l ≠ []) (ha : a ∉ l) :
    (L.enqueue (some (l.head hne)) a).1.Ring (l ++ [a]) := by
  have hlast : L.prev (l.head hne) = l.getLast hne := (h.2 hne).2
  have hfirstMem : l.head hne ∈ l := head_mem hne
  have hlastMem : l.getLast hne ∈ l := getLast_mem hne
  have hfirst : l.head hne ≠ a := fun heq => ha (heq ▸ hfirstMem)
  have hlast' : l.getLast hne ≠ a := fun heq => ha (heq ▸ hlastMem)
  refine Ring.rotate [a] ((ring_cons_iff hne).mpr ⟨?_, ⟨?_, ?_⟩, ?_, ?_⟩)
  · refine isChain_congr h.1 (fun x hx => ?_) fun y hy => ?_
    · have hxa : x ≠ a := fun heq => ha (heq ▸ dropLast_subset l hx)
      have hxl := ne_getLast_of_mem_dropLast hn hne hx
      simp [Links.enqueue, setNext, setPrev, hlast, hxa, hxl]
    · have hya : y ≠ a := fun heq => ha (heq ▸ mem_of_mem_tail hy)
      have hyf := ne_head_of_mem_tail hn hne hy
      simp [Links.enqueue, setNext, setPrev, hya, hyf]
  · simp [Links.enqueue, setNext, setPrev, hlast, hlast'.symm]
  · simp [Links.enqueue, setNext, setPrev]
  · simp [Links.enqueue, setNext, setPrev, hlast]
  · simp [Links.enqueue, setNext, setPrev, hlast, hfirst.symm]

/-- Putting a cell of its own at the end of a queue. -/
theorem Queue.enqueue (h : L.Queue base l) (ha : a ∉ l) (hsingle : L.Single a) :
    (L.enqueue base a).1.Queue (L.enqueue base a).2 (l ++ [a]) := by
  have hn : (l ++ [a]).Nodup := by
    rw [← concat_eq_append]
    exact h.nodup.concat ha
  by_cases hne : l = []
  · obtain rfl := hne
    obtain rfl : base = none := h.base_eq
    exact ⟨rfl, ring_singleton.mpr hsingle, hn⟩
  · obtain rfl := h.base_eq_some hne
    refine ⟨?_, h.ring.enqueue h.nodup hne ha, hn⟩
    rw [head?_append_of_ne_nil _ hne, head?_eq_some_head hne]
    rfl

/-- Other cells keep their links when a cell is put at the end of a queue. -/
theorem Queue.enqueue_agreeOn (h : L.Queue base l) (hb : b ∉ l) (hba : b ≠ a) :
    L.AgreeOn (L.enqueue base a).1 b := by
  by_cases hne : l = []
  · obtain rfl := hne
    obtain rfl : base = none := h.base_eq
    exact ⟨rfl, rfl⟩
  · obtain rfl := h.base_eq_some hne
    have hlast : L.prev (l.head hne) = l.getLast hne := (h.ring.2 hne).2
    have hfirst : b ≠ l.head hne := fun heq => hb (heq ▸ head_mem hne)
    have hlast' : b ≠ l.getLast hne := fun heq => hb (heq ▸ getLast_mem hne)
    simp [AgreeOn, Links.enqueue, setNext, setPrev, hlast, hfirst, hlast', hba]

/-- The links after a cell was taken out of a ring of several. -/
theorem Ring.remove (h : L.Ring (a :: l)) (hn : (a :: l).Nodup) (hne : l ≠ []) :
    (L.remove base a).1.Ring l := by
  obtain ⟨ha, hn⟩ := nodup_cons.mp hn
  obtain ⟨hchain, hnext, hprev⟩ := (ring_cons_iff hne).mp h
  have hfirst : l.head hne ≠ a := fun heq => ha (heq ▸ head_mem hne)
  have hlast : l.getLast hne ≠ a := fun heq => ha (heq ▸ getLast_mem hne)
  refine ⟨isChain_congr hchain (fun x hx => ?_) fun y hy => ?_, fun _ => ⟨?_, ?_⟩⟩
  · have hxa : x ≠ a := fun heq => ha (heq ▸ dropLast_subset l hx)
    have hxl := ne_getLast_of_mem_dropLast hn hne hx
    simp [Links.remove, init, setNext, setPrev, hnext.1, hprev.2, hfirst, hxa, hxl]
  · have hya : y ≠ a := fun heq => ha (heq ▸ mem_of_mem_tail hy)
    have hyf := ne_head_of_mem_tail hn hne hy
    simp [Links.remove, init, setNext, setPrev, hnext.1, hfirst, hya, hyf]
  · simp [Links.remove, init, setNext, setPrev, hnext.1, hprev.2, hfirst, hlast]
  · simp [Links.remove, init, setNext, setPrev, hnext.1, hprev.2, hfirst]

/-- A cell taken out of a ring is one of its own. -/
theorem Ring.remove_single (h : L.Ring (a :: l)) (ha : a ∉ l) : (L.remove base a).1.Single a := by
  by_cases hne : l = []
  · obtain rfl := hne
    have hsingle : L.Single a := ring_singleton.mp h
    simpa [Links.remove, hsingle.1] using hsingle
  · simp [Links.remove, h.next_ne ha hne, init, setNext, setPrev, Single]

variable (pre : List α)

section

variable (h : L.Queue base (pre ++ a :: post))

include h

/-- Taking a cell out of a queue. -/
theorem Queue.remove : (L.remove base a).1.Queue (L.remove base a).2 (pre ++ post) := by
  have hring : L.Ring (a :: (post ++ pre)) := h.ring.rotate
  have hn : (a :: (post ++ pre)).Nodup := nodup_append_comm.mp h.nodup
  have ha : a ∉ post ++ pre := (nodup_cons.mp hn).1
  by_cases hne : post ++ pre = []
  · obtain ⟨rfl, rfl⟩ := append_eq_nil_iff.mp hne
    have hself : L.next a = a := (ring_singleton.mp hring).1
    simpa [Links.remove, hself] using queue_nil
  · have hnext := hring.next_ne ha hne
    refine ⟨?_, (hring.remove hn hne).rotate, nodup_append_comm.mp hn.of_cons⟩
    simp only [Links.remove, if_neg hnext]
    cases pre with
    | nil =>
      have hpost : post ≠ [] := by simpa using hne
      obtain ⟨-, hlink, -⟩ := (ring_cons_iff hne).mp hring
      have hbase : base = some a := h.base_eq
      simp [hbase, hlink.1, head?_eq_some_head hpost]
    | cons b pre =>
      have hba : b ≠ a := fun heq => ha (by simp [heq])
      have hbase : base = some b := h.base_eq
      simp [hbase, hba]

/-- The cell taken out is one of its own. -/
theorem Queue.remove_single : (L.remove base a).1.Single a := by
  have hring : L.Ring (a :: (post ++ pre)) := h.ring.rotate
  have hn : (a :: (post ++ pre)).Nodup := nodup_append_comm.mp h.nodup
  exact hring.remove_single (nodup_cons.mp hn).1

/-- Other cells keep their links when a cell is taken out of a queue. -/
theorem Queue.remove_agreeOn (hb : b ∉ pre ++ a :: post) : L.AgreeOn (L.remove base a).1 b := by
  have hring : L.Ring (a :: (post ++ pre)) := h.ring.rotate
  by_cases hnext : L.next a = a
  · simp [Links.remove, hnext, AgreeOn]
  · have hne : post ++ pre ≠ [] := by
      rintro hnil
      rw [hnil] at hring
      exact hnext (ring_singleton.mp hring).1
    obtain ⟨-, hlinkNext, hlinkPrev⟩ := (ring_cons_iff hne).mp hring
    have hmem : ∀ x ∈ post ++ pre, b ≠ x := by
      rintro x hx rfl
      refine hb ?_
      rcases mem_append.mp hx with hx | hx
      · simp [hx]
      · simp [hx]
    have hba : b ≠ a := fun heq => hb (by simp [heq])
    have hfirst := hmem _ (head_mem hne)
    have hlast := hmem _ (getLast_mem hne)
    have hfirst' : b ≠ L.next a := hlinkNext.1 ▸ hfirst
    have hlast' : b ≠ L.prev a := hlinkPrev.2 ▸ hlast
    simp [AgreeOn, Links.remove, hnext, init, setNext, setPrev, hba, hfirst', hlast']

end

/-- Taking out the first cell is taking out a cell that happens to be the first. -/
theorem removeFirst_eq (L : Links α) (a : α) : L.removeFirst a = L.remove (some a) a := by
  simp [removeFirst, Links.remove]

end Queues

end Links
