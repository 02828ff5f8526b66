import Mathlib.Data.List.Nodup

/-!
# Lists that are changed through pointers to their links

Every cell has a link, and a head leads to the first cell. A list is changed by writing to the
place that holds a link, which is the head or a cell.
-/

open List Function

namespace LinkSlots

variable {P : Type*}

/-- A place that holds a link. -/
inductive Slot (P : Type*)
  | head
  | next (m : P)

/-- The place behind the last cell of a list. -/
def slotAfter (l : List P) : Slot P :=
  match l.getLast? with
  | none => .head
  | some m => .next m

/-- The head and the links of the cells. -/
structure Links (P : Type*) where
  head : Option P
  next : P → Option P

/-- Following the links from `a` to `b` visits exactly the cells of a list. -/
def Segment (next : P → Option P) : Option P → List P → Option P → Prop
  | a, [], b => a = b
  | a, m :: l, b => a = some m ∧ Segment next (next m) l b

variable {next next' : P → Option P} {a b c : Option P} {m : P} {l l₁ l₂ : List P}

theorem slotAfter_ne_of_notMem (hm : m ∉ l) : slotAfter l ≠ .next m := by
  rw [slotAfter]
  intro heq
  split at heq
  next => cases heq
  next m' hlast =>
    cases heq
    exact hm (mem_of_getLast? hlast)

theorem segment_append_iff :
    Segment next a (l₁ ++ l₂) b ↔ ∃ c, Segment next a l₁ c ∧ Segment next c l₂ b := by
  induction l₁ generalizing a with
  | nil => exact ⟨fun h => ⟨a, rfl, h⟩, fun ⟨_, hc, h⟩ => hc ▸ h⟩
  | cons m l₁ ih =>
    constructor
    · rintro ⟨ha, h⟩
      obtain ⟨c, h₁, h₂⟩ := ih.mp h
      exact ⟨c, ⟨ha, h₁⟩, h₂⟩
    · rintro ⟨c, ⟨ha, h₁⟩, h₂⟩
      exact ⟨ha, ih.mpr ⟨c, h₁, h₂⟩⟩

theorem segment_concat_iff :
    Segment next a (l ++ [m]) b ↔ Segment next a l (some m) ∧ next m = b := by
  rw [segment_append_iff]
  constructor
  · rintro ⟨c, h, rfl, hb⟩
    exact ⟨h, hb⟩
  · rintro ⟨h, hb⟩
    exact ⟨some m, h, rfl, hb⟩

/-- A segment depends on the links of its own cells only. -/
theorem Segment.congr (h : Segment next a l b) (heq : ∀ m ∈ l, next' m = next m) :
    Segment next' a l b := by
  induction l generalizing a with
  | nil => exact h
  | cons m l ih =>
    obtain ⟨ha, h⟩ := h
    refine ⟨ha, ?_⟩
    rw [heq m mem_cons_self]
    exact ih h fun m' hm' => heq m' (mem_cons_of_mem m hm')

theorem Segment.head_eq (h : Segment next a l none) : a = l.head? := by
  cases l with
  | nil => exact h
  | cons m l => exact h.1

namespace Links

variable {L : Links P}

/-- The link in a place. -/
def get (L : Links P) : Slot P → Option P
  | .head => L.head
  | .next m => L.next m

/-- The list from the head on. -/
def Chain (L : Links P) (l : List P) : Prop := Segment L.next L.head l none

/-- The place behind some cells holds the link to what comes then. -/
theorem get_slotAfter (h : Segment L.next L.head l c) : L.get (slotAfter l) = c := by
  rcases eq_nil_or_concat l with rfl | ⟨l', m, rfl⟩
  · exact h
  · rw [concat_eq_append] at h ⊢
    rw [slotAfter, getLast?_concat]
    exact (segment_concat_iff.mp h).2

variable [DecidableEq P]

/-- A link is written to a place. -/
def set (L : Links P) (v : Option P) : Slot P → Links P
  | .head => { L with head := v }
  | .next m => { L with next := update L.next m v }

theorem set_next_of_ne {v : Option P} {s : Slot P} {m' : P} (hne : s ≠ .next m') :
    (L.set v s).next m' = L.next m' := by
  cases s with
  | head => rfl
  | next m =>
    refine update_of_ne ?_ _ _
    rintro rfl
    exact hne rfl

/-- Writing behind some cells leads them elsewhere. -/
theorem segment_set_slotAfter (h : Segment L.next L.head l c) (hl : l.Nodup) (v : Option P) :
    Segment (L.set v (slotAfter l)).next (L.set v (slotAfter l)).head l v := by
  rcases eq_nil_or_concat l with rfl | ⟨l', m, rfl⟩
  · exact rfl
  · rw [concat_eq_append] at h hl ⊢
    have hslot : slotAfter (l' ++ [m]) = .next m := by
      rw [slotAfter, getLast?_concat]
    rw [hslot, segment_concat_iff]
    refine ⟨(segment_concat_iff.mp h).1.congr fun m' hm' => ?_, update_self _ _ _⟩
    refine update_of_ne ?_ _ _
    rintro rfl
    exact (nodup_append.mp hl).2.2 m' hm' m' mem_cons_self rfl

/-- What comes behind some cells is another list. -/
theorem Chain.redirect (h : L.Chain (l₁ ++ l₂)) (hl₁ : l₁.Nodup) {l₃ : List P} {v : Option P}
    (h₃ : Segment L.next v l₃ none) (hdisj : ∀ m ∈ l₃, m ∉ l₁) :
    (L.set v (slotAfter l₁)).Chain (l₁ ++ l₃) := by
  obtain ⟨c, h₁, -⟩ := segment_append_iff.mp h
  rw [Chain, segment_append_iff]
  refine ⟨v, segment_set_slotAfter h₁ hl₁ v, h₃.congr fun m hm => ?_⟩
  exact set_next_of_ne (slotAfter_ne_of_notMem (hdisj m hm))

/-- A cell that is in no list can be linked anywhere. -/
theorem Segment.set_next (h : Segment L.next a l b) (hm : m ∉ l) (v : Option P) :
    Segment (L.set v (.next m)).next a l b :=
  h.congr fun m' hm' => set_next_of_ne (by
    rintro ⟨⟩
    exact hm hm')

/-- A cell is put behind some cells of a list. -/
theorem Chain.insert (h : L.Chain (l₁ ++ l₂)) (hl : (l₁ ++ l₂).Nodup) (hm : m ∉ l₁ ++ l₂) :
    ((L.set (L.get (slotAfter l₁)) (.next m)).set (some m) (slotAfter l₁)).Chain
      (l₁ ++ m :: l₂) := by
  obtain ⟨c, h₁, h₂⟩ := segment_append_iff.mp h
  have hm₁ : m ∉ l₁ := fun hmem => hm (mem_append_left _ hmem)
  have hm₂ : m ∉ l₂ := fun hmem => hm (mem_append_right _ hmem)
  have hl' := nodup_append.mp hl
  have hlink : (L.set (L.get (slotAfter l₁)) (.next m)).next m = c := by
    rw [get_slotAfter h₁]
    exact update_self _ _ _
  have hset : (L.set (L.get (slotAfter l₁)) (.next m)).Chain (l₁ ++ l₂) := Segment.set_next h hm _
  refine hset.redirect hl'.1 ⟨rfl, ?_⟩ ?_
  · rw [hlink]
    exact Segment.set_next h₂ hm₂ _
  · intro m' hm'
    rcases mem_cons.mp hm' with rfl | hm'
    · exact hm₁
    · exact fun hmem => hl'.2.2 m' hmem m' hm' rfl

end Links

end LinkSlots
