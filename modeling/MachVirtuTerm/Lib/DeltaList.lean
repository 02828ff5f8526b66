import Mathlib.Data.List.Basic

/-!
# Delta lists

The elements of a list lie at places in increasing order. Each keeps only how far it lies
behind the one before it, the first how far it lies behind a base.
-/

open List Function

namespace DeltaList

open DeltaList

variable {α : Type*}

/-- The elements lie at these places. -/
def At (delta place : α → ℕ) : ℕ → List α → Prop
  | _, [] => True
  | base, a :: l => place a = base + delta a ∧ At delta place (base + delta a) l

variable {delta delta' place place' : α → ℕ} {base : ℕ} {a b : α} {l : List α}

theorem At.congr (h : At delta place base l) (hdelta : ∀ b ∈ l, delta' b = delta b)
    (hplace : ∀ b ∈ l, place' b = place b) : At delta' place' base l := by
  induction l generalizing base with
  | nil => trivial
  | cons b l ih =>
    unfold At at h ⊢
    rw [hdelta b mem_cons_self, hplace b mem_cons_self]
    exact ⟨h.1, ih h.2 (fun c hc => hdelta c (mem_cons_of_mem _ hc))
      fun c hc => hplace c (mem_cons_of_mem _ hc)⟩

/-- No element lies before the base. -/
theorem At.base_le (h : At delta place base l) : ∀ b ∈ l, base ≤ place b := by
  induction l generalizing base with
  | nil => exact fun b hb => absurd hb not_mem_nil
  | cons b l ih =>
    intro c hc
    rcases mem_cons.mp hc with rfl | hc
    · rw [h.1]
      exact Nat.le_add_right _ _
    · exact Nat.le_trans (Nat.le_add_right _ _) (ih h.2 c hc)

/-- All elements come nearer. -/
theorem At.nearer (h : At delta place (base + 1) l) : At delta (fun b => place b - 1) base l := by
  induction l generalizing base with
  | nil => trivial
  | cons b l ih =>
    have hplace := h.1
    refine ⟨?_, ?_⟩
    · change place b - 1 = base + delta b
      omega
    · apply ih
      have hrest := h.2
      rwa [Nat.add_right_comm] at hrest

section Update

variable [DecidableEq α]

/-- Insert an element, at its place behind the base. -/
def insert (a : α) : (α → ℕ) → List α → (α → ℕ) × List α
  | delta, [] => (delta, [a])
  | delta, b :: l =>
    if delta b < delta a then
      let (delta', l) := insert a (update delta a (delta a - delta b)) l
      (delta', b :: l)
    else (update delta b (delta b - delta a), a :: b :: l)

/-- Remove an element. -/
def remove (a : α) (delta : α → ℕ) : List α → (α → ℕ) × List α
  | [] => (delta, [])
  | b :: l =>
    if b = a then
      match l with
      | [] => (delta, [])
      | c :: l => (update delta c (delta c + delta b), c :: l)
    else
      let (delta', l) := remove a delta l
      (delta', b :: l)

theorem insert_perm (a : α) (delta : α → ℕ) (l : List α) : (insert a delta l).2.Perm (a :: l) := by
  induction l generalizing delta with
  | nil => exact .refl _
  | cons b l ih =>
    unfold insert
    split
    · exact ((ih _).cons b).trans (.swap a b l)
    · exact .refl _

/-- Other elements are not changed. -/
theorem insert_of_notMem {c : α} (hc : c ∉ l) (hca : c ≠ a) : (insert a delta l).1 c = delta c := by
  induction l generalizing delta with
  | nil => rfl
  | cons b l ih =>
    rw [mem_cons, not_or] at hc
    unfold insert
    split
    · exact (ih hc.2).trans (update_of_ne hca _ _)
    · exact update_of_ne hc.1 _ _

/-- The others stay at their places. -/
theorem At.insert (h : At delta place base l) (hnodup : (a :: l).Nodup)
    (hplace : place a = base + delta a) :
    At (insert a delta l).1 place base (insert a delta l).2 := by
  induction l generalizing base delta with
  | nil => exact ⟨hplace, trivial⟩
  | cons b l ih =>
    rw [nodup_cons, mem_cons, not_or, nodup_cons] at hnodup
    obtain ⟨⟨hab, ha⟩, hb, hl⟩ := hnodup
    unfold insert
    split
    next hlt =>
      have hrest : At (update delta a (delta a - delta b)) place (base + delta b) l :=
        h.2.congr (fun c hc => update_of_ne (ne_of_mem_of_not_mem hc ha) _ _) fun _ _ => rfl
      have hinsert := ih hrest (nodup_cons.mpr ⟨ha, hl⟩) (by rw [hplace, update_self]; omega)
      have hdelta : (insert a (update delta a (delta a - delta b)) l).1 b = delta b :=
        (insert_of_notMem hb (Ne.symm hab)).trans (update_of_ne (Ne.symm hab) _ _)
      refine ⟨?_, ?_⟩
      · change place b = base + (insert a _ l).1 b
        rw [hdelta, h.1]
      · change At (insert a _ l).1 place (base + (insert a _ l).1 b) _
        rw [hdelta]
        exact hinsert
    next hle =>
      have hplaceb := h.1
      dsimp only
      refine ⟨?_, ?_, ?_⟩
      · rw [hplace, update_of_ne hab]
      · rw [hplaceb, update_of_ne hab, update_self]
        omega
      · rw [update_of_ne hab, update_self,
          show base + delta a + (delta b - delta a) = base + delta b by omega]
        exact h.2.congr (fun c hc => update_of_ne (ne_of_mem_of_not_mem hc hb) _ _) fun _ _ => rfl

theorem remove_snd (a : α) (delta : α → ℕ) (l : List α) : (remove a delta l).2 = l.erase a := by
  induction l with
  | nil => rfl
  | cons b l ih =>
    unfold remove
    by_cases hba : b = a
    · rw [if_pos hba, hba, erase_cons_head]
      cases l <;> rfl
    · rw [if_neg hba, erase_cons_tail (by simpa using hba), ← ih]

theorem remove_of_notMem {c : α} (hc : c ∉ l) : (remove a delta l).1 c = delta c := by
  induction l with
  | nil => rfl
  | cons b l ih =>
    rw [mem_cons, not_or] at hc
    unfold remove
    split
    · cases l with
      | nil => rfl
      | cons d l =>
        rw [mem_cons, not_or] at hc
        exact update_of_ne hc.2.1 _ _
    · exact ih hc.2

theorem At.remove (h : At delta place base l) (hnodup : l.Nodup) (a : α) :
    At (remove a delta l).1 place base (remove a delta l).2 := by
  induction l generalizing base with
  | nil => trivial
  | cons b l ih =>
    rw [nodup_cons] at hnodup
    unfold remove
    split
    · cases l with
      | nil => trivial
      | cons c l =>
        obtain ⟨-, hplace, hrest⟩ := h
        have hc := (nodup_cons.mp hnodup.2).1
        dsimp only
        refine ⟨?_, ?_⟩
        · rw [hplace, update_self]
          omega
        · rw [update_self, show base + (delta c + delta b) = base + delta b + delta c by omega]
          exact hrest.congr (fun d hd => update_of_ne (ne_of_mem_of_not_mem hd hc) _ _)
            fun _ _ => rfl
    · have hdelta : (remove a delta l).1 b = delta b := remove_of_notMem hnodup.1
      refine ⟨?_, ?_⟩
      · change place b = base + (remove a delta l).1 b
        rw [hdelta, h.1]
      · change At (remove a delta l).1 place (base + (remove a delta l).1 b) _
        rw [hdelta]
        exact ih h.2 hnodup.2

/-- The first element comes nearer, and with it all others. -/
theorem At.head_nearer {h : α} (hat : At delta place base (h :: l)) (hnodup : (h :: l).Nodup)
    (hpos : 0 < delta h) :
    At (update delta h (delta h - 1)) (fun b => place b - 1) base (h :: l) := by
  have hplace := hat.1
  have hrest := hat.2
  refine ⟨?_, ?_⟩
  · rw [update_self]
    change place h - 1 = _
    omega
  · rw [update_self]
    have hstart : At delta place (base + (delta h - 1) + 1) l := by
      rwa [show base + (delta h - 1) + 1 = base + delta h by omega]
    exact hstart.nearer.congr
      (fun c hc => update_of_ne (ne_of_mem_of_not_mem hc (nodup_cons.mp hnodup).1) _ _)
      fun _ _ => rfl

end Update

/-- The elements at the base stand first. -/
theorem At.takeWhile (h : At delta place base l) :
    ∀ b ∈ l.takeWhile (delta · = 0), place b = base := by
  induction l with
  | nil => exact fun b hb => absurd hb not_mem_nil
  | cons b l ih =>
    intro c hc
    by_cases hb : delta b = 0
    · rw [takeWhile_cons_of_pos (by simpa using hb)] at hc
      have hrest := h.2
      rw [hb, Nat.add_zero] at hrest
      rcases mem_cons.mp hc with rfl | hc
      · rw [h.1, hb, Nat.add_zero]
      · exact ih hrest c hc
    · rw [takeWhile_cons_of_neg (by simpa using hb)] at hc
      exact absurd hc not_mem_nil

/-- The others lie behind it, at their places. -/
theorem At.dropWhile (h : At delta place base l) :
    At delta place base (l.dropWhile (delta · = 0)) ∧
      ∀ b ∈ l.dropWhile (delta · = 0), base < place b := by
  induction l with
  | nil => exact ⟨trivial, fun b hb => absurd hb not_mem_nil⟩
  | cons b l ih =>
    by_cases hb : delta b = 0
    · rw [dropWhile_cons_of_pos (by simpa using hb)]
      have hrest := h.2
      rw [hb, Nat.add_zero] at hrest
      exact ih hrest
    · rw [dropWhile_cons_of_neg (by simpa using hb)]
      refine ⟨h, fun c hc => ?_⟩
      rcases mem_cons.mp hc with rfl | hc
      · rw [h.1]
        omega
      · have hle := h.2.base_le c hc
        omega

end DeltaList
