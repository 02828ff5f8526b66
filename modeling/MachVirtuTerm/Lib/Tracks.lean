import Mathlib.Algebra.BigOperators.Ring.Finset
import Mathlib.Algebra.Order.BigOperators.Group.Finset
import Mathlib.Data.Fintype.BigOperators
import Mathlib.Tactic.Ring

/-!
# Lists and counters that follow a family of records

A list tracks a property of records if it has each index once whose record has the property; a
counter follows it if it says how many records have it. When one record changes the list is left
as it is, loses the index or gains it, and the counter changes with it.
-/

open Function List

namespace MachVirtuTerm

variable {Index Record : Type*} [DecidableEq Index] {l : List Index} {P : Record → Prop}
  {f : Index → Record} {i : Index} {r : Record}

/-- The list has each index once whose record has the property. -/
structure Tracks (l : List Index) (P : Record → Prop) (f : Index → Record) : Prop where
  mem : ∀ i, i ∈ l ↔ P (f i)
  nodup : l.Nodup

namespace Tracks

/-- A record changes, but not in the property. -/
theorem congr (h : Tracks l P f) (hP : P r ↔ P (f i)) : Tracks l P (update f i r) := by
  refine ⟨?_, h.nodup⟩
  intro j
  by_cases hj : j = i
  · subst hj
    rw [update_self, h.mem, hP]
  · rw [update_of_ne hj, h.mem]

/-- A record loses the property. -/
theorem erase (h : Tracks l P f) (hP : ¬ P r) : Tracks (l.erase i) P (update f i r) := by
  refine ⟨?_, h.nodup.erase i⟩
  intro j
  rw [h.nodup.mem_erase_iff]
  by_cases hj : j = i
  · subst hj
    rw [update_self]
    exact iff_of_false (fun hmem => hmem.1 rfl) hP
  · rw [update_of_ne hj, h.mem]
    exact and_iff_right hj

/-- A record gains the property, and its index is put somewhere in the list. -/
theorem insert {l' : List Index} (h : Tracks l P f) (hperm : l'.Perm (i :: l)) (hold : ¬ P (f i))
    (hnew : P r) : Tracks l' P (update f i r) := by
  have hnotMem : i ∉ l := fun hmem => hold ((h.mem i).mp hmem)
  refine ⟨?_, hperm.nodup_iff.mpr (nodup_cons.mpr ⟨hnotMem, h.nodup⟩)⟩
  intro j
  rw [hperm.mem_iff, mem_cons]
  by_cases hj : j = i
  · subst hj
    rw [update_self]
    exact iff_of_true (.inl rfl) hnew
  · rw [update_of_ne hj, h.mem]
    exact or_iff_right hj

/-- A record gains the property, and its index is put first. -/
theorem cons (h : Tracks l P f) (hold : ¬ P (f i)) (hnew : P r) :
    Tracks (i :: l) P (update f i r) := h.insert (List.Perm.refl _) hold hnew

/-- A record gains the property, and its index is put last. -/
theorem append (h : Tracks l P f) (hold : ¬ P (f i)) (hnew : P r) :
    Tracks (l ++ [i]) P (update f i r) :=
  h.insert (perm_append_singleton i l) hold hnew

end Tracks

section Count

variable [Fintype Index] [DecidablePred P]

/-- How many records have a property. -/
def countWhere (P : Record → Prop) [DecidablePred P] (f : Index → Record) : ℤ :=
  ∑ i, if P (f i) then 1 else 0

/-- What a record counts for. -/
def weight (P : Record → Prop) [DecidablePred P] (r : Record) : ℤ := if P r then 1 else 0

theorem weight_of (hP : P r) : weight P r = 1 := if_pos hP

theorem weight_of_not (hP : ¬ P r) : weight P r = 0 := if_neg hP

theorem weight_congr {r' : Record} (hP : P r ↔ P r') : weight P r = weight P r' := by
  simp only [weight, hP]

/-- A record changes. -/
theorem countWhere_update (f : Index → Record) (i : Index) (r : Record) :
    countWhere P (update f i r) = countWhere P f - weight P (f i) + weight P r := by
  have hterm : (fun j => if P (update f i r j) then (1 : ℤ) else 0) =
      update (fun j => weight P (f j)) i (weight P r) := by
    funext j
    by_cases hj : j = i
    · subst hj
      simp [weight]
    · simp [hj, weight]
  have hsum := Finset.sum_update_of_mem (Finset.mem_univ i) (fun j => weight P (f j)) (weight P r)
  have hrest := Finset.add_sum_erase Finset.univ (fun j => weight P (f j)) (Finset.mem_univ i)
  unfold countWhere
  simp only [hterm]
  rw [hsum, Finset.sdiff_singleton_eq_erase]
  simp only [weight] at hrest ⊢
  rw [← hrest]
  ring

/-- A record changes, but not in the property. -/
theorem countWhere_congr (hP : P r ↔ P (f i)) : countWhere P (update f i r) = countWhere P f := by
  rw [countWhere_update]
  simp only [weight, hP]
  ring

/-- A list that tracks a property has as many indices as records have it. -/
theorem Tracks.length (h : Tracks l P f) : (l.length : ℤ) = countWhere P f := by
  have hset : l.toFinset = Finset.univ.filter fun i => P (f i) := by
    ext i
    rw [mem_toFinset, h.mem, Finset.mem_filter]
    exact (and_iff_right (Finset.mem_univ i)).symm
  rw [← toFinset_card_of_nodup h.nodup, hset, countWhere, Finset.sum_boole]

end Count

end MachVirtuTerm
