import Mathlib.Data.List.Nodup

/-!
# Singly linked lists in an array

Links are a function from cells to cells, and 0 ends a list. The head of a list is
a cell of its own whose link leads to the first element. A list is pushed onto and
an element is taken out by redirecting the link of its predecessor.
-/

open List Function

namespace LinkedList

variable {next next' : ℕ → ℕ} {a i : ℕ} {l pre post : List ℕ}

/-- Following the links from `a` on visits exactly the cells of a list. -/
def Path (next : ℕ → ℕ) : ℕ → List ℕ → Prop
  | a, [] => a = 0
  | a, i :: l => a = i ∧ Path next (next i) l

/-- A path depends on the links of its own cells only. -/
theorem Path.congr (h : Path next a l) (heq : ∀ i ∈ l, next' i = next i) : Path next' a l := by
  induction l generalizing a with
  | nil => exact h
  | cons i l ih =>
    obtain ⟨rfl, hl⟩ := h
    refine ⟨rfl, ?_⟩
    rw [heq a (by simp)]
    exact ih hl fun j hj => heq j (by simp [hj])

/-- Pushing a cell in front of a path. -/
theorem Path.push (h : Path next a l) (hi : i ∉ l) : Path (update next i a) i (i :: l) := by
  refine ⟨rfl, ?_⟩
  rw [update_self]
  refine h.congr fun j hj => update_of_ne ?_ _ _
  rintro rfl
  exact hi hj

/-- Cells linked one after the other. -/
theorem path_range' {n : ℕ} (hnext : ∀ j, a ≤ j → j < a + n → next j = j + 1)
    (hlast : next (a + n) = 0) : Path next a (range' a (n + 1)) := by
  induction n generalizing a with
  | zero => exact ⟨rfl, hlast⟩
  | succ n ih =>
    refine ⟨rfl, ?_⟩
    rw [hnext a (Nat.le_refl a) (by omega)]
    refine ih (fun j hj hlt => hnext j (by omega) (by omega)) ?_
    rw [← hlast]
    congr 1
    omega

/-- Search for the cell whose link leads to `i`. -/
def pred (next : ℕ → ℕ) (i : ℕ) : ℕ → ℕ → Option ℕ
  | 0, _ => none
  | fuel + 1, a => if next a = i then some a else pred next i fuel (next a)

/-- The search finds the predecessor of an element of the list behind `a`. -/
theorem pred_eq {fuel : ℕ} (h : Path next (next a) (pre ++ i :: post)) (hi : i ∉ pre)
    (hf : pre.length < fuel) :
    pred next i fuel a = some ((a :: pre).getLast (cons_ne_nil a pre)) := by
  induction pre generalizing a fuel with
  | nil =>
    obtain ⟨fuel, rfl⟩ : ∃ m, fuel = m + 1 := ⟨fuel - 1, by simp at hf; omega⟩
    simp [pred, h.1]
  | cons b pre ih =>
    simp only [length_cons] at hf
    obtain ⟨fuel, rfl⟩ : ∃ m, fuel = m + 1 := ⟨fuel - 1, by omega⟩
    obtain ⟨hb, hl⟩ := h
    simp only [mem_cons, not_or] at hi
    have hne : next a ≠ i := fun hai => hi.1 (hai.symm.trans hb)
    rw [pred, if_neg hne, hb, ih hl hi.2 (by omega), getLast_cons_cons]

/-- Redirecting the link of its predecessor takes an element out of the list. -/
theorem Path.remove (h : Path next (next a) (pre ++ i :: post))
    (hn : (a :: (pre ++ i :: post)).Nodup) :
    Path (update next ((a :: pre).getLast (cons_ne_nil a pre)) (next i))
      (update next ((a :: pre).getLast (cons_ne_nil a pre)) (next i) a)
      (pre ++ post) := by
  induction pre generalizing a with
  | nil =>
    obtain ⟨-, hl⟩ := h
    simp only [getLast_singleton, update_self, nil_append]
    refine hl.congr fun j hj => update_of_ne ?_ _ _
    rintro rfl
    simp [hj] at hn
  | cons b pre ih =>
    obtain ⟨hb, hl⟩ := h
    have hne : (b :: pre).getLast (cons_ne_nil b pre) ≠ a := by
      intro heq
      have hmem := getLast_mem (cons_ne_nil b pre)
      rw [heq] at hmem
      exact (nodup_cons.mp hn).1 (mem_append_left _ hmem)
    rw [getLast_cons_cons, update_of_ne hne.symm]
    exact ⟨hb, ih hl (nodup_cons.mp hn).2⟩

end LinkedList
