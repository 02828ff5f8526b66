import Mathlib.Data.List.Range

/-!
# Loops over a range

What every round of a counted loop preserves holds after the loop. The rounds may fail.
-/

open List

namespace MachVirtuTerm

variable {β : Type*}

/-- A loop of rounds that do not fail. -/
theorem foldl_range_spec {f : β → ℕ → β} {b : β} {n : ℕ} (P : ℕ → β → Prop) (h : P 0 b)
    (hstep : ∀ k < n, ∀ c, P k c → P (k + 1) (f c k)) : P n ((List.range n).foldl f b) := by
  induction n with
  | zero => exact h
  | succ n ih =>
    rw [range_succ, foldl_append]
    exact hstep n n.lt_succ_self _ (ih fun k hk => hstep k (hk.trans n.lt_succ_self))

/-- A loop none of whose rounds fails where the rounds before it did not. -/
theorem foldlM_range_spec {f : β → ℕ → Option β} {b : β} {n : ℕ} (P : ℕ → β → Prop) (h : P 0 b)
    (hstep : ∀ k < n, ∀ c, P k c → ∃ c', f c k = some c' ∧ P (k + 1) c') :
    ∃ c, (List.range n).foldlM f b = some c ∧ P n c := by
  induction n with
  | zero => exact ⟨b, rfl, h⟩
  | succ n ih =>
    obtain ⟨c, hc, hP⟩ := ih fun k hk => hstep k (hk.trans n.lt_succ_self)
    obtain ⟨c', hc', hP'⟩ := hstep n n.lt_succ_self c hP
    refine ⟨c', ?_, hP'⟩
    rw [range_succ, foldlM_append, hc]
    simp [hc']

/-- A loop one of whose rounds always fails. -/
theorem foldlM_range_eq_none {f : β → ℕ → Option β} {b : β} {k n : ℕ} (hk : k < n)
    (hnone : ∀ c, f c k = none) : (List.range n).foldlM f b = none := by
  induction n with
  | zero => cases hk
  | succ n ih =>
    rw [range_succ, foldlM_append]
    obtain rfl | hlt := (Nat.lt_succ_iff.mp hk).eq_or_lt
    · cases (List.range k).foldlM f b with
      | none => rfl
      | some c => simp [hnone c]
    · rw [ih hlt]
      rfl

end MachVirtuTerm
