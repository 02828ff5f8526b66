import Mathlib.Tactic.Ring

/-!
# Copying forward in chunks

A memory is a function from places to values. A copy moves the values of one sequence of places
to another, chunk after chunk, each chunk being read whole before it is written. Where a place
of the source is one that an earlier chunk wrote, the copy reads what it wrote, so the result is
a copy of what the memory held at first just if these values happen to be equal.
-/

open Function

namespace ForwardCopy

variable {A β : Type*} {target source dst src : ℕ → A} {v : ℕ → β} {start len n : ℕ}
  {mem₀ mem : A → β} {C : Prop}

/-- Only the first `n` places of the destination have changed, and they hold what the first `n`
places of the source held at first just if a condition holds. -/
structure CopiedWhen (mem₀ mem : A → β) (dst src : ℕ → A) (n : ℕ) (C : Prop) : Prop where
  frame : ∀ x, (∀ i < n, x ≠ dst i) → mem x = mem₀ x
  exact_iff : (∀ i < n, mem (dst i) = mem₀ (src i)) ↔ C

/-- Nothing is copied at first. -/
theorem CopiedWhen.refl (mem₀ : A → β) (dst src : ℕ → A) : CopiedWhen mem₀ mem₀ dst src 0 True :=
  ⟨fun _ _ => rfl, by simp⟩

theorem CopiedWhen.congr {C' : Prop} (h : CopiedWhen mem₀ mem dst src n C) (hC : C ↔ C') :
    CopiedWhen mem₀ mem dst src n C' := ⟨h.frame, h.exact_iff.trans hC⟩

/-- What a chunk read after `n` places were written needs: a place of the source that was
written holds the value that it had. -/
def Unharmed (mem₀ : A → β) (dst src : ℕ → A) (n i : ℕ) : Prop :=
  ∀ j < n, src i = dst j → mem₀ (src j) = mem₀ (src i)

/-- After right copies, what a chunk reads is right just if it is unharmed. -/
theorem CopiedWhen.read_iff (h : CopiedWhen mem₀ mem dst src n C)
    (hexact : ∀ i < n, mem (dst i) = mem₀ (src i)) (i : ℕ) :
    mem (src i) = mem₀ (src i) ↔ Unharmed mem₀ dst src n i := by
  constructor
  · intro hread j hj heq
    rw [← hexact j hj, ← heq, hread]
  · intro hunharmed
    by_cases hx : ∃ j < n, src i = dst j
    · obtain ⟨j, hj, heq⟩ := hx
      rw [heq, hexact j hj, hunharmed j hj heq, heq]
    · push Not at hx
      exact h.frame _ hx

variable [DecidableEq A]

/-- Give `len` places from number `start` on their values. -/
def writeRange (target : ℕ → A) (v : ℕ → β) (start : ℕ) : ℕ → (A → β) → A → β
  | 0, mem => mem
  | len + 1, mem =>
    update (writeRange target v start len mem) (target (start + len)) (v (start + len))

/-- Read a chunk and write it. -/
def copyChunk (target source : ℕ → A) (start len : ℕ) (mem : A → β) : A → β :=
  writeRange target (fun i => mem (source i)) start len mem

/-- Copy a number of chunks of one width. -/
def copyChunks (target source : ℕ → A) (start width : ℕ) : ℕ → (A → β) → A → β
  | 0, mem => mem
  | n + 1, mem =>
    copyChunk target source (start + width * n) width (copyChunks target source start width n mem)

/-- Other places keep their values. -/
theorem writeRange_of_ne {x : A} (hx : ∀ i < len, x ≠ target (start + i)) :
    writeRange target v start len mem x = mem x := by
  induction len with
  | zero => rfl
  | succ len ih =>
    rw [writeRange, update_of_ne (hx len (by omega))]
    exact ih fun i hi => hx i (by omega)

/-- The places get their values, if they differ. -/
theorem writeRange_target
    (htarget : ∀ i < len, ∀ j < len, target (start + i) = target (start + j) → i = j) {i : ℕ}
    (hi : i < len) : writeRange target v start len mem (target (start + i)) = v (start + i) := by
  induction len with
  | zero => omega
  | succ len ih =>
    rw [writeRange]
    obtain rfl | hne := eq_or_ne i len
    · exact update_self ..
    · rw [update_of_ne fun h => hne (htarget i hi len (by omega) h)]
      exact ih (fun i hi j hj => htarget i (by omega) j (by omega)) (by omega)

/-- A chunk is copied. -/
theorem CopiedWhen.chunk (h : CopiedWhen mem₀ mem dst src n C)
    (hdst : ∀ i < n + len, ∀ j < n + len, dst i = dst j → i = j)
    (htarget : ∀ r < len, target (start + r) = dst (n + r))
    (hsource : ∀ r < len, source (start + r) = src (n + r)) :
    CopiedWhen mem₀ (copyChunk target source start len mem) dst src (n + len)
      (C ∧ ∀ r < len, Unharmed mem₀ dst src n (n + r)) := by
  have hinj : ∀ i < len, ∀ j < len, target (start + i) = target (start + j) → i = j := by
    intro i hi j hj heq
    rw [htarget i hi, htarget j hj] at heq
    have := hdst _ (by omega) _ (by omega) heq
    omega
  have hold : ∀ x, (∀ r < len, x ≠ dst (n + r)) → copyChunk target source start len mem x = mem x :=
    fun x hx => writeRange_of_ne fun r hr => htarget r hr ▸ hx r hr
  have hnew : ∀ r < len,
      copyChunk target source start len mem (dst (n + r)) = mem (src (n + r)) := by
    intro r hr
    rw [← htarget r hr, ← hsource r hr]
    exact writeRange_target hinj hr
  have hbefore : ∀ i < n, copyChunk target source start len mem (dst i) = mem (dst i) := by
    intro i hi
    refine hold _ fun r hr heq => ?_
    have := hdst _ (by omega) _ (by omega) heq
    omega
  refine ⟨fun x hx => ?_, ?_⟩
  · rw [hold x fun r hr => hx _ (by omega)]
    exact h.frame x fun i hi => hx i (by omega)
  · constructor
    · intro hexact
      have hfirst : ∀ i < n, mem (dst i) = mem₀ (src i) := by
        intro i hi
        rw [← hbefore i hi]
        exact hexact i (by omega)
      refine ⟨h.exact_iff.mp hfirst, fun r hr => (h.read_iff hfirst _).mp ?_⟩
      rw [← hnew r hr]
      exact hexact _ (by omega)
    · rintro ⟨hC, hunharmed⟩ i hi
      have hfirst := h.exact_iff.mpr hC
      by_cases hin : i < n
      · rw [hbefore i hin]
        exact hfirst i hin
      · obtain ⟨r, rfl⟩ := Nat.exists_eq_add_of_le (not_lt.mp hin)
        rw [hnew r (by omega)]
        exact (h.read_iff hfirst _).mpr (hunharmed r (by omega))

/-- A number of chunks of one width are copied; each is read when those before it are
written. -/
theorem CopiedWhen.chunks {width count : ℕ} (h : CopiedWhen mem₀ mem dst src n C)
    (hwidth : 0 < width)
    (hdst : ∀ i < n + width * count, ∀ j < n + width * count, dst i = dst j → i = j)
    (htarget : ∀ r < width * count, target (start + r) = dst (n + r))
    (hsource : ∀ r < width * count, source (start + r) = src (n + r)) :
    CopiedWhen mem₀ (copyChunks target source start width count mem) dst src (n + width * count)
      (C ∧ ∀ r < width * count, Unharmed mem₀ dst src (n + width * (r / width)) (n + r)) := by
  induction count with
  | zero => exact h.congr (by simp)
  | succ count ih =>
    have hmul : width * (count + 1) = width * count + width := Nat.mul_succ width count
    rw [hmul] at hdst htarget hsource ⊢
    have hprevious := ih (fun i hi j hj => hdst i (by omega) j (by omega))
      (fun r hr => htarget r (by omega)) (fun r hr => hsource r (by omega))
    rw [← Nat.add_assoc] at hdst ⊢
    refine (hprevious.chunk hdst (fun r hr => ?_) fun r hr => ?_).congr ?_
    · rw [Nat.add_assoc, htarget _ (by omega), Nat.add_assoc]
    · rw [Nat.add_assoc, hsource _ (by omega), Nat.add_assoc]
    · have hdiv : ∀ r < width, (width * count + r) / width = count := by
        intro r hr
        rw [Nat.mul_add_div hwidth, Nat.div_eq_of_lt hr, Nat.add_zero]
      constructor
      · rintro ⟨⟨hC, hchunks⟩, hlast⟩
        refine ⟨hC, fun r hr => ?_⟩
        by_cases hin : r < width * count
        · exact hchunks r hin
        · obtain ⟨q, rfl⟩ := Nat.exists_eq_add_of_le (not_lt.mp hin)
          rw [hdiv q (by omega), ← Nat.add_assoc]
          exact hlast q (by omega)
      · rintro ⟨hC, hchunks⟩
        refine ⟨⟨hC, fun r hr => hchunks r (by omega)⟩, fun r hr => ?_⟩
        have := hchunks (width * count + r) (by omega)
        rwa [hdiv r hr, ← Nat.add_assoc] at this

end ForwardCopy
