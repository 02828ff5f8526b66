import Mathlib.Logic.Function.Basic
import Mathlib.Data.Nat.Basic

/-!
# Linear probing

Keys in the slots of a circular table. A key has a home slot, and stands in the first slot from
there on that was free. It is found from its home as long as no slot in between is empty; when a
key is removed, keys behind it that would no longer be found are moved up.
-/

open Function Option

namespace LinearProbing

/-- The slot behind one. -/
def next (n a : ℕ) : ℕ := if a + 1 = n then 0 else a + 1

/-- How many slots it is from one forward to another. -/
def dist (n a b : ℕ) : ℕ := if a ≤ b then b - a else b + n - a

/-- The first slot from one on at which to stop. -/
def probe (stop : ℕ → Bool) (n : ℕ) : ℕ → ℕ → Option ℕ
  | 0, _ => none
  | fuel + 1, a => if stop a then some a else probe stop n fuel (next n a)

section Distance

variable {n a b c : ℕ}

theorem next_lt (ha : a < n) : next n a < n := by
  unfold next
  split <;> omega

@[simp] theorem dist_self : dist n a a = 0 := by
  unfold dist
  split <;> omega

section

variable (ha : a < n)

include ha

theorem dist_lt (hb : b < n) : dist n a b < n := by
  unfold dist
  split <;> omega

theorem dist_pos (hne : b ≠ a) : 0 < dist n a b := by
  unfold dist
  split <;> omega

theorem dist_inj (hb : b < n) (hc : c < n) (heq : dist n a b = dist n a c) : b = c := by
  unfold dist at heq
  split_ifs at heq <;> omega

/-- The slot behind one is one further. -/
theorem dist_next (hne : next n b ≠ a) : dist n a (next n b) = dist n a b + 1 := by
  unfold next at hne ⊢
  unfold dist
  split_ifs at hne ⊢ <;> omega

/-- From the slot behind one it is one less. -/
theorem dist_of_next (hb : b < n) (hne : b ≠ a) : dist n a b = dist n (next n a) b + 1 := by
  unfold next dist
  split_ifs <;> omega

/-- What is passed on the way to a slot splits the way. -/
theorem dist_add (hb : b < n) (hc : c < n) (hle : dist n a b ≤ dist n a c) :
    dist n a c = dist n a b + dist n b c := by
  unfold dist at hle ⊢
  split_ifs at hle ⊢ <;> omega

/-- Where one is on the way to another, in terms of the slots. -/
theorem passes_iff (hb : b < n) (hc : c < n) (hne : c ≠ b) :
    dist n a b < dist n a c ↔ if c < b then c < a ∧ a ≤ b else c < a ∨ a ≤ b := by
  unfold dist
  split_ifs <;> omega

end

/-- A slot at which to stop ends the probing. -/
theorem probe_spec {stop : ℕ → Bool} {fuel : ℕ} (ha : a < n) (hb : b < n) (hstop : stop b = true)
    (hfuel : dist n a b < fuel) :
    ∃ x < n, probe stop n fuel a = some x ∧ stop x = true ∧
      ∀ y < n, dist n a y < dist n a x → stop y = false := by
  induction fuel generalizing a with
  | zero => omega
  | succ fuel ih =>
    cases h : stop a with
    | true =>
      refine ⟨a, ha, ?_, h, ?_⟩
      · rw [probe, if_pos h]
      · intro y _ hy
        rw [dist_self] at hy
        omega
    | false =>
      have hne : b ≠ a := by
        rintro rfl
        rw [h] at hstop
        cases hstop
      have hone := dist_of_next ha hb hne
      obtain ⟨x, hx, hprobe, hstopx, hfirst⟩ := ih (next_lt ha) (by omega)
      refine ⟨x, hx, ?_, hstopx, ?_⟩
      · rw [probe, h, if_neg Bool.false_ne_true, hprobe]
      · intro y hy hlt
        rcases Decidable.em (y = a) with rfl | hya
        · exact h
        · have hxa : x ≠ a := by
            rintro rfl
            rw [h] at hstopx
            cases hstopx
          apply hfirst y hy
          have hyone := dist_of_next ha hy hya
          have hxone := dist_of_next ha hx hxa
          omega

end Distance

variable {K : Type*}

/-- Every key is found from its home, and stands in one slot. -/
structure Probing (n : ℕ) (home : K → ℕ) (slot : ℕ → Option K) : Prop where
  home_lt : ∀ x < n, ∀ k, slot x = some k → home k < n
  path : ∀ x < n, ∀ k, slot x = some k →
    ∀ y < n, dist n (home k) y < dist n (home k) x → slot y ≠ none
  inj : ∀ x < n, ∀ y < n, ∀ k, slot x = some k → slot y = some k → x = y

/-- A slot was emptied, and the keys behind it have been looked at up to another slot. -/
structure Hole (n : ℕ) (home : K → ℕ) (slot : ℕ → Option K) (hole scan : ℕ) : Prop where
  hole_lt : hole < n
  scan_lt : scan < n
  empty : slot hole = none
  home_lt : ∀ x < n, ∀ k, slot x = some k → home k < n
  path : ∀ x < n, ∀ k, slot x = some k →
    ∀ y < n, dist n (home k) y < dist n (home k) x → y ≠ hole → slot y ≠ none
  inj : ∀ x < n, ∀ y < n, ∀ k, slot x = some k → slot y = some k → x = y
  scanned : ∀ x < n, ∀ k, slot x = some k → dist n hole x ≤ dist n hole scan →
    ¬ dist n (home k) hole < dist n (home k) x
  filled : ∀ x < n, x ≠ hole → dist n hole x ≤ dist n hole scan → slot x ≠ none

section Keys

variable {n : ℕ} {home : K → ℕ} {slot : ℕ → Option K} {hole scan x : ℕ} {k : K}

/-- A key may stand in the first empty slot from its home on. -/
theorem Probing.insert (h : Probing n home slot) (hx : x < n) (hhome : home k < n)
    (hfirst : ∀ y < n, dist n (home k) y < dist n (home k) x → slot y ≠ none)
    (hempty : slot x = none) (hnew : ∀ y < n, slot y ≠ some k) :
    Probing n home (update slot x (some k)) := by
  have hold : ∀ y k', update slot x (some k) y = some k' →
      y = x ∧ k' = k ∨ y ≠ x ∧ slot y = some k' := by
    intro y k' hy
    rcases Decidable.em (y = x) with rfl | hne
    · rw [update_self] at hy
      exact .inl ⟨rfl, (Option.some.inj hy).symm⟩
    · rw [update_of_ne hne] at hy
      exact .inr ⟨hne, hy⟩
  have hfull : ∀ y, slot y ≠ none → update slot x (some k) y ≠ none := by
    intro y hy
    rcases Decidable.em (y = x) with rfl | hne
    · rw [update_self]
      exact some_ne_none k
    · rwa [update_of_ne hne]
  constructor
  · intro y hy k' hk'
    rcases hold y k' hk' with ⟨rfl, rfl⟩ | ⟨-, hk'⟩
    · exact hhome
    · exact h.home_lt y hy k' hk'
  · intro y hy k' hk' z hz hlt
    apply hfull
    rcases hold y k' hk' with ⟨rfl, rfl⟩ | ⟨-, hk'⟩
    · exact hfirst z hz hlt
    · exact h.path y hy k' hk' z hz hlt
  · intro y hy z hz k' hk' hk''
    rcases hold y k' hk' with ⟨rfl, rfl⟩ | ⟨-, hy'⟩
    · rcases hold z _ hk'' with ⟨rfl, -⟩ | ⟨-, hz'⟩
      · rfl
      · exact absurd hz' (hnew z hz)
    · rcases hold z k' hk'' with ⟨rfl, rfl⟩ | ⟨-, hz'⟩
      · exact absurd hy' (hnew y hy)
      · exact h.inj y hy z hz k' hy' hz'

theorem Probing.remove (h : Probing n home slot) (hx : x < n) :
    Hole n home (update slot x none) x x := by
  have hold : ∀ y k', update slot x none y = some k' → y ≠ x ∧ slot y = some k' := by
    intro y k' hy
    have hne : y ≠ x := by
      rintro rfl
      rw [update_self] at hy
      cases hy
    rw [update_of_ne hne] at hy
    exact ⟨hne, hy⟩
  constructor
  · exact hx
  · exact hx
  · exact update_self ..
  · intro y hy k' hk'
    exact h.home_lt y hy k' (hold y k' hk').2
  · intro y hy k' hk' z hz hlt hne
    rw [update_of_ne hne]
    exact h.path y hy k' (hold y k' hk').2 z hz hlt
  · intro y hy z hz k' hk' hk''
    exact h.inj y hy z hz k' (hold y k' hk').2 (hold z k' hk'').2
  · intro y hy k' hk' hle
    have hpos := dist_pos hx (hold y k' hk').1
    rw [dist_self] at hle
    omega
  · intro y hy hne hle
    have hpos := dist_pos hx hne
    rw [dist_self] at hle
    omega

variable (h : Hole n home slot hole scan)

include h

section

variable (hne : next n scan ≠ hole)

include hne

/-- At an empty slot the hole may stay. -/
theorem Hole.close (hempty : slot (next n scan) = none) : Probing n home slot := by
  have hscan := dist_next h.hole_lt hne
  have hnext := next_lt h.scan_lt
  refine ⟨h.home_lt, ?_, h.inj⟩
  intro x hx k hk y hy hlt
  rcases Decidable.em (y = hole) with rfl | hyne
  · exfalso
    have hhome := h.home_lt x hx k hk
    have hxne : x ≠ next n scan := by
      rintro rfl
      rw [hempty] at hk
      cases hk
    have hfar : ¬ dist n y x ≤ dist n y scan := fun hle => h.scanned x hx k hk hle hlt
    have hxdist : dist n y x ≠ dist n y (next n scan) := fun heq => hxne (dist_inj hy hx hnext heq)
    -- The empty slot is on the way from the hole to the key, so on the way from its home.
    have hway := dist_add hhome hy hx (by omega)
    have hpart := dist_add hy hnext hx (by omega)
    have hbefore : dist n (home k) (next n scan) < dist n (home k) x := by
      have hposx := dist_pos hnext hxne
      have hlast : dist n (home k) (next n scan) ≤ dist n (home k) y + dist n y (next n scan) := by
        unfold dist
        split_ifs <;> omega
      omega
    exact h.path x hx k hk _ hnext hbefore hne hempty
  · exact h.path x hx k hk y hy hlt hyne

/-- A key that is found without the hole stays. -/
theorem Hole.keep (hk : slot (next n scan) = some k)
    (hplace : ¬ dist n (home k) hole < dist n (home k) (next n scan)) :
    Hole n home slot hole (next n scan) := by
  have hscan := dist_next h.hole_lt hne
  have hnext := next_lt h.scan_lt
  have hcases : ∀ x < n, dist n hole x ≤ dist n hole (next n scan) →
      x = next n scan ∨ dist n hole x ≤ dist n hole scan := by
    intro x hx hle
    rcases Nat.lt_or_ge (dist n hole scan) (dist n hole x) with hlt | hge
    · exact .inl (dist_inj h.hole_lt hx hnext (by omega))
    · exact .inr hge
  refine ⟨h.hole_lt, hnext, h.empty, h.home_lt, h.path, h.inj, ?_, ?_⟩
  · intro x hx k' hk' hle
    rcases hcases x hx hle with rfl | hle
    · obtain rfl := Option.some.inj (hk.symm.trans hk')
      exact hplace
    · exact h.scanned x hx k' hk' hle
  · intro x hx hxne hle
    rcases hcases x hx hle with rfl | hle
    · rw [hk]
      exact some_ne_none k
    · exact h.filled x hx hxne hle

/-- A key that is not found without the hole is moved there, and leaves a hole. -/
theorem Hole.move (hk : slot (next n scan) = some k)
    (hplace : dist n (home k) hole < dist n (home k) (next n scan)) :
    Hole n home (update (update slot hole (some k)) (next n scan) none)
      (next n scan) (next n scan) := by
  have hnext := next_lt h.scan_lt
  generalize next n scan = e at *
  have hold : ∀ y k', update (update slot hole (some k)) e none y = some k' →
      y ≠ e ∧ (y = hole ∧ k' = k ∨ y ≠ hole ∧ slot y = some k') := by
    intro y k' hy
    have hye : y ≠ e := by
      rintro rfl
      rw [update_self] at hy
      cases hy
    rw [update_of_ne hye] at hy
    refine ⟨hye, ?_⟩
    rcases Decidable.em (y = hole) with rfl | hyhole
    · rw [update_self] at hy
      exact .inl ⟨rfl, (Option.some.inj hy).symm⟩
    · rw [update_of_ne hyhole] at hy
      exact .inr ⟨hyhole, hy⟩
  have hfull : ∀ y, y ≠ e → (y ≠ hole → slot y ≠ none) →
      update (update slot hole (some k)) e none y ≠ none := by
    intro y hye hy
    rw [update_of_ne hye]
    rcases Decidable.em (y = hole) with rfl | hyhole
    · rw [update_self]
      exact some_ne_none k
    · rw [update_of_ne hyhole]
      exact hy hyhole
  constructor
  · exact hnext
  · exact hnext
  · exact update_self ..
  · intro y hy k' hk'
    rcases (hold y k' hk').2 with ⟨-, rfl⟩ | ⟨-, hk'⟩
    · exact h.home_lt e hnext _ hk
    · exact h.home_lt y hy k' hk'
  · intro y hy k' hk' z hz hlt hze
    apply hfull z hze
    intro hzhole
    rcases (hold y k' hk').2 with ⟨rfl, rfl⟩ | ⟨-, hk'⟩
    · exact h.path e hnext _ hk z hz (by omega) hzhole
    · exact h.path y hy k' hk' z hz hlt hzhole
  · intro y hy z hz k' hk' hk''
    obtain ⟨hye, ⟨rfl, rfl⟩ | ⟨-, hy'⟩⟩ := hold y k' hk'
    · obtain ⟨hze, ⟨rfl, -⟩ | ⟨-, hz'⟩⟩ := hold z _ hk''
      · rfl
      · exact absurd (h.inj z hz e hnext _ hz' hk) hze
    · obtain ⟨hze, ⟨rfl, rfl⟩ | ⟨-, hz'⟩⟩ := hold z k' hk''
      · exact absurd (h.inj y hy e hnext _ hy' hk) hye
      · exact h.inj y hy z hz k' hy' hz'
  · intro y hy k' hk' hle
    have hpos := dist_pos hnext (hold y k' hk').1
    rw [dist_self] at hle
    omega
  · intro y hy hye hle
    have hpos := dist_pos hnext hye
    rw [dist_self] at hle
    omega

end

/-- An empty slot besides the hole has not been passed. -/
theorem Hole.next_ne {free : ℕ} (hfree : free < n)
    (hne : free ≠ hole) (hempty : slot free = none) : next n scan ≠ hole := by
  intro heq
  have hfar : ¬ dist n hole free ≤ dist n hole scan := fun hle => h.filled free hfree hne hle hempty
  have hlast : dist n hole scan = n - 1 := by
    have hscan := h.scan_lt
    unfold next at heq
    unfold dist
    split_ifs at heq ⊢ <;> omega
  have hlt := dist_lt h.hole_lt hfree
  omega

end Keys

end LinearProbing
