import Mathlib.Data.List.Chain
import Mathlib.Data.List.Nodup

/-!
# Runs of consecutive keys in a sorted list

Elements have keys that are multiples of a distance. A search that goes through them in
ascending order finds a run of neighbours if there is one at all, because what is not in order
cannot lie between neighbours.
-/

open List Option

namespace ConsecutiveRuns

variable {α : Type*} (key : α → ℕ) (d : ℕ)

/-- Every element but the first comes a distance after the one before. -/
def Consecutive (r : List α) : Prop := r.IsChain fun a b => key b = key a + d

/-- In ascending order of keys. -/
def Ascending (l : List α) : Prop := l.Pairwise fun a b => key a < key b

/-- The longest run that ends with the last element. -/
structure LastRun (l run : List α) : Prop where
  consecutive : Consecutive key d run
  suffix : run <:+ l
  longest : ∀ r, Consecutive key d r → r ⊆ l → r.getLast? = l.getLast? → r.length ≤ run.length

/-- There is no run of so many elements. -/
def NoRun (n : ℕ) (l : List α) : Prop :=
  ∀ r, Consecutive key d r → r ⊆ l → r.length < n

variable {key d} {l run r : List α} {a m : α} {n : ℕ}

theorem noRun_nil (hn : 0 < n) : NoRun key d n [] := by
  intro r _ hr
  rwa [subset_nil.mp hr]

theorem Consecutive.concat (h : Consecutive key d r) (hm : ∀ a ∈ r.getLast?, key m = key a + d) :
    Consecutive key d (r ++ [m]) := by
  refine isChain_append.mpr ⟨h, isChain_singleton m, ?_⟩
  intro a ha b hb
  rw [head?_singleton, mem_some_iff] at hb
  exact hb ▸ hm a ha

theorem Consecutive.of_concat (h : Consecutive key d (r ++ [m])) :
    Consecutive key d r ∧ ∀ a ∈ r.getLast?, key m = key a + d := by
  obtain ⟨hr, -, hlast⟩ := isChain_append.mp h
  exact ⟨hr, fun a ha => hlast a ha m rfl⟩

/-- In a run the last element is the largest. -/
theorem Consecutive.ascending (h : Consecutive key d r) (hd : 0 < d) : Ascending key r := by
  have hlt : r.IsChain fun a b => key a < key b := h.imp fun a b hab => by omega
  exact isChain_iff_pairwise.mp hlt

theorem Ascending.of_concat (h : Ascending key (l ++ [m])) :
    Ascending key l ∧ ∀ a ∈ l, key a < key m := by
  obtain ⟨hl, -, hlt⟩ := pairwise_append.mp h
  exact ⟨hl, fun a ha => hlt a ha m mem_cons_self⟩

theorem Ascending.eq_of_key (h : Ascending key l) {b : α} (ha : a ∈ l) (hb : b ∈ l)
    (heq : key a = key b) : a = b := by
  have hnodup : (l.map key).Nodup := pairwise_map.mpr (h.imp fun hlt => hlt.ne)
  exact inj_on_of_nodup_map hnodup ha hb heq

theorem Ascending.le_last (h : Ascending key l) {b : α} (ha : a ∈ l) (hb : b ∈ l.getLast?) :
    key a ≤ key b := by
  obtain ⟨l', rfl⟩ := getLast?_eq_some_iff.mp hb
  rcases mem_append.mp ha with ha | ha
  · exact (h.of_concat.2 a ha).le
  · rw [mem_singleton.mp ha]

/-- What comes a distance before an element comes right before it. -/
theorem Ascending.last_eq (h : Ascending key (l ++ [m])) (hdvd : ∀ a ∈ l ++ [m], d ∣ key a)
    (hd : 0 < d) (ha : a ∈ l) (hkey : key m = key a + d) : l.getLast? = some a := by
  obtain ⟨hl, hlt⟩ := h.of_concat
  obtain ⟨b, hb⟩ : ∃ b, l.getLast? = some b :=
    ne_none_iff_exists'.mp fun hnone => by
      rw [getLast?_eq_none_iff.mp hnone] at ha
      exact not_mem_nil ha
  have hbl : b ∈ l := mem_of_getLast? hb
  have hle : key a ≤ key b := hl.le_last ha hb
  have hbm : key b < key a + d := hkey ▸ hlt b hbl
  have heq : key a = key b := by
    obtain ⟨x, hx⟩ := hdvd a (mem_append_left _ ha)
    obtain ⟨y, hy⟩ := hdvd b (mem_append_left _ hbl)
    rw [hx, hy] at hle
    rw [hx, hy, ← Nat.mul_succ] at hbm
    have hxy : x ≤ y := Nat.le_of_mul_le_mul_left hle hd
    have hyx : y < x + 1 := Nat.lt_of_mul_lt_mul_left hbm
    rw [hx, hy, show x = y by omega]
  rw [hb, hl.eq_of_key ha hbl heq]

/-- A run that ends with the last element goes on from the element before. -/
theorem Ascending.run_concat (h : Ascending key (l ++ [m])) (hr : Consecutive key d (r ++ [m]))
    (hd : 0 < d) (hsub : r ++ [m] ⊆ l ++ [m]) : r ⊆ l := by
  intro a ha
  have hne : a ≠ m := by
    rintro rfl
    exact absurd ((hr.ascending hd).of_concat.2 a ha) (lt_irrefl _)
  rcases mem_append.mp (hsub (mem_append_left _ ha)) with hmem | hmem
  · exact hmem
  · exact absurd (mem_singleton.mp hmem) hne

/-- An element that comes a distance after the last one prolongs the run. -/
theorem LastRun.extend (h : LastRun key d l run) (hasc : Ascending key (l ++ [m]))
    (hdvd : ∀ a ∈ l ++ [m], d ∣ key a) (hd : 0 < d) (hrun : a ∈ run.getLast?)
    (hkey : key m = key a + d) :
    LastRun key d (l ++ [m]) (run ++ [m]) where
  consecutive := h.consecutive.concat fun b hb => by
    rw [mem_unique hb hrun, hkey]
  suffix := by
    obtain ⟨pre, hpre⟩ := h.suffix
    exact ⟨pre, by rw [← hpre, append_assoc]⟩
  longest r hr hsub hlast := by
    rw [getLast?_concat] at hlast
    obtain ⟨r, rfl⟩ := getLast?_eq_some_iff.mp hlast
    have hrl : r ⊆ l := hasc.run_concat hr hd hsub
    rw [length_append, length_append]
    rcases eq_nil_or_concat r with rfl | ⟨r', b, rfl⟩
    · exact Nat.add_le_add_right (Nat.zero_le _) _
    · rw [concat_eq_append] at hr hrl ⊢
      have hb : key m = key b + d := hr.of_concat.2 b getLast?_concat
      have hbl := hasc.last_eq hdvd hd (hrl (mem_append_right _ mem_cons_self)) hb
      have hle := h.longest _ hr.of_concat.1 hrl (getLast?_concat.trans hbl.symm)
      exact Nat.add_le_add_right hle _

/-- Any other element starts a run. -/
theorem LastRun.restart (hasc : Ascending key (l ++ [m])) (hdvd : ∀ a ∈ l ++ [m], d ∣ key a)
    (hd : 0 < d) (hne : ∀ a ∈ l.getLast?, key m ≠ key a + d) :
    LastRun key d (l ++ [m]) [m] where
  consecutive := isChain_singleton m
  suffix := ⟨l, rfl⟩
  longest r hr hsub hlast := by
    rw [getLast?_concat] at hlast
    obtain ⟨r, rfl⟩ := getLast?_eq_some_iff.mp hlast
    have hrl : r ⊆ l := hasc.run_concat hr hd hsub
    rcases eq_nil_or_concat r with rfl | ⟨r', b, rfl⟩
    · exact le_rfl
    · rw [concat_eq_append] at hr hrl
      have hb : key m = key b + d := hr.of_concat.2 b getLast?_concat
      have hbl := hasc.last_eq hdvd hd (hrl (mem_append_right _ mem_cons_self)) hb
      exact absurd hb (hne b hbl)

/-- There is no run of so many elements if there is none that ends with the last one. -/
theorem NoRun.concat (h : NoRun key d n l) (hlast : LastRun key d (l ++ [m]) run)
    (hasc : Ascending key (l ++ [m])) (hd : 0 < d) (hrun : run.length < n) :
    NoRun key d n (l ++ [m]) := by
  intro r hr hsub
  by_cases hm : m ∈ r
  · refine lt_of_le_of_lt (hlast.longest r hr hsub ?_) hrun
    obtain ⟨b, hb⟩ : ∃ b, r.getLast? = some b :=
      ne_none_iff_exists'.mp fun hnone => by
        rw [getLast?_eq_none_iff.mp hnone] at hm
        exact not_mem_nil hm
    have hle : key m ≤ key b := (hr.ascending hd).le_last hm hb
    rw [hb, getLast?_concat]
    rcases mem_append.mp (hsub (mem_of_getLast? hb)) with hbl | hbm
    · exact absurd (hasc.of_concat.2 b hbl) (by omega)
    · rw [mem_singleton.mp hbm]
  · refine h r hr fun a ha => ?_
    rcases mem_append.mp (hsub ha) with hal | ham
    · exact hal
    · exact absurd (mem_singleton.mp ham ▸ ha) hm

end ConsecutiveRuns
