import Mathlib.Data.List.Basic
import Mathlib.Data.List.Find
import Mathlib.Data.List.Nodup
import Mathlib.Logic.Function.Basic

/-!
# Tables of hash chains

The elements of a table stand in chains, each in the chain that the hash of its
key names, and no two elements of a chain have the same key. Such a table is a
finite map from keys to elements: an element added at the end of its chain binds
its key, and an element taken from its chain leaves the others bound.
-/

open Function List

namespace MachVirtuTerm

variable {Key Element : Type*}

/-- Every element stands in the chain of its key, and no key stands there
twice. -/
structure HashChains (home : Key → Nat) (key : Element → Key)
    (chains : Nat → List Element) : Prop where
  home_eq : ∀ i, ∀ a ∈ chains i, home (key a) = i
  nodup_keys : ∀ i, ((chains i).map key).Nodup

variable {home : Key → Nat} {key key' : Element → Key} {chains : Nat → List Element}
  {a b : Element} {k : Key} {i j : Nat}

/-- Chains without elements. -/
theorem HashChains.empty : HashChains home key fun _ => [] :=
  ⟨by simp, by simp⟩

namespace HashChains

section

variable (h : HashChains home key chains)

include h

/-- An element stands in one chain. -/
theorem unique (hi : a ∈ chains i) (hj : a ∈ chains j) : i = j :=
  (h.home_eq i a hi).symm.trans (h.home_eq j a hj)

/-- An element stands in its chain once. -/
theorem nodup : (chains i).Nodup :=
  (h.nodup_keys i).of_map

/-- Elements with the same key are the same. -/
theorem inj (hi : a ∈ chains i) (hj : b ∈ chains j) (heq : key a = key b) : a = b := by
  have hij : i = j := by
    rw [← h.home_eq i a hi, ← h.home_eq j b hj, heq]
  subst hij
  exact inj_on_of_nodup_map (h.nodup_keys i) hi hj heq

/-- The chains say the same of keys that agree on their elements. -/
theorem congr (hkey : ∀ i, ∀ a ∈ chains i, key' a = key a) : HashChains home key' chains where
  home_eq i a ha := by
    rw [hkey i a ha]
    exact h.home_eq i a ha
  nodup_keys i := by
    rw [map_congr_left (hkey i)]
    exact h.nodup_keys i

end

section Erase

variable [DecidableEq Element]

/-- An element is taken from its chain. -/
theorem erase (h : HashChains home key chains) :
    HashChains home key (update chains i ((chains i).erase a)) where
  home_eq j b hb := by
    by_cases hj : j = i
    · subst hj
      rw [update_self] at hb
      exact h.home_eq _ b (mem_of_mem_erase hb)
    · rw [update_of_ne hj] at hb
      exact h.home_eq j b hb
  nodup_keys j := by
    by_cases hj : j = i
    · subst hj
      rw [update_self]
      exact (h.nodup_keys _).sublist (erase_sublist.map key)
    · rw [update_of_ne hj]
      exact h.nodup_keys j

end Erase

end HashChains

variable [DecidableEq Key]

/-- The element of a key. -/
def chainFind (home : Key → Nat) (key : Element → Key) (chains : Nat → List Element) (k : Key) :
    Option Element :=
  (chains (home k)).find? fun a => key a = k

theorem chainFind_congr (hkey : ∀ i, ∀ a ∈ chains i, key' a = key a) :
    chainFind home key' chains k = chainFind home key chains k := by
  apply find?_congr
  intro a ha
  rw [hkey _ a ha]

theorem key_of_chainFind (h : chainFind home key chains k = some a) : key a = k := by
  simpa using find?_some h

theorem mem_of_chainFind (h : chainFind home key chains k = some a) : a ∈ chains (home k) :=
  mem_of_find?_eq_some h

theorem chainFind_eq_none_iff :
    chainFind home key chains k = none ↔ ∀ a ∈ chains (home k), key a ≠ k := by
  simp [chainFind]

namespace HashChains

/-- A key has the element of its chain with that key. -/
theorem find_eq_some_iff (h : HashChains home key chains) :
    chainFind home key chains k = some a ↔ a ∈ chains (home k) ∧ key a = k := by
  constructor
  · intro hfind
    exact ⟨mem_of_chainFind hfind, key_of_chainFind hfind⟩
  · rintro ⟨ha, rfl⟩
    have hsome : (chainFind home key chains (key a)).isSome := by
      rw [chainFind, find?_isSome]
      exact ⟨a, ha, by simp⟩
    obtain ⟨b, hb⟩ := Option.isSome_iff_exists.mp hsome
    have hkey : key b = key a := key_of_chainFind hb
    have hba : b = a := h.inj (mem_of_chainFind hb) ha hkey
    exact hba ▸ hb

/-- The key of an element is bound to it. -/
theorem find_of_mem (h : HashChains home key chains) (ha : a ∈ chains i) :
    chainFind home key chains (key a) = some a :=
  h.find_eq_some_iff.mpr ⟨by rwa [h.home_eq i a ha], rfl⟩

/-- An element is added at the end of the chain of its key. -/
theorem push (h : HashChains home key chains)
    (hfree : chainFind home key chains (key a) = none) :
    HashChains home key
      (update chains (home (key a)) (chains (home (key a)) ++ [a])) where
  home_eq i b hb := by
    by_cases hi : i = home (key a)
    · subst hi
      rw [update_self] at hb
      rcases mem_append.mp hb with hb | hb
      · exact h.home_eq _ b hb
      · rw [mem_singleton.mp hb]
    · rw [update_of_ne hi] at hb
      exact h.home_eq i b hb
  nodup_keys i := by
    by_cases hi : i = home (key a)
    · subst hi
      rw [update_self, map_append]
      refine (h.nodup_keys _).append (nodup_singleton _) ?_
      intro k hk hka
      obtain ⟨b, hb, rfl⟩ := mem_map.mp hk
      exact chainFind_eq_none_iff.mp hfree b hb (mem_singleton.mp hka)
    · rw [update_of_ne hi]
      exact h.nodup_keys i

/-- What is added binds its key, and no other. -/
theorem find_push (h : HashChains home key chains)
    (hfree : chainFind home key chains (key a) = none) :
    chainFind home key
        (update chains (home (key a)) (chains (home (key a)) ++ [a])) =
      update (chainFind home key chains) (key a) (some a) := by
  have hpush := h.push hfree
  funext k
  by_cases hk : k = key a
  · subst hk
    rw [update_self, hpush.find_eq_some_iff]
    simp
  · rw [update_of_ne hk]
    unfold chainFind
    by_cases hi : home k = home (key a)
    · rw [hi, update_self, find?_append]
      simp [Ne.symm hk]
    · rw [update_of_ne hi]

variable [DecidableEq Element]

/-- What is taken leaves its key free, and no other. -/
theorem find_erase (h : HashChains home key chains) (ha : a ∈ chains i) :
    chainFind home key (update chains i ((chains i).erase a)) =
      update (chainFind home key chains) (key a) none := by
  have hi : home (key a) = i := h.home_eq i a ha
  have herase : HashChains home key (update chains i ((chains i).erase a)) := h.erase
  funext k
  by_cases hk : k = key a
  · subst hk
    rw [update_self, chainFind_eq_none_iff]
    intro b hb heq
    rw [hi, update_self] at hb
    have hba : b = a := h.inj (mem_of_mem_erase hb) ha heq
    exact h.nodup.not_mem_erase (hba ▸ hb)
  · rw [update_of_ne hk]
    apply Option.ext
    intro b
    rw [herase.find_eq_some_iff, h.find_eq_some_iff]
    apply and_congr_left
    rintro rfl
    have hne : b ≠ a := fun heq => hk (by rw [heq])
    by_cases hj : home (key b) = i
    · rw [hj, update_self]
      exact mem_erase_of_ne hne
    · rw [update_of_ne hj]

end HashChains

end MachVirtuTerm
