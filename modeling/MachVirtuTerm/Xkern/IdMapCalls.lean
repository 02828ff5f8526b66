import MachVirtuTerm.Xkern.IdMapInv

/-!
# Calls on the x-kernel maps

A binding is found by its key, and removed by its key or by its address; each
call keeps the invariant of the map.
-/

open Function Option

namespace MachVirtuTerm.IdMap

namespace Map

variable {A V R : Type*} {m m' : Map A V} {a elem : A} {i j : Nat}
  {key : List UInt8} {ext : Bytes} {len : Nat}

/-- The hash of `mapRemoveBinding` is that of the key: the key size of a map with
keys of any length is not the length of the key. -/
def Findable (m : Map A V) (bind : A) : Prop :=
  0 < m.keySize ∨
    generichash (m.element bind).externalid m.tableSize m.keySize =
      generichash (m.element bind).externalid m.tableSize (m.element bind).elmlen

theorem Wired.hash_remove (hw : m.Wired) (hf : m.Findable a) :
    m.remove.hash (m.element a).externalid m.tableSize m.keySize = some (m.home (m.keyOf a)) := by
  by_cases h0 : 0 < m.keySize
  · rw [(hw.fixed h0).2.2.2, hw.hash_fixed h0, keyOf, keyLen_fixed h0]
  · rw [not_lt] at h0
    rw [(hw.var h0).2.2.2, Template.hash, hf.resolve_left (by omega), hw.hash_var h0, keyOf,
      keyLen_var h0]

/-- Two maps with the same functions and the same elements. -/
structure SameMap (m m' : Map A V) : Prop where
  tableSize : m'.tableSize = m.tableSize
  keySize : m'.keySize = m.keySize
  unbind : m'.unbind = m.unbind
  element : m'.element = m.element

namespace SameMap

theorem refl (m : Map A V) : SameMap m m := ⟨rfl, rfl, rfl, rfl⟩

theorem trans {m'' : Map A V} (h : SameMap m m') (h' : SameMap m' m'') : SameMap m m'' :=
  ⟨h'.tableSize.trans h.tableSize, h'.keySize.trans h.keySize, h'.unbind.trans h.unbind,
    h'.element.trans h.element⟩

theorem home_eq (h : SameMap m m') : m'.home = m.home := by
  funext key
  simp only [home, h.tableSize, h.keySize, h.unbind]

theorem keyLen_eq (h : SameMap m m') : m'.keyLen = m.keyLen := by
  funext a
  simp only [keyLen, h.keySize, h.element]

theorem keyOf_eq (h : SameMap m m') : m'.keyOf = m.keyOf := by
  funext a
  simp only [keyOf, h.keyLen_eq, h.element]

end SameMap

theorem Findable.of_same (hf : m.Findable a) (h : SameMap m m') : m'.Findable a := by
  simpa only [Findable, h.keySize, h.element, h.tableSize] using hf

/-- The element of a key is on the chain of the key. -/
theorem find_cases (key : List UInt8) :
    (∃ a, chainFind m.home m.keyOf m.table key = some a ∧ a ∈ m.table (m.home key) ∧
      m.keyOf a = key ∧ m.lookup key = some (m.element a).internalid) ∨
    chainFind m.home m.keyOf m.table key = none ∧ m.lookup key = none := by
  cases hf : chainFind m.home m.keyOf m.table key with
  | none => exact .inr ⟨rfl, lookup_eq_none hf⟩
  | some a =>
    exact .inl ⟨a, rfl, mem_of_chainFind hf, key_of_chainFind hf, lookup_eq_some hf⟩

/-- An element on a chain is bound by its key. -/
theorem Inv.lookup_keyOf (h : Inv none m) (hmem : a ∈ m.table i) :
    m.lookup (m.keyOf a) = some (m.element a).internalid :=
  lookup_eq_some (h.chains.find_of_mem hmem)

/-- An element on a chain is allocated. -/
theorem Inv.allocated_of_mem (h : Inv none m) (hmem : a ∈ m.table i) : m.allocated a = true :=
  (h.allocated_iff a).mpr (.inr (.inr ⟨i, hmem⟩))

/-- The count of reserved elements is changed. -/
theorem Inv.reserved (h : Inv none m) (n : ℤ) : Inv none { m with reserved := n } :=
  h.recache h.cache_mem n

/-- The answer of a call that resolves a key. -/
def resolution : Option V → Result A V R
  | some v => .resolved v
  | none => .returns .failure

/-- `mapResolve` finds the value of the key, in the cache or on its chain. -/
theorem Inv.mapResolve_spec (h : Inv none m) (h0 : 0 < m.keySize) (ext : Bytes) (aligned : Bool) :
    Inv none (m.mapResolve ext aligned : _ × Result A V R).1 ∧
      (m.mapResolve ext aligned : _ × Result A V R).1.lookup = m.lookup ∧
      (m.mapResolve ext aligned : _ × Result A V R).2 =
        resolution (m.lookup (ext.take m.keySize.toNat)) := by
  have hresolve : m.resolve = some m.unbind := (h.wired.fixed h0).2.1
  unfold mapResolve
  rw [hresolve]
  simp only [resolveName, h.wired.hash_fixed h0, h.wired.search_fixed h0]
  cases hcache : m.cache.filter fun elem =>
      m.unbind.compBytes aligned (m.element elem).externalid ext m.keySize with
  | some elem =>
    rw [filter_eq_some_iff] at hcache
    obtain ⟨hcache, hcomp⟩ := hcache
    rw [Template.compBytes_iff (h.wired.fixed h0).1 h0 h.wired.keySize_le,
      ← keyLen_fixed h0 (a := elem)] at hcomp
    obtain ⟨i, hmem⟩ := h.cache_mem elem hcache
    refine ⟨h, rfl, ?_⟩
    rw [← keyLen_fixed h0 (a := elem), ← hcomp]
    change _ = resolution (m.lookup (m.keyOf elem))
    rw [h.lookup_keyOf hmem]
    rfl
  | none =>
    rcases find_cases (m := m) (ext.take m.keySize.toNat) with
      ⟨a, hf, hmem, -, hlookup⟩ | ⟨hf, hlookup⟩
    · rw [hf, hlookup]
      exact ⟨h.encache hmem, rfl, rfl⟩
    · rw [hf, hlookup]
      exact ⟨h, rfl, rfl⟩

/-- `mapVarResolve` does. -/
theorem Inv.mapVarResolve_spec (h : Inv none m) (h0 : m.keySize ≤ 0) (ext : Bytes) (len : Nat) :
    Inv none (m.mapVarResolve ext len : _ × Result A V R).1 ∧
      (m.mapVarResolve ext len : _ × Result A V R).1.lookup = m.lookup ∧
      (m.mapVarResolve ext len : _ × Result A V R).2 = resolution (m.lookup (ext.take len)) := by
  simp only [mapVarResolve, h.wired.hash_var h0, Wired.search_resolve h0]
  cases hcache : m.cache.filter fun elem =>
      (m.element elem).elmlen == len && bcmp (m.element elem).externalid ext len == 0 with
  | some elem =>
    rw [filter_eq_some_iff, Bool.and_eq_true, beq_iff_eq, beq_iff_eq, bcmp_eq_zero_iff] at hcache
    obtain ⟨hcache, hlen, hcomp⟩ := hcache
    obtain ⟨i, hmem⟩ := h.cache_mem elem hcache
    refine ⟨h, rfl, ?_⟩
    rw [← hcomp, ← hlen, ← keyLen_var h0]
    change _ = resolution (m.lookup (m.keyOf elem))
    rw [h.lookup_keyOf hmem]
    rfl
  | none =>
    rcases find_cases (m := m) (ext.take len) with ⟨a, hf, hmem, -, hlookup⟩ | ⟨hf, hlookup⟩
    · rw [hf, hlookup]
      exact ⟨h.encache hmem, rfl, rfl⟩
    · rw [hf, hlookup]
      exact ⟨h, rfl, rfl⟩

/-- What a call that binds a key does: it tells whether the key is bound to the
value or to another one, or binds it if there is memory for that. -/
def Bound [DecidableEq V] (m : Map A V) (key : List UInt8) (intern : V) (r : Map A V × Result A V R) : Prop :=
  match m.lookup key with
  | some v => r.1.lookup = m.lookup ∧
      ∃ bp, r.2 = .bound (if v = intern then .success else .alreadyBound) bp
  | none => r.2 = .bound .noMemory none ∧ r.1.lookup = m.lookup ∨
      ∃ bp, r.2 = .bound .success bp ∧ r.1.lookup = update m.lookup key (some intern)

/-- A key that is bound stays bound. -/
theorem Inv.bound_of_lookup [DecidableEq V] {v intern : V} {bp bp' : Option A} (h : Inv none m)
    (hlookup : m.lookup key = some v)
    {r : Map A V × Result A V R} (hr : r =
      if v = intern then (m, .bound .success bp) else (m, .bound .alreadyBound bp')) :
    Inv none r.1 ∧ Bound m key intern r := by
  unfold Bound
  rw [hlookup]
  by_cases hv : v = intern
  · rw [if_pos hv] at hr
    subst hr
    exact ⟨h, rfl, bp, by rw [if_pos hv]⟩
  · rw [if_neg hv] at hr
    subst hr
    exact ⟨h, rfl, bp', by rw [if_neg hv]⟩

variable [DecidableEq A]

/-- An element has been taken out of its chain. -/
structure Removed (m m' : Map A V) (i : Nat) (elem : A) : Prop where
  inv : Inv none m'
  same : SameMap m m'
  lookup_eq : m'.lookup = update m.lookup (m.keyOf elem) none
  table_eq : m'.table = update m.table i ((m.table i).erase elem)

theorem Inv.removed_freeIt (h : Inv none m) (hmem : elem ∈ m.table i) :
    Removed m ((m.unlink i elem).freeIt elem) i elem :=
  ⟨(h.unlink hmem).freeIt, ⟨rfl, rfl, rfl, rfl⟩, h.lookup_unlink hmem, rfl⟩

theorem Inv.removed_freeVarMapElem (h : Inv none m) (hmem : elem ∈ m.table i) :
    Removed m ((m.unlink i elem).freeVarMapElem elem) i elem :=
  ⟨(h.unlink hmem).freeVarMapElem, ⟨rfl, rfl, rfl, rfl⟩, h.lookup_unlink hmem, rfl⟩

namespace Inv

section

variable (h : Inv none m)

include h

/-- `mapUnbind` takes out the element of the key. -/
theorem mapUnbind_cases (h0 : 0 < m.keySize) (ext : Bytes) (aligned : Bool) :
    (∃ a, m.keyOf a = ext.take m.keySize.toNat ∧
      a ∈ m.table (m.home (ext.take m.keySize.toNat)) ∧
      (m.mapUnbind ext aligned : _ × Result A V R) =
        ((m.unlink (m.home (ext.take m.keySize.toNat)) a).freeIt a, .returns .success)) ∨
    m.lookup (ext.take m.keySize.toNat) = none ∧
      (m.mapUnbind ext aligned : _ × Result A V R) =
        ({ m with cache := none }, .returns .failure) := by
  have hsearch := @Wired.search_fixed A V m ext h.wired h0 aligned
  simp only [mapUnbind, unbindName, h.wired.hash_fixed h0, hsearch]
  rcases find_cases (ext.take m.keySize.toNat) with ⟨a, hf, hmem, hkey, -⟩ | ⟨hf, hnone⟩
  · rw [hf]
    exact .inl ⟨a, hkey, hmem, rfl⟩
  · rw [hf]
    exact .inr ⟨hnone, rfl⟩

/-- `mapVarUnbind` does, if no other element compares equal. -/
theorem mapVarUnbind_cases (h0 : m.keySize ≤ 0) (hcomp : m.Comparable ext len) :
    (∃ a, m.keyOf a = ext.take len ∧ a ∈ m.table (m.home (ext.take len)) ∧
      (m.mapVarUnbind ext len : _ × Result A V R) =
        ((m.unlink (m.home (ext.take len)) a).freeVarMapElem a, .returns .success)) ∨
    m.lookup (ext.take len) = none ∧
      (m.mapVarUnbind ext len : _ × Result A V R) =
        ({ m with cache := none }, .returns .failure) := by
  simp only [mapVarUnbind, h.wired.hash_var h0, h.wired.search_var h0 hcomp]
  rcases find_cases (ext.take len) with ⟨a, hf, hmem, hkey, -⟩ | ⟨hf, hnone⟩
  · rw [hf]
    exact .inl ⟨a, hkey, hmem, rfl⟩
  · rw [hf]
    exact .inr ⟨hnone, rfl⟩

/-- `mapRemoveBinding` takes out the element, if its hash is found. -/
theorem mapRemoveBinding_cases (halloc : m.allocated a = true) (hf : m.Findable a) :
    (a ∈ m.table (m.home (m.keyOf a)) ∧ (m.mapRemoveBinding a : _ × Result A V R) =
      ((m.unlink (m.home (m.keyOf a)) a).freeIt a, .returns .success)) ∨
    (∀ i, a ∉ m.table i) ∧ (m.mapRemoveBinding a : _ × Result A V R) =
      ({ m with cache := none }, .returns .failure) := by
  simp only [mapRemoveBinding, removeName, halloc, if_true, h.wired.hash_remove hf]
  by_cases hmem : a ∈ m.table (m.home (m.keyOf a))
  · rw [if_pos hmem]
    exact .inl ⟨hmem, rfl⟩
  · rw [if_neg hmem]
    refine .inr ⟨fun i hi => hmem ?_, rfl⟩
    rwa [h.chains.home_eq i a hi]

/-- An element on a chain is removed by its address, and goes to the free list. -/
theorem mapRemoveBinding_removed (hmem : a ∈ m.table i) (hf : m.Findable a) :
    Removed m (m.mapRemoveBinding a : _ × Result A V R).1 i a ∧
      (m.mapRemoveBinding a : _ × Result A V R).1.allocated = m.allocated := by
  have hi : m.home (m.keyOf a) = i := h.chains.home_eq i a hmem
  rcases h.mapRemoveBinding_cases (R := R) (h.allocated_of_mem hmem) hf with
    ⟨-, heq⟩ | ⟨hno, -⟩
  · rw [heq, hi]
    exact ⟨h.removed_freeIt hmem, rfl⟩
  · exact absurd hmem (hno i)

/-! ### Reserving -/

/-- Releasing an element of the free list binds nothing. -/
theorem releaseMapElem_spec : Inv none m.releaseMapElem ∧ m.releaseMapElem.lookup = m.lookup := by
  unfold Map.releaseMapElem
  split
  · exact ⟨h, rfl⟩
  · rename_i elem next hfree
    exact ⟨(h.popFree hfree).freeVarMapElem, rfl⟩

theorem releaseMapElems_spec (n : Nat) :
    Inv none (m.releaseMapElems n) ∧ (m.releaseMapElems n).lookup = m.lookup := by
  induction n generalizing m with
  | zero => exact ⟨h, rfl⟩
  | succ n ih =>
    obtain ⟨hinv, hlookup⟩ := h.releaseMapElem_spec
    rw [releaseMapElems, ← hlookup]
    exact ih hinv

/-- Reserving an element binds nothing. -/
theorem reserveMapElem_spec {fresh : Option (A × MapElement V)}
    (hreserve : m.reserveMapElem fresh = some m') :
    Inv none m' ∧ m'.lookup = m.lookup := by
  unfold Map.reserveMapElem at hreserve
  obtain ⟨⟨elem, m₁⟩, hget, rfl⟩ := map_eq_some_iff.mp hreserve
  have hobtained := h.allocGet (fun _ => le_rfl) hget
  exact ⟨hobtained.inv.freeIt, hobtained.lookup_eq⟩

theorem reserveLoop_spec (i n : Nat) (fresh : List (Option (A × MapElement V))) :
    Inv none (m.reserveLoop i n fresh).1 ∧ (m.reserveLoop i n fresh).1.lookup = m.lookup := by
  induction n generalizing m i fresh with
  | zero => exact ⟨h, rfl⟩
  | succ n ih =>
    rw [reserveLoop]
    cases hreserve : m.reserveMapElem (fresh.head?.getD none) with
    | none => exact h.releaseMapElems_spec i
    | some m' =>
      obtain ⟨hinv, hlookup⟩ := h.reserveMapElem_spec hreserve
      rw [← hlookup]
      exact ih hinv (i + 1) fresh.tail

/-- `mapReserve` binds nothing, and removes nothing. -/
theorem mapReserve_spec (n : ℤ) (fresh : List (Option (A × MapElement V))) :
    Inv none (m.mapReserve n fresh : _ × Result A V R).1 ∧
      (m.mapReserve n fresh : _ × Result A V R).1.lookup = m.lookup := by
  unfold mapReserve
  split
  · exact ⟨h, rfl⟩
  split
  · obtain ⟨hinv, hlookup⟩ := h.reserveLoop_spec 0 n.toNat fresh
    split
    · rename_i m' heq
      rw [heq] at hinv hlookup
      exact ⟨hinv.reserved _, hlookup⟩
    · rename_i m' _ _ heq
      rw [heq] at hinv hlookup
      exact ⟨hinv, hlookup⟩
  split
  · exact ⟨h, rfl⟩
  · exact (h.reserved _).releaseMapElems_spec n.natAbs

/-! ### Other writes -/

/-- What others write is no key of an element. -/
theorem writtenByOthers_spec (elem : A) (contents : MapElement V) :
    Inv none (m.writtenByOthers elem contents) ∧
      (m.writtenByOthers elem contents).lookup = m.lookup := by
  have hsame (a : A) (hne : a ≠ elem) : (m.writtenByOthers elem contents).element a = m.element a :=
    update_of_ne hne _ _
  have hself : (m.writtenByOthers elem contents).element elem =
      if m.allocated elem then { m.element elem with
        externalid := fun i =>
          if i < (m.element elem).room then (m.element elem).externalid i
          else contents.externalid i }
      else contents := update_self ..
  -- Of an element that is allocated, only what lies behind its room is written.
  have hrest (a : A) (ha : m.allocated a = true) :
      ((m.writtenByOthers elem contents).element a).elmlen = (m.element a).elmlen ∧
        ((m.writtenByOthers elem contents).element a).room = (m.element a).room ∧
        ((m.writtenByOthers elem contents).element a).internalid = (m.element a).internalid := by
    by_cases hne : a = elem
    · subst hne
      rw [hself, if_pos ha]
      exact ⟨rfl, rfl, rfl⟩
    · rw [hsame a hne]
      exact ⟨rfl, rfl, rfl⟩
  have hlen (a : A) (ha : m.allocated a = true) :
      (m.writtenByOthers elem contents).keyLen a = m.keyLen a := by
    simp only [keyLen, (hrest a ha).1]
    rfl
  have hkey (i : Nat) (a : A) (ha : a ∈ m.table i) :
      (m.writtenByOthers elem contents).keyOf a = m.keyOf a := by
    have halloc := h.allocated_of_mem ha
    rw [keyOf, keyOf, hlen a halloc]
    by_cases hne : a = elem
    · subst hne
      rw [hself, if_pos halloc]
      have hroom := h.room a halloc (.inr ⟨i, ha⟩)
      exact take_eq_iff.mpr fun j hj => if_pos (by omega)
    · rw [hsame a hne]
  constructor
  · exact {
      wired := ⟨h.wired.tableSize, h.wired.keySize_le, h.wired.fixed, h.wired.var⟩
      chains := h.chains.congr hkey
      freelist_nodup := h.freelist_nodup
      not_mem_table := h.not_mem_table
      held_apart := h.held_apart
      allocated_iff := h.allocated_iff
      cache_mem := h.cache_mem
      room := by
        intro a ha hor
        rw [hlen a ha, (hrest a ha).2.1]
        exact h.room a ha hor
      noFault := h.noFault }
  · apply lookup_congr
    intro i a ha
    exact ⟨hkey i a ha, (hrest a (h.allocated_of_mem ha)).2.2⟩

end

/-! ### Binding -/

variable [DecidableEq V]

/-- A key that is free is bound to a new element. -/
theorem bound_of_obtained {intern : V} {contents : MapElement V} {size : Nat}
    (hobtained : Obtained m m' elem size)
    (hlookup : m.lookup key = none)
    (hlen : (if 0 < m.keySize then m.keySize.toNat else contents.elmlen) = size)
    (hkey : contents.externalid.take size = key) (hroom : contents.room = (m'.element elem).room)
    (hvalue : contents.internalid = intern) :
    Inv none (m'.append (m.home key) elem contents) ∧
      Bound (R := R) m key intern
        (m'.append (m.home key) elem contents, .bound .success (some elem)) := by
  subst hkey hvalue
  have hnone : m'.lookup (contents.externalid.take size) = none := by
    rw [hobtained.lookup_eq]
    exact hlookup
  obtain ⟨hinv, heq⟩ := hobtained.inv.append (i := m.home (contents.externalid.take size))
    (by rwa [hobtained.keySize_eq]) (by rw [hobtained.home_eq]) (hroom ▸ hobtained.room) hnone
  refine ⟨hinv, ?_⟩
  unfold Bound
  rw [hlookup]
  exact .inr ⟨_, rfl, by rw [heq, hobtained.lookup_eq]⟩

/-- `mapBind` binds a key that is free. -/
theorem mapBind_spec (h : Inv none m) (h0 : 0 < m.keySize) (ext : Bytes) (aligned : Bool)
    (intern : V) (fresh : Option (A × MapElement V)) :
    Inv none (m.mapBind ext aligned intern fresh : _ × Result A V R).1 ∧
      Bound (R := R) m (ext.take m.keySize.toNat) intern (m.mapBind ext aligned intern fresh) := by
  have hbind : m.bind = some m.unbind := (h.wired.fixed h0).2.2.1
  simp only [mapBind, hbind, bindName, h.wired.hash_fixed h0, h.wired.search_fixed h0]
  rcases find_cases (m := m) (ext.take m.keySize.toNat) with
    ⟨a, hf, hmem, -, hlookup⟩ | ⟨hf, hlookup⟩
  · rw [hf]
    exact bound_of_lookup h hlookup rfl
  · rw [hf]
    cases hget : m.getMapElem fresh with
    | none =>
      refine ⟨h, ?_⟩
      unfold Bound
      rw [hlookup]
      exact .inl ⟨rfl, rfl⟩
    | some got =>
      obtain ⟨elem, m'⟩ := got
      have hobtained := h.getMapElem h0 hget
      have hroom : ¬ ((m'.element elem).room : ℤ) < m'.keySize := by
        have := hobtained.room
        rw [hobtained.keySize_eq]
        omega
      simp only [if_neg hroom]
      refine bound_of_obtained hobtained hlookup (if_pos h0) ?_ rfl rfl
      rw [hobtained.keySize_eq]
      exact Template.take_copyBytes (h.wired.fixed h0).1 h0 h.wired.keySize_le

/-- `mapVarBind` does, if no other element compares equal and the element that it
reuses has the room. -/
theorem mapVarBind_spec (h : Inv none m) (h0 : m.keySize ≤ 0) (hcomp : m.Comparable ext len)
    (hreuse : ∀ a ∈ m.freelist.head?, len ≤ (m.element a).room) (intern : V)
    (fresh : Option (A × MapElement V)) :
    Inv none (m.mapVarBind ext len intern fresh : _ × Result A V R).1 ∧
      Bound (R := R) m (ext.take len) intern (m.mapVarBind ext len intern fresh) := by
  simp only [mapVarBind, h.wired.hash_var h0, h.wired.search_var h0 hcomp]
  rcases find_cases (m := m) (ext.take len) with ⟨a, hf, hmem, -, hlookup⟩ | ⟨hf, hlookup⟩
  · rw [hf]
    exact bound_of_lookup h hlookup rfl
  · rw [hf]
    cases hget : m.getVarMapElem len fresh with
    | none =>
      refine ⟨h, ?_⟩
      unfold Bound
      rw [hlookup]
      exact .inl ⟨rfl, rfl⟩
    | some got =>
      obtain ⟨elem, m'⟩ := got
      have hobtained := h.getVarMapElem h0 hreuse hget
      simp only [if_neg (not_lt.mpr hobtained.room)]
      refine bound_of_obtained hobtained hlookup (if_neg (by omega)) take_bcopy rfl rfl

end Inv

end Map

end MachVirtuTerm.IdMap
