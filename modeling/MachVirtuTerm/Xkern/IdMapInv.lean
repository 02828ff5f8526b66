import MachVirtuTerm.Lib.HashChains
import MachVirtuTerm.Xkern.IdMapKeys

/-!
# What the x-kernel maps keep

Every element that is allocated is on one chain or on the free list, every
element on a chain is on that of its key, and the cache names an element on a
chain. So a map is a finite map from keys to values, and each operation on the
chains has its effect on that finite map.
-/

open Function List

namespace MachVirtuTerm.IdMap

namespace Map

variable {A V : Type*}

/-- The index of a key in the table. -/
def home (m : Map A V) (key : List UInt8) : Nat :=
  (if 0 < m.keySize then m.unbind.hash (toBytes key) m.tableSize m.keySize
    else generichash (toBytes key) m.tableSize key.length).getD 0

/-- The key of an element. -/
def keyOf (m : Map A V) (elem : A) : List UInt8 :=
  (m.element elem).externalid.take (m.keyLen elem)

/-- The value that is bound to a key. -/
def lookup (m : Map A V) (key : List UInt8) : Option V :=
  (chainFind m.home m.keyOf m.table key).map fun elem => (m.element elem).internalid

/-- The functions of a map are those of its key size. -/
structure Wired (m : Map A V) : Prop where
  tableSize : ∃ p, m.tableSize = 2 ^ p
  keySize_le : m.keySize ≤ maxMapKeySize
  fixed : 0 < m.keySize → m.unbind.Serves m.keySize ∧ m.resolve = some m.unbind ∧
    m.bind = some m.unbind ∧ m.remove = m.unbind
  var : m.keySize ≤ 0 → m.resolve = none ∧ m.bind = none ∧ m.unbind = .mgeneric ∧
    m.remove = .mgeneric

/-- The invariant. One element may be held, on its way between the chains, the
free list and the allocator. -/
structure Inv (held : Option A) (m : Map A V) : Prop where
  wired : m.Wired
  chains : HashChains m.home m.keyOf m.table
  freelist_nodup : m.freelist.Nodup
  not_mem_table : ∀ a ∈ m.freelist, ∀ i, a ∉ m.table i
  held_apart : ∀ a, held = some a → a ∉ m.freelist ∧ ∀ i, a ∉ m.table i
  allocated_iff : ∀ a, m.allocated a = true ↔
    held = some a ∨ a ∈ m.freelist ∨ ∃ i, a ∈ m.table i
  cache_mem : ∀ a, m.cache = some a → ∃ i, a ∈ m.table i
  room : ∀ a, m.allocated a = true → (0 < m.keySize ∨ ∃ i, a ∈ m.table i) →
    m.keyLen a ≤ (m.element a).room
  noFault : m.fault = false

variable {m : Map A V} {held : Option A} {a elem : A} {i : Nat} {key : List UInt8}
  {ext : Bytes} {len : Nat}

/-! ## Keys -/

theorem keyLen_fixed (h0 : 0 < m.keySize) : m.keyLen a = m.keySize.toNat := if_pos h0

theorem keyLen_var (h0 : m.keySize ≤ 0) : m.keyLen a = (m.element a).elmlen :=
  if_neg (by omega)

@[simp] theorem length_keyOf : (m.keyOf a).length = m.keyLen a := length_take

namespace Wired

/-- A key of the size of the map is on the chain that its hash names. -/
theorem hash_fixed (hw : m.Wired) (h0 : 0 < m.keySize) (ext : Bytes) :
    m.unbind.hash ext m.tableSize m.keySize = some (m.home (ext.take m.keySize.toNat)) := by
  obtain ⟨p, hp⟩ := hw.tableSize
  obtain ⟨h, -, hh⟩ := Template.hash_spec (p := p) (hw.fixed h0).1 h0 ext
  rw [home, if_pos h0, hp, hh _ fun _ _ => rfl, hh _ fun i hi => toBytes_take hi]
  rfl

/-- So is a key of any length, in a map with such keys. -/
theorem hash_var (hw : m.Wired) (h0 : m.keySize ≤ 0) (ext : Bytes) (len : Nat) :
    generichash ext m.tableSize len = some (m.home (ext.take len)) := by
  obtain ⟨p, hp⟩ := hw.tableSize
  obtain ⟨h, -, hh⟩ := generichash_spec ext len (show 0 < 2 ^ p by positivity)
  rw [home, if_neg (by omega), length_take, hp, generichash_congr fun i hi => toBytes_take hi, hh]
  rfl

theorem home_lt (hw : m.Wired) (key : List UInt8) : m.home key < m.tableSize := by
  obtain ⟨p, hp⟩ := hw.tableSize
  by_cases h0 : 0 < m.keySize
  · obtain ⟨h, hlt, hh⟩ := Template.hash_spec (p := p) (hw.fixed h0).1 h0 (toBytes key)
    rw [home, if_pos h0, hp, hh _ fun _ _ => rfl]
    exact hlt
  · obtain ⟨h, hlt, hh⟩ := generichash_spec (toBytes key) key.length (show 0 < 2 ^ p by positivity)
    rw [home, if_neg h0, hp, hh]
    exact hlt

/-- A search for a key of the size of the map finds its element. -/
theorem search_fixed (hw : m.Wired) (h0 : 0 < m.keySize) (aligned : Bool) :
    (m.search (m.home (ext.take m.keySize.toNat)) fun e =>
        m.unbind.compBytes aligned e.externalid ext m.keySize) =
      chainFind m.home m.keyOf m.table (ext.take m.keySize.toNat) := by
  apply find?_congr
  intro a _
  rw [Bool.eq_iff_iff, Template.compBytes_iff (hw.fixed h0).1 h0 hw.keySize_le, decide_eq_true_iff,
    keyOf, keyLen_fixed h0]

/-- A search by length and bytes finds the element of the key. -/
theorem search_resolve (h0 : m.keySize ≤ 0) :
    (m.search (m.home (ext.take len)) fun e =>
        e.elmlen == len && bcmp e.externalid ext len == 0) =
      chainFind m.home m.keyOf m.table (ext.take len) := by
  apply find?_congr
  intro a _
  rw [Bool.eq_iff_iff, Bool.and_eq_true, beq_iff_eq, beq_iff_eq, bcmp_eq_zero_iff,
    decide_eq_true_iff, keyOf, keyLen_var h0]
  constructor
  · rintro ⟨rfl, h⟩
    exact h
  · intro h
    have hlen : (m.element a).elmlen = len := by
      simpa only [length_take] using congrArg List.length h
    rw [hlen] at h
    exact ⟨hlen, h⟩

end Wired

/-- No element of another length on the chain of a key begins with it. -/
def Comparable (m : Map A V) (ext : Bytes) (len : Nat) : Prop :=
  ∀ ind, generichash ext m.tableSize len = some ind → ∀ a ∈ m.table ind,
    (m.element a).elmlen ≠ len → bcmp (m.element a).externalid ext len ≠ 0

/-- A search by bytes alone finds the element of the key, if there is no longer
or shorter one that compares equal. -/
theorem Wired.search_var (hw : m.Wired) (h0 : m.keySize ≤ 0) (hcomp : m.Comparable ext len) :
    (m.search (m.home (ext.take len)) fun e => bcmp e.externalid ext len == 0) =
      chainFind m.home m.keyOf m.table (ext.take len) := by
  rw [← Wired.search_resolve h0]
  apply find?_congr
  intro a ha
  by_cases hlen : (m.element a).elmlen = len
  · simp [hlen]
  · have hne := hcomp _ (hw.hash_var h0 ext len) a ha hlen
    simp [hlen, hne]

/-! ## Chains, free list and allocator -/

/-- What is written elsewhere does not change the bindings. -/
theorem lookup_congr {element : A → MapElement V} {allocated : A → Bool} {freelist : List A}
    (hkey : ∀ i, ∀ a ∈ m.table i,
      ({ m with element, allocated, freelist } : Map A V).keyOf a = m.keyOf a ∧
        (element a).internalid = (m.element a).internalid) :
    ({ m with element, allocated, freelist } : Map A V).lookup = m.lookup := by
  funext key
  have hfind : chainFind m.home ({ m with element, allocated, freelist } : Map A V).keyOf m.table
      key = chainFind m.home m.keyOf m.table key :=
    chainFind_congr fun i a ha => (hkey i a ha).1
  change (chainFind m.home _ m.table key).map _ = _
  rw [hfind]
  cases h : chainFind m.home m.keyOf m.table key with
  | none => simp only [lookup, h, Option.map_none]
  | some a => simp only [lookup, h, Option.map_some, (hkey _ a (mem_of_chainFind h)).2]

theorem lookup_eq_some (h : chainFind m.home m.keyOf m.table key = some a) :
    m.lookup key = some (m.element a).internalid := by
  rw [lookup, h, Option.map_some]

theorem lookup_eq_none (h : chainFind m.home m.keyOf m.table key = none) : m.lookup key = none := by
  rw [lookup, h, Option.map_none]

theorem unlink_table [DecidableEq A] :
    (m.unlink i elem).table = update m.table i ((m.table i).erase elem) := rfl

/-- An element with room for a key has been taken from the free list or the
allocator. -/
structure Obtained (m m' : Map A V) (elem : A) (size : Nat) : Prop where
  inv : Inv (some elem) m'
  lookup_eq : m'.lookup = m.lookup
  room : size ≤ (m'.element elem).room
  keySize_eq : m'.keySize = m.keySize
  home_eq : m'.home = m.home

namespace Inv

/-- The cache gets an element on a chain, or none; the count of reserved elements is any. -/
theorem recache (h : Inv held m) {cache : Option A} (hcache : ∀ a, cache = some a → ∃ i, a ∈ m.table i)
    (reserved : ℤ) : Inv held { m with cache, reserved } where
  wired := ⟨h.wired.tableSize, h.wired.keySize_le, h.wired.fixed, h.wired.var⟩
  chains := h.chains
  freelist_nodup := h.freelist_nodup
  not_mem_table := h.not_mem_table
  held_apart := h.held_apart
  allocated_iff := h.allocated_iff
  cache_mem := hcache
  room := h.room
  noFault := h.noFault

/-- The cache is emptied. -/
theorem uncache (h : Inv held m) : Inv held { m with cache := none } :=
  h.recache (fun _ ha => by cases ha) m.reserved

/-- An element on a chain is put in the cache. -/
theorem encache (h : Inv held m) (hmem : elem ∈ m.table i) :
    Inv held { m with cache := some elem } :=
  h.recache (fun _ ha => by cases ha; exact ⟨i, hmem⟩) m.reserved

/-- FREEIT keeps the invariant. -/
theorem freeIt (h : Inv (some elem) m) : Inv none (m.freeIt elem) where
  wired := ⟨h.wired.tableSize, h.wired.keySize_le, h.wired.fixed, h.wired.var⟩
  chains := h.chains
  freelist_nodup := nodup_cons.mpr ⟨(h.held_apart elem rfl).1, h.freelist_nodup⟩
  not_mem_table a ha := by
    rcases mem_cons.mp ha with rfl | ha
    · exact (h.held_apart a rfl).2
    · exact h.not_mem_table a ha
  held_apart _ ha := by cases ha
  allocated_iff a := by
    change m.allocated a = true ↔ none = some a ∨ a ∈ elem :: m.freelist ∨ _
    rw [h.allocated_iff, mem_cons, Option.some_inj, eq_comm (a := elem)]
    simp only [reduceCtorEq, false_or, or_assoc]
    rfl
  cache_mem := h.cache_mem
  room := h.room
  noFault := h.noFault

/-- The first element of the free list is handed out. -/
theorem popFree (h : Inv none m) {next : List A} (hfree : m.freelist = elem :: next) :
    Inv (some elem) { m with freelist := next } where
  wired := ⟨h.wired.tableSize, h.wired.keySize_le, h.wired.fixed, h.wired.var⟩
  chains := h.chains
  freelist_nodup := (nodup_cons.mp (hfree ▸ h.freelist_nodup)).2
  not_mem_table a ha := h.not_mem_table a (hfree ▸ mem_cons_of_mem _ ha)
  held_apart := by
    rintro a ⟨⟩
    exact ⟨(nodup_cons.mp (hfree ▸ h.freelist_nodup)).1,
      h.not_mem_table elem (hfree ▸ mem_cons_self)⟩
  allocated_iff a := by
    change m.allocated a = true ↔ _
    rw [h.allocated_iff, hfree, mem_cons, Option.some_inj, eq_comm (a := elem)]
    simp only [reduceCtorEq, false_or, or_assoc]
  cache_mem := h.cache_mem
  room := h.room
  noFault := h.noFault

variable [DecidableEq A]

/-- An element on a chain is taken out of it. -/
theorem unlink (h : Inv none m) (hmem : elem ∈ m.table i) : Inv (some elem) (m.unlink i elem) := by
  have hsub (j : Nat) (a : A) (ha : a ∈ (m.unlink i elem).table j) : a ∈ m.table j := by
    by_cases hj : j = i
    · subst hj
      rw [unlink_table, update_self] at ha
      exact mem_of_mem_erase ha
    · rwa [unlink_table, update_of_ne hj] at ha
  have hgone (j : Nat) : elem ∉ (m.unlink i elem).table j := by
    intro hj
    have hji : j = i := h.chains.unique (hsub j elem hj) hmem
    subst hji
    rw [unlink_table, update_self] at hj
    exact h.chains.nodup.not_mem_erase hj
  have hkeep (j : Nat) (a : A) (ha : a ∈ m.table j) (hne : a ≠ elem) :
      a ∈ (m.unlink i elem).table j := by
    by_cases hj : j = i
    · subst hj
      rw [unlink_table, update_self]
      exact (mem_erase_of_ne hne).mpr ha
    · rwa [unlink_table, update_of_ne hj]
  exact {
    wired := ⟨h.wired.tableSize, h.wired.keySize_le, h.wired.fixed, h.wired.var⟩
    chains := h.chains.erase
    freelist_nodup := h.freelist_nodup
    not_mem_table := fun a ha j hj => h.not_mem_table a ha j (hsub j a hj)
    held_apart := by
      rintro a ⟨⟩
      exact ⟨fun hfree => h.not_mem_table elem hfree i hmem, hgone⟩
    allocated_iff := by
      intro a
      change m.allocated a = true ↔ _
      rw [h.allocated_iff]
      constructor
      · rintro (hnone | hfree | ⟨j, hj⟩)
        · cases hnone
        · exact .inr (.inl hfree)
        · by_cases hne : a = elem
          · exact .inl (by rw [hne])
          · exact .inr (.inr ⟨j, hkeep j a hj hne⟩)
      · rintro (hself | hfree | ⟨j, hj⟩)
        · cases hself
          exact .inr (.inr ⟨i, hmem⟩)
        · exact .inr (.inl hfree)
        · exact .inr (.inr ⟨j, hsub j a hj⟩)
    cache_mem := by
      intro a ha
      cases ha
    room := fun a ha hor => h.room a ha (hor.imp_right fun ⟨j, hj⟩ => ⟨j, hsub j a hj⟩)
    noFault := h.noFault }

/-- FREEVARMAPELEM keeps the invariant. -/
theorem freeVarMapElem (h : Inv (some elem) m) : Inv none (m.freeVarMapElem elem) where
  wired := ⟨h.wired.tableSize, h.wired.keySize_le, h.wired.fixed, h.wired.var⟩
  chains := h.chains
  freelist_nodup := h.freelist_nodup
  not_mem_table := h.not_mem_table
  held_apart _ ha := by cases ha
  allocated_iff a := by
    change update m.allocated elem false a = true ↔ none = some a ∨ a ∈ m.freelist ∨
      ∃ i, a ∈ m.table i
    by_cases ha : a = elem
    · subst ha
      have happart := h.held_apart a rfl
      simp [happart.1, happart.2]
    · rw [update_of_ne ha, h.allocated_iff, Option.some_inj]
      simp [Ne.symm ha]
  cache_mem := h.cache_mem
  room a ha := by
    change update m.allocated elem false a = true at ha
    have hne : a ≠ elem := by
      rintro rfl
      simp at ha
    rw [update_of_ne hne] at ha
    exact h.room a ha
  noFault := h.noFault

/-- Taking out an element leaves its key free, and no other. -/
theorem lookup_unlink (h : Inv none m) (hmem : elem ∈ m.table i) :
    (m.unlink i elem).lookup = update m.lookup (m.keyOf elem) none := by
  funext key
  have hfind : chainFind m.home m.keyOf (m.unlink i elem).table =
      update (chainFind m.home m.keyOf m.table) (m.keyOf elem) none :=
    h.chains.find_erase hmem
  change (chainFind m.home m.keyOf (m.unlink i elem).table key).map _ = _
  rw [hfind]
  by_cases hk : key = m.keyOf elem
  · subst hk
    rw [update_self, update_self, Option.map_none]
  · rw [update_of_ne hk, update_of_ne hk]
    rfl

/-- A new element is put on the chain of its key. -/
theorem append (h : Inv (some elem) m) {contents : MapElement V}
    (hkey : (if 0 < m.keySize then m.keySize.toNat else contents.elmlen) = len)
    (hhome : m.home (contents.externalid.take len) = i)
    (hroom : len ≤ contents.room)
    (hfree : m.lookup (contents.externalid.take len) = none) :
    Inv none (m.append i elem contents) ∧
      (m.append i elem contents).lookup =
        update m.lookup (contents.externalid.take len) (some contents.internalid) := by
  subst hhome
  obtain ⟨hnotfree, hnotin⟩ := h.held_apart elem rfl
  -- The elements on the chains are as they were.
  have hold (a : A) (hne : a ≠ elem) :
      (m.append (m.home (contents.externalid.take len)) elem contents).element a = m.element a :=
    update_of_ne hne _ _
  have hnew : (m.append (m.home (contents.externalid.take len)) elem contents).element elem =
      contents := update_self ..
  have hkeyOld (a : A) (hne : a ≠ elem) :
      (m.append (m.home (contents.externalid.take len)) elem contents).keyOf a = m.keyOf a := by
    simp only [keyOf, keyLen, hold a hne]
    rfl
  have hlenNew : (m.append (m.home (contents.externalid.take len)) elem contents).keyLen elem =
      len := by
    rw [keyLen, hnew]
    exact hkey
  have hkeyNew : (m.append (m.home (contents.externalid.take len)) elem contents).keyOf elem =
      contents.externalid.take len := by
    rw [keyOf, hlenNew, hnew]
  have hne (j : Nat) (a : A) (ha : a ∈ m.table j) : a ≠ elem := by
    rintro rfl
    exact hnotin j ha
  have hchains : HashChains m.home
      (m.append (m.home (contents.externalid.take len)) elem contents).keyOf m.table :=
    h.chains.congr fun j a ha => hkeyOld a (hne j a ha)
  have hnone : chainFind m.home m.keyOf m.table (contents.externalid.take len) = none := by
    cases hf : chainFind m.home m.keyOf m.table (contents.externalid.take len) with
    | none => rfl
    | some a =>
      rw [lookup_eq_some hf] at hfree
      cases hfree
  have hnone' : chainFind m.home
      (m.append (m.home (contents.externalid.take len)) elem contents).keyOf m.table
      (contents.externalid.take len) = none := by
    rw [chainFind_congr fun j a ha => hkeyOld a (hne j a ha)]
    exact hnone
  rw [← hkeyNew] at hnone'
  have hpush := hchains.push hnone'
  have hfind := hchains.find_push hnone'
  rw [hkeyNew] at hpush hfind
  have hmem (j : Nat) (a : A) :
      a ∈ (m.append (m.home (contents.externalid.take len)) elem contents).table j ↔
        a ∈ m.table j ∨ j = m.home (contents.externalid.take len) ∧ a = elem := by
    by_cases hj : j = m.home (contents.externalid.take len)
    · subst hj
      simp [Map.append]
    · simp [Map.append, hj]
  constructor
  · exact {
      wired := ⟨h.wired.tableSize, h.wired.keySize_le, h.wired.fixed, h.wired.var⟩
      chains := hpush
      freelist_nodup := h.freelist_nodup
      not_mem_table := by
        intro a ha j hj
        rcases (hmem j a).mp hj with hj | ⟨-, rfl⟩
        · exact h.not_mem_table a ha j hj
        · exact hnotfree ha
      held_apart := by
        intro a ha
        cases ha
      allocated_iff := by
        intro a
        change m.allocated a = true ↔ _
        rw [h.allocated_iff]
        constructor
        · rintro (hself | hfree | ⟨j, hj⟩)
          · cases hself
            exact .inr (.inr ⟨_, (hmem _ elem).mpr (.inr ⟨rfl, rfl⟩)⟩)
          · exact .inr (.inl hfree)
          · exact .inr (.inr ⟨j, (hmem j a).mpr (.inl hj)⟩)
        · rintro (hnone | hfree | ⟨j, hj⟩)
          · cases hnone
          · exact .inr (.inl hfree)
          · rcases (hmem j a).mp hj with hj | ⟨-, rfl⟩
            · exact .inr (.inr ⟨j, hj⟩)
            · exact .inl rfl
      cache_mem := by
        intro a ha
        cases ha
        exact ⟨_, (hmem _ elem).mpr (.inr ⟨rfl, rfl⟩)⟩
      room := by
        intro a ha hor
        by_cases heq : a = elem
        · subst heq
          rw [hlenNew, hnew]
          exact hroom
        · rw [hold a heq]
          have hlen : (m.append (m.home (contents.externalid.take len)) elem contents).keyLen a =
              m.keyLen a := by
            rw [keyLen, hold a heq]
            rfl
          rw [hlen]
          refine h.room a ha (hor.imp_right ?_)
          rintro ⟨j, hj⟩
          rcases (hmem j a).mp hj with hj | ⟨-, hself⟩
          · exact ⟨j, hj⟩
          · exact absurd hself heq
      noFault := h.noFault }
  · funext key
    change (chainFind m.home _ _ key).map _ = _
    rw [show (m.append (m.home (contents.externalid.take len)) elem contents).table =
      update m.table (m.home (contents.externalid.take len))
        (m.table (m.home (contents.externalid.take len)) ++ [elem]) from rfl, hfind]
    by_cases hk : key = contents.externalid.take len
    · subst hk
      rw [update_self, update_self, Option.map_some, hnew]
    · rw [update_of_ne hk, update_of_ne hk, chainFind_congr fun j a ha => hkeyOld a (hne j a ha)]
      cases hf : chainFind m.home m.keyOf m.table key with
      | none => rw [lookup_eq_none hf, Option.map_none]
      | some a =>
        rw [lookup_eq_some hf, Option.map_some, hold a (hne _ a (mem_of_chainFind hf))]

/-- The allocator hands out an element that is nowhere. -/
theorem allocGet (h : Inv none m) {fresh : Option (A × MapElement V)} {size : Nat} {m' : Map A V}
    (hsize : 0 < m.keySize → m.keySize.toNat ≤ size)
    (hget : m.allocGet fresh size = some (elem, m')) : Obtained m m' elem size := by
  unfold Map.allocGet at hget
  split at hget
  · cases hget
  rename_i elem' contents
  split at hget
  · cases hget
  rename_i hnot
  obtain ⟨rfl, rfl⟩ := Prod.mk.injEq .. ▸ Option.some.inj hget
  have hnowhere : elem' ∉ m.freelist ∧ ∀ i, elem' ∉ m.table i := by
    constructor
    · exact fun hfree => hnot ((h.allocated_iff elem').mpr (.inr (.inl hfree)))
    · exact fun i hi => hnot ((h.allocated_iff elem').mpr (.inr (.inr ⟨i, hi⟩)))
  have hround : size ≤ round4 size := by
    unfold round4
    omega
  have hold (a : A) (hne : a ≠ elem') :
      update m.element elem' { contents with room := round4 size } a = m.element a :=
    update_of_ne hne _ _
  have hne (j : Nat) (a : A) (ha : a ∈ m.table j) : a ≠ elem' := by
    rintro rfl
    exact hnowhere.2 j ha
  refine ⟨?_, ?_, ?_, rfl, rfl⟩
  · exact {
      wired := ⟨h.wired.tableSize, h.wired.keySize_le, h.wired.fixed, h.wired.var⟩
      chains := h.chains.congr fun j a ha => by
        simp only [keyOf, keyLen, hold a (hne j a ha)]
      freelist_nodup := h.freelist_nodup
      not_mem_table := h.not_mem_table
      held_apart := by
        rintro a ⟨⟩
        exact hnowhere
      allocated_iff := by
        intro a
        change update m.allocated elem' true a = true ↔ _
        by_cases ha : a = elem'
        · subst ha
          simp
        · rw [update_of_ne ha, h.allocated_iff]
          simp [Ne.symm ha]
      cache_mem := h.cache_mem
      room := by
        intro a ha hor
        simp only [keyLen]
        by_cases heq : a = elem'
        · subst heq
          rcases hor with h0 | ⟨j, hj⟩
          · rw [update_self, if_pos h0]
            exact (hsize h0).trans hround
          · exact absurd hj (hnowhere.2 j)
        · simp only [hold a heq]
          simp only [update_of_ne heq] at ha
          exact h.room a ha hor
      noFault := h.noFault }
  · apply lookup_congr
    intro j a ha
    rw [hold a (hne j a ha)]
    refine ⟨?_, rfl⟩
    simp only [keyOf, keyLen, hold a (hne j a ha)]
  · simp only [update_self]
    exact hround

/-- GETMAPELEM hands out an element with room for a key. -/
theorem getMapElem (h : Inv none m) (h0 : 0 < m.keySize) {fresh : Option (A × MapElement V)}
    {m' : Map A V} (hget : m.getMapElem fresh = some (elem, m')) :
    Obtained m m' elem m.keySize.toNat := by
  unfold Map.getMapElem at hget
  split at hget
  · exact h.allocGet (fun _ => le_rfl) hget
  · rename_i elem' next hfree
    obtain ⟨rfl, rfl⟩ := Prod.mk.injEq .. ▸ Option.some.inj hget
    refine ⟨h.popFree hfree, rfl, ?_, rfl, rfl⟩
    have hroom := h.room elem' ((h.allocated_iff elem').mpr
      (.inr (.inl (hfree ▸ mem_cons_self)))) (.inl h0)
    rwa [keyLen_fixed h0] at hroom

/-- So does GETVARMAPELEM, if the element that it reuses has the room. -/
theorem getVarMapElem (h : Inv none m) (h0 : m.keySize ≤ 0)
    (hreuse : ∀ a ∈ m.freelist.head?, len ≤ (m.element a).room)
    {fresh : Option (A × MapElement V)} {m' : Map A V}
    (hget : m.getVarMapElem len fresh = some (elem, m')) : Obtained m m' elem len := by
  unfold Map.getVarMapElem at hget
  split at hget
  · exact h.allocGet (fun hpos => absurd hpos (by omega)) hget
  · rename_i elem' next hfree
    obtain ⟨rfl, rfl⟩ := Prod.mk.injEq .. ▸ Option.some.inj hget
    refine ⟨h.popFree hfree, rfl, hreuse elem' ?_, rfl, rfl⟩
    rw [hfree]
    rfl

end Inv

end Map

end MachVirtuTerm.IdMap
