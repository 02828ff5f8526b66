import MachVirtuTerm.Xkern.IdMapForEach

/-!
# Runs of the x-kernel maps

In every run of calls a map is the finite map of what was last bound and not
since removed, and every element has one place. `mapForEach` visits every binding
once, except where a callback stops the walk, and except for the rest of a chain
whose current element the callback has removed itself.
-/

open List Function

namespace MachVirtuTerm.IdMap

namespace Map

variable {A V : Type*} {m m' : Map A V} {f : MapForEachFun V}
  {visits : List (Visit V × Reply)} {key : List UInt8}

/-- Keys that were not visited keep their bindings. -/
theorem removals_of_not_mem {bindings : List UInt8 → Option V}
    (h : ∀ x ∈ visits, x.1.key ≠ key) : removals visits bindings key = bindings key := by
  induction visits generalizing bindings with
  | nil => rfl
  | cons x visits ih =>
    rw [removals, foldl_cons]
    refine (ih fun y hy => h y (mem_cons_of_mem _ hy)).trans ?_
    split
    · exact update_of_ne (h x mem_cons_self).symm _ _
    · rfl

theorem removals_append {visits' : List (Visit V × Reply)} {bindings : List UInt8 → Option V} :
    removals (visits ++ visits') bindings = removals visits' (removals visits bindings) :=
  foldl_append

/-- The visits of `mapForEach`. Each binding is visited once, unless the walk was
stopped before, or a callback took out its element on the same chain. -/
structure Visits (m : Map A V) (bindings : List UInt8 → Option V)
    (visits : List (Visit V × Reply)) : Prop where
  once : (visits.map fun x => x.1.key).Nodup
  bound : ∀ x ∈ visits, bindings x.1.key = some x.1.value
  all : ∀ key v, bindings key = some v → (∃ x ∈ visits, x.1.key = key) ∨
    (∃ x ∈ visits, x.2.mfeContinue = false) ∨
    ∃ x ∈ visits, x.2.direct ≠ none ∧ m.home x.1.key = m.home key

/-- Every element that is allocated is on one chain or on the free list, once. -/
structure OnePlace (m : Map A V) : Prop where
  nodup : m.freelist.Nodup ∧ ∀ i, (m.table i).Nodup
  place : ∀ a, m.allocated a = true →
    a ∈ m.freelist ∧ (∀ i, a ∉ m.table i) ∨
      a ∉ m.freelist ∧ ∃! i, i < m.tableSize ∧ a ∈ m.table i

theorem Inv.onePlace (h : Inv none m) : m.OnePlace where
  nodup := ⟨h.freelist_nodup, fun _ => h.chains.nodup⟩
  place a ha := by
    rcases (h.allocated_iff a).mp ha with hnone | hfree | ⟨i, hi⟩
    · cases hnone
    · exact .inl ⟨hfree, h.not_mem_table a hfree⟩
    · refine .inr ⟨fun hfree => h.not_mem_table a hfree i hi, i, ⟨?_, hi⟩, ?_⟩
      · have hlt := h.wired.home_lt (m.keyOf a)
        rwa [h.chains.home_eq i a hi] at hlt
      · exact fun j hj => h.chains.unique hj.2 hi

/-- A key that was bound successfully has the new value. -/
def afterBinding (bindings : List UInt8 → Option V) (key : List UInt8) (intern : V) :
    Result A V (Visit V × Reply) → List UInt8 → Option V
  | .bound .success _ => update bindings key (some intern)
  | _ => bindings

/-- The answer of a call that binds a key. -/
def BindAnswer [DecidableEq V] (bound : Option V) (intern : V) (result : Result A V (Visit V × Reply)) : Prop :=
  match bound with
  | some v => ∃ bp, result = .bound (if v = intern then .success else .alreadyBound) bp
  | none => result = .bound .noMemory none ∨ ∃ bp, result = .bound .success bp

/-- A call that binds a key has its effect and its answer. -/
theorem bindAnswer_of_bound [DecidableEq V] {key : List UInt8} {intern : V}
    {r : Map A V × Result A V (Visit V × Reply)} (h : Bound m key intern r) :
    BindAnswer (m.lookup key) intern r.2 ∧
      r.1.lookup = afterBinding m.lookup key intern r.2 := by
  unfold Bound at h
  unfold BindAnswer
  cases hkey : m.lookup key with
  | some v =>
    rw [hkey] at h
    obtain ⟨hlookup, bp, hr⟩ := h
    refine ⟨⟨bp, hr⟩, ?_⟩
    rw [hlookup, hr]
    by_cases hv : v = intern
    · subst hv
      rw [if_pos rfl, afterBinding, ← hkey, update_eq_self]
    · rw [if_neg hv]
      rfl
  | none =>
    rw [hkey] at h
    rcases h with ⟨hr, hlookup⟩ | ⟨bp, hr, hlookup⟩
    · rw [hlookup, hr]
      exact ⟨.inl rfl, rfl⟩
    · rw [hlookup, hr]
      exact ⟨.inr ⟨bp, rfl⟩, rfl⟩

variable [DecidableEq A]

/-- The walk along the chains. -/
theorem Inv.forEachChain_spec {is : List Nat} (h : Inv none m) (hok : m.Harmless f)
    (hnodup : is.Nodup) :
    ∃ new, Inv none (forEachChain f is m visits).1 ∧
      (forEachChain f is m visits).2 = visits ++ new ∧
      (forEachChain f is m visits).1.lookup = removals new m.lookup ∧
      (new.map fun x => x.1.key).Nodup ∧
      (∀ x ∈ new, m.home x.1.key ∈ is ∧ m.lookup x.1.key = some x.1.value) ∧
      ∀ i ∈ is, ∀ a ∈ m.table i, (∃ x ∈ new, x.1.key = m.keyOf a) ∨
        (∃ x ∈ new, x.2.mfeContinue = false) ∨
        ∃ x ∈ new, x.2.direct ≠ none ∧ m.home x.1.key = i := by
  induction is generalizing m visits with
  | nil =>
    exact ⟨[], h, (append_nil _).symm, rfl, nodup_nil, by simp, by simp⟩
  | cons i is ih =>
    obtain ⟨hi, hnodup'⟩ := nodup_cons.mp hnodup
    have hwalked : Walked m i (m.table i) visits
        (forEachElem f i ((m.table i).length + 1) m none false visits) :=
      h.forEachElem_spec hok (.start rfl) (Nat.lt_succ_self (m.table i).length)
    obtain ⟨done, new, hdone, hvisits, hnew, hlookup, hend⟩ := hwalked.visited
    -- What was visited on this chain.
    have hmem : ∀ x ∈ new, ∃ a ∈ done, x.1 = m.visitOf a := by
      intro x hx
      have hx' : x.1 ∈ done.map m.visitOf := hnew ▸ mem_map_of_mem hx
      obtain ⟨a, ha, heq⟩ := mem_map.mp hx'
      exact ⟨a, ha, heq.symm⟩
    have hbound : ∀ x ∈ new, m.home x.1.key = i ∧ m.lookup x.1.key = some x.1.value := by
      intro x hx
      obtain ⟨a, ha, heq⟩ := hmem x hx
      have hchain : a ∈ m.table i := hdone.subset ha
      rw [heq]
      exact ⟨h.chains.home_eq i a hchain, h.lookup_keyOf hchain⟩
    have hkeys : (new.map fun x => x.1.key).Nodup := by
      have heq : (new.map fun x => x.1.key) = done.map m.keyOf := by
        have := congrArg (List.map Visit.key) hnew
        rw [map_map, map_map] at this
        exact this
      rw [heq]
      exact (h.chains.nodup_keys i).sublist (hdone.sublist.map _)
    rw [forEachChain]
    rcases hresult : forEachElem f i ((m.table i).length + 1) m none false visits with
      ⟨m', visits', stop⟩
    rw [hresult] at hwalked hvisits hlookup hend
    have hapart := hwalked.apart
    subst hvisits
    rcases hend with ⟨rfl, hstop⟩ | ⟨rfl, hall⟩
    · refine ⟨new, hwalked.inv, rfl, hlookup, hkeys, ?_, ?_⟩
      · intro x hx
        obtain ⟨hhome, hvalue⟩ := hbound x hx
        exact ⟨hhome ▸ mem_cons_self, hvalue⟩
      · exact fun _ _ _ _ => .inr (.inl hstop)
    · obtain ⟨new', hinv, hvisits', hlookup', hkeys', hbound', hall'⟩ :=
        @ih m' (visits ++ new) hwalked.inv (hok.of_same hapart.same hapart.subset) hnodup'
      rw [hapart.same.home_eq] at hbound' hall'
      rw [hapart.same.keyOf_eq] at hall'
      have hapart' : ∀ x ∈ new, ∀ y ∈ new', x.1.key ≠ y.1.key := by
        intro x hx y hy heq
        have hhome := (hbound x hx).1
        rw [heq] at hhome
        exact hi (hhome ▸ (hbound' y hy).1)
      refine ⟨new ++ new', hinv, ?_, ?_, ?_, ?_, ?_⟩
      · rw [hvisits', append_assoc]
      · rw [hlookup', hlookup, removals_append]
      · rw [map_append]
        refine hkeys.append hkeys' ?_
        intro k hk hk'
        obtain ⟨x, hx, rfl⟩ := mem_map.mp hk
        obtain ⟨y, hy, heq⟩ := mem_map.mp hk'
        exact hapart' x hx y hy heq.symm
      · intro x hx
        rcases mem_append.mp hx with hx | hx
        · obtain ⟨hhome, hvalue⟩ := hbound x hx
          exact ⟨hhome ▸ mem_cons_self, hvalue⟩
        · obtain ⟨hhome, hvalue⟩ := hbound' x hx
          rw [hlookup, removals_of_not_mem fun y hy => hapart' y hy x hx] at hvalue
          exact ⟨mem_cons_of_mem _ hhome, hvalue⟩
      · intro j hj a ha
        rcases mem_cons.mp hj with rfl | hj
        · rcases hall with rfl | ⟨x, hx, hdirect⟩
          · have hvisit : m.visitOf a ∈ new.map Prod.fst := hnew ▸ mem_map_of_mem ha
            obtain ⟨x, hx, heq⟩ := mem_map.mp hvisit
            exact .inl ⟨x, mem_append_left _ hx, by rw [heq]; rfl⟩
          · exact .inr (.inr ⟨x, mem_append_left _ hx, hdirect, (hbound x hx).1⟩)
        · have hne : j ≠ i := fun heq => hi (heq ▸ hj)
          rw [← hapart.others j hne] at ha
          rcases hall' j hj a ha with ⟨x, hx, hkey⟩ | ⟨x, hx, hstop⟩ | ⟨x, hx, hdirect⟩
          · exact .inl ⟨x, mem_append_right _ hx, hkey⟩
          · exact .inr (.inl ⟨x, mem_append_right _ hx, hstop⟩)
          · exact .inr (.inr ⟨x, mem_append_right _ hx, hdirect⟩)

/-- `mapForEach` visits the bindings and removes those that its callback asks
for. -/
theorem Inv.mapForEach_spec (h : Inv none m) (hok : m.Harmless f) :
    ∃ visits, (m.mapForEach f).2 = .visited visits ∧ Inv none (m.mapForEach f).1 ∧
      (m.mapForEach f).1.lookup = removals visits m.lookup ∧ m.Visits m.lookup visits := by
  obtain ⟨new, hinv, hvisits, hlookup, hkeys, hbound, hall⟩ :=
    @Inv.forEachChain_spec A V m f [] _ (List.range m.tableSize) h hok nodup_range
  rw [nil_append] at hvisits
  refine ⟨new, ?_, hinv, hlookup, hkeys, fun x hx => (hbound x hx).2, ?_⟩
  · simp only [mapForEach, hvisits]
  · intro key v hkey
    rcases find_cases (m := m) key with ⟨a, -, hmem, rfl, -⟩ | ⟨-, hnone⟩
    · exact hall _ (mem_range.mpr (h.wired.home_lt _)) a hmem
    · rw [hnone] at hkey
      cases hkey

end Map

/-! ## New maps -/

/-- The table has a size that is a power of two. -/
theorem tableSizeOf_eq (n : Nat) : ∃ p, tableSizeOf n = 2 ^ p := by
  unfold tableSizeOf
  by_cases h : n = 2 ^ (n.log2 + 1 - 1)
  · exact ⟨_, (if_pos h).trans h⟩
  · exact ⟨_, if_neg h⟩

variable {A V : Type*} {memory : A → MapElement V} {nEntries : Nat} {keySize : ℤ}
  {noMemory : Bool} {init m : Map A V}

/-- A new map binds nothing. -/
theorem inv_mapCreate (hcreate : mapCreate memory nEntries keySize noMemory = some init)
    (hkey : keySize ≠ maxMapKeySize) :
    Map.Inv none init ∧ init.lookup = fun _ => none := by
  unfold mapCreate at hcreate
  split at hcreate
  · cases hcreate
  rename_i hcond
  simp only [Bool.or_eq_true, decide_eq_true_eq, not_or, not_lt] at hcond
  cases hcreate
  refine ⟨?_, rfl⟩
  exact {
    wired := {
      tableSize := tableSizeOf_eq nEntries
      keySize_le := hcond.1.2
      fixed := by
        intro h0
        have h0' : 0 < keySize := h0
        simp only [if_pos h0', and_self, and_true]
        exact mapFunctions_serves h0'
      var := by
        intro h0
        have h0' : ¬ 0 < keySize := not_lt.mpr h0
        simp only [if_neg h0', and_self] }
    chains := HashChains.empty
    freelist_nodup := nodup_nil
    not_mem_table := by simp
    held_apart := by simp
    allocated_iff := by simp
    cache_mem := by simp
    room := by simp
    noFault := by simpa using hkey }

/-! ## Histories -/

variable [DecidableEq A] [DecidableEq V]

namespace Map

/-- The calls that the functions of the map are for. Where a key may have any
length, they are spared what the lengths are not checked for. -/
def Sound (m : Map A V) : MapAction A V → Prop
  | .bind .. | .resolve .. | .unbind .. => 0 < m.keySize
  | .removeBinding bind => m.allocated bind = true ∧ m.Findable bind
  | .varBind ext len _ _ => m.keySize ≤ 0 ∧ m.Comparable ext len ∧
      ∀ a ∈ m.freelist.head?, len ≤ (m.element a).room
  | .varResolve .. => m.keySize ≤ 0
  | .varUnbind ext len => m.keySize ≤ 0 ∧ m.Comparable ext len
  | .forEach f => m.Harmless f
  | .reserve .. | .others .. => True

/-- A key that was removed successfully has no value. -/
def afterRemoval (bindings : List UInt8 → Option V) (key : List UInt8) :
    Result A V (Visit V × Reply) → List UInt8 → Option V
  | .returns .success => update bindings key none
  | _ => bindings

/-- The visited bindings are removed that the callback asked for. -/
def afterVisits (bindings : List UInt8 → Option V) :
    Result A V (Visit V × Reply) → List UInt8 → Option V
  | .visited visits => removals visits bindings
  | _ => bindings

/-- The bindings after a call. -/
def bindingsAfter (m : Map A V) (a : MapAction A V) (bindings : List UInt8 → Option V) :
    List UInt8 → Option V :=
  let result := (m.step a).2
  match a with
  | .bind ext _ intern _ => afterBinding bindings (ext.take m.keySize.toNat) intern result
  | .varBind ext len intern _ => afterBinding bindings (ext.take len) intern result
  | .unbind ext _ => afterRemoval bindings (ext.take m.keySize.toNat) result
  | .varUnbind ext len => afterRemoval bindings (ext.take len) result
  | .removeBinding bind => afterRemoval bindings (m.keyOf bind) result
  | .forEach _ => afterVisits bindings result
  | .resolve .. | .varResolve .. | .reserve .. | .others .. => bindings

/-- What a call returns, by the bindings. -/
def Answers (m : Map A V) (bindings : List UInt8 → Option V) (a : MapAction A V) : Prop :=
  let result := (m.step a).2
  match a with
  | .bind ext _ intern _ => BindAnswer (bindings (ext.take m.keySize.toNat)) intern result
  | .varBind ext len intern _ => BindAnswer (bindings (ext.take len)) intern result
  | .resolve ext _ => result = resolution (bindings (ext.take m.keySize.toNat))
  | .varResolve ext len => result = resolution (bindings (ext.take len))
  | .unbind ext _ =>
    result = .returns (if (bindings (ext.take m.keySize.toNat)).isSome then .success else .failure)
  | .varUnbind ext len =>
    result = .returns (if (bindings (ext.take len)).isSome then .success else .failure)
  | .removeBinding bind =>
    bindings (m.keyOf bind) = some (m.element bind).internalid ∧ result = .returns .success ∨
      (∀ i, bind ∉ m.table i) ∧ result = .returns .failure
  | .forEach _ => ∃ visits, result = .visited visits ∧ m.Visits bindings visits
  | .reserve .. | .others .. => True

variable {m m' : Map A V} {a : MapAction A V}

/-- A call keeps the invariant, does to the bindings what it tells, and tells what
they are. -/
theorem Inv.step (h : Inv none m) (hs : m.Sound a) :
    Inv none (m.step a).1 ∧ (m.step a).1.lookup = m.bindingsAfter a m.lookup ∧
      m.Answers m.lookup a := by
  cases a with
  | bind ext aligned intern fresh =>
    obtain ⟨hinv, hbound⟩ :=
      h.mapBind_spec (R := Visit V × Reply) hs ext aligned intern fresh
    obtain ⟨hanswer, hlookup⟩ := bindAnswer_of_bound hbound
    exact ⟨hinv, hlookup, hanswer⟩
  | varBind ext len intern fresh =>
    obtain ⟨h0, hcomp, hreuse⟩ := hs
    obtain ⟨hinv, hbound⟩ :=
      h.mapVarBind_spec (R := Visit V × Reply) h0 hcomp hreuse intern fresh
    obtain ⟨hanswer, hlookup⟩ := bindAnswer_of_bound hbound
    exact ⟨hinv, hlookup, hanswer⟩
  | resolve ext aligned =>
    obtain ⟨hinv, hlookup, hresult⟩ :=
      h.mapResolve_spec (R := Visit V × Reply) hs ext aligned
    exact ⟨hinv, hlookup, hresult⟩
  | varResolve ext len =>
    obtain ⟨hinv, hlookup, hresult⟩ :=
      h.mapVarResolve_spec (R := Visit V × Reply) hs ext len
    exact ⟨hinv, hlookup, hresult⟩
  | unbind ext aligned =>
    unfold bindingsAfter Answers
    simp only [Map.step]
    rcases h.mapUnbind_cases (R := Visit V × Reply) hs ext aligned with
      ⟨b, hkey, hmem, heq⟩ | ⟨hnone, heq⟩
    · rw [heq, ← hkey, h.lookup_keyOf (hkey ▸ hmem)]
      have hremoved := h.removed_freeIt hmem
      rw [← hkey] at hremoved
      exact ⟨hremoved.inv, hremoved.lookup_eq, rfl⟩
    · rw [heq, hnone]
      exact ⟨h.uncache, rfl, rfl⟩
  | varUnbind ext len =>
    obtain ⟨h0, hcomp⟩ := hs
    unfold bindingsAfter Answers
    simp only [Map.step]
    rcases h.mapVarUnbind_cases (R := Visit V × Reply) h0 hcomp with
      ⟨b, hkey, hmem, heq⟩ | ⟨hnone, heq⟩
    · rw [heq, ← hkey, h.lookup_keyOf (hkey ▸ hmem)]
      have hremoved := h.removed_freeVarMapElem hmem
      rw [← hkey] at hremoved
      exact ⟨hremoved.inv, hremoved.lookup_eq, rfl⟩
    · rw [heq, hnone]
      exact ⟨h.uncache, rfl, rfl⟩
  | removeBinding bind =>
    obtain ⟨halloc, hf⟩ := hs
    unfold bindingsAfter Answers
    simp only [Map.step]
    rcases h.mapRemoveBinding_cases (R := Visit V × Reply) halloc hf with
      ⟨hmem, heq⟩ | ⟨hno, heq⟩
    · rw [heq]
      have hremoved := h.removed_freeIt hmem
      exact ⟨hremoved.inv, hremoved.lookup_eq, .inl ⟨h.lookup_keyOf hmem, rfl⟩⟩
    · rw [heq]
      exact ⟨h.uncache, rfl, .inr ⟨hno, rfl⟩⟩
  | reserve n fresh =>
    obtain ⟨hinv, hlookup⟩ := h.mapReserve_spec (R := Visit V × Reply) n fresh
    exact ⟨hinv, hlookup, trivial⟩
  | forEach f =>
    obtain ⟨visits, hvisits, hinv, hlookup, hall⟩ := h.mapForEach_spec hs
    refine ⟨hinv, ?_, visits, hvisits, hall⟩
    unfold bindingsAfter
    simp only [Map.step, hvisits]
    exact hlookup
  | others elem contents =>
    obtain ⟨hinv, hlookup⟩ := h.writtenByOthers_spec elem contents
    exact ⟨hinv, hlookup, trivial⟩

end Map

/-- The bindings after some calls, the last one first: what was last bound and
not since removed. -/
def lastBound : List (Map A V × MapAction A V) → List UInt8 → Option V
  | [] => fun _ => none
  | (m, a) :: earlier => m.bindingsAfter a (lastBound earlier)

variable {trace : List (Map A V × MapAction A V)}

/-- A map is the finite map of what was last bound and not since removed. -/
theorem map_isFiniteMap (hcreate : mapCreate memory nEntries keySize noMemory = some init)
    (hkey : keySize ≠ maxMapKeySize)
    (hrun : Run (fun (m : Map A V) a m' => (m.step a).1 = m') init trace m)
    (hsound : ∀ x ∈ trace, x.1.Sound x.2) :
    m.OnePlace ∧ m.fault = false ∧ m.lookup = lastBound trace ∧
      ∀ a, m.Sound a → m.Answers (lastBound trace) a := by
  have hinv : Map.Inv none m ∧ m.lookup = lastBound trace := by
    induction hrun with
    | nil => exact inv_mapCreate hcreate hkey
    | cons hrun hstep ih =>
      obtain ⟨h, hlookup⟩ := ih fun x hx => hsound x (mem_cons_of_mem _ hx)
      obtain ⟨h', hlookup', -⟩ := h.step (hsound _ mem_cons_self)
      subst hstep
      refine ⟨h', ?_⟩
      rw [hlookup', hlookup]
      rfl
  obtain ⟨h, hlookup⟩ := hinv
  refine ⟨h.onePlace, h.noFault, hlookup, fun a ha => ?_⟩
  rw [← hlookup]
  exact (h.step ha).2.2

/-! ## Two maps -/

/-- Memory before anything is written to it. -/
def cleared : Nat → MapElement Nat := fun _ => ⟨0, 0, fun _ => 0, 0⟩

/-- A new map with the key size 4 and two chains. -/
def wordMap : Map Nat Nat :=
  ⟨2, 4, 0, none, [], fun _ => [], some .m4, some .m4, .m4, .m4, cleared, fun _ => false, false⟩

/-- Two words are bound that have the same hash. -/
def wordCalls : List (MapAction Nat Nat) :=
  [.bind (toBytes [0, 0, 0, 0]) true 10 (some (0, cleared 0)),
    .bind (toBytes [2, 0, 0, 0]) true 20 (some (1, cleared 1))]

/-- A new map with keys of any length and one chain. -/
def stringMap : Map Nat Nat :=
  ⟨1, -1, 0, none, [], fun _ => [], none, none, .mgeneric, .mgeneric, cleared, fun _ => false,
    false⟩

/-- The states before some calls, the last one first, and the state after them. -/
def callAll (m : Map A V) : List (MapAction A V) → List (Map A V × MapAction A V) × Map A V
  | [] => ([], m)
  | a :: as => ((callAll (m.step a).1 as).1 ++ [(m, a)], (callAll (m.step a).1 as).2)

theorem run_callAll (m : Map A V) (as : List (MapAction A V)) :
    Run (fun (m : Map A V) a m' => (m.step a).1 = m') m (callAll m as).1 (callAll m as).2 := by
  induction as generalizing m with
  | nil => exact .nil
  | cons a as ih => exact Run.trans (.cons .nil rfl) (ih (m.step a).1)

/-- The callback removes the first word by its flag. -/
def removeTen : MapForEachFun Nat := fun _ v => ⟨none, true, v.value == 10⟩

/-- The element of a word that was removed is used for the next one. -/
theorem reused_element_bound : mapCreate cleared 2 4 false = some wordMap ∧ ∃ trace m,
    Run (fun (m : Map Nat Nat) a m' => (m.step a).1 = m') wordMap trace m ∧ m.OnePlace ∧
      (m.step (.resolve (toBytes [0, 0, 0, 0]) true)).2 = .returns .failure ∧
      (m.step (.resolve (toBytes [1, 0, 0, 0]) true)).2 = .resolved 30 := by
  have hrun := run_callAll wordMap
    (wordCalls ++ [.forEach removeTen, .bind (toBytes [1, 0, 0, 0]) true 30 none])
  have hsound : ∀ x ∈ (callAll wordMap
      (wordCalls ++ [.forEach removeTen, .bind (toBytes [1, 0, 0, 0]) true 30 none])).1,
      x.1.Sound x.2 := by
    intro x hx
    simp only [wordCalls, cons_append, nil_append, callAll, mem_cons, not_mem_nil, or_false] at hx
    rcases hx with rfl | rfl | rfl | rfl
    · exact (by decide +kernel : (0 : ℤ) < 4)
    · exact Map.harmless_of_fixed (by decide +kernel) (by decide +kernel) _
    · exact (by decide +kernel : (0 : ℤ) < 4)
    · exact (by decide +kernel : (0 : ℤ) < 4)
  have hcreate : mapCreate cleared 2 4 false = some wordMap := rfl
  obtain ⟨hplace, -, -, hanswers⟩ := map_isFiniteMap hcreate (by decide) hrun hsound
  refine ⟨hcreate, _, _, hrun, hplace, ?_, ?_⟩
  · have hanswer := hanswers (.resolve (toBytes [0, 0, 0, 0]) true)
      (by decide +kernel : (0 : ℤ) < 4)
    exact hanswer.trans (by decide +kernel)
  · have hanswer := hanswers (.resolve (toBytes [1, 0, 0, 0]) true)
      (by decide +kernel : (0 : ℤ) < 4)
    exact hanswer.trans (by decide +kernel)

/-- A string that begins like another one is said to be bound; and a binding on
the chain of one that the callback removes is not visited. -/
theorem maps_not_finite :
    (mapCreate cleared 1 (-1) false = some stringMap ∧ ∃ trace m,
      Run (fun (m : Map Nat Nat) a m' => (m.step a).1 = m') stringMap trace m ∧
      lastBound trace [97] = none ∧
      (m.step (.varBind (toBytes [97]) 1 8 none)).2 = .bound .alreadyBound (some 0)) ∧
    mapCreate cleared 2 4 false = some wordMap ∧ ∃ trace m,
      Run (fun (m : Map Nat Nat) a m' => (m.step a).1 = m') wordMap trace m ∧
      lastBound trace [2, 0, 0, 0] = some 20 ∧
      (m.step (.forEach fun _ _ => ⟨some .unbind, true, false⟩)).2 =
        .visited [(⟨[0, 0, 0, 0], 10⟩, ⟨some .unbind, true, false⟩)] ∧
      (m.step (.forEach fun _ _ => ⟨some .unbind, true, false⟩)).1.lookup [2, 0, 0, 0] =
        some 20 := by
  refine ⟨⟨rfl, _, _, run_callAll stringMap
      [.varBind (toBytes [97, 98]) 2 7 (some (0, cleared 0))], ?_, ?_⟩,
    rfl, _, _, run_callAll wordMap wordCalls, ?_, ?_, ?_⟩
  · decide +kernel
  · decide +kernel
  · decide +kernel
  · decide +kernel
  · decide +kernel

end MachVirtuTerm.IdMap
