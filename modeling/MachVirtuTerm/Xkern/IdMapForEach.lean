import MachVirtuTerm.Xkern.IdMapCalls

/-!
# The walk of `mapForEach`

The loop of `mapForEach` goes along each chain. The element it is at is taken out
when its callback asked for that, after the next one has been found; when the
callback itself took the element out, the rest of the chain is skipped. So a
chain is visited up to the end, up to an element that is taken out by its
callback, or up to one whose callback stops the walk.
-/

open List Function

namespace MachVirtuTerm.IdMap

/-- The callback has its element removed: itself, or by the flag that counts if
the walk goes on. -/
def Reply.removes (r : Reply) : Bool := r.direct.isSome || r.mfeContinue && r.mfeRemove

namespace Map

variable {A V R : Type*} {m m' : Map A V} {a elem : A} {i j : Nat} {key : List UInt8}
  {f : MapForEachFun V} {visits : List (Visit V × Reply)} {r : Reply}

/-- What a callback gets for an element. -/
def visitOf (m : Map A V) (elem : A) : Visit V := ⟨m.keyOf elem, (m.element elem).internalid⟩

/-- What a callback may do with an element. There is no restriction in a map
with a fixed key size. -/
structure Allows (m : Map A V) (elem : A) (r : Reply) : Prop where
  fits : m.keyLen elem ≤ maxMapKeySize
  unbind : m.keySize ≤ 0 → r.direct = some .unbind →
    m.Comparable (toBytes (m.keyOf elem)) (m.element elem).elmlen ∧ r.mfeRemove = false
  findable : r.direct = some .removeBinding ∨ r.mfeRemove = true → m.Findable elem

/-- A callback that only does what it may. -/
def Harmless (m : Map A V) (f : MapForEachFun V) : Prop :=
  ∀ visits i, ∀ elem ∈ m.table i, m.Allows elem (f visits (m.visitOf elem))

/-- With keys of a fixed size every callback is harmless. -/
theorem harmless_of_fixed (h0 : 0 < m.keySize) (hsize : m.keySize ≤ maxMapKeySize)
    (f : MapForEachFun V) : m.Harmless f := by
  intro visits i elem _
  refine ⟨?_, fun hvar => absurd hvar (by omega), fun _ => .inl h0⟩
  rw [keyLen_fixed h0]
  omega

theorem SameMap.visitOf_eq (h : SameMap m m') : m'.visitOf = m.visitOf := by
  funext a
  simp only [visitOf, h.keyOf_eq, h.element]

theorem Allows.of_same (ha : m.Allows elem r) (h : SameMap m m')
    (hsub : ∀ i, m'.table i ⊆ m.table i) : m'.Allows elem r where
  fits := by
    rw [h.keyLen_eq]
    exact ha.fits
  unbind h0 hr := by
    rw [h.keySize] at h0
    obtain ⟨hcomp, hrem⟩ := ha.unbind h0 hr
    refine ⟨?_, hrem⟩
    intro ind hind b hb
    rw [h.keyOf_eq, h.element, h.tableSize] at hind
    rw [h.keyOf_eq, h.element]
    exact hcomp ind hind b (hsub ind hb)
  findable hr := (ha.findable hr).of_same h

theorem Harmless.of_same (hf : m.Harmless f) (h : SameMap m m')
    (hsub : ∀ i, m'.table i ⊆ m.table i) : m'.Harmless f := by
  intro visits i elem hmem
  rw [h.visitOf_eq]
  exact (hf visits i elem (hsub i hmem)).of_same h hsub

/-- What the walk leaves on the other chains, and of the map. -/
structure Apart (m m' : Map A V) (i : Nat) : Prop where
  same : SameMap m m'
  subset : ∀ j, m'.table j ⊆ m.table j
  others : ∀ j, j ≠ i → m'.table j = m.table j

theorem Apart.refl (m : Map A V) (i : Nat) : Apart m m i :=
  ⟨.refl m, fun _ => List.Subset.refl _, fun _ _ => rfl⟩

theorem Apart.trans {m'' : Map A V} (h : Apart m m' i) (h' : Apart m' m'' i) : Apart m m'' i :=
  ⟨h.same.trans h'.same, fun j => List.Subset.trans (h'.subset j) (h.subset j),
    fun j hj => (h'.others j hj).trans (h.others j hj)⟩

variable [DecidableEq A]

theorem Removed.subset (h : Removed m m' i elem) (j : Nat) : m'.table j ⊆ m.table j := by
  rw [h.table_eq]
  by_cases hj : j = i
  · subst hj
    rw [update_self]
    exact erase_subset
  · rw [update_of_ne hj]
    exact List.Subset.refl _

/-- What is removed is on no chain. -/
theorem Removed.not_mem (h : Removed m m' i elem) (hinv : Inv none m) (hmem : elem ∈ m.table i)
    (j : Nat) : elem ∉ m'.table j := by
  rw [h.table_eq]
  by_cases hj : j = i
  · subst hj
    rw [update_self]
    exact hinv.chains.nodup.not_mem_erase
  · rw [update_of_ne hj]
    intro hmem'
    exact hj (hinv.chains.unique hmem' hmem)

/-- The callback takes the current element out. What `mapVarUnbind` takes out is
not allocated any more. -/
theorem Inv.removeDirectly_removed (h : Inv none m) (hmem : elem ∈ m.table i)
    (hok : m.Allows elem r) {d : Direct} (hd : r.direct = some d) :
    Removed m (m.removeDirectly (R := R) elem (m.keyOf elem) (some d)) i elem ∧
      (r.mfeRemove = true →
        (m.removeDirectly (R := R) elem (m.keyOf elem) (some d)).allocated = m.allocated) := by
  have hi : m.home (m.keyOf elem) = i := h.chains.home_eq i elem hmem
  cases d with
  | unbind =>
    by_cases h0 : 0 < m.keySize
    · have htake : (toBytes (m.keyOf elem)).take m.keySize.toNat = m.keyOf elem := by
        rw [keyOf, keyLen_fixed h0]
        exact take_toBytes_take
      simp only [removeDirectly, if_pos h0]
      rcases h.mapUnbind_cases (R := R) h0 (toBytes (m.keyOf elem)) false with
        ⟨a, hkey, hmem', heq⟩ | ⟨hnone, -⟩
      · rw [htake] at hkey hmem' heq
        obtain rfl := h.chains.inj hmem hmem' hkey.symm
        rw [heq, hi]
        exact ⟨h.removed_freeIt hmem, fun _ => rfl⟩
      · rw [htake, h.lookup_keyOf hmem] at hnone
        cases hnone
    · rw [not_lt] at h0
      have htake : (toBytes (m.keyOf elem)).take (m.element elem).elmlen = m.keyOf elem := by
        rw [keyOf, keyLen_var h0]
        exact take_toBytes_take
      obtain ⟨hcomp, hno⟩ := hok.unbind h0 hd
      simp only [removeDirectly, if_neg (not_lt.mpr h0), length_keyOf, keyLen_var h0]
      rcases h.mapVarUnbind_cases (R := R) h0 hcomp with ⟨a, hkey, hmem', heq⟩ | ⟨hnone, -⟩
      · rw [htake] at hkey hmem' heq
        obtain rfl := h.chains.inj hmem hmem' hkey.symm
        rw [heq, hi, hno]
        exact ⟨h.removed_freeVarMapElem hmem, by simp⟩
      · rw [htake, h.lookup_keyOf hmem] at hnone
        cases hnone
  | removeBinding =>
    obtain ⟨hremoved, halloc⟩ := h.mapRemoveBinding_removed (R := R) hmem (hok.findable (.inl hd))
    exact ⟨hremoved, fun _ => halloc⟩

/-! ## The chain -/

/-- In a chain, the element after another is the next one. -/
theorem nextAfter_append {pre rest : List A} (hpre : elem ∉ pre) :
    nextAfter elem (pre ++ elem :: rest) = rest.head? := by
  induction pre with
  | nil => simp only [nil_append, nextAfter, if_true]
  | cons b pre ih =>
    rw [cons_append, nextAfter, if_neg fun heq : elem = b => hpre (heq ▸ mem_cons_self)]
    exact ih fun hmem => hpre (mem_cons_of_mem _ hmem)

/-- There is nothing after an element that is not there. -/
theorem nextAfter_of_not_mem {chain : List A} (h : elem ∉ chain) : nextAfter elem chain = none := by
  induction chain with
  | nil => rfl
  | cons b chain ih =>
    rw [nextAfter, if_neg fun heq : elem = b => h (heq ▸ mem_cons_self)]
    exact ih fun hmem => h (mem_cons_of_mem _ hmem)

/-- Where the walk is: at the start of a chain, behind an element of it, or
behind one that is gone. -/
inductive At (m : Map A V) (i : Nat) (mfeRemove : Bool) : Option A → List A → Prop
  | start {rest : List A} (htable : m.table i = rest) : At m i mfeRemove none rest
  | behind {prev : A} {pre rest : List A} (htable : m.table i = pre ++ prev :: rest)
      (hf : mfeRemove = true → m.Findable prev) : At m i mfeRemove (some prev) rest
  | gone {prev : A} (hno : ∀ j, prev ∉ m.table j)
      (hf : mfeRemove = true → m.allocated prev = true ∧ m.Findable prev) :
      At m i mfeRemove (some prev) []

theorem Removed.apart (h : Removed m m' i elem) : Apart m m' i :=
  ⟨h.same, h.subset, fun j hj => by rw [h.table_eq, update_of_ne hj]⟩

/-- The next element is found before the last one is taken out, and stays. -/
theorem Inv.takeOut_spec {mfeRemove : Bool} {prevElem : Option A} {rest : List A}
    (h : Inv none m) (hat : At m i mfeRemove prevElem rest) :
    Inv none (m.takeOut prevElem mfeRemove) ∧ Apart m (m.takeOut prevElem mfeRemove) i ∧
      (∃ pre, (m.takeOut prevElem mfeRemove).table i = pre ++ rest ∨ rest = []) ∧
      m.following i prevElem = rest.head? ∧
      ∀ prev, prevElem = some prev → (m.takeOut prevElem mfeRemove).lookup =
        if mfeRemove = true ∧ prev ∈ m.table i then update m.lookup (m.keyOf prev) none
        else m.lookup := by
  cases hat with
  | start htable =>
    refine ⟨h, .refl m i, ⟨[], .inl htable⟩, ?_, by simp⟩
    simp only [following, htable]
  | @behind prev pre rest htable hf =>
    have hmem : prev ∈ m.table i := by
      rw [htable]
      simp
    have hnodup : (pre ++ prev :: rest).Nodup := htable ▸ h.chains.nodup
    have hpre : prev ∉ pre := by
      intro hin
      exact (nodup_append.mp hnodup).2.2 prev hin prev mem_cons_self rfl
    have hnext : m.following i (some prev) = rest.head? := by
      simp only [following, htable, nextAfter_append hpre]
    cases mfeRemove with
    | false =>
      refine ⟨h, .refl m i, ⟨pre ++ [prev], .inl ?_⟩, hnext, ?_⟩
      · simp [takeOut, htable]
      · simp [takeOut]
    | true =>
      obtain ⟨hremoved, -⟩ := h.mapRemoveBinding_removed (R := Visit V × Reply) hmem (hf rfl)
      refine ⟨hremoved.inv, hremoved.apart, ⟨pre, .inl ?_⟩, hnext, ?_⟩
      · have heq : (m.takeOut (some prev) true).table = _ := hremoved.table_eq
        rw [heq, update_self, htable, erase_append_right _ hpre, erase_cons_head]
      · rintro _ ⟨⟩
        simp only [hmem, and_self, if_true]
        exact hremoved.lookup_eq
  | @gone prev hno hf =>
    have hnext : m.following i (some prev) = ([] : List A).head? := nextAfter_of_not_mem (hno i)
    cases mfeRemove with
    | false => exact ⟨h, .refl m i, ⟨[], .inr rfl⟩, hnext, by simp [takeOut]⟩
    | true =>
      obtain ⟨halloc, hfind⟩ := hf rfl
      rcases h.mapRemoveBinding_cases (R := Visit V × Reply) halloc hfind with
        ⟨hmem, -⟩ | ⟨-, heq⟩
      · exact absurd hmem (hno _)
      · have htake : m.takeOut (some prev) true = { m with cache := none } := by
          simp only [takeOut, if_true, heq]
        rw [htake]
        refine ⟨h.uncache, ⟨⟨rfl, rfl, rfl, rfl⟩, fun _ => List.Subset.refl _, fun _ _ => rfl⟩,
          ⟨[], .inr rfl⟩, hnext, ?_⟩
        rintro _ ⟨⟩
        rw [if_neg fun hand => hno i hand.2]
        rfl

/-! ## The loop -/

/-- The bindings that the callbacks have left. -/
def removals (visits : List (Visit V × Reply)) (bindings : List UInt8 → Option V) :
    List UInt8 → Option V :=
  visits.foldl (fun bindings x =>
    if x.2.removes then update bindings x.1.key none else bindings) bindings

/-- A chain has been walked: some of its elements have been visited, all of them
unless a callback stopped the walk or took out its element. -/
structure Walked (m : Map A V) (i : Nat) (rest : List A) (visits : List (Visit V × Reply))
    (result : Map A V × List (Visit V × Reply) × Bool) : Prop where
  inv : Inv none result.1
  apart : Apart m result.1 i
  visited : ∃ done new, done <+: rest ∧ result.2.1 = visits ++ new ∧
    new.map Prod.fst = done.map m.visitOf ∧ result.1.lookup = removals new m.lookup ∧
    (result.2.2 = true ∧ (∃ x ∈ new, x.2.mfeContinue = false) ∨
      result.2.2 = false ∧ (done = rest ∨ ∃ x ∈ new, x.2.direct ≠ none))

/-- A visit takes the element out if the callback does. -/
theorem Inv.visit_spec {pre rest : List A} (h : Inv none m) (hok : m.Harmless f)
    (htable : m.table i = pre ++ elem :: rest) (visits : List (Visit V × Reply)) :
    ∃ m' r, m.visit f elem visits = (m', m.visitOf elem, r) ∧ Inv none m' ∧ Apart m m' i ∧
      At m' i r.mfeRemove (some elem) (if r.direct = none then rest else []) ∧
      m'.lookup = (if r.direct = none then m.lookup
        else update m.lookup (m.keyOf elem) none) ∧
      (elem ∈ m'.table i ↔ r.direct = none) := by
  have hmem : elem ∈ m.table i := by
    rw [htable]
    simp
  have hallows := hok visits i elem hmem
  have hvisit : m.visit f elem visits =
      (m.removeDirectly (R := Visit V × Reply) elem (m.keyOf elem)
        (f visits (m.visitOf elem)).direct, m.visitOf elem, f visits (m.visitOf elem)) := by
    simp only [visit, if_neg (not_lt.mpr hallows.fits)]
    rfl
  refine ⟨_, _, hvisit, ?_⟩
  cases hd : (f visits (m.visitOf elem)).direct with
  | none =>
    refine ⟨h, .refl m i, ?_, rfl, ?_⟩
    · exact .behind htable fun hrem => hallows.findable (.inr hrem)
    · simp [removeDirectly, hmem]
  | some d =>
    obtain ⟨hremoved, halloc⟩ := h.removeDirectly_removed (R := Visit V × Reply) hmem hallows hd
    have hno := hremoved.not_mem h hmem
    refine ⟨hremoved.inv, hremoved.apart, ?_, ?_, ?_⟩
    · refine .gone hno fun hrem => ⟨?_, (hallows.findable (.inr hrem)).of_same hremoved.same⟩
      rw [halloc hrem]
      exact h.allocated_of_mem hmem
    · exact hremoved.lookup_eq
    · simp [hno i]

/-- The walk along a chain ends. -/
theorem Inv.forEachElem_spec {mfeRemove : Bool} {prevElem : Option A} {rest : List A} {fuel : Nat}
    (h : Inv none m) (hok : m.Harmless f) (hat : At m i mfeRemove prevElem rest)
    (hfuel : rest.length < fuel) :
    Walked (m.takeOut prevElem mfeRemove) i rest visits
      (forEachElem f i fuel m prevElem mfeRemove visits) := by
  induction fuel generalizing m prevElem mfeRemove rest visits with
  | zero => omega
  | succ fuel ih =>
    obtain ⟨hinv, hapart, ⟨pre, hrest⟩, hnext, -⟩ := h.takeOut_spec hat
    have hok' : (m.takeOut prevElem mfeRemove).Harmless f := hok.of_same hapart.same hapart.subset
    rw [forEachElem_succ, hnext]
    cases rest with
    | nil =>
      refine ⟨hinv, .refl _ i, [], [], nil_prefix, (append_nil _).symm, rfl, rfl, ?_⟩
      exact .inr ⟨rfl, .inl rfl⟩
    | cons elem rest =>
      obtain ⟨m', r, hvisit, hinv', hapart', hat', hlookup, hmem⟩ :=
        hinv.visit_spec hok' (hrest.resolve_right (by simp)) visits
      simp only [head?_cons, hvisit]
      have hok'' : m'.Harmless f := hok'.of_same hapart'.same hapart'.subset
      cases hcontinue : r.mfeContinue with
      | false =>
        simp only [Bool.false_eq_true, if_false]
        refine ⟨hinv', hapart', [elem], [(_, r)], ?_, rfl, rfl, ?_, ?_⟩
        · simp
        · simp only [removals, foldl_cons, foldl_nil]
          rw [hlookup]
          cases hd : r.direct with
          | none => simp [Reply.removes, hd, hcontinue]
          | some d => simp [Reply.removes, hd, visitOf]
        · exact .inl ⟨rfl, _, mem_singleton_self _, hcontinue⟩
      | true =>
        simp only [if_true]
        have hwalked : Walked (m'.takeOut (some elem) r.mfeRemove) i
            (if r.direct = none then rest else [])
            (visits ++ [((m.takeOut prevElem mfeRemove).visitOf elem, r)])
            (forEachElem f i fuel m' (some elem) r.mfeRemove
              (visits ++ [((m.takeOut prevElem mfeRemove).visitOf elem, r)])) := by
          refine ih hinv' hok'' hat' ?_
          simp only [length_cons] at hfuel
          split
          · omega
          · simp only [length_nil]
            omega
        obtain ⟨hinv₂, hapart₂, -, -, hlookup₂⟩ := hinv'.takeOut_spec hat'
        have hbetween := hapart'.trans hapart₂
        obtain ⟨done, new, hdone, hvisits, hnew, hfinal, hend⟩ := hwalked.visited
        refine ⟨hwalked.inv, hbetween.trans hwalked.apart, elem :: done,
          ((m.takeOut prevElem mfeRemove).visitOf elem, r) :: new, ?_, ?_, ?_, ?_, ?_⟩
        · refine cons_prefix_cons.mpr ⟨rfl, hdone.trans ?_⟩
          split
          · exact prefix_refl rest
          · exact nil_prefix
        · rw [hvisits, append_assoc]
          rfl
        · rw [map_cons, map_cons, hnew, hbetween.same.visitOf_eq]
        · rw [hfinal, hlookup₂ elem rfl, hlookup]
          simp only [removals, foldl_cons, hmem, hapart'.same.keyOf_eq]
          congr 1
          cases hd : r.direct with
          | none => cases hr : r.mfeRemove <;> simp [Reply.removes, hd, hr, hcontinue, visitOf]
          | some d => simp [Reply.removes, hd, visitOf]
        · rcases hend with ⟨hstop, x, hx, hno⟩ | ⟨hgoes, hall⟩
          · exact .inl ⟨hstop, x, mem_cons_of_mem _ hx, hno⟩
          · refine .inr ⟨hgoes, ?_⟩
            by_cases hd : r.direct = none
            · rw [if_pos hd] at hall
              rcases hall with hall | ⟨x, hx, hdirect⟩
              · exact .inl (by rw [hall])
              · exact .inr ⟨x, mem_cons_of_mem _ hx, hdirect⟩
            · exact .inr ⟨_, mem_cons_self, hd⟩

end Map

end MachVirtuTerm.IdMap
