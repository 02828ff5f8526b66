import MachVirtuTerm.Ipc.EntryDealloc

/-!
# Growing the table

Growing cuts the tree into four regions. One pass moves the entries the table has
room for now, the first of each index, and another counts the indices the next
table has room for. What the passes keep is stated for a table whose free list does
not reach into the new part yet, beside the tree entries dealt with so far.
-/

open List Function

namespace MachVirtuTerm

open SplayTree LinkedList Prod Or

variable {sizes : IpcTableSizes} {space space' : IpcSpace} {name m : MachPort}
  {xs ys : List TreeNode} {table table' : ℕ → IpcEntry} {osize size nsize i : ℕ}
  {ites : ℕ → IpcEntry} {c : BitVec 32 × Option ℕ}

/-- The right in an entry. -/
def IpcEntry.content (entry : IpcEntry) : BitVec 32 × Option ℕ :=
  (ieBitsRight entry.ieBits, entry.ieObject)

/-- A name denotes a right in a table of some size. -/
def TableMaps (table : ℕ → IpcEntry) (size : ℕ) (name : MachPort) (c : BitVec 32 × Option ℕ) :
    Prop :=
  (0 < machPortIndex name ∧ machPortIndex name < size) ∧
    ieBitsType (table (machPortIndex name)).ieBits ≠ machPortTypeNone ∧
    ieBitsGen (table (machPortIndex name)).ieBits = machPortGen name ∧
    (table (machPortIndex name)).content = c

/-- A name denotes a right in some tree entries. -/
def TreeMaps (ites : ℕ → IpcEntry) (xs : List TreeNode) (name : MachPort)
    (c : BitVec 32 × Option ℕ) : Prop :=
  ∃ a, (a, name) ∈ xs ∧ (ites a).content = c

/-- What a name denotes is in the table or in the tree. -/
theorem maps_iff : space.Maps name c ↔
    TableMaps space.isTable space.isTableSize name c ∨ TreeMaps space.ites space.tentries name c := by
  constructor
  · rintro ⟨i | a, hp, hc⟩
    · obtain ⟨rfl, h0, hi, ht, hg⟩ := hp
      exact inl ⟨⟨h0, hi⟩, ht, hg, hc⟩
    · exact inr ⟨a, hp, hc⟩
  · rintro (⟨⟨h0, hi⟩, ht, hg, hc⟩ | ⟨a, hp, hc⟩)
    · exact ⟨.table (machPortIndex name), ⟨rfl, h0, hi, ht, hg⟩, hc⟩
    · exact ⟨.tree a, hp, hc⟩

/-- The entries of two lists together. -/
theorem treeMaps_append : TreeMaps ites (xs ++ ys) name c ↔
    TreeMaps ites xs name c ∨ TreeMaps ites ys name c := by
  simp only [TreeMaps, mem_append, or_and_right, exists_or]

/-- One more entry. -/
theorem treeMaps_cons (e : TreeNode) : TreeMaps ites (e :: xs) name c ↔
    (name = e.2 ∧ c = (ites e.1).content) ∨ TreeMaps ites xs name c := by
  simp only [TreeMaps, mem_cons, or_and_right, exists_or]
  refine or_congr_left ?_
  constructor
  · rintro ⟨a, rfl, rfl⟩
    exact ⟨rfl, rfl⟩
  · rintro ⟨rfl, rfl⟩
    exact ⟨e.1, rfl, rfl⟩

section Move

/-- The invariant of the pass that moves entries: the part on the table, with a free
list that ends before the new part, in which the free entries are still blank. -/
structure GrowInv (table : ℕ → IpcEntry) (osize size : ℕ) (xs : List TreeNode) : Prop where
  inv : TableInv table size osize xs
  blank : ∀ i, osize ≤ i → i < size → ieBitsType (table i).ieBits = machPortTypeNone →
    table i = ⟨0, none, 0⟩

/-- Filling a blank entry of the new part. -/
theorem GrowInv.fill (h : GrowInv table osize size xs) (h0 : 0 < osize) {e : IpcEntry}
    (hi : osize ≤ i) (hsize : i < size)
    (hblank : ieBitsType (table i).ieBits = machPortTypeNone)
    (htype : ieBitsType e.ieBits ≠ machPortTypeNone) (hcol : ¬ieBitsCollides e.ieBits) :
    GrowInv (update table i e) osize size xs := by
  have htab := h.inv
  have hnone : ¬∃ x ∈ xs, machPortIndex x.2 = i := fun hx =>
    htab.free_slot i (by omega) hsize hblank ((htab.collision i hsize).mpr hx)
  have hne {j : ℕ} (hj : j ≠ i) : update table i e j = table j :=
    update_of_ne hj ..
  have hself : update table i e i = e := update_self ..
  obtain ⟨free, ⟨hpath, hn⟩, hmem⟩ := htab.free
  have hlow {j : ℕ} (hj : j < osize) : j ≠ i := by omega
  refine ⟨⟨?_, ?_, fun j hj0 hj ht => ?_, fun j hj => ?_, fun x hx hx0 hxs => ?_, free, ⟨?_, hn⟩,
    fun j => ?_⟩, fun j hj0 hj ht => ?_⟩
  · rw [hne (hlow h0)]
    exact htab.head_type
  · rw [hne (hlow h0)]
    exact htab.head_gen
  · by_cases hji : j = i
    · subst hji
      rwa [hself]
    · rw [hne hji] at ht ⊢
      exact htab.free_slot j hj0 hj ht
  · by_cases hji : j = i
    · subst hji
      rw [hself]
      exact iff_of_false hcol hnone
    · rw [hne hji]
      exact htab.collision j hj
  · have hxi : machPortIndex x.2 ≠ i := fun hxi => hnone ⟨x, hx, hxi⟩
    rw [hne hxi]
    exact htab.gens x hx hx0 hxs
  · rw [hne (hlow h0)]
    refine hpath.congr fun j hj => ?_
    rw [hne (hlow ((hmem j).mp hj).2.1)]
  · rw [hmem]
    by_cases hji : j = i
    · subst hji
      rw [hself]
      exact iff_of_false (fun hj => by omega) fun hj => htype hj.2.2
    · rw [hne hji]
  · by_cases hji : j = i
    · subst hji
      rw [hself] at ht
      exact absurd ht htype
    · rw [hne hji] at ht ⊢
      exact h.blank j hj0 hj ht

/-- An entry that the pass comes to. -/
structure Movable (ites : ℕ → IpcEntry) (osize size : ℕ) (x : TreeNode) : Prop where
  le : osize ≤ machPortIndex x.2
  lt : machPortIndex x.2 < size
  type : ieBitsType (ites x.1).ieBits ≠ machPortTypeNone
  right : ieBitsRight (ites x.1).ieBits = (ites x.1).ieBits

/-- One visit of the pass: the entry stays in the tree or its name now denotes its
right in the table. -/
theorem GrowInv.growMove {x : TreeNode} (h : GrowInv space.isTable osize size xs)
    (h0 : 0 < osize) (hx : Movable space.ites osize size x)
    (hnew : ∀ c, ¬TableMaps space.isTable size x.2 c) :
    ∃ table', (growMove space x = ({ space with isTable := table' }, false) ∧
        GrowInv table' osize size (x :: xs) ∧
        ∀ m c, TableMaps table' size m c ↔ TableMaps space.isTable size m c) ∨
      (MachVirtuTerm.growMove space x =
          ({ space with isTable := table', isTreeTotal := space.isTreeTotal - 1 }, true) ∧
        GrowInv table' osize size xs ∧
        ∀ m c, TableMaps table' size m c ↔
          (m = x.2 ∧ c = (space.ites x.1).content) ∨ TableMaps space.isTable size m c) := by
  obtain ⟨hle, hlt, htype, hright⟩ := hx
  have hi0 : 0 < machPortIndex x.2 := by omega
  by_cases hbits : (space.isTable (machPortIndex x.2)).ieBits = 0
  · have hblank : ieBitsType (space.isTable (machPortIndex x.2)).ieBits = machPortTypeNone := by
      rw [hbits]
      rfl
    refine ⟨update space.isTable (machPortIndex x.2) { space.ites x.1 with
      ieBits := (space.ites x.1).ieBits ||| machPortGen x.2 }, inr ⟨?_, h.fill h0 hle hlt hblank (by simpa using htype) ?_,
        fun m c => ?_⟩⟩
    · simp [MachVirtuTerm.growMove, hbits, IpcSpace.setTable]
    · rw [ieBitsCollides_or_machPortGen]
      exact not_ieBitsCollides_of_right hright
    · by_cases hm : machPortIndex m = machPortIndex x.2
      · simp only [TableMaps, hm, update_self, IpcEntry.content, hblank, ne_eq,
          not_true_eq_false, false_and, and_false, or_false, ieBitsType_or_machPortGen,
          ieBitsRight_or_machPortGen, ieBitsGen_or_machPortGen hright]
        constructor
        · rintro ⟨-, -, hg, rfl⟩
          exact ⟨(machPort_ext hm hg.symm), rfl⟩
        · rintro ⟨rfl, rfl⟩
          exact ⟨⟨hi0, hlt⟩, htype, rfl, rfl⟩
      · have hmx : m ≠ x.2 := fun hmx => hm (congrArg machPortIndex hmx)
        simp only [TableMaps, update_of_ne hm, hmx, false_and, false_or]
  · have hused : ieBitsType (space.isTable (machPortIndex x.2)).ieBits ≠ machPortTypeNone := by
      intro ht
      exact hbits (congrArg IpcEntry.ieBits (h.blank _ hle hlt ht))
    refine ⟨update space.isTable (machPortIndex x.2)
      { space.isTable (machPortIndex x.2) with
        ieBits := (space.isTable (machPortIndex x.2)).ieBits ||| ieBitsCollision },
      inl ⟨?_, ⟨?_, fun j hj0 hj ht => ?_⟩, fun m c => ?_⟩⟩
    · exact if_pos hbits
    · refine h.inv.update (by simp) (fun ht => absurd ht hused) (fun _ => ?_)
        (fun y hy hyx _ _ => ?_) fun y hyx => ?_
      · exact iff_of_true ieBitsCollides_or_collision ⟨x, by simp, rfl⟩
      · rw [ieBitsGen_or_collision]
        rcases mem_cons.mp hy with rfl | hy
        · exact fun hg => hnew _ ⟨⟨hi0, hlt⟩, hused, hg, rfl⟩
        · rw [← hyx]
          exact h.inv.gens y hy (hyx ▸ hi0) (hyx ▸ hlt)
      · rw [mem_cons, or_iff_right]
        rintro rfl
        exact hyx rfl
    · by_cases hji : j = machPortIndex x.2
      · subst hji
        rw [update_self, ieBitsType_or_collision] at ht
        exact absurd ht hused
      · rw [update_of_ne hji] at ht ⊢
        exact h.blank j hj0 hj ht
    · by_cases hm : machPortIndex m = machPortIndex x.2
      · simp [TableMaps, hm, IpcEntry.content]
      · simp only [TableMaps, update_of_ne hm]

/-- The pass over the entries that the table has room for. -/
theorem GrowInv.visitAll (h : GrowInv space.isTable osize size xs) (h0 : 0 < osize)
    (hys : ∀ y ∈ ys, Movable space.ites osize size y) (hnodup : (ys.map snd).Nodup)
    (hnew : ∀ y ∈ ys, ∀ c, ¬TableMaps space.isTable size y.2 c)
    (htotal : ys.length ≤ space.isTreeTotal) :
    ∃ kept table' total', visitAll MachVirtuTerm.growMove ys space =
        (kept, { space with isTable := table', isTreeTotal := total' }) ∧
      GrowInv table' osize size (kept ++ xs) ∧
      total' + ys.length = space.isTreeTotal + kept.length ∧
      ∀ m c, TableMaps table' size m c ∨ TreeMaps space.ites kept m c ↔
        TableMaps space.isTable size m c ∨ TreeMaps space.ites ys m c := by
  induction ys generalizing space xs with
  | nil => exact ⟨[], space.isTable, space.isTreeTotal, rfl, h, rfl, fun _ _ => Iff.rfl⟩
  | cons y ys ih =>
    obtain ⟨hyn, hnodup⟩ := nodup_cons.mp hnodup
    rw [visitAll_cons]
    have hlater {z : TreeNode} (hz : z ∈ ys) : z.2 ≠ y.2 := fun hzy =>
      hyn (hzy ▸ mem_map_of_mem hz)
    simp only [length_cons] at htotal
    obtain ⟨table₁, ⟨heq, hinv, hmaps⟩ | ⟨heq, hinv, hmaps⟩⟩ :=
      h.growMove h0 (hys y (by simp)) (hnew y (by simp))
    · obtain ⟨kept, table', total', hrun, hinv', htot, hall⟩ :=
        @ih { space with isTable := table₁ } _ hinv
          (fun z hz => hys z (by simp [hz])) hnodup
          (fun z hz c hc => hnew z (by simp [hz]) c ((hmaps _ _).mp hc)) (by simp; omega)
      refine ⟨y :: kept, table', total', ?_, ⟨hinv'.inv.congr ?_, hinv'.blank⟩, ?_, ?_⟩
      · rw [heq, hrun]
        rfl
      · exact fun e => perm_middle.symm.mem_iff
      · simp only [length_cons] at htot ⊢
        omega
      · intro m c
        have hmc := hall m c
        simp only [hmaps] at hmc
        rw [treeMaps_cons, treeMaps_cons, or_left_comm, hmc, or_left_comm]
    · obtain ⟨kept, table', total', hrun, hinv', htot, hall⟩ :=
        @ih { space with isTable := table₁, isTreeTotal := space.isTreeTotal - 1 } _ hinv
          (fun z hz => hys z (by simp [hz])) hnodup
          (fun z hz c hc => (hmaps _ _).mp hc |>.elim (fun hc => hlater hz hc.1)
            (hnew z (by simp [hz]) c)) (by simp; omega)
      refine ⟨kept, table', total', ?_, hinv', ?_, ?_⟩
      · rw [heq, hrun]
        rfl
      · simp only [length_cons] at htot ⊢
        omega
      · intro m c
        have hmc := hall m c
        simp only [hmaps] at hmc
        rw [treeMaps_cons, hmc, or_assoc, or_left_comm]

end Move

section Count

/-- The pass that counts keeps all entries and adds the number of indices other than
the last one. -/
theorem visitAll_growCount (xs : List TreeNode) (s : ℕ × ℕ) (hsort : xs.Pairwise fun x y => x.2 < y.2)
    (hlast : ∀ x ∈ xs, s.2 ≤ machPortIndex x.2) :
    (visitAll growCount xs s).1 = xs ∧ (visitAll growCount xs s).2.1 =
      s.1 + ((xs.map fun e => machPortIndex e.2).toFinset.erase s.2).card := by
  refine ⟨visitAll_keep (fun _ _ => rfl) xs s, ?_⟩
  induction xs generalizing s with
  | nil => simp
  | cons x xs ih =>
    obtain ⟨hx, hsort⟩ := pairwise_cons.mp hsort
    have hle : ∀ y ∈ xs, machPortIndex x.2 ≤ machPortIndex y.2 := fun y hy =>
      machPortIndex_mono (hx y hy).le
    rw [visitAll_cons]
    by_cases hne : machPortIndex x.2 = s.2
    · have hstep : growCount s x = (s, false) := by simp [growCount, hne]
      rw [hstep, ih s hsort fun y hy => hlast y (by simp [hy])]
      simp [hne, Finset.erase_insert_eq_erase]
    · have hstep : growCount s x = ((s.1 + 1, machPortIndex x.2), false) := by
        simp [growCount, hne]
      have hlt : s.2 < machPortIndex x.2 := lt_of_le_of_ne (hlast x (by simp)) (Ne.symm hne)
      have hnot : s.2 ∉ ((x :: xs).map fun e => machPortIndex e.2).toFinset := by
        simp only [mem_toFinset, mem_map, mem_cons, not_exists, not_and]
        rintro y (rfl | hy)
        · exact hne
        · exact (hlt.trans_le (hle y hy)).ne'
      have hcard := Finset.card_erase_add_one
        (Finset.mem_insert_self (machPortIndex x.2) (xs.map fun e => machPortIndex e.2).toFinset)
      rw [Finset.erase_insert_eq_erase] at hcard
      rw [hstep, ih _ hsort hle, Finset.erase_eq_of_notMem hnot, map_cons,
        toFinset_cons, ← hcard, add_assoc, add_comm 1]

end Count

section Free

/-- Linking the blank entries of the new part in front of a free list. -/
theorem growFree_eq {free : List ℕ} {freeIndex n : ℕ}
    (hpath : Path (fun i => (table i).ieNext) freeIndex free) (hn : free.Nodup)
    (hout : ∀ j ∈ free, j < osize ∨ osize + n ≤ j) :
    ∃ free', Path (fun i => ((growFree osize n table freeIndex).1 i).ieNext)
        (growFree osize n table freeIndex).2 free' ∧ free'.Nodup ∧
      (∀ j, j ∈ free' ↔ j ∈ free ∨ (osize ≤ j ∧ j < osize + n) ∧ (table j).ieBits = 0) ∧
      ∀ j, ((osize ≤ j ∧ j < osize + n) ∧ (table j).ieBits = 0 →
          ((growFree osize n table freeIndex).1 j).ieBits = ieBitsGenMask) ∧
        (¬((osize ≤ j ∧ j < osize + n) ∧ (table j).ieBits = 0) →
          (growFree osize n table freeIndex).1 j = table j) := by
  induction n generalizing table free freeIndex with
  | zero =>
    refine ⟨free, hpath, hn, fun j => ?_, fun j => ⟨fun hj => by omega, fun _ => rfl⟩⟩
    exact (or_iff_left (fun hj => by omega)).symm
  | succ n ih =>
    rw [growFree]
    split_ifs with hbits
    · have hi : osize + n ∉ free := by
        intro hi
        have := hout _ hi
        omega
      have hpath' : Path (fun i => (update table (osize + n) { table (osize + n) with
          ieBits := ieBitsGenMask, index := freeIndex } i).ieNext) (osize + n)
          ((osize + n) :: free) := by
        refine (hpath.push hi).congr fun j _ => ?_
        by_cases hj : j = osize + n
        · subst hj
          rw [update_self, update_self]
          rfl
        · rw [update_of_ne hj, update_of_ne hj]
      obtain ⟨free', hp, hn', hmem, hval⟩ := ih hpath' (nodup_cons.mpr ⟨hi, hn⟩) (by
        intro j hj
        rcases mem_cons.mp hj with rfl | hj
        · exact inr le_rfl
        · have := hout j hj
          omega)
      refine ⟨free', hp, hn', fun j => ?_, fun j => ?_⟩
      · rw [hmem, mem_cons]
        by_cases hj : j = osize + n
        · subst hj
          simp [hbits]
        · rw [update_of_ne hj]
          have hrange : (osize ≤ j ∧ j < osize + n) ↔ osize ≤ j ∧ j < osize + (n + 1) := by omega
          rw [hrange, or_iff_right hj]
      · by_cases hj : j = osize + n
        · subst hj
          have hout' : ¬((osize ≤ osize + n ∧ osize + n < osize + n) ∧
              (update table (osize + n) { table (osize + n) with
                ieBits := ieBitsGenMask, index := freeIndex } (osize + n)).ieBits = 0) := by
            omega
          have hkeep := (hval (osize + n)).2 hout'
          refine ⟨fun _ => ?_, fun hno => absurd ⟨by omega, hbits⟩ hno⟩
          rw [hkeep, update_self]
        · have hvalj := hval j
          rw [update_of_ne hj] at hvalj
          have hrange : (osize ≤ j ∧ j < osize + (n + 1)) ↔ osize ≤ j ∧ j < osize + n := by omega
          rw [hrange]
          exact hvalj
    · obtain ⟨free', hp, hn', hmem, hval⟩ := ih hpath hn (by
        intro j hj
        have := hout j hj
        omega)
      have hrange (j : ℕ) : ((osize ≤ j ∧ j < osize + (n + 1)) ∧ (table j).ieBits = 0) ↔
          (osize ≤ j ∧ j < osize + n) ∧ (table j).ieBits = 0 := by
        refine and_congr_left fun hj => ?_
        have hne : j ≠ osize + n := by
          rintro rfl
          exact hbits hj
        omega
      refine ⟨free', hp, hn', fun j => ?_, fun j => ?_⟩
      · rw [hmem, hrange]
      · rw [hrange]
        exact hval j

/-- The new part of the table is completed: its blank entries become free. -/
theorem GrowInv.growFree (h : GrowInv table osize size xs) (h0 : 0 < osize) (hle : osize ≤ size) :
    ∃ table', table' = (growFree osize (size - osize) table (table 0).ieNext).1 ∧
      TableInv (update table' 0 { table' 0 with
        index := (MachVirtuTerm.growFree osize (size - osize) table (table 0).ieNext).2 })
        size size xs ∧
      ∀ m c, TableMaps (update table' 0 { table' 0 with
        index := (MachVirtuTerm.growFree osize (size - osize) table (table 0).ieNext).2 })
        size m c ↔ TableMaps table size m c := by
  refine ⟨_, rfl, ?_⟩
  obtain ⟨free, ⟨hpath, hn⟩, hmem⟩ := h.inv.free
  obtain ⟨free', hp, hn', hmem', hval⟩ := growFree_eq (n := size - osize) hpath hn
    (fun j hj => inl ((hmem j).mp hj).2.1)
  have hsize : osize + (size - osize) = size := by omega
  rw [hsize] at hmem' hval
  generalize MachVirtuTerm.growFree osize (size - osize) table (table 0).ieNext = g at hp hval ⊢
  -- An entry of the new part is blank exactly when it has no type.
  have hblank {j : ℕ} (hj : osize ≤ j ∧ j < size) :
      (table j).ieBits = 0 ↔ ieBitsType (table j).ieBits = machPortTypeNone := by
    constructor
    · intro hb
      rw [hb]
      rfl
    · exact fun ht => congrArg IpcEntry.ieBits (h.blank j hj.1 hj.2 ht)
  generalize htable : update g.1 0 { g.1 0 with index := g.2 } = table'
  have hbits (j : ℕ) : (table' j).ieBits = (g.1 j).ieBits ∧
      (table' j).content = (g.1 j).content := by
    rw [← htable]
    by_cases hj : j = 0
    · subst hj
      rw [update_self]
      exact ⟨rfl, rfl⟩
    · rw [update_of_ne hj]
      exact ⟨rfl, rfl⟩
  have hnew {j : ℕ} (hj : (osize ≤ j ∧ j < size) ∧ (table j).ieBits = 0) :
      (table' j).ieBits = ieBitsGenMask := by rw [(hbits j).1, (hval j).1 hj]
  have hold {j : ℕ} (hj : ¬((osize ≤ j ∧ j < size) ∧ (table j).ieBits = 0)) :
      (table' j).ieBits = (table j).ieBits ∧ (table' j).content = (table j).content := by
    rw [(hbits j).1, (hbits j).2, (hval j).2 hj]
    exact ⟨rfl, rfl⟩
  have htype (j : ℕ) : ieBitsType (table' j).ieBits = machPortTypeNone ↔
      ieBitsType (table j).ieBits = machPortTypeNone := by
    by_cases hj : (osize ≤ j ∧ j < size) ∧ (table j).ieBits = 0
    · rw [hnew hj, hj.2]
      exact iff_of_true rfl rfl
    · rw [(hold hj).1]
  have hcol (j : ℕ) : ieBitsCollides (table' j).ieBits ↔ ieBitsCollides (table j).ieBits := by
    by_cases hj : (osize ≤ j ∧ j < size) ∧ (table j).ieBits = 0
    · rw [hnew hj, hj.2]
      exact iff_of_false (by decide) (by decide)
    · rw [(hold hj).1]
  have hused {j : ℕ} (ht : ieBitsType (table j).ieBits ≠ machPortTypeNone) :
      (table' j).ieBits = (table j).ieBits ∧ (table' j).content = (table j).content := by
    refine hold fun hj => ht ?_
    rw [hj.2]
    rfl
  have hhead : (table' 0).ieBits = (table 0).ieBits := (hold (by omega)).1
  refine ⟨⟨?_, ?_, fun j hj0 hj ht => ?_, fun j hj => ?_, fun x hx hx0 hxs => ?_, free', ⟨?_, hn'⟩,
    fun j => ?_⟩, fun m c => ?_⟩
  · rw [hhead]
    exact h.inv.head_type
  · rw [hhead]
    exact h.inv.head_gen
  · rw [hcol]
    exact h.inv.free_slot j hj0 hj ((htype j).mp ht)
  · rw [hcol]
    exact h.inv.collision j hj
  · have hcx := (h.inv.collision _ hxs).mpr ⟨x, hx, rfl⟩
    have ht : ieBitsType (table (machPortIndex x.2)).ieBits ≠ machPortTypeNone := fun ht =>
      h.inv.free_slot _ hx0 hxs ht hcx
    rw [(hused ht).1]
    exact h.inv.gens x hx hx0 hxs
  · have h0free : 0 ∉ free' := by
      rw [hmem', hmem]
      omega
    have hnext : (table' 0).ieNext = g.2 := by
      rw [← htable, update_self]
      rfl
    rw [hnext]
    refine hp.congr fun j hj => ?_
    have hj0 : j ≠ 0 := by
      rintro rfl
      exact h0free hj
    rw [← htable, update_of_ne hj0]
  · rw [hmem', hmem, htype]
    constructor
    · rintro (⟨hj0, hj, ht⟩ | ⟨hj, hb⟩)
      · exact ⟨hj0, by omega, ht⟩
      · exact ⟨by omega, hj.2, (hblank hj).mp hb⟩
    · rintro ⟨hj0, hj, ht⟩
      by_cases hjo : j < osize
      · exact inl ⟨hj0, hjo, ht⟩
      · exact inr ⟨⟨by omega, hj⟩, (hblank ⟨by omega, hj⟩).mpr ht⟩
  · refine and_congr_right fun _ => ?_
    rw [ne_eq, htype]
    refine and_congr_right fun ht => ?_
    rw [(hused ht).1, (hused ht).2]

end Free

/-- The four regions of the tree and what becomes of them. -/
theorem growTree_eq (hwf : WellFormed snd space.isTree) (hos : osize ≤ size)
    (hsn : size ≤ nsize) (hn : nsize < 2 ^ 24) :
    ∃ ignore move small high : List TreeNode,
      space.tentries = ignore ++ (move ++ (small ++ high)) ∧
      (∀ e ∈ ignore, machPortIndex e.2 < osize) ∧
      (∀ e ∈ move, osize ≤ machPortIndex e.2 ∧ machPortIndex e.2 < size) ∧
      (∀ e ∈ small, size ≤ machPortIndex e.2 ∧ machPortIndex e.2 < nsize) ∧
      (∀ e ∈ high, nsize ≤ machPortIndex e.2) ∧
      ∃ tree : SplaySet, WellFormed snd tree ∧
        tree.elements = ignore ++ ((visitAll growMove move space).1 ++ (small ++ high)) ∧
        growTree osize size nsize space = { (visitAll growMove move space).2 with
          isTreeSmall := (visitAll growCount small (0, 0)).2.1, isTree := tree } := by
  simp only [growTree]
  have hhigh := elements_split (k := machPortMake nsize 0) hwf
  have hwfhigh := hwf.split (k := machPortMake nsize 0)
  generalize split snd (machPortMake nsize 0) space.isTree = s at hhigh hwfhigh ⊢
  obtain ⟨high, rest⟩ := s
  have hsmall := elements_split (k := machPortMake size 0) hwfhigh.2
  have hwfsmall := hwfhigh.2.split (k := machPortMake size 0)
  dsimp only at hhigh hwfhigh hsmall hwfsmall ⊢
  generalize split snd (machPortMake size 0) rest = s at hsmall hwfsmall ⊢
  obtain ⟨small, rest'⟩ := s
  have hmove := elements_split (k := machPortMake osize 0) hwfsmall.2
  have hwfmove := hwfsmall.2.split (k := machPortMake osize 0)
  dsimp only at hsmall hwfsmall hmove hwfmove ⊢
  generalize split snd (machPortMake osize 0) rest' = s at hmove hwfmove ⊢
  obtain ⟨move, ignore⟩ := s
  obtain ⟨hel, hlt, hle⟩ := hhigh
  obtain ⟨hel', hlt', hle'⟩ := hsmall
  obtain ⟨hel'', hlt'', hle''⟩ := hmove
  dsimp only at hel'' hlt'' hle'' hwfmove ⊢
  have hi4 : ∀ e ∈ high.elements, nsize ≤ machPortIndex e.2 := fun e he =>
    (machPortMake_le_iff hn).mp (hle e he)
  have hi3 : ∀ e ∈ small.elements, size ≤ machPortIndex e.2 ∧ machPortIndex e.2 < nsize :=
    fun e he => ⟨(machPortMake_le_iff (by omega)).mp (hle' e he),
      (lt_machPortMake_iff hn).mp (hlt e (by simp [← hel', he]))⟩
  have hi2 : ∀ e ∈ move.elements, osize ≤ machPortIndex e.2 ∧ machPortIndex e.2 < size :=
    fun e he => ⟨(machPortMake_le_iff (by omega)).mp (hle'' e he),
      (lt_machPortMake_iff (by omega)).mp (hlt' e (by simp [← hel'', he]))⟩
  have hi1 : ∀ e ∈ ignore.elements, machPortIndex e.2 < osize := fun e he =>
    (lt_machPortMake_iff (by omega)).mp (hlt'' e he)
  have hmv : (traverse snd growMove move space).1.elements = _ ∧ _ = _ :=
    elements_traverse hwfmove.1 space
  have hwfmv : WellFormed snd (traverse snd growMove move space).1 :=
    hwfmove.1.traverse space
  have hct : (traverse snd growCount small (0, 0)).1.elements = _ ∧ _ = _ :=
    elements_traverse hwfsmall.1 (0, 0)
  have hwfct : WellFormed snd (traverse snd growCount small (0, 0)).1 :=
    hwfsmall.1.traverse (0, 0)
  rw [visitAll_keep (fun _ _ => rfl)] at hct
  generalize traverse snd growMove move space = s at hmv hwfmv ⊢
  generalize traverse snd growCount small (0, 0) = s' at hct hwfct ⊢
  have hkept : ∀ e ∈ s.1.elements, osize ≤ machPortIndex e.2 ∧ machPortIndex e.2 < size := by
    rw [hmv.1]
    exact fun e he => hi2 e ((visitAll_sublist _ _).subset he)
  have hsmallel : ∀ e ∈ s'.1.elements, size ≤ machPortIndex e.2 ∧ machPortIndex e.2 < nsize := by
    rw [hct.1]
    exact hi3
  have hwf1 := hwfhigh.1.join hwfct fun e he f hf => lt_of_machPortIndex_lt
    ((hsmallel e he).2.trans_le (hi4 f hf))
  have hel1 := elements_join hwfhigh.1 hwfct
  have hwf2 := hwf1.join hwfmv fun e he f hf => lt_of_machPortIndex_lt (by
    have := hkept e he
    rw [hel1, mem_append] at hf
    rcases hf with hf | hf
    · have := hsmallel f hf
      omega
    · have := hi4 f hf
      omega)
  have hel2 := elements_join hwf1 hwfmv
  have hwf3 := hwf2.join hwfmove.2 fun e he f hf => lt_of_machPortIndex_lt (by
    have := hi1 e he
    rw [hel2, hel1, mem_append, mem_append] at hf
    rcases hf with hf | hf | hf
    · have := hkept f hf
      omega
    · have := hsmallel f hf
      omega
    · have := hi4 f hf
      omega)
  refine ⟨ignore.elements, move.elements, small.elements, high.elements, ?_, hi1, hi2, hi3, hi4,
    _, hwf3, ?_, ?_⟩
  · rw [← append_assoc, hel'', ← append_assoc, hel', hel]
    rfl
  · rw [elements_join hwf2 hwfmove.2, hel2, hel1, hmv.1, hct.1]
  · rw [← hmv.2, ← hct.2]

section Table

/-- The new table: the old one, and blank entries behind it. -/
def newTable (table : ℕ → IpcEntry) (osize : ℕ) (i : ℕ) : IpcEntry :=
  if i < osize then table i else ⟨0, none, 0⟩

theorem newTable_of_lt (hi : i < osize) : newTable table osize i = table i := if_pos hi

theorem newTable_of_le (hi : osize ≤ i) : newTable table osize i = ⟨0, none, 0⟩ :=
  if_neg hi.not_gt

/-- The invariant of the pass holds before it. -/
theorem SpaceInv.growInv (h : SpaceInv sizes space) (xs : List TreeNode)
    (hxs : ∀ e, e ∈ xs ↔ e ∈ space.tentries ∧
      ¬(space.isTableSize ≤ machPortIndex e.2 ∧ machPortIndex e.2 < size)) :
    GrowInv (newTable space.isTable space.isTableSize) space.isTableSize size xs := by
  have h0 := h.tree.size_pos
  obtain ⟨free, ⟨hpath, hn⟩, hmem⟩ := h.table.free
  have hcol0 : ¬ieBitsCollides 0 := by decide
  refine ⟨⟨?_, ?_, fun i hi0 hi ht => ?_, fun i hi => ?_, fun e he he0 hes => ?_, free, ⟨?_, hn⟩,
    fun j => ?_⟩, fun i hi _ _ => newTable_of_le hi⟩
  · rw [newTable_of_lt h0]
    exact h.table.head_type
  · rw [newTable_of_lt h0]
    exact h.table.head_gen
  · by_cases hio : i < space.isTableSize
    · rw [newTable_of_lt hio] at ht ⊢
      exact h.table.free_slot i hi0 hio ht
    · rw [newTable_of_le (not_lt.mp hio)]
      exact hcol0
  · by_cases hio : i < space.isTableSize
    · rw [newTable_of_lt hio, h.table.collision i hio]
      refine exists_congr fun e => and_congr_left fun hei => ?_
      rw [hxs, and_iff_left]
      omega
    · rw [newTable_of_le (not_lt.mp hio)]
      refine iff_of_false hcol0 ?_
      rintro ⟨e, he, rfl⟩
      exact ((hxs e).mp he).2 ⟨not_lt.mp hio, hi⟩
  · have heo : machPortIndex e.2 < space.isTableSize := by
      by_contra hle
      exact ((hxs e).mp he).2 ⟨not_lt.mp hle, hes⟩
    rw [newTable_of_lt heo]
    exact h.table.gens e ((hxs e).mp he).1 he0 heo
  · rw [newTable_of_lt h0]
    refine hpath.congr fun j hj => ?_
    rw [newTable_of_lt ((hmem j).mp hj).2.1]
  · rw [hmem]
    refine and_congr_right fun _ => and_congr_right fun hj => ?_
    rw [newTable_of_lt hj]

/-- The new table denotes what the old one did. -/
theorem tableMaps_newTable (hsize : osize < size) :
    TableMaps (newTable table osize) size name c ↔ TableMaps table osize name c := by
  by_cases hi : machPortIndex name < osize
  · simp only [TableMaps, newTable_of_lt hi, hi, hi.trans hsize]
  · simp only [TableMaps, newTable_of_le (not_lt.mp hi), hi, and_false, false_and, iff_false]
    rintro ⟨-, ht, -⟩
    exact ht rfl

/-- The tree and the table after both passes. -/
theorem SpaceInv.growTree (h : SpaceInv sizes space) (hsize : space.isTableSize < size)
    (hsn : size ≤ nsize) (hn : nsize < 2 ^ 24) :
    ∃ table total small tree, MachVirtuTerm.growTree space.isTableSize size nsize { space with
        isTable := newTable space.isTable space.isTableSize, isTableSize := size
        isTableNext := i } = { space with
          isTable := table, isTableSize := size, isTableNext := i, isTreeTotal := total
          isTreeSmall := small, isTree := tree } ∧
      WellFormed snd tree ∧ tree.elements.Sublist space.tentries ∧
      total = tree.elements.length ∧ small = (smallIndices tree.elements size nsize).card ∧
      GrowInv table space.isTableSize size tree.elements ∧
      ∀ m c, TableMaps table size m c ∨ TreeMaps space.ites tree.elements m c ↔
        space.Maps m c := by
  have h0 := h.tree.size_pos
  -- The space with the new table.
  obtain ⟨s, hs⟩ : ∃ s : IpcSpace, s = { space with
      isTable := newTable space.isTable space.isTableSize, isTableSize := size
      isTableNext := i } := ⟨_, rfl⟩
  have htable : s.isTable = newTable space.isTable space.isTableSize := by rw [hs]
  have hites : s.ites = space.ites := by rw [hs]
  have hstree : s.isTree = space.isTree := by rw [hs]
  have hstotal : s.isTreeTotal = space.isTreeTotal := by rw [hs]
  rw [← hs]
  obtain ⟨ignore, move, small, high, hten, hi1, hi2, hi3, hi4, tree, hwf, hel, heq⟩ :=
    growTree_eq (hstree ▸ h.tree.wf) hsize.le hsn hn
  rw [IpcSpace.tentries, hstree, ← IpcSpace.tentries] at hten
  have hmovesub {e : TreeNode} (he : e ∈ move) : e ∈ space.tentries := by simp [hten, he]
  have hstart : GrowInv (newTable space.isTable space.isTableSize) space.isTableSize size
      (ignore ++ (small ++ high)) := by
    refine h.growInv _ fun e => ?_
    rw [hten]
    simp only [mem_append]
    constructor
    · rintro (he | he | he)
      · have := hi1 e he
        exact ⟨inl he, by omega⟩
      · have := hi3 e he
        exact ⟨inr (inr (inl he)), by omega⟩
      · have := hi4 e he
        exact ⟨inr (inr (inr he)), by omega⟩
    · rintro ⟨he | he | he, hout⟩
      · exact inl he
      · exact absurd (hi2 e he) hout
      · exact inr he
  have hsorted := h.tree.wf.sorted
  have hnames : (move.map snd).Nodup := by
    have hs : space.tentries.Pairwise fun x y => x.2 ≠ y.2 := hsorted.imp fun hlt => hlt.ne
    rw [hten] at hs
    exact pairwise_map.mpr (hs.sublist (by simp))
  obtain ⟨kept, table, total, hrun, hinv, htotal, hmaps⟩ :=
    (htable.symm ▸ hstart : GrowInv s.isTable space.isTableSize size _).visitAll h0
      (fun y hy => ⟨(hi2 y hy).1, (hi2 y hy).2, hites ▸ (h.tree.right y (hmovesub hy)).1,
        hites ▸ (h.tree.right y (hmovesub hy)).2⟩) hnames
      (fun y hy c hc => by
        rw [htable, tableMaps_newTable hsize] at hc
        have := hc.1.2
        have := hi2 y hy
        omega) (by
        rw [hstotal, h.tree.total, hten]
        simp only [length_append]
        omega)
  have hkept : kept.Sublist move := by
    have : (visitAll growMove move s).1.Sublist move := visitAll_sublist move s
    rwa [hrun] at this
  rw [htable, hites] at hmaps
  rw [hrun] at hel heq
  have hcount := visitAll_growCount small (0, 0)
    (hsorted.sublist (by
      change small.Sublist space.tentries
      rw [hten]
      exact (sublist_append_left small high).trans
        ((sublist_append_right move _).trans (sublist_append_right ignore _)))) fun _ _ => Nat.zero_le _
  refine ⟨table, total, (visitAll growCount small (0, 0)).2.1, tree, ?_, hwf, ?_, ?_, ?_,
    ⟨hinv.inv.congr ?_, hinv.blank⟩, fun m c => ?_⟩
  · rw [heq, hs]
  · rw [hel, hten]
    exact (List.Sublist.refl _).append (hkept.append (List.Sublist.refl _))
  · rw [hel]
    have := h.tree.total
    rw [hten] at this
    rw [hstotal] at htotal
    simp only [length_append] at this htotal ⊢
    omega
  · rw [hcount.2, hel]
    have hset : smallIndices (ignore ++ (kept ++ (small ++ high))) size nsize =
        (small.map fun e => machPortIndex e.2).toFinset.erase 0 := by
      ext j
      simp only [mem_smallIndices, mem_append, Finset.mem_erase, mem_toFinset, mem_map]
      constructor
      · rintro ⟨⟨e, he | he | he | he, rfl⟩, hj⟩
        · have := hi1 e he
          omega
        · have := hi2 e (hkept.subset he)
          omega
        · exact ⟨by omega, e, he, rfl⟩
        · have := hi4 e he
          omega
      · rintro ⟨-, e, he, rfl⟩
        exact ⟨⟨e, inr (inr (inl he)), rfl⟩, hi3 e he⟩
    rw [hset]
    simp
  · intro e
    rw [hel]
    simp only [mem_append]
    exact or_left_comm
  · have hmc := hmaps m c
    rw [tableMaps_newTable hsize] at hmc
    have hregions (T I K X : Prop) : T ∨ (I ∨ (K ∨ X)) ↔ I ∨ ((T ∨ K) ∨ X) := by
      rw [or_left_comm, or_assoc]
    rw [maps_iff, hel, hten]
    simp only [treeMaps_append]
    rw [hregions, hmc, ← hregions]

/-- What growing does to a space. -/
structure Grown (sizes : IpcTableSizes) (space space' : IpcSpace) : Prop where
  inv : SpaceInv sizes space'
  maps : ∀ m c, space'.Maps m c ↔ space.Maps m c
  fast : space'.isFast = space.isFast
  next : space.isTableNext ≤ space'.isTableNext
  sub : space'.tentries.Sublist space.tentries

/-- Growing the table once. -/
theorem SpaceInv.growTable (h : SpaceInv sizes space) (hi : i + 1 < sizes.num)
    (hle : space.isTableNext ≤ i)
    (hlt : sizes.itsSize (space.isTableNext - 1) < sizes.itsSize i) :
    Grown sizes space (growTable sizes i space) ∧
      (MachVirtuTerm.growTable sizes i space).isTableNext = i + 1 := by
  have h0 := h.tree.size_pos
  have hosize : sizes.itsSize (space.isTableNext - 1) = space.isTableSize := h.tree.size_eq.symm
  have hsn : sizes.itsSize i ≤ sizes.itsSize (i + 1) := sizes.le_of_le (by omega) hi
  -- The space before the free list is extended.
  have hmid : ∃ table total small tree, (if 0 < space.isTreeTotal then
      MachVirtuTerm.growTree space.isTableSize (sizes.itsSize i) (sizes.itsSize (i + 1)) { space with
        isTable := newTable space.isTable space.isTableSize, isTableSize := sizes.itsSize i
        isTableNext := i + 1 }
      else { space with
        isTable := newTable space.isTable space.isTableSize, isTableSize := sizes.itsSize i
        isTableNext := i + 1 }) = { space with
          isTable := table, isTableSize := sizes.itsSize i, isTableNext := i + 1
          isTreeTotal := total, isTreeSmall := small, isTree := tree } ∧
      WellFormed snd tree ∧ tree.elements.Sublist space.tentries ∧
      total = tree.elements.length ∧
      small = (smallIndices tree.elements (sizes.itsSize i) (sizes.itsSize (i + 1))).card ∧
      GrowInv table space.isTableSize (sizes.itsSize i) tree.elements ∧
      ∀ m c, TableMaps table (sizes.itsSize i) m c ∨ TreeMaps space.ites tree.elements m c ↔
        space.Maps m c := by
    split_ifs with htotal
    · exact h.growTree (hosize ▸ hlt) hsn (sizes.itsSize_lt hi)
    · have hnil : space.tentries = [] :=
        eq_nil_of_length_eq_zero (by rw [← h.tree.total]; omega)
      have hel : space.isTree.elements = [] := hnil
      refine ⟨newTable space.isTable space.isTableSize, space.isTreeTotal, space.isTreeSmall,
        space.isTree, rfl, h.tree.wf, List.Sublist.refl _, h.tree.total, ?_,
        h.growInv _ (by simp [hel, hnil]), fun m c => ?_⟩
      · rw [h.tree.small, hnil, hel]
        simp [smallIndices]
      · rw [tableMaps_newTable (hosize ▸ hlt), maps_iff]
        rfl
  obtain ⟨table, total, small, tree, heq, hwf, hsub, htotal, hsmall, hinv, hmaps⟩ := hmid
  obtain ⟨table', htable', hfree, hfreemaps⟩ := hinv.growFree h0 (hosize ▸ hlt).le
  have hgrow : MachVirtuTerm.growTable sizes i space = { space with
      isTable := update table' 0 { table' 0 with index :=
        (growFree space.isTableSize (sizes.itsSize i - space.isTableSize) table
          (table 0).ieNext).2 }
      isTableSize := sizes.itsSize i, isTableNext := i + 1, isTreeTotal := total
      isTreeSmall := small, isTree := tree } := by
    simp only [MachVirtuTerm.growTable, hosize]
    have hfun : (fun j => if j < space.isTableSize then space.isTable j else ⟨0, none, 0⟩) =
        newTable space.isTable space.isTableSize := rfl
    rw [hfun, heq, htable']
  have hsize : sizes.itsSize i = sizes.itsSize (i + 1 - 1) := rfl
  refine ⟨⟨⟨?_, ?_⟩, fun m c => ?_, ?_, ?_, ?_⟩, ?_⟩
  · exact h.tree.sublist hgrow ⟨by omega, hi⟩ hsize hwf hsub htotal hsmall
  · rw [hgrow]
    exact hfree
  · rw [maps_iff, hgrow, ← hmaps, ← hfreemaps]
    rfl
  · rw [hgrow]
  · rw [hgrow]
    exact hle.trans (Nat.le_succ i)
  · rw [hgrow]
    exact hsub
  · rw [hgrow]

end Table

end MachVirtuTerm
