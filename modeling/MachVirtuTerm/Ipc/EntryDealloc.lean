import MachVirtuTerm.Ipc.EntryUpdate

/-!
# Deallocating names

Three things can happen to the entry of a deallocated name: a table entry goes back
to the free list, a table entry that tree entries collide with is overwritten by one
of them, and a tree entry leaves the tree. All other names denote what they did.
-/

open List Function

namespace MachVirtuTerm

open SplayTree LinkedList IpcSpace Prod

variable {sizes : IpcTableSizes} {space space' : IpcSpace} {name m : MachPort}
  {p q : IpcEntryPtr} {xs xs' : List TreeNode} {table : ℕ → IpcEntry} {size nsize i next : ℕ}
  {tree : SplaySet} {total small : ℕ}

/-- A tree with fewer entries. -/
theorem TreeInv.sublist (h : TreeInv sizes space)
    (hspace : space' = { space with
      isTable := table, isTableSize := size, isTableNext := next, isTreeTotal := total
      isTreeSmall := small, isTree := tree })
    (hnext : 0 < next ∧ next < sizes.num) (hsize : size = sizes.itsSize (next - 1))
    (hwf : WellFormed snd tree) (hsub : tree.elements.Sublist space.tentries)
    (htotal : total = tree.elements.length)
    (hsmall : small = (smallIndices tree.elements size (sizes.itsSize next)).card) :
    TreeInv sizes space' := by
  subst hspace
  refine ⟨h.isActive, h.isGrowing, hnext.1, hnext.2, hsize, hwf, ?_, fun e he => ?_,
    fun e he => ?_, htotal, hsmall, fun hf => ?_⟩
  · exact h.nodup.sublist (hsub.map fst)
  · exact h.valid e (hsub.subset he)
  · exact h.right e (hsub.subset he)
  · have hnil : space.tentries = [] := h.fast hf
    rw [hnil] at hsub
    exact sublist_nil.mp hsub

/-- A name that no entry holds any more; the other names are still held by entries
with their contents. -/
theorem updated_none (hinv : SpaceInv sizes space') (hnone : ∀ q, ¬space'.Holds name q)
    (hto : ∀ m ≠ name, ∀ p, space.Holds m p →
      ∃ q, space'.Holds m q ∧ space'.content q = space.content p)
    (hfrom : ∀ m ≠ name, ∀ q, space'.Holds m q → ∃ p, space.Holds m p) :
    Updated space space' name none := by
  intro m d
  split_ifs with hm
  · subst hm
    refine iff_of_false ?_ (by simp)
    rintro ⟨q, hq, -⟩
    exact hnone q hq
  · constructor
    · rintro ⟨q, hq, rfl⟩
      obtain ⟨p, hp⟩ := hfrom m hm q hq
      obtain ⟨q', hq', hc⟩ := hto m hm p hp
      rw [hinv.holds_unique hq hq', hc]
      exact ⟨p, hp, rfl⟩
    · rintro ⟨p, hp, rfl⟩
      exact hto m hm p hp

section Free

/-- The table after an entry is put at the front of the free list. -/
def freeSlot (table : ℕ → IpcEntry) (i : ℕ) : ℕ → IpcEntry :=
  update
    (update table i { table i with
      ieBits := (table i).ieBits &&& ieBitsGenMask, index := (table 0).ieNext })
    0 { table 0 with index := i }

/-- Only the freed entry gets other bits. -/
theorem freeSlot_of_ne {j : ℕ} (hj : j ≠ i) : (freeSlot table i j).ieBits = (table j).ieBits ∧
    (freeSlot table i j).ieObject = (table j).ieObject := by
  unfold freeSlot
  by_cases h0 : j = 0
  · subst h0
    rw [update_self]
    exact ⟨rfl, rfl⟩
  · rw [update_of_ne h0, update_of_ne hj]
    exact ⟨rfl, rfl⟩

/-- The freed entry has a generation only. -/
theorem freeSlot_self (hi : 0 < i) :
    (freeSlot table i i).ieBits = (table i).ieBits &&& ieBitsGenMask := by
  rw [freeSlot, update_of_ne hi.ne', update_self]

/-- Freeing an entry without collisions keeps the part on the table. -/
theorem TableInv.freeSlot (h : TableInv table size size xs) (hi : 0 < i) (hsize : i < size)
    (htype : ieBitsType (table i).ieBits ≠ machPortTypeNone)
    (hcol : ¬ieBitsCollides (table i).ieBits) :
    TableInv (freeSlot table i) size size xs := by
  have hself : (MachVirtuTerm.freeSlot table i i).ieBits = _ := freeSlot_self hi
  have hbits {j : ℕ} (hj : j ≠ i) :
      (MachVirtuTerm.freeSlot table i j).ieBits = (table j).ieBits := (freeSlot_of_ne hj).1
  have hnone : ¬∃ x ∈ xs, machPortIndex x.2 = i := fun hx => hcol ((h.collision i hsize).mpr hx)
  obtain ⟨free, ⟨hpath, hn⟩, hmem⟩ := h.free
  have hifree : i ∉ free := fun hmi => htype ((hmem i).mp hmi).2.2
  have h0free : 0 ∉ i :: free := by
    intro h0
    rcases mem_cons.mp h0 with h0 | h0
    · exact hi.ne h0
    · exact lt_irrefl 0 ((hmem 0).mp h0).1
  refine ⟨?_, ?_, fun j h0 hj ht => ?_, fun j hj => ?_, fun x hx h0 hj => ?_, i :: free,
    ⟨?_, nodup_cons.mpr ⟨hifree, hn⟩⟩, fun j => ?_⟩
  · rw [hbits hi.ne]
    exact h.head_type
  · rw [hbits hi.ne]
    exact h.head_gen
  · by_cases hji : j = i
    · subst hji
      rw [hself]
      exact not_ieBitsCollides_genMask
    · rw [hbits hji] at ht ⊢
      exact h.free_slot j h0 hj ht
  · by_cases hji : j = i
    · subst hji
      rw [hself]
      exact iff_of_false not_ieBitsCollides_genMask hnone
    · rw [hbits hji]
      exact h.collision j hj
  · have hne : machPortIndex x.2 ≠ i := fun hxi => hnone ⟨x, hx, hxi⟩
    rw [hbits hne]
    exact h.gens x hx h0 hj
  · have hhead : (MachVirtuTerm.freeSlot table i 0).ieNext = i := by
      rw [MachVirtuTerm.freeSlot, update_self]
      rfl
    rw [hhead]
    refine (hpath.push hifree).congr fun j hj => ?_
    have hj0 : j ≠ 0 := by
      rintro rfl
      exact h0free hj
    rw [MachVirtuTerm.freeSlot, update_of_ne hj0]
    by_cases hji : j = i
    · subst hji
      rw [update_self, update_self]
      rfl
    · rw [update_of_ne hji, update_of_ne hji]
  · rw [mem_cons]
    by_cases hji : j = i
    · subst hji
      rw [hself]
      exact iff_of_true (Or.inl rfl) ⟨hi, hsize, ieBitsType_genMask⟩
    · rw [hbits hji, ← hmem]
      exact or_iff_right hji

/-- Freeing the table entry of a name. -/
theorem SpaceInv.deallocFree (h : SpaceInv sizes space) (hp : space.Holds name (.table i))
    (hcol : ¬ieBitsCollides (space.isTable i).ieBits) :
    SpaceInv sizes (deallocFree i space) ∧
      Updated space (MachVirtuTerm.deallocFree i space) name none := by
  obtain ⟨hindex, hi, hsize, htype, hgen⟩ := hp
  have heq : MachVirtuTerm.deallocFree i space =
      { space with isTable := freeSlot space.isTable i } := by
    simp [MachVirtuTerm.deallocFree, setTable, freeSlot, update_of_ne hi.ne]
  rw [heq]
  have htree : TreeInv sizes { space with isTable := freeSlot space.isTable i } :=
    h.tree.sublist rfl
    ⟨h.tree.next_pos, h.tree.next_lt⟩ h.tree.size_eq h.tree.wf (List.Sublist.refl _) h.tree.total
    h.tree.small
  have hinv : SpaceInv sizes { space with isTable := freeSlot space.isTable i } :=
    ⟨htree, h.table.freeSlot hi hsize htype hcol⟩
  have hholds {m : MachPort} (hm : m ≠ name) (q : IpcEntryPtr) : IpcSpace.Holds { space with
      isTable := freeSlot space.isTable i } m q ↔ space.Holds m q := by
    cases q with
    | tree a => exact Iff.rfl
    | table j =>
      by_cases hj : j = i
      · subst hj
        simp only [IpcSpace.Holds, freeSlot_self hi]
        refine iff_of_false ?_ ?_
        · rintro ⟨-, -, -, ht, -⟩
          exact ht ieBitsType_genMask
        · rintro ⟨hmi, -, -, -, hg⟩
          exact hm (machPort_ext (hmi.trans hindex.symm) (hg.symm.trans hgen))
      · simp only [IpcSpace.Holds, (freeSlot_of_ne hj).1]
  refine ⟨hinv, updated_none hinv (fun q hq => ?_) (fun m hm p hp => ?_)
    fun m hm q hq => ⟨q, (hholds hm q).mp hq⟩⟩
  · cases q with
    | table j =>
      obtain ⟨rfl, -, -, ht, -⟩ := hq
      subst hindex
      simp only [freeSlot_self hi] at ht
      exact ht ieBitsType_genMask
    | tree a => exact h.table.gens (a, name) hq (hindex ▸ hi) (hindex ▸ hsize) (hindex ▸ hgen)
  · refine ⟨p, (hholds hm p).mpr hp, ?_⟩
    cases p with
    | tree a => rfl
    | table j =>
      have hj : j ≠ i := by
        rintro rfl
        exact hm (machPort_ext (hp.1.trans hindex.symm) (hp.2.2.2.2.symm.trans hgen))
      simp only [content, entry, (freeSlot_of_ne hj).1, (freeSlot_of_ne hj).2]

end Free

section Move

/-- The entry that replaces a deallocated one, when the tree entries `xs` remain. -/
def movedEntry (entry : IpcEntry) (name : MachPort) (xs : List TreeNode) : IpcEntry :=
  { entry with
    ieBits := if ∃ e ∈ xs, machPortIndex e.2 = machPortIndex name then
      entry.ieBits ||| machPortGen name ||| ieBitsCollision
    else entry.ieBits ||| machPortGen name }

/-- The type and the right of the moved entry are those of the tree entry. -/
@[simp] theorem movedEntry_right (entry : IpcEntry) (name : MachPort) (xs : List TreeNode) :
    ieBitsType (movedEntry entry name xs).ieBits = ieBitsType entry.ieBits ∧
      ieBitsRight (movedEntry entry name xs).ieBits = ieBitsRight entry.ieBits := by
  unfold movedEntry
  split_ifs <;> simp

/-- Its generation is that of the name. -/
theorem movedEntry_gen {entry : IpcEntry} (h : ieBitsRight entry.ieBits = entry.ieBits)
    (name : MachPort) (xs : List TreeNode) :
    ieBitsGen (movedEntry entry name xs).ieBits = machPortGen name := by
  unfold movedEntry
  split_ifs <;> simp [ieBitsGen_or_machPortGen h]

/-- Its collision bit says whether a tree entry with the index remains. -/
theorem movedEntry_collides {entry : IpcEntry} (h : ieBitsRight entry.ieBits = entry.ieBits)
    (name : MachPort) (xs : List TreeNode) :
    ieBitsCollides (movedEntry entry name xs).ieBits ↔
      ∃ e ∈ xs, machPortIndex e.2 = machPortIndex name := by
  unfold movedEntry
  split_ifs with hx
  · exact iff_of_true ieBitsCollides_or_collision hx
  · refine iff_of_false ?_ hx
    rw [ieBitsCollides_or_machPortGen]
    exact not_ieBitsCollides_of_right h

/-- What moving a tree entry into the place of a deallocated one does to a space. -/
theorem deallocMove_eq (h : TreeInv sizes space) (hi : i + 1 < 2 ^ 24)
    (hex : ∃ e ∈ space.tentries, machPortIndex e.2 = i) :
    ∃ pre x post tree, space.tentries = pre ++ x :: post ∧ WellFormed snd tree ∧
      tree.elements = pre ++ post ∧ machPortIndex x.2 = i ∧
      deallocMove i space = some { space with
        isTable := update space.isTable i (movedEntry (space.ites x.1) x.2 (pre ++ post))
        isTreeTotal := space.isTreeTotal - 1
        isTree := tree } := by
  -- The entries with larger indices, those with the index and those with smaller ones.
  have hhigh := elements_split (k := machPortMake (i + 1) 0) h.wf
  have hwfhigh := h.wf.split (k := machPortMake (i + 1) 0)
  simp only [deallocMove]
  generalize split snd (machPortMake (i + 1) 0) space.isTree = s at hhigh hwfhigh ⊢
  obtain ⟨high, rest⟩ := s
  obtain ⟨hel, hrest, hhigh⟩ := hhigh
  have hlow := elements_split (k := machPortMake i 0) hwfhigh.2
  have hwflow := hwfhigh.2.split (k := machPortMake i 0)
  dsimp only at hlow hwflow hel hrest hhigh hwfhigh ⊢
  generalize split snd (machPortMake i 0) rest = s at hlow hwflow ⊢
  obtain ⟨collisions, low⟩ := s
  obtain ⟨hel', hlow, hcol⟩ := hlow
  dsimp only at hel' hlow hcol hwflow ⊢
  have htentries : low.elements ++ (collisions.elements ++ high.elements) = space.tentries := by
    rw [← append_assoc, hel', hel]
    rfl
  have hilow {e : TreeNode} (he : e ∈ low.elements) : machPortIndex e.2 < i :=
    (lt_machPortMake_iff (by omega)).mp (hlow e he)
  have hihigh {e : TreeNode} (he : e ∈ high.elements) : i + 1 ≤ machPortIndex e.2 :=
    (machPortMake_le_iff hi).mp (hhigh e he)
  have hicol {e : TreeNode} (he : e ∈ collisions.elements) : machPortIndex e.2 = i := by
    have hle := (machPortMake_le_iff (by omega)).mp (hcol e he)
    have hlt := (lt_machPortMake_iff hi).mp (hrest e (by simp [← hel', he]))
    omega
  have hmem {e : TreeNode} (he : e ∈ space.tentries) (hei : machPortIndex e.2 = i) :
      e ∈ collisions.elements := by
    rw [← htentries] at he
    simp only [mem_append] at he
    rcases he with he | he | he
    · have := hilow he
      omega
    · exact he
    · have := hihigh he
      omega
  cases hpick : pick collisions with
  | none =>
    obtain ⟨e, he, hei⟩ := hex
    have := hmem he hei
    rw [(pick_eq_none hwflow.1).mp hpick] at this
    cases this
  | some x =>
    have hxmem := mem_of_pick hpick
    have hxk : ∃ y ∈ collisions.elements, y.2 = x.2 := ⟨x, hxmem, rfl⟩
    obtain ⟨cpre, a, cpost, hc, hax, hdel⟩ := elements_delete hwflow.1 hxk
    have hcsub : collisions.elements ⊆ space.tentries := by
      intro e he
      simp [← htentries, he]
    obtain rfl : a = x := h.names_inj (hcsub (by simp [hc])) (hcsub hxmem) hax
    have hwfdel := hwflow.1.delete hxk
    have hdelsub {e : TreeNode} (he : e ∈ (delete snd a.2 collisions).elements) :
        machPortIndex e.2 = i := by
      refine hicol ?_
      rw [hdel] at he
      rw [hc]
      simp only [mem_append, mem_cons] at he ⊢
      tauto
    have hrem : (∃ e ∈ low.elements ++ cpre ++ (cpost ++ high.elements),
        machPortIndex e.2 = machPortIndex a.2) ↔
          (delete snd a.2 collisions).elements ≠ [] := by
      rw [hicol hxmem]
      constructor
      · rintro ⟨e, he, hei⟩ hnil
        rw [hdel] at hnil
        obtain ⟨rfl, rfl⟩ := append_eq_nil_iff.mp hnil
        simp only [append_nil, nil_append, mem_append] at he
        rcases he with he | he
        · have := hilow he
          omega
        · have := hihigh he
          omega
      · intro hne
        obtain ⟨e, he⟩ := exists_mem_of_ne_nil _ hne
        refine ⟨e, ?_, hdelsub he⟩
        rw [hdel] at he
        simp only [mem_append] at he ⊢
        tauto
    have hwfjoin : WellFormed snd
        (SplayTree.join snd high (delete snd a.2 collisions)) := by
      refine hwfhigh.1.join hwfdel fun e he f hf => lt_of_machPortIndex_lt ?_
      have := hdelsub he
      have := hihigh hf
      omega
    have hjoin := elements_join hwfhigh.1 hwfdel
    rw [Option.bind_eq_bind, Option.bind_some]
    cases hpick' : pick (delete snd a.2 collisions) with
    | none =>
      have hnil := (pick_eq_none hwfdel).mp hpick'
      refine ⟨low.elements ++ cpre, a, cpost ++ high.elements,
        SplayTree.join snd high low, ?_, ?_, ?_, hicol hxmem, ?_⟩
      · rw [← htentries, hc]
        simp
      · refine hwfhigh.1.join hwflow.2 fun e he f hf => lt_of_machPortIndex_lt ?_
        have := hilow he
        have := hihigh hf
        omega
      · rw [elements_join hwfhigh.1 hwflow.2]
        rw [hdel] at hnil
        obtain ⟨rfl, rfl⟩ := append_eq_nil_iff.mp hnil
        simp
      · rw [movedEntry, if_neg (fun hx => hrem.mp hx hnil)]
        rfl
    | some y =>
      have hne : (delete snd a.2 collisions).elements ≠ [] := by
        rw [ne_eq, ← pick_eq_none hwfdel, hpick']
        simp
      refine ⟨low.elements ++ cpre, a, cpost ++ high.elements,
        SplayTree.join snd (SplayTree.join snd high (delete snd a.2 collisions)) low,
        ?_, ?_, ?_, hicol hxmem, ?_⟩
      · rw [← htentries, hc]
        simp
      · refine hwfjoin.join hwflow.2 fun e he f hf => lt_of_machPortIndex_lt ?_
        rw [hjoin, mem_append] at hf
        have := hilow he
        rcases hf with hf | hf
        · have := hdelsub hf
          omega
        · have := hihigh hf
          omega
      · rw [elements_join hwfjoin hwflow.2, hjoin, hdel]
        simp
      · rw [movedEntry, if_pos (hrem.mpr hne)]
        rfl

/-- Moving a tree entry into the place of a deallocated one. -/
theorem SpaceInv.deallocMove (h : SpaceInv sizes space) (hp : space.Holds name (.table i))
    (hcol : ieBitsCollides (space.isTable i).ieBits) :
    ∃ space', deallocMove i space = some space' ∧ SpaceInv sizes space' ∧
      Updated space space' name none := by
  obtain ⟨hindex, hi, hsize, htype, hgen⟩ := hp
  have hi24 : i + 1 < 2 ^ 24 := by
    have := h.tree.size_le_dead
    have := machPortIndex_lt machPortDead
    omega
  obtain ⟨pre, x, post, tree, hten, hwf, hel, hxi, heq⟩ :=
    deallocMove_eq h.tree hi24 ((h.table.collision i hsize).mp hcol)
  have hsub : (pre ++ post).Sublist (pre ++ x :: post) := by simp
  have hnodup : (pre ++ x :: post).Nodup := by
    have := h.tree.nodup
    rw [hten] at this
    exact this.of_map
  have hmem (e : TreeNode) : e ∈ pre ++ post ↔ e ∈ space.tentries ∧ e ≠ x := by
    have hx : x ∉ pre ++ post := (nodup_cons.mp (nodup_middle.mp hnodup)).1
    rw [hten]
    simp only [mem_append, mem_cons] at hx ⊢
    constructor
    · intro he
      refine ⟨by tauto, ?_⟩
      rintro rfl
      exact hx he
    · tauto
  have hxmem : x ∈ space.tentries := by simp [hten]
  obtain ⟨hxtype, hxright⟩ := h.tree.right x hxmem
  refine ⟨_, heq, ?_⟩
  generalize hspace' : ({ space with
    isTable := update space.isTable i (movedEntry (space.ites x.1) x.2 (pre ++ post))
    isTreeTotal := space.isTreeTotal - 1, isTree := tree } : IpcSpace) = space'
  have hten' : space'.tentries = pre ++ post := by rw [← hspace']; exact hel
  have htable : space'.isTable = update space.isTable i
    (movedEntry (space.ites x.1) x.2 (pre ++ post)) := by rw [← hspace']
  have hsize' : space'.isTableSize = space.isTableSize := by rw [← hspace']
  have htree : TreeInv sizes space' := by
    refine h.tree.sublist hspace'.symm ⟨h.tree.next_pos, h.tree.next_lt⟩ h.tree.size_eq hwf
      (by rw [hel, hten]; exact hsub) ?_ ?_
    · rw [hel, h.tree.total, hten]
      simp
    · rw [h.tree.small, hel]
      congr 1
      ext j
      simp only [mem_smallIndices, hmem]
      constructor
      · rintro ⟨⟨e, he, rfl⟩, hj⟩
        refine ⟨⟨e, ⟨he, ?_⟩, rfl⟩, hj⟩
        rintro rfl
        omega
      · rintro ⟨⟨e, he, rfl⟩, hj⟩
        exact ⟨⟨e, he.1, rfl⟩, hj⟩
  have hinv : SpaceInv sizes space' := by
    refine ⟨htree, ?_⟩
    rw [hten', hsize', htable]
    refine h.table.update (iff_of_false ?_ htype) (fun ht => absurd ht htype) (fun _ => ?_)
      (fun y hy hyi _ _ => ?_) fun y hyi => ?_
    · rw [(movedEntry_right _ _ _).1]
      exact hxtype
    · rw [movedEntry_collides hxright, hxi]
    · rw [movedEntry_gen hxright]
      intro hg
      obtain ⟨hy, hne⟩ := (hmem y).mp hy
      exact hne (h.tree.names_inj hy hxmem (machPort_ext (hyi.trans hxi.symm) hg.symm))
    · rw [hmem, and_iff_left]
      rintro rfl
      exact hyi hxi
  have hself : space'.isTable i = movedEntry (space.ites x.1) x.2 (pre ++ post) := by
    rw [htable, update_self]
  have hne {j : ℕ} (hj : j ≠ i) : space'.isTable j = space.isTable j := by
    rw [htable, update_of_ne hj]
  have hites : space'.ites = space.ites := by rw [← hspace']
  have hxholds : space'.Holds x.2 (.table i) :=
    ⟨hxi, hi, hsize' ▸ hsize, by rw [hself, (movedEntry_right _ _ _).1]; exact hxtype,
      by rw [hself, movedEntry_gen hxright]⟩
  have hnetree {m : MachPort} {a : ℕ} (ha : (a, m) ∈ space.tentries) : m ≠ name := by
    rintro rfl
    exact h.table.gens _ ha (hindex ▸ hi) (hindex ▸ hsize) (hindex ▸ hgen)
  refine ⟨hinv, updated_none hinv (fun q hq => ?_) (fun m hm p hp => ?_) fun m hm q hq => ?_⟩
  · cases q with
    | table j =>
      obtain rfl : j = i := hq.1.symm.trans hindex
      exact hnetree hxmem (hinv.holds_inj hxholds hq)
    | tree a =>
      have hq : (a, name) ∈ space'.tentries := hq
      rw [hten', hmem] at hq
      exact hnetree hq.1 rfl
  · cases p with
    | table j =>
      have hj : j ≠ i := by
        rintro rfl
        exact hm (machPort_ext (hp.1.trans hindex.symm) (hp.2.2.2.2.symm.trans hgen))
      refine ⟨.table j, ?_, ?_⟩
      · simpa only [IpcSpace.Holds, hsize', hne hj] using hp
      · simp only [content, entry, hne hj]
    | tree a =>
      have hp : (a, m) ∈ space.tentries := hp
      by_cases hax : (a, m) = x
      · subst hax
        refine ⟨.table i, hxholds, ?_⟩
        simp only [content, entry, hself, (movedEntry_right _ _ _).2]
        rfl
      · refine ⟨.tree a, ?_, ?_⟩
        · simp only [IpcSpace.Holds, hten', hmem]
          exact ⟨hp, hax⟩
        · simp only [content, entry, hites]
  · cases q with
    | table j =>
      by_cases hj : j = i
      · subst hj
        obtain rfl := hinv.holds_inj hxholds hq
        exact ⟨.tree x.1, hxmem⟩
      · refine ⟨.table j, ?_⟩
        simpa only [IpcSpace.Holds, hsize', hne hj] using hq
    | tree a =>
      refine ⟨.tree a, ?_⟩
      have hq : (a, m) ∈ space'.tentries := hq
      rw [hten', hmem] at hq
      exact hq.1

end Move

section Tree

/-- What deallocating a tree entry does to a space. -/
theorem ipcEntryDealloc_tree_eq (h : TreeInv sizes space) (hfast : space.isFast = false)
    {a : ℕ} (ha : (a, name) ∈ space.tentries) :
    ∃ pre post tree small, space.tentries = pre ++ (a, name) :: post ∧
      WellFormed snd tree ∧ tree.elements = pre ++ post ∧
      small = (smallIndices (pre ++ post) space.isTableSize
        (sizes.itsSize space.isTableNext)).card ∧
      ipcEntryDealloc sizes name (.tree a) space = some { space with
        isTable := update space.isTable (machPortIndex name)
          (if machPortIndex name < space.isTableSize ∧
              ¬∃ e ∈ pre ++ post, machPortIndex e.2 = machPortIndex name then
            { space.isTable (machPortIndex name) with
              ieBits := (space.isTable (machPortIndex name)).ieBits &&& ~~~ieBitsCollision }
          else space.isTable (machPortIndex name))
        isTreeTotal := space.isTreeTotal - 1
        isTreeSmall := small
        isTree := tree } := by
  obtain ⟨pre, e, post, hten, hen, hdel⟩ := elements_delete h.wf ⟨(a, name), ha, rfl⟩
  obtain rfl : e = (a, name) := h.names_inj (by simp [tentries, hten]) ha hen
  have hwf := h.wf.delete ⟨(a, name), ha, rfl⟩
  have hsub : (pre ++ post).Sublist (pre ++ (a, name) :: post) := by simp
  have hvalid : ∀ e ∈ pre ++ post, machPortValid e.2 := by
    intro e he
    refine h.valid e ?_
    rw [tentries, hten]
    exact hsub.subset he
  have hcard := card_smallIndices_cons (pre ++ post) space.isTableSize
    (sizes.itsSize space.isTableNext) (a, name)
  have hperm (e : TreeNode) : e ∈ (a, name) :: (pre ++ post) ↔ e ∈ space.tentries := by
    rw [tentries, hten]
    exact perm_middle.symm.mem_iff
  rw [smallIndices_congr hperm, ← h.small] at hcard
  obtain ⟨tree, hwf', hel, heq⟩ := ipcEntryTreeCollision_eq { space with
    isTree := delete snd name space.isTree, isTreeTotal := space.isTreeTotal - 1 } hwf
    (by simpa only [tentries, hdel] using hvalid) name
  simp only [tentries, hdel] at hel heq
  have hfast' : ¬space.isFast = true := by simp [hfast]
  by_cases hsize : machPortIndex name < space.isTableSize
  · rw [if_neg (fun hc => absurd hsize hc.1.1.not_gt)] at hcard
    refine ⟨pre, post, tree, _, hten, hwf', hel, rfl, ?_⟩
    simp only [ipcEntryDealloc, reduceCtorEq, and_false, if_false, if_neg hfast', hsize,
      heq, decide_eq_true_eq, if_true, true_and]
    rw [← hcard]
    by_cases hx : ∃ e ∈ pre ++ post, machPortIndex e.2 = machPortIndex name
    · rw [if_neg (not_not.mpr hx), if_neg (not_not.mpr hx), update_eq_self]
    · rw [if_pos hx, if_pos hx]
      rfl
  · have hsize' : ¬(machPortIndex name < space.isTableSize ∧
        ¬∃ e ∈ pre ++ post, machPortIndex e.2 = machPortIndex name) := fun hc => hsize hc.1
    by_cases hnsize : machPortIndex name < sizes.itsSize space.isTableNext
    · refine ⟨pre, post, tree, _, hten, hwf', hel, rfl, ?_⟩
      simp only [ipcEntryDealloc, reduceCtorEq, and_false, if_false, if_neg hfast', if_neg hsize,
        if_pos hnsize, heq, decide_eq_true_eq, if_neg hsize', update_eq_self]
      by_cases hx : ∃ e ∈ pre ++ post, machPortIndex e.2 = machPortIndex name
      · rw [if_neg (fun hc => hc.2 hx)] at hcard
        rw [if_neg (not_not.mpr hx), ← hcard]
      · rw [if_pos ⟨⟨not_lt.mp hsize, hnsize⟩, hx⟩] at hcard
        rw [if_pos hx, hcard, Nat.add_sub_cancel]
    · rw [if_neg (fun hc => hnsize hc.1.2)] at hcard
      refine ⟨pre, post, delete snd name space.isTree, _, hten, hwf, hdel, rfl, ?_⟩
      simp only [ipcEntryDealloc, reduceCtorEq, and_false, if_false, if_neg hfast', if_neg hsize,
        if_neg hnsize, if_neg hsize', update_eq_self]
      rw [← hcard]

/-- Deallocating the tree entry of a name. -/
theorem SpaceInv.deallocTree (h : SpaceInv sizes space) (hfast : space.isFast = false)
    {a : ℕ} (ha : (a, name) ∈ space.tentries) :
    ∃ space', ipcEntryDealloc sizes name (.tree a) space = some space' ∧ SpaceInv sizes space' ∧
      Updated space space' name none := by
  obtain ⟨pre, post, tree, small, hten, hwf, hel, hsmall, heq⟩ :=
    ipcEntryDealloc_tree_eq h.tree hfast ha
  refine ⟨_, heq, ?_⟩
  generalize hspace : ({ space with
    isTable := update space.isTable (machPortIndex name)
      (if machPortIndex name < space.isTableSize ∧
          ¬∃ e ∈ pre ++ post, machPortIndex e.2 = machPortIndex name then
        { space.isTable (machPortIndex name) with
          ieBits := (space.isTable (machPortIndex name)).ieBits &&& ~~~ieBitsCollision }
      else space.isTable (machPortIndex name))
    isTreeTotal := space.isTreeTotal - 1
    isTreeSmall := small
    isTree := tree } : IpcSpace) = space'
  have hsub : (pre ++ post).Sublist space.tentries := by rw [hten]; simp
  have hmem (e : TreeNode) : e ∈ pre ++ post ↔ e ∈ space.tentries ∧ e.2 ≠ name := by
    have hnodup : (pre ++ (a, name) :: post).Nodup := by
      have := h.tree.nodup
      rw [hten] at this
      exact this.of_map
    have hx : (a, name) ∉ pre ++ post := (nodup_cons.mp (nodup_middle.mp hnodup)).1
    constructor
    · intro he
      refine ⟨hsub.subset he, fun hen => hx ?_⟩
      rwa [← h.tree.names_inj (hsub.subset he) ha hen]
    · rintro ⟨he, hen⟩
      rw [hten] at he
      simp only [mem_append, mem_cons] at he ⊢
      rcases he with he | rfl | he
      · exact Or.inl he
      · exact absurd rfl hen
      · exact Or.inr he
  have hten' : space'.tentries = pre ++ post := by rw [← hspace]; exact hel
  have htable (j : ℕ) : ieBitsType (space'.isTable j).ieBits =
      ieBitsType (space.isTable j).ieBits ∧
      ieBitsGen (space'.isTable j).ieBits = ieBitsGen (space.isTable j).ieBits ∧
      ieBitsRight (space'.isTable j).ieBits = ieBitsRight (space.isTable j).ieBits ∧
      (space'.isTable j).ieObject = (space.isTable j).ieObject := by
    rw [← hspace]
    by_cases hj : j = machPortIndex name
    · subst hj
      simp only [update_self]
      split_ifs <;> simp
    · simp only [update_of_ne hj, and_self]
  have hsize : space'.isTableSize = space.isTableSize := by rw [← hspace]
  have hinv : SpaceInv sizes space' := by
    refine ⟨h.tree.sublist hspace.symm ⟨h.tree.next_pos, h.tree.next_lt⟩ h.tree.size_eq hwf
      (by rw [hel]; exact hsub) ?_ (by rw [hel, hsmall]), ?_⟩
    · rw [hel, h.tree.total, hten]
      simp
    rw [hten', hsize, ← hspace]
    refine h.table.update ?_ (fun htn => ⟨?_, ?_, fun h0 hi => ?_⟩) (fun hi => ?_)
      (fun x hx hxi h0 hi => ?_) fun x hxi => ?_
    · split_ifs <;> simp
    · split_ifs <;> rfl
    · split_ifs <;> simp
    · exact absurd ((h.table.collision _ hi).mpr ⟨_, ha, rfl⟩) (h.table.free_slot _ h0 hi htn)
    · split_ifs with hx
      · exact iff_of_false not_ieBitsCollides_clear_collision hx.2
      · refine iff_of_true ((h.table.collision _ hi).mpr ⟨_, ha, rfl⟩) ?_
        exact not_not.mp fun hno => hx ⟨hi, hno⟩
    · have hg := h.table.gens x (hsub.subset hx) (hxi ▸ h0) (hxi ▸ hi)
      rw [hxi] at hg
      split_ifs
      · simpa using hg
      · exact hg
    · rw [hmem, and_iff_left]
      rintro rfl
      exact hxi rfl
  have hholds {m : MachPort} (hm : m ≠ name) (q : IpcEntryPtr) :
      space'.Holds m q ↔ space.Holds m q := by
    cases q with
    | table j => simp only [IpcSpace.Holds, hsize, htable]
    | tree b => simp [IpcSpace.Holds, hten', hmem, hm]
  refine ⟨hinv, updated_none hinv (fun q hq => ?_) (fun m hm p hp => ?_)
    fun m hm q hq => ⟨q, (hholds hm q).mp hq⟩⟩
  · cases q with
    | table j =>
      have hq' : space.Holds name (.table j) := by
        simpa only [IpcSpace.Holds, hsize, htable] using hq
      exact absurd (h.holds_unique hq' (q := .tree a) ha) (by simp)
    | tree b =>
      have hq : (b, name) ∈ space'.tentries := hq
      rw [hten', hmem] at hq
      exact hq.2 rfl
  · refine ⟨p, (hholds hm p).mpr hp, ?_⟩
    cases p with
    | table j => simp only [content, entry, htable]
    | tree b => rw [← hspace]; rfl

/-- `ipc_entry_dealloc` takes a name out of a space. -/
theorem SpaceInv.ipcEntryDealloc (h : SpaceInv sizes space) (hp : space.Holds name p) :
    ∃ space', ipcEntryDealloc sizes name p space = some space' ∧ SpaceInv sizes space' ∧
      Updated space space' name none := by
  cases hfast : space.isFast with
  | true =>
    have hnil := h.tree.fast hfast
    cases p with
    | tree a =>
      have ha : (a, name) ∈ space.tentries := hp
      simp [hnil] at ha
    | table i =>
      have hcol : ¬ieBitsCollides (space.isTable i).ieBits := by
        rw [h.table.collision i hp.2.2.1, hnil]
        simp
      obtain ⟨hinv, hup⟩ := h.deallocFree hp hcol
      refine ⟨_, ?_, hinv, hup⟩
      simp only [MachVirtuTerm.ipcEntryDealloc, hfast, if_true, hp.1]
  | false =>
    cases p with
    | tree a => exact h.deallocTree hfast hp
    | table i =>
      have hsize := hp.2.2.1
      obtain rfl := hp.1
      simp only [MachVirtuTerm.ipcEntryDealloc, hfast, Bool.false_eq_true, if_false, hsize,
        and_self, if_true]
      split_ifs with hcol
      · exact h.deallocMove hp hcol
      · exact ⟨_, rfl, h.deallocFree hp hcol⟩

end Tree

end MachVirtuTerm
