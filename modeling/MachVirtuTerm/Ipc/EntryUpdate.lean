import MachVirtuTerm.Ipc.Entry

/-!
# Giving and taking names

Callers store a right with a type into every entry they get before they go on. Both
ways of getting an entry of the table take it out of the free list, a tree entry is
inserted, and deallocating gives the entry back. Each of these keeps the invariant
and changes what one name denotes.
-/

open List Function

namespace MachVirtuTerm

open SplayTree LinkedList

/-- What a caller stores into an entry: a right with a type, its object and its
dead-name request. -/
structure IpcRight where
  bits : BitVec 32
  object : Option ℕ
  request : ℕ
  inUse : ieBitsType bits ≠ machPortTypeNone

/-- What a lookup of the entry shows of a right. -/
def IpcRight.content (r : IpcRight) : BitVec 32 × Option ℕ := (ieBitsRight r.bits, r.object)

/-- Store a right into an entry. -/
def IpcSpace.store (space : IpcSpace) (p : IpcEntryPtr) (r : IpcRight) : IpcSpace :=
  space.setEntry ⟨ieBitsStore (space.entry p).ieBits r.bits, r.object, r.request⟩ p

@[simp] theorem IpcSpace.store_isFast (space : IpcSpace) (p : IpcEntryPtr) (r : IpcRight) :
    (space.store p r).isFast = space.isFast := by cases p <;> rfl

/-- One name denotes something else, or nothing, and all other names what they did. -/
def Updated (space space' : IpcSpace) (name : MachPort) (c : Option (BitVec 32 × Option ℕ)) :
    Prop :=
  ∀ m d, space'.Maps m d ↔ if m = name then c = some d else space.Maps m d

variable {sizes : IpcTableSizes} {space space' : IpcSpace} {name m : MachPort}
  {p q : IpcEntryPtr} {xs xs' : List TreeNode} {table table' : ℕ → IpcEntry} {size bound i : ℕ}
  {r : IpcRight}

/-- A name that some entry holds now denotes its content; the entries of other names
are in place. -/
theorem updated_of_holds (hinv : SpaceInv sizes space') (hp : space'.Holds name p)
    (hholds : ∀ m ≠ name, ∀ q, space'.Holds m q ↔ space.Holds m q)
    (hcontent : ∀ m ≠ name, ∀ q, space.Holds m q → space'.content q = space.content q) :
    Updated space space' name (some (space'.content p)) := by
  intro m d
  split_ifs with hm
  · subst hm
    rw [Option.some.injEq]
    constructor
    · rintro ⟨q, hq, rfl⟩
      rw [hinv.holds_unique hp hq]
    · rintro rfl
      exact ⟨p, hp, rfl⟩
  · constructor
    · rintro ⟨q, hq, rfl⟩
      have hq' := (hholds m hm q).mp hq
      exact ⟨q, hq', (hcontent m hm q hq').symm⟩
    · rintro ⟨q, hq, rfl⟩
      exact ⟨q, (hholds m hm q).mpr hq, hcontent m hm q hq⟩

/-- The part on the tree is about the tree and the counters only. -/
theorem TreeInv.setTable (h : TreeInv sizes space) (i : ℕ) (e : IpcEntry) :
    TreeInv sizes (space.setTable i e) :=
  ⟨h.isActive, h.isGrowing, h.next_pos, h.next_lt, h.size_eq, h.wf, h.nodup, h.valid, h.right,
    h.total, h.small, h.fast⟩

/-- Storing into a table entry that stays free or in use, while the tree changes at
most at the names with its index. -/
theorem TableInv.update (h : TableInv table size bound xs) {e : IpcEntry}
    (htype : ieBitsType e.ieBits = machPortTypeNone ↔
      ieBitsType (table i).ieBits = machPortTypeNone)
    (hfree : ieBitsType (table i).ieBits = machPortTypeNone →
      e.ieNext = (table i).ieNext ∧ ieBitsGen e.ieBits = ieBitsGen (table i).ieBits ∧
        (0 < i → i < size → ¬ieBitsCollides e.ieBits))
    (hcol : i < size → (ieBitsCollides e.ieBits ↔ ∃ x ∈ xs', machPortIndex x.2 = i))
    (hgens : ∀ x ∈ xs', machPortIndex x.2 = i → 0 < i → i < size →
      ieBitsGen e.ieBits ≠ machPortGen x.2)
    (hxs : ∀ x, machPortIndex x.2 ≠ i → (x ∈ xs' ↔ x ∈ xs)) :
    TableInv (Function.update table i e) size bound xs' := by
  have htypes (j : ℕ) : ieBitsType (Function.update table i e j).ieBits = machPortTypeNone ↔
      ieBitsType (table j).ieBits = machPortTypeNone := by
    by_cases hj : j = i
    · subst hj
      rw [update_self, htype]
    · rw [update_of_ne hj]
  have hnext (j : ℕ) (hj : ieBitsType (table j).ieBits = machPortTypeNone) :
      (Function.update table i e j).ieNext = (table j).ieNext := by
    by_cases hji : j = i
    · subst hji
      rw [update_self, (hfree hj).1]
    · rw [update_of_ne hji]
  obtain ⟨free, ⟨hpath, hn⟩, hmem⟩ := h.free
  refine ⟨(htypes 0).mpr h.head_type, ?_, fun j h0 hj ht => ?_, fun j hj => ?_,
    fun x hx h0 hj => ?_, free, ⟨?_, hn⟩, fun j => ?_⟩
  · by_cases h0 : 0 = i
    · subst h0
      rw [update_self, (hfree h.head_type).2.1, h.head_gen]
    · rw [update_of_ne h0, h.head_gen]
  · have ht' := (htypes j).mp ht
    by_cases hji : j = i
    · subst hji
      rw [update_self]
      exact (hfree ht').2.2 h0 hj
    · rw [update_of_ne hji]
      exact h.free_slot j h0 hj ht'
  · by_cases hji : j = i
    · subst hji
      rw [update_self, hcol hj]
    · rw [update_of_ne hji, h.collision j hj]
      constructor
      · rintro ⟨x, hx, rfl⟩
        exact ⟨x, (hxs x hji).mpr hx, rfl⟩
      · rintro ⟨x, hx, rfl⟩
        exact ⟨x, (hxs x hji).mp hx, rfl⟩
  · by_cases hxi : machPortIndex x.2 = i
    · subst hxi
      rw [update_self]
      exact hgens x hx rfl h0 hj
    · rw [update_of_ne hxi]
      exact h.gens x ((hxs x hxi).mp hx) h0 hj
  · rw [hnext 0 h.head_type]
    exact hpath.congr fun j hj => hnext j ((hmem j).mp hj).2.2
  · rw [htypes]
    exact hmem j

/-- Storing into a table entry in use, with its generation and collision bit. -/
theorem TableInv.store (h : TableInv table size bound xs) {e : IpcEntry}
    (htype : ieBitsType (table i).ieBits ≠ machPortTypeNone)
    (htype' : ieBitsType e.ieBits ≠ machPortTypeNone)
    (hgen : ieBitsGen e.ieBits = ieBitsGen (table i).ieBits)
    (hcol : ieBitsCollides e.ieBits ↔ ieBitsCollides (table i).ieBits) :
    TableInv (Function.update table i e) size bound xs := by
  refine h.update (iff_of_false htype' htype) (fun ht => absurd ht htype) (fun hi => ?_)
    (fun x hx hxi h0 hi => ?_) fun _ _ => Iff.rfl
  · rw [hcol, h.collision i hi]
  · subst hxi
    rw [hgen]
    exact h.gens x hx h0 hi

/-- Storing a right into the entry that holds a name. -/
theorem SpaceInv.store (h : SpaceInv sizes space) (hp : space.Holds name p) :
    SpaceInv sizes (space.store p r) ∧ (space.store p r).Holds name p ∧
      Updated space (space.store p r) name (some r.content) := by
  obtain ⟨ht, htab⟩ := h
  cases p with
  | table i =>
    obtain ⟨hi, h0, hsize, htype, hgen⟩ := hp
    have hinv : SpaceInv sizes (space.store (.table i) r) :=
      ⟨ht.setTable _ _, htab.store htype (by simpa using r.inUse) (by simp [IpcSpace.entry])
        (by simp [IpcSpace.entry])⟩
    have hholds (m : MachPort) (q : IpcEntryPtr) :
        (space.store (.table i) r).Holds m q ↔ space.Holds m q := by
      cases q with
      | tree a => exact Iff.rfl
      | table j =>
        by_cases hj : j = i
        · subst hj
          simp [IpcSpace.Holds, IpcSpace.store, IpcSpace.setEntry, IpcSpace.setTable,
            IpcSpace.entry, htype, r.inUse]
        · simp [IpcSpace.Holds, IpcSpace.store, IpcSpace.setEntry, IpcSpace.setTable,
            update_of_ne hj]
    have hself : (space.store (.table i) r).content (.table i) = r.content := by
      simp [IpcSpace.content, IpcSpace.store, IpcSpace.setEntry, IpcSpace.setTable,
        IpcSpace.entry, IpcRight.content]
    have hp' := (hholds name (.table i)).mpr ⟨hi, h0, hsize, htype, hgen⟩
    refine ⟨hinv, hp', hself ▸ updated_of_holds hinv hp' (fun m _ q => hholds m q) ?_⟩
    intro m hm q hq
    cases q with
    | tree a => rfl
    | table j =>
      have hj : j ≠ i := by
        rintro rfl
        exact hm (machPort_ext (hq.1.trans hi.symm) (hq.2.2.2.2.symm.trans hgen))
      simp [IpcSpace.content, IpcSpace.store, IpcSpace.setEntry, IpcSpace.setTable,
        IpcSpace.entry, update_of_ne hj]
  | tree a =>
    have hmem : (a, name) ∈ space.tentries := hp
    have hright (e : TreeNode) (he : e ∈ space.tentries) :
        ieBitsType ((space.store (.tree a) r).ites e.1).ieBits ≠ machPortTypeNone ∧
          ieBitsRight ((space.store (.tree a) r).ites e.1).ieBits =
            ((space.store (.tree a) r).ites e.1).ieBits := by
      by_cases hea : e.1 = a
      · subst hea
        have hr := (ht.right e he).2
        simp only [IpcSpace.store, IpcSpace.setEntry, IpcSpace.entry, update_self]
        exact ⟨by simpa using r.inUse, ieBitsRight_store_self hr⟩
      · simp only [IpcSpace.store, IpcSpace.setEntry, update_of_ne hea]
        exact ht.right e he
    have hinv : SpaceInv sizes (space.store (.tree a) r) :=
      ⟨⟨ht.isActive, ht.isGrowing, ht.next_pos, ht.next_lt, ht.size_eq, ht.wf, ht.nodup, ht.valid,
        hright, ht.total, ht.small, ht.fast⟩, htab⟩
    have hholds (m : MachPort) (q : IpcEntryPtr) :
        (space.store (.tree a) r).Holds m q ↔ space.Holds m q := by cases q <;> rfl
    have hself : (space.store (.tree a) r).content (.tree a) = r.content := by
      simp [IpcSpace.content, IpcSpace.store, IpcSpace.setEntry, IpcSpace.entry, IpcRight.content]
    have hp' := (hholds name (.tree a)).mpr hp
    refine ⟨hinv, hp', hself ▸ updated_of_holds hinv hp' (fun m _ q => hholds m q) ?_⟩
    intro m hm q hq
    cases q with
    | table j => rfl
    | tree b =>
      have hmem' : (b, m) ∈ space.tentries := hq
      have hb : b ≠ a := by
        rintro rfl
        exact hm (congrArg Prod.snd (ht.addrs_inj hmem' hmem rfl))
      simp [IpcSpace.content, IpcSpace.store, IpcSpace.setEntry, IpcSpace.entry, update_of_ne hb]

/-- Taking an entry out of the free list behind `pre` and giving it new contents. -/
def takeSlot (table : ℕ → IpcEntry) (pre i : ℕ) (e : IpcEntry) : ℕ → IpcEntry :=
  Function.update (Function.update table pre { table pre with index := (table i).ieNext }) i e

/-- Only the taken entry gets other bits or another object. -/
theorem takeSlot_of_ne {pre j : ℕ} {e : IpcEntry} (hj : j ≠ i) :
    (takeSlot table pre i e j).ieBits = (table j).ieBits ∧
      (takeSlot table pre i e j).ieObject = (table j).ieObject := by
  rw [takeSlot, update_of_ne hj]
  by_cases hpre : j = pre
  · subst hpre
    rw [update_self]
    exact ⟨rfl, rfl⟩
  · rw [update_of_ne hpre]
    exact ⟨rfl, rfl⟩

/-- The predecessor of an element in a list behind the head 0. -/
def lastOf (pre : List ℕ) : ℕ := (0 :: pre).getLast (cons_ne_nil 0 pre)

/-- Taking an entry out of the free list keeps the part on the table. -/
theorem TableInv.takeSlot (h : TableInv table size size xs) {pre post : List ℕ} {e : IpcEntry}
    (hfree : FreeList table (pre ++ i :: post))
    (hmem : ∀ j, j ∈ pre ++ i :: post ↔
      0 < j ∧ j < size ∧ ieBitsType (table j).ieBits = machPortTypeNone)
    (htype : ieBitsType e.ieBits ≠ machPortTypeNone) (hcol : ¬ieBitsCollides e.ieBits) :
    TableInv (takeSlot table (lastOf pre) i e) size size xs := by
  obtain ⟨hi0, hisize, hitype⟩ := (hmem i).mp (by simp)
  have hbits {j : ℕ} (hj : j ≠ i) :
      (MachVirtuTerm.takeSlot table (lastOf pre) i e j).ieBits = (table j).ieBits :=
    (takeSlot_of_ne hj).1
  have hself : MachVirtuTerm.takeSlot table (lastOf pre) i e i = e := update_self ..
  have hnone : ¬∃ x ∈ xs, machPortIndex x.2 = i := fun hx =>
    h.free_slot i hi0 hisize hitype ((h.collision i hisize).mpr hx)
  refine ⟨?_, ?_, fun j hj0 hj ht => ?_, fun j hj => ?_, fun x hx hx0 hxs => ?_, pre ++ post,
    ⟨?_, ?_⟩, fun j => ?_⟩
  · rw [hbits hi0.ne]
    exact h.head_type
  · rw [hbits hi0.ne]
    exact h.head_gen
  · by_cases hji : j = i
    · subst hji
      rw [hself] at ht
      exact absurd ht htype
    · rw [hbits hji] at ht ⊢
      exact h.free_slot j hj0 hj ht
  · by_cases hji : j = i
    · subst hji
      rw [hself]
      exact iff_of_false hcol hnone
    · rw [hbits hji]
      exact h.collision j hj
  · have hne : machPortIndex x.2 ≠ i := fun hxi => hnone ⟨x, hx, hxi⟩
    rw [hbits hne]
    exact h.gens x hx hx0 hxs
  · obtain ⟨hpath, hn⟩ := hfree
    have h0 : 0 ∉ pre ++ i :: post := fun h0 => absurd ((hmem 0).mp h0).1 (lt_irrefl 0)
    have hremove := hpath.remove (a := 0) (nodup_cons.mpr ⟨h0, hn⟩)
    have hi : i ∉ pre ++ post := (nodup_cons.mp (nodup_middle.mp hn)).1
    have hnext {j : ℕ} (hj : j ≠ i) : (MachVirtuTerm.takeSlot table (lastOf pre) i e j).ieNext =
        Function.update (fun k => (table k).ieNext) (lastOf pre) (table i).ieNext j := by
      rw [MachVirtuTerm.takeSlot, update_of_ne hj]
      by_cases hpre : j = lastOf pre
      · subst hpre
        rw [update_self, update_self]
        rfl
      · rw [update_of_ne hpre, update_of_ne hpre]
    rw [hnext hi0.ne]
    exact hremove.congr fun j hj => hnext fun hji => hi (hji ▸ hj)
  · exact (nodup_cons.mp (nodup_middle.mp hfree.2)).2
  · by_cases hji : j = i
    · subst hji
      rw [hself]
      refine iff_of_false ?_ fun hj => htype hj.2.2
      exact (nodup_cons.mp (nodup_middle.mp hfree.2)).1
    · rw [hbits hji, ← hmem]
      simp [hji]

/-- A name whose entry is taken out of the free list denotes what is stored there. -/
theorem SpaceInv.takeSlot (h : SpaceInv sizes space) {pre post : List ℕ} {e : IpcEntry}
    (hfree : FreeList space.isTable (pre ++ i :: post))
    (hmem : ∀ j, j ∈ pre ++ i :: post ↔
      0 < j ∧ j < space.isTableSize ∧ ieBitsType (space.isTable j).ieBits = machPortTypeNone)
    (hindex : machPortIndex name = i) (htype : ieBitsType e.ieBits ≠ machPortTypeNone)
    (hcol : ¬ieBitsCollides e.ieBits) (hgen : ieBitsGen e.ieBits = machPortGen name)
    (hspace : space' = { space with
      isTable := MachVirtuTerm.takeSlot space.isTable (lastOf pre) i e }) :
    SpaceInv sizes space' ∧ space'.Holds name (.table i) ∧ (∀ c, ¬space.Maps name c) ∧
      Updated space space' name (some (ieBitsRight e.ieBits, e.ieObject)) := by
  obtain ⟨ht, htab⟩ := h
  obtain ⟨hi0, hisize, hitype⟩ := (hmem i).mp (by simp)
  subst hspace
  have hself : MachVirtuTerm.takeSlot space.isTable (lastOf pre) i e i = e :=
    update_self ..
  have hinv : SpaceInv sizes { space with
      isTable := MachVirtuTerm.takeSlot space.isTable (lastOf pre) i e } :=
    ⟨⟨ht.isActive, ht.isGrowing, ht.next_pos, ht.next_lt, ht.size_eq, ht.wf, ht.nodup, ht.valid,
      ht.right, ht.total, ht.small, ht.fast⟩, htab.takeSlot hfree hmem htype hcol⟩
  have hp : IpcSpace.Holds { space with
      isTable := MachVirtuTerm.takeSlot space.isTable (lastOf pre) i e } name (.table i) :=
    ⟨hindex, hi0, hisize, by simpa only [hself] using htype, by simpa only [hself] using hgen⟩
  have hnone (q : IpcEntryPtr) : ¬space.Holds name q := by
    cases q with
    | table j =>
      rintro ⟨rfl, -, -, htj, -⟩
      exact htj (hindex ▸ hitype)
    | tree a =>
      exact fun ha => htab.free_slot i hi0 hisize hitype
        ((htab.collision i hisize).mpr ⟨(a, name), ha, hindex⟩)
  have hcontent : IpcSpace.content { space with
      isTable := MachVirtuTerm.takeSlot space.isTable (lastOf pre) i e } (.table i) =
        (ieBitsRight e.ieBits, e.ieObject) := by
    simp only [IpcSpace.content, IpcSpace.entry, hself]
  refine ⟨hinv, hp, fun c ⟨q, hq, _⟩ => hnone q hq, ?_⟩
  rw [← hcontent]
  refine updated_of_holds hinv hp (fun m hm q => ?_) fun m hm q hq => ?_
  · cases q with
    | tree a => exact Iff.rfl
    | table j =>
      by_cases hj : j = i
      · subst hj
        simp only [IpcSpace.Holds, hself]
        refine iff_of_false ?_ ?_
        · rintro ⟨hmi, -, -, -, hg⟩
          exact hm (machPort_ext (hmi.trans hindex.symm) (hg.symm.trans hgen))
        · rintro ⟨-, -, -, htj, -⟩
          exact htj hitype
      · simp only [IpcSpace.Holds, (takeSlot_of_ne hj).1]
  · cases q with
    | tree a => rfl
    | table j =>
      have hj : j ≠ i := by
        rintro rfl
        exact hq.2.2.2.1 hitype
      simp only [IpcSpace.content, IpcSpace.entry, (takeSlot_of_ne hj).1, (takeSlot_of_ne hj).2]

/-- The contents of a table entry after it is taken and a right is stored there. -/
def takenEntry (gen : BitVec 32) (r : IpcRight) : IpcEntry :=
  ⟨ieBitsStore gen r.bits, r.object, r.request⟩

/-- `ipc_entry_get` gives a new valid name an entry. -/
theorem SpaceInv.ipcEntryGet (h : SpaceInv sizes space)
    (hget : ipcEntryGet space = .ok (space', name, p)) (r : IpcRight) :
    SpaceInv sizes (space'.store p r) ∧ (space'.store p r).Holds name p ∧ machPortValid name ∧
      (∀ c, ¬space.Maps name c) ∧ Updated space (space'.store p r) name (some r.content) := by
  obtain ⟨free, hfree, hmem⟩ := h.table.free
  simp only [MachVirtuTerm.ipcEntryGet] at hget
  split_ifs at hget with h0
  simp only [Except.ok.injEq, Prod.mk.injEq] at hget
  obtain ⟨hspace, hname, rfl⟩ := hget
  cases free with
  | nil => exact absurd hfree.1 h0
  | cons i post =>
    obtain ⟨hhead, hrest⟩ := hfree.1
    obtain ⟨hi0, hisize, hitype⟩ := (hmem i).mp (by simp)
    have hi24 : i < 2 ^ 24 := hisize.trans h.tree.size_lt
    rw [hhead] at hspace hname ⊢
    have hindex : machPortIndex name = i := hname ▸ machPortIndex_make hi24 _
    have hgen : machPortGen name = ieBitsNewGen (space.isTable i).ieBits := by
      rw [← hname, machPortGen_make, ieBitsGen_newGen]
    have hstore : space'.store (.table i) r = { space with
        isTable := MachVirtuTerm.takeSlot space.isTable (lastOf []) i
          (takenEntry (ieBitsNewGen (space.isTable i).ieBits) r) } := by
      simp [← hspace, IpcSpace.store, IpcSpace.setEntry, IpcSpace.setTable, IpcSpace.entry,
        MachVirtuTerm.takeSlot, lastOf, takenEntry]
    obtain ⟨hinv, hholds, hfresh, hup⟩ := h.takeSlot hfree hmem hindex
      (by simpa [takenEntry] using r.inUse) (by simp [takenEntry])
      (by simp [takenEntry, hgen]) hstore
    refine ⟨hinv, hholds, ⟨?_, ?_⟩, hfresh, ?_⟩
    · rintro rfl
      exact hi0.ne hindex
    · rintro rfl
      exact absurd hisize (hindex ▸ h.tree.size_le_dead).not_gt
    · simpa [takenEntry, IpcRight.content] using hup

/-- Ripping the entry with the index of a name out of the free list. -/
theorem SpaceInv.ripSlot (h : SpaceInv sizes space) (h0 : 0 < machPortIndex name)
    (hsize : machPortIndex name < space.isTableSize)
    (htype : ieBitsType (space.isTable (machPortIndex name)).ieBits = machPortTypeNone) :
    ∃ freeIndex, pred (fun i => (space.isTable i).ieNext) (machPortIndex name) space.isTableSize 0 =
        some freeIndex ∧
      ∀ (r : IpcRight) (entry : IpcEntry), entry.ieBits = machPortGen name →
        let space' := ((space.setTable freeIndex { space.isTable freeIndex with
          index := (space.isTable (machPortIndex name)).ieNext }).setTable (machPortIndex name)
            entry).store (.table (machPortIndex name)) r
        SpaceInv sizes space' ∧ space'.Holds name (.table (machPortIndex name)) ∧
          (∀ c, ¬space.Maps name c) ∧ Updated space space' name (some r.content) := by
  obtain ⟨free, hfree, hmem⟩ := h.table.free
  obtain ⟨pre, post, rfl⟩ := append_of_mem ((hmem _).mpr ⟨h0, hsize, htype⟩)
  have hn := hfree.2
  have hi : machPortIndex name ∉ pre := fun hi =>
    (nodup_cons.mp (nodup_middle.mp hn)).1 (mem_append_left _ hi)
  -- The free list is shorter than the table.
  have hlen : pre.length < space.isTableSize := by
    have hsub : pre ++ machPortIndex name :: post ⊆ List.range space.isTableSize := by
      intro j hj
      exact mem_range.mpr ((hmem j).mp hj).2.1
    have hle := (hn.subperm hsub).length_le
    simp only [length_append, length_cons, length_range] at hle
    omega
  refine ⟨lastOf pre, pred_eq hfree.1 hi hlen, ?_⟩
  intro r entry hbits
  have hstore : ((space.setTable (lastOf pre) { space.isTable (lastOf pre) with
      index := (space.isTable (machPortIndex name)).ieNext }).setTable (machPortIndex name)
        entry).store (.table (machPortIndex name)) r = { space with
        isTable := MachVirtuTerm.takeSlot space.isTable (lastOf pre) (machPortIndex name)
          (takenEntry (machPortGen name) r) } := by
    simp [IpcSpace.store, IpcSpace.setEntry, IpcSpace.setTable, IpcSpace.entry,
      MachVirtuTerm.takeSlot, takenEntry, hbits]
  obtain ⟨hinv, hholds, hfresh, hup⟩ := h.takeSlot hfree hmem rfl
    (by simpa [takenEntry] using r.inUse) (by simp [takenEntry]) (by simp [takenEntry]) hstore
  exact ⟨hinv, hholds, hfresh, by simpa [takenEntry, IpcRight.content] using hup⟩

end MachVirtuTerm

/-!
# Names in the splay tree

A name whose place in the table is taken, or that has no place there, gets an entry
of the tree. When a name is deallocated its entry leaves the tree or returns to the
free list, and a tree entry with the same index may move into its place.
-/

namespace MachVirtuTerm

open SplayTree LinkedList

variable {sizes : IpcTableSizes} {space space' : IpcSpace} {name m : MachPort}
  {p q : IpcEntryPtr} {xs xs' : List TreeNode} {table : ℕ → IpcEntry} {size bound nsize i ite : ℕ}
  {r : IpcRight} {tree : SplaySet} {total small : ℕ}

/-- The indices of tree entries depend on which entries there are only. -/
theorem smallIndices_congr (hxs : ∀ e, e ∈ xs' ↔ e ∈ xs) :
    smallIndices xs' size nsize = smallIndices xs size nsize := by
  ext i
  simp only [mem_smallIndices, hxs]

/-- A further entry counts if its index is new and in the range. -/
theorem card_smallIndices_cons (xs : List TreeNode) (size nsize : ℕ) (e : TreeNode) :
    (smallIndices (e :: xs) size nsize).card =
      if (size ≤ machPortIndex e.2 ∧ machPortIndex e.2 < nsize) ∧
          ¬∃ x ∈ xs, machPortIndex x.2 = machPortIndex e.2
      then (smallIndices xs size nsize).card + 1 else (smallIndices xs size nsize).card := by
  split_ifs with hnew
  · have hinsert : smallIndices (e :: xs) size nsize =
        insert (machPortIndex e.2) (smallIndices xs size nsize) := by
      ext i
      simp only [mem_smallIndices, mem_cons, Finset.mem_insert]
      constructor
      · rintro ⟨⟨x, rfl | hx, rfl⟩, hi⟩
        · exact Or.inl rfl
        · exact Or.inr ⟨⟨x, hx, rfl⟩, hi⟩
      · rintro (rfl | ⟨⟨x, hx, rfl⟩, hi⟩)
        · exact ⟨⟨e, Or.inl rfl, rfl⟩, hnew.1⟩
        · exact ⟨⟨x, Or.inr hx, rfl⟩, hi⟩
    rw [hinsert, Finset.card_insert_of_notMem]
    exact fun hmem => hnew.2 (mem_smallIndices.mp hmem).1
  · congr 1
    ext i
    simp only [mem_smallIndices, mem_cons]
    constructor
    · rintro ⟨⟨x, rfl | hx, rfl⟩, hi⟩
      · exact ⟨not_not.mp fun hno => hnew ⟨hi, hno⟩, hi⟩
      · exact ⟨⟨x, hx, rfl⟩, hi⟩
    · rintro ⟨⟨x, hx, rfl⟩, hi⟩
      exact ⟨⟨x, Or.inr hx, rfl⟩, hi⟩

/-- A tree with one more entry. -/
theorem TreeInv.insert (h : TreeInv sizes space) (hfast : space.isFast = false)
    (hvalid : machPortValid name) (hname : ∀ e ∈ space.tentries, e.2 ≠ name)
    (hite : ite ∉ addrs space.tentries) {entry : IpcEntry}
    (htype : ieBitsType entry.ieBits ≠ machPortTypeNone)
    (hright : ieBitsRight entry.ieBits = entry.ieBits)
    (hwf : WellFormed Prod.snd tree) (hel : tree.elements = space.tentries)
    (hsmall : small = (smallIndices ((ite, name) :: space.tentries) space.isTableSize
      (sizes.itsSize space.isTableNext)).card)
    (hspace : space' = { space with
      isTable := table, isTreeTotal := space.isTreeTotal + 1, isTreeSmall := small
      isTree := SplayTree.insert Prod.snd (ite, name) tree
      ites := Function.update space.ites ite entry }) :
    TreeInv sizes space' ∧ ∀ e, e ∈ space'.tentries ↔ e = (ite, name) ∨ e ∈ space.tentries := by
  have hnew : ∀ e ∈ tree.elements, e.2 ≠ (ite, name).2 := by
    rw [hel]
    exact hname
  obtain ⟨xs, ys, hxy, hins, -, -⟩ := elements_insert hwf hnew
  rw [hel] at hxy
  have hten : space'.tentries = xs ++ (ite, name) :: ys := by rw [hspace]; exact hins
  have hperm : space'.tentries.Perm ((ite, name) :: space.tentries) := by
    rw [hten, hxy]
    exact perm_middle
  have hmem (e : TreeNode) : e ∈ space'.tentries ↔ e = (ite, name) ∨ e ∈ space.tentries := by
    rw [hperm.mem_iff, mem_cons]
  have hites {e : TreeNode} (he : e ∈ space.tentries) : space'.ites e.1 = space.ites e.1 := by
    rw [hspace]
    refine update_of_ne ?_ _ _
    rintro rfl
    exact hite (mem_map_of_mem he)
  have hself : space'.ites ite = entry := by
    rw [hspace]
    exact update_self ..
  refine ⟨⟨?_, ?_, ?_, ?_, ?_, ?_, ?_, fun e he => ?_, fun e he => ?_, ?_, ?_, ?_⟩, hmem⟩
  · rw [hspace]; exact h.isActive
  · rw [hspace]; exact h.isGrowing
  · rw [hspace]; exact h.next_pos
  · rw [hspace]; exact h.next_lt
  · rw [hspace]; exact h.size_eq
  · rw [hspace]; exact hwf.insert hnew
  · exact (hperm.map Prod.fst).nodup_iff.mpr (nodup_cons.mpr ⟨hite, h.nodup⟩)
  · rcases (hmem e).mp he with rfl | he
    · exact hvalid
    · exact h.valid e he
  · rcases (hmem e).mp he with rfl | he
    · rw [hself]
      exact ⟨htype, hright⟩
    · rw [hites he]
      exact h.right e he
  · rw [hperm.length_eq, length_cons, ← h.total, hspace]
  · rw [smallIndices_congr (fun e => (hmem e).trans mem_cons.symm)]
    rw [hspace]
    exact hsmall
  · intro hf
    rw [hspace] at hf
    rw [show space.isFast = true from hf] at hfast
    cases hfast

/-- What inserting a tree entry does to a space. -/
theorem allocNameInTree_eq (h : SpaceInv sizes space) (name : MachPort) (ite : ℕ) :
    ∃ tree small, WellFormed Prod.snd tree ∧ tree.elements = space.tentries ∧
      small = (smallIndices ((ite, name) :: space.tentries) space.isTableSize
        (sizes.itsSize space.isTableNext)).card ∧
      allocNameInTree sizes name ite space =
        ({ space with
            isTable := Function.update space.isTable (machPortIndex name)
              (if machPortIndex name < space.isTableSize then
                { space.isTable (machPortIndex name) with
                  ieBits := (space.isTable (machPortIndex name)).ieBits ||| ieBitsCollision }
              else space.isTable (machPortIndex name))
            isTreeTotal := space.isTreeTotal + 1
            isTreeSmall := small
            isTree := SplayTree.insert Prod.snd (ite, name) tree
            ites := Function.update space.ites ite ⟨0, none, 0⟩ }, .tree ite) := by
  have hcard := card_smallIndices_cons space.tentries space.isTableSize
    (sizes.itsSize space.isTableNext) (ite, name)
  simp only [allocNameInTree]
  by_cases hsize : machPortIndex name < space.isTableSize
  · rw [if_neg (fun hc => absurd hsize hc.1.1.not_gt), ← h.tree.small] at hcard
    refine ⟨space.isTree, _, h.tree.wf, rfl, hcard.symm, ?_⟩
    simp [hsize, IpcSpace.setTable, IpcSpace.setEntry]
  by_cases hnsize : machPortIndex name < sizes.itsSize space.isTableNext
  · obtain ⟨tree, hwf, hel, heq⟩ := ipcEntryTreeCollision_eq { space with
      isTreeTotal := space.isTreeTotal + 1 } h.tree.wf h.tree.valid name
    simp only [hsize, hnsize, heq, if_true, if_false, update_eq_self,
      decide_eq_true_eq, IpcSpace.setEntry]
    refine ⟨tree, _, hwf, hel, rfl, ?_⟩
    have hin : space.isTableSize ≤ machPortIndex name ∧
        machPortIndex name < sizes.itsSize space.isTableNext := ⟨not_lt.mp hsize, hnsize⟩
    have hx : ({ space with isTreeTotal := space.isTreeTotal + 1 } : IpcSpace).tentries =
        space.tentries := rfl
    rw [hcard, hx, h.tree.small]
    simp only [hin, true_and]
    split_ifs <;> rfl
  · rw [if_neg (fun hc => hnsize hc.1.2), ← h.tree.small] at hcard
    refine ⟨space.isTree, _, h.tree.wf, rfl, hcard.symm, ?_⟩
    simp [hsize, hnsize, IpcSpace.setEntry]

/-- A name that is not in the space gets a tree entry. -/
theorem SpaceInv.allocNameInTree (h : SpaceInv sizes space) (hfast : space.isFast = false)
    (hvalid : machPortValid name) (hfresh : ∀ q, ¬space.Holds name q)
    (hslot : 0 < machPortIndex name → machPortIndex name < space.isTableSize →
      ieBitsType (space.isTable (machPortIndex name)).ieBits ≠ machPortTypeNone)
    (hite : ite ∉ addrs space.tentries) (r : IpcRight)
    (hspace : space' = (allocNameInTree sizes name ite space).1.store (.tree ite) r) :
    SpaceInv sizes space' ∧ space'.Holds name (.tree ite) ∧
      Updated space space' name (some r.content) := by
  obtain ⟨tree, small, hwf, hel, hsmall, heq⟩ := allocNameInTree_eq h name ite
  rw [heq] at hspace
  simp only [IpcSpace.store, IpcSpace.setEntry, IpcSpace.entry, update_self, update_idem] at hspace
  have hright : ieBitsRight (ieBitsStore 0 r.bits) = ieBitsStore 0 r.bits :=
    ieBitsRight_store_self rfl
  obtain ⟨htree, hmem⟩ := h.tree.insert hfast hvalid
    (fun e he hen => hfresh (.tree e.1) (by rw [← hen]; exact he)) hite
    (by simpa using r.inUse) hright hwf hel hsmall hspace
  obtain ⟨ht, htab⟩ := h
  have htable : space'.isTable = Function.update space.isTable (machPortIndex name)
      (if machPortIndex name < space.isTableSize then
        { space.isTable (machPortIndex name) with
          ieBits := (space.isTable (machPortIndex name)).ieBits ||| ieBitsCollision }
      else space.isTable (machPortIndex name)) := by rw [hspace]
  have hsize : space'.isTableSize = space.isTableSize := by rw [hspace]
  have htype (j : ℕ) : ieBitsType (space'.isTable j).ieBits =
      ieBitsType (space.isTable j).ieBits := by
    rw [htable]
    by_cases hj : j = machPortIndex name
    · subst hj
      rw [update_self]
      split_ifs <;> simp
    · rw [update_of_ne hj]
  have hgen (j : ℕ) : ieBitsGen (space'.isTable j).ieBits = ieBitsGen (space.isTable j).ieBits := by
    rw [htable]
    by_cases hj : j = machPortIndex name
    · subst hj
      rw [update_self]
      split_ifs <;> simp
    · rw [update_of_ne hj]
  have hinv : SpaceInv sizes space' := by
    refine ⟨htree, ?_⟩
    rw [hsize, htable]
    refine htab.update ?_ (fun htn => ⟨?_, ?_, fun h0 hi => ?_⟩) (fun hi => ?_)
      (fun x hx hxi h0 hi => ?_) fun x hxi => ?_
    · split_ifs <;> simp
    · split_ifs <;> rfl
    · split_ifs <;> simp
    · exact absurd htn (hslot h0 hi)
    · rw [if_pos hi]
      simp only [ieBitsCollides_or_collision, true_iff]
      exact ⟨(ite, name), (hmem _).mpr (Or.inl rfl), rfl⟩
    · rw [if_pos hi]
      simp only [ieBitsGen_or_collision]
      rcases (hmem x).mp hx with rfl | hx
      · exact fun hg => hfresh (.table (machPortIndex name)) ⟨rfl, h0, hi, hslot h0 hi, hg⟩
      · rw [← hxi]
        exact htab.gens x hx (hxi ▸ h0) (hxi ▸ hi)
    · rw [hmem]
      refine or_iff_right ?_
      rintro rfl
      exact hxi rfl
  have hp : space'.Holds name (.tree ite) := (hmem _).mpr (Or.inl rfl)
  have hcontent : space'.content (.tree ite) = r.content := by
    simp [IpcSpace.content, IpcSpace.entry, IpcRight.content, hspace]
  refine ⟨hinv, hp, hcontent ▸ updated_of_holds hinv hp (fun m hm q => ?_) fun m hm q hq => ?_⟩
  · cases q with
    | table j => simp only [IpcSpace.Holds, hsize, htype, hgen]
    | tree a =>
      simp only [IpcSpace.Holds, hmem]
      refine or_iff_right ?_
      rintro heq
      exact hm (congrArg Prod.snd heq)
  · cases q with
    | table j =>
      have hobj : (space'.isTable j).ieObject = (space.isTable j).ieObject ∧
          ieBitsRight (space'.isTable j).ieBits = ieBitsRight (space.isTable j).ieBits := by
        rw [htable]
        by_cases hj : j = machPortIndex name
        · subst hj
          rw [update_self]
          split_ifs <;> simp
        · rw [update_of_ne hj]
          exact ⟨rfl, rfl⟩
      simp only [IpcSpace.content, IpcSpace.entry, hobj]
    | tree a =>
      have hmem' : (a, m) ∈ space.tentries := hq
      have ha : a ≠ ite := by
        rintro rfl
        exact hite (mem_map_of_mem hmem')
      simp only [IpcSpace.content, IpcSpace.entry, hspace, update_of_ne ha]

end MachVirtuTerm
