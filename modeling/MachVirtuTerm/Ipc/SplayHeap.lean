import MachVirtuTerm.Ipc.Splay
import MachVirtuTerm.Lib.UnassembledSplay

/-!
# What the entries in memory represent

The entries reachable from a pointer form a binary tree of addresses and names.
The left tree of an unassembled tree is a spine whose last right link is a hole,
the right tree a spine whose last left link is one. As no entry occurs twice,
storing into a hole or relinking the root leaves every other piece in place.
Each macro of the lookup loop is one rearrangement of the three pieces.
-/

open List

namespace MachVirtuTerm

open SplayTree SplayCursor Or

/-- A tree entry as an element of a binary tree: its address and its name. -/
abbrev TreeNode := ℕ × MachPort

/-- The addresses of a list of elements. -/
def addrs (xs : List TreeNode) : List ℕ := xs.map Prod.fst

@[simp] theorem addrs_nil : addrs [] = [] := rfl

@[simp] theorem addrs_cons (e : TreeNode) (xs : List TreeNode) :
    addrs (e :: xs) = e.1 :: addrs xs := rfl

@[simp] theorem addrs_append (xs ys : List TreeNode) :
    addrs (xs ++ ys) = addrs xs ++ addrs ys := map_append

@[simp] theorem setLchild_self (h : TreeHeap) (a : ℕ) (p : Option ℕ) :
    h.setLchild a p a = { h a with iteLchild := p } := if_pos rfl

@[simp] theorem setRchild_self (h : TreeHeap) (a : ℕ) (p : Option ℕ) :
    h.setRchild a p a = { h a with iteRchild := p } := if_pos rfl

@[simp] theorem setName_self (h : TreeHeap) (a : ℕ) (n : MachPort) :
    h.setName a n a = { h a with iteName := n } := if_pos rfl

variable {h : TreeHeap}

theorem setLchild_of_ne {a b : ℕ} {p : Option ℕ} (hab : b ≠ a) :
    h.setLchild a p b = h b := if_neg hab

theorem setRchild_of_ne {a b : ℕ} {p : Option ℕ} (hab : b ≠ a) :
    h.setRchild a p b = h b := if_neg hab

theorem setName_of_ne {a b : ℕ} {n : MachPort} (hab : b ≠ a) : h.setName a n b = h b := if_neg hab

/-- The entries reachable from a pointer are those of a binary tree. -/
def IsTree (h : TreeHeap) : Option ℕ → BinaryTree TreeNode → Prop
  | p, .nil => p = none
  | p, .node e l r =>
    p = some e.1 ∧ (h e.1).iteName = e.2 ∧ IsTree h (h e.1).iteLchild l ∧
      IsTree h (h e.1).iteRchild r

/-- The entry the hole of a left spine belongs to. -/
def leftHole : LeftSpine TreeNode → Option ℕ
  | [] => none
  | (_, e) :: _ => some e.1

/-- The entry the hole of a right spine belongs to. -/
def rightHole : RightSpine TreeNode → Option ℕ
  | [] => none
  | (e, _) :: _ => some e.1

/-- `*ltreep`. -/
def loadLtreep (h : TreeHeap) (ltree : Option ℕ) : Option ℕ → Option ℕ
  | none => ltree
  | some a => (h a).iteRchild

/-- `*rtreep`. -/
def loadRtreep (h : TreeHeap) (rtree : Option ℕ) : Option ℕ → Option ℕ
  | none => rtree
  | some a => (h a).iteLchild

/-- The entries from `ltree` to the hole are those of a left spine. -/
def IsLeft (h : TreeHeap) (ltree : Option ℕ) : LeftSpine TreeNode → Prop
  | [] => True
  | (l, e) :: rest =>
    (h e.1).iteName = e.2 ∧ IsTree h (h e.1).iteLchild l ∧
      loadLtreep h ltree (leftHole rest) = some e.1 ∧ IsLeft h ltree rest

/-- The entries from `rtree` to the hole are those of a right spine. -/
def IsRight (h : TreeHeap) (rtree : Option ℕ) : RightSpine TreeNode → Prop
  | [] => True
  | (e, r) :: rest =>
    (h e.1).iteName = e.2 ∧ IsTree h (h e.1).iteRchild r ∧
      loadRtreep h rtree (rightHole rest) = some e.1 ∧ IsRight h rtree rest

/-- A cursor represents three pieces: the middle tree hangs from `tree`, the
spines from `ltree` and `rtree`, the pointers show to their holes, and all
entries are different. -/
structure Represents (c : SplayCursor) (p : Pieces TreeNode) : Prop where
  /-- The middle tree. -/
  mid : IsTree c.heap c.tree p.mid
  /-- The left spine. -/
  left : IsLeft c.heap c.ltree p.left
  /-- The hole of the left spine. -/
  ltreep : c.ltreep = leftHole p.left
  /-- The right spine. -/
  right : IsRight c.heap c.rtree p.right
  /-- The hole of the right spine. -/
  rtreep : c.rtreep = rightHole p.right
  /-- No entry occurs twice. -/
  nodup : (addrs p.elements).Nodup

/-- Memory agrees outside a set of entries. -/
def SameOutside (s : List ℕ) (h h' : TreeHeap) : Prop := ∀ a, a ∉ s → h' a = h a

theorem SameOutside.refl (s : List ℕ) (h : TreeHeap) : SameOutside s h h := fun _ _ => rfl

theorem SameOutside.trans {s : List ℕ} {h₁ h₂ h₃ : TreeHeap} (h12 : SameOutside s h₁ h₂)
    (h23 : SameOutside s h₂ h₃) : SameOutside s h₁ h₃ :=
  fun a ha => (h23 a ha).trans (h12 a ha)

theorem SameOutside.mono {s t : List ℕ} {h h' : TreeHeap} (hs : SameOutside s h h')
    (hst : ∀ a ∈ s, a ∈ t) : SameOutside t h h' :=
  fun a ha => hs a fun h => ha (hst a h)

/-- Storing into a field of an entry changes that entry only. -/
theorem sameOutside_setLchild {a : ℕ} {p : Option ℕ} {s : List ℕ} (ha : a ∈ s) :
    SameOutside s h (h.setLchild a p) :=
  fun _ hb => setLchild_of_ne fun hba => hb (hba ▸ ha)

theorem sameOutside_setRchild {a : ℕ} {p : Option ℕ} {s : List ℕ} (ha : a ∈ s) :
    SameOutside s h (h.setRchild a p) :=
  fun _ hb => setRchild_of_ne fun hba => hb (hba ▸ ha)

theorem sameOutside_setName {a : ℕ} {n : MachPort} {s : List ℕ} (ha : a ∈ s) :
    SameOutside s h (h.setName a n) :=
  fun _ hb => setName_of_ne fun hba => hb (hba ▸ ha)

/-- A tree depends on its own entries only. -/
theorem IsTree.congr {h h' : TreeHeap} {p : Option ℕ} {t : BinaryTree TreeNode}
    (ht : IsTree h p t) (hs : ∀ e ∈ elements t, h' e.1 = h e.1) : IsTree h' p t := by
  induction t generalizing p with
  | nil => exact ht
  | node e l r ihl ihr =>
    obtain ⟨hp, hname, hl, hr⟩ := ht
    have he := hs e (by simp)
    refine ⟨hp, by rw [he]; exact hname, ?_, ?_⟩
    · rw [he]
      exact ihl hl fun f hf => hs f (by simp [hf])
    · rw [he]
      exact ihr hr fun f hf => hs f (by simp [hf])

/-- A pointer to a tree is null exactly when the tree is empty. -/
theorem IsTree.eq_none_iff {p : Option ℕ} {t : BinaryTree TreeNode}
    (ht : IsTree h p t) : p = none ↔ t = .nil := by
  cases t with
  | nil => exact ⟨fun _ => rfl, fun _ => ht⟩
  | node e l r => simp [ht.1]

/-- The owner of a left hole is on the spine. -/
theorem mem_of_leftHole {L : LeftSpine TreeNode} {a : ℕ} (h : leftHole L = some a) :
    a ∈ addrs (leftElements L) := by
  cases L with
  | nil => simp [leftHole] at h
  | cons p rest =>
    obtain ⟨l, e⟩ := p
    simp only [leftHole, Option.some.injEq] at h
    simp [h]

/-- The owner of a right hole is on the spine. -/
theorem mem_of_rightHole {R : RightSpine TreeNode} {a : ℕ} (h : rightHole R = some a) :
    a ∈ addrs (rightElements R) := by
  cases R with
  | nil => simp [rightHole] at h
  | cons p rest =>
    obtain ⟨e, r⟩ := p
    simp only [rightHole, Option.some.injEq] at h
    simp [h]

section

variable {h h' : TreeHeap}

/-- Reading the left hole depends on the entries of the spine only. -/
theorem loadLtreep_congr {ltree : Option ℕ} {L : LeftSpine TreeNode}
    (hs : ∀ e ∈ leftElements L, h' e.1 = h e.1) :
    loadLtreep h' ltree (leftHole L) = loadLtreep h ltree (leftHole L) := by
  cases L with
  | nil => rfl
  | cons p rest =>
    obtain ⟨l, e⟩ := p
    simp only [leftHole, loadLtreep, hs e (by simp)]

/-- Reading the right hole depends on the entries of the spine only. -/
theorem loadRtreep_congr {rtree : Option ℕ} {R : RightSpine TreeNode}
    (hs : ∀ e ∈ rightElements R, h' e.1 = h e.1) :
    loadRtreep h' rtree (rightHole R) = loadRtreep h rtree (rightHole R) := by
  cases R with
  | nil => rfl
  | cons p rest =>
    obtain ⟨e, r⟩ := p
    simp only [rightHole, loadRtreep, hs e (by simp)]

/-- A left spine depends on its own entries only. -/
theorem IsLeft.congr {ltree : Option ℕ} {L : LeftSpine TreeNode}
    (hL : IsLeft h ltree L) (hs : ∀ e ∈ leftElements L, h' e.1 = h e.1) : IsLeft h' ltree L := by
  induction L with
  | nil => trivial
  | cons p rest ih =>
    obtain ⟨l, e⟩ := p
    obtain ⟨hname, hl, hload, hrest⟩ := hL
    have hrs : ∀ f ∈ leftElements rest, h' f.1 = h f.1 := fun f hf => hs f (by simp [hf])
    have he := hs e (by simp)
    refine ⟨by rw [he]; exact hname, ?_, by rw [loadLtreep_congr hrs]; exact hload, ih hrest hrs⟩
    rw [he]
    exact hl.congr fun f hf => hs f (by simp [hf])

/-- A right spine depends on its own entries only. -/
theorem IsRight.congr {rtree : Option ℕ} {R : RightSpine TreeNode}
    (hR : IsRight h rtree R) (hs : ∀ e ∈ rightElements R, h' e.1 = h e.1) :
    IsRight h' rtree R := by
  induction R with
  | nil => trivial
  | cons p rest ih =>
    obtain ⟨e, r⟩ := p
    obtain ⟨hname, hr, hload, hrest⟩ := hR
    have hrs : ∀ f ∈ rightElements rest, h' f.1 = h f.1 := fun f hf => hs f (by simp [hf])
    have he := hs e (by simp)
    refine ⟨by rw [he]; exact hname, ?_, by rw [loadRtreep_congr hrs]; exact hload, ih hrest hrs⟩
    rw [he]
    exact hr.congr fun f hf => hs f (by simp [hf])

end

/-- Putting a tree into the hole completes a left spine. -/
theorem IsLeft.fill {ltree : Option ℕ} {L : LeftSpine TreeNode}
    {t : BinaryTree TreeNode} (hL : IsLeft h ltree L)
    (ht : IsTree h (loadLtreep h ltree (leftHole L)) t) : IsTree h ltree (fillLeft L t) := by
  induction L generalizing t with
  | nil => exact ht
  | cons p rest ih =>
    obtain ⟨l, e⟩ := p
    obtain ⟨hname, hl, hload, hrest⟩ := hL
    exact ih hrest ⟨hload, hname, hl, ht⟩

/-- Putting a tree into the hole completes a right spine. -/
theorem IsRight.fill {rtree : Option ℕ} {R : RightSpine TreeNode}
    {t : BinaryTree TreeNode} (hR : IsRight h rtree R)
    (ht : IsTree h (loadRtreep h rtree (rightHole R)) t) : IsTree h rtree (fillRight R t) := by
  induction R generalizing t with
  | nil => exact ht
  | cons p rest ih =>
    obtain ⟨e, r⟩ := p
    obtain ⟨hname, hr, hload, hrest⟩ := hR
    exact ih hrest ⟨hload, hname, ht, hr⟩

section Stores

variable {c : SplayCursor} {L : LeftSpine TreeNode} {R : RightSpine TreeNode} {v : Option ℕ}

@[simp] theorem storeLtreep_tree : (c.storeLtreep v).tree = c.tree := by
  unfold storeLtreep
  split <;> rfl

@[simp] theorem storeLtreep_ltreep : (c.storeLtreep v).ltreep = c.ltreep := by
  unfold storeLtreep
  split <;> simp_all

@[simp] theorem storeLtreep_rtree : (c.storeLtreep v).rtree = c.rtree := by
  unfold storeLtreep
  split <;> rfl

@[simp] theorem storeLtreep_rtreep : (c.storeLtreep v).rtreep = c.rtreep := by
  unfold storeLtreep
  split <;> rfl

@[simp] theorem storeRtreep_tree : (c.storeRtreep v).tree = c.tree := by
  unfold storeRtreep
  split <;> rfl

@[simp] theorem storeRtreep_ltree : (c.storeRtreep v).ltree = c.ltree := by
  unfold storeRtreep
  split <;> rfl

@[simp] theorem storeRtreep_ltreep : (c.storeRtreep v).ltreep = c.ltreep := by
  unfold storeRtreep
  split <;> rfl

@[simp] theorem storeRtreep_rtreep : (c.storeRtreep v).rtreep = c.rtreep := by
  unfold storeRtreep
  split <;> simp_all

/-- Storing into the left hole changes the entry it belongs to, if any. -/
theorem sameOutside_storeLtreep (hp : c.ltreep = leftHole L) :
    SameOutside (addrs (leftElements L)) c.heap (c.storeLtreep v).heap := by
  unfold storeLtreep
  split
  · exact SameOutside.refl _ _
  · rename_i a ha
    exact sameOutside_setRchild (mem_of_leftHole (hp ▸ ha))

/-- Storing into the right hole changes the entry it belongs to, if any. -/
theorem sameOutside_storeRtreep (hp : c.rtreep = rightHole R) :
    SameOutside (addrs (rightElements R)) c.heap (c.storeRtreep v).heap := by
  unfold storeRtreep
  split
  · exact SameOutside.refl _ _
  · rename_i a ha
    exact sameOutside_setLchild (mem_of_rightHole (hp ▸ ha))

/-- After storing into the left hole the spine is the same and the hole holds
the pointer stored. -/
theorem isLeft_storeLtreep (hL : IsLeft c.heap c.ltree L) (hp : c.ltreep = leftHole L)
    (hn : (addrs (leftElements L)).Nodup) :
    IsLeft (c.storeLtreep v).heap (c.storeLtreep v).ltree L ∧
      loadLtreep (c.storeLtreep v).heap (c.storeLtreep v).ltree (leftHole L) = v := by
  cases L with
  | nil =>
    rw [storeLtreep, hp]
    exact ⟨trivial, rfl⟩
  | cons q rest =>
    obtain ⟨l, e⟩ := q
    obtain ⟨hname, hl, hload, hrest⟩ := hL
    simp only [leftElements_cons, addrs_append, addrs_cons, addrs_nil] at hn
    obtain ⟨_, hn2, hdis⟩ := nodup_append.mp hn
    obtain ⟨_, _, hdis2⟩ := nodup_append.mp hn2
    have hrs : ∀ f ∈ leftElements rest, c.heap.setRchild e.1 v f.1 = c.heap f.1 := by
      intro f hf
      exact setRchild_of_ne (hdis f.1 (mem_map_of_mem hf) e.1 (by simp))
    have hst : c.storeLtreep v = { c with heap := c.heap.setRchild e.1 v } := by
      simp [storeLtreep, hp, leftHole]
    rw [hst]
    refine ⟨⟨by simpa using hname, ?_, (loadLtreep_congr hrs).trans hload, hrest.congr hrs⟩, ?_⟩
    · simp only [setRchild_self]
      refine hl.congr fun f hf => setRchild_of_ne ?_
      exact hdis2 f.1 (mem_map_of_mem hf) e.1 (by simp)
    · simp [leftHole, loadLtreep]

/-- After storing into the right hole the spine is the same and the hole holds
the pointer stored. -/
theorem isRight_storeRtreep (hR : IsRight c.heap c.rtree R) (hp : c.rtreep = rightHole R)
    (hn : (addrs (rightElements R)).Nodup) :
    IsRight (c.storeRtreep v).heap (c.storeRtreep v).rtree R ∧
      loadRtreep (c.storeRtreep v).heap (c.storeRtreep v).rtree (rightHole R) = v := by
  cases R with
  | nil =>
    rw [storeRtreep, hp]
    exact ⟨trivial, rfl⟩
  | cons q rest =>
    obtain ⟨e, r⟩ := q
    obtain ⟨hname, hr, hload, hrest⟩ := hR
    simp only [rightElements_cons, cons_append, addrs_append, addrs_cons,
      nodup_cons, mem_append, not_or] at hn
    obtain ⟨⟨her, herest⟩, _⟩ := hn
    have hne {xs : List TreeNode} (he : e.1 ∉ addrs xs) :
        ∀ f ∈ xs, c.heap.setLchild e.1 v f.1 = c.heap f.1 :=
      fun f hf => setLchild_of_ne fun h => he (h ▸ mem_map_of_mem hf)
    have hst : c.storeRtreep v = { c with heap := c.heap.setLchild e.1 v } := by
      simp [storeRtreep, hp, rightHole]
    rw [hst]
    refine ⟨⟨by simpa using hname, ?_, (loadRtreep_congr (hne herest)).trans hload,
      hrest.congr (hne herest)⟩, ?_⟩
    · simp only [setLchild_self]
      exact hr.congr (hne her)
    · simp [rightHole, loadRtreep]

end Stores

section Macros

variable {c : SplayCursor} {L : LeftSpine TreeNode} {R : RightSpine TreeNode}
  {e f : TreeNode} {l r ll lr rl rr : BinaryTree TreeNode}

/-- Distinctness, for the pieces around a root: no two of the left spine, the two
subtrees, the root and the right spine share an entry. -/
theorem pieces_distinct (h : (addrs (Pieces.elements ⟨L, .node e l r, R⟩)).Nodup) :
    (addrs (leftElements L)).Nodup ∧ (addrs (rightElements R)).Nodup ∧
      (addrs (elements l)).Nodup ∧ (addrs (elements r)).Nodup ∧
      (∀ a ∈ addrs (leftElements L), a ∉ addrs (elements l) ∧ a ≠ e.1 ∧ a ∉ addrs (elements r) ∧
        a ∉ addrs (rightElements R)) ∧
      (∀ a ∈ addrs (rightElements R), a ∉ addrs (elements l) ∧ a ≠ e.1 ∧ a ∉ addrs (elements r)) ∧
      (∀ a ∈ addrs (elements l), a ≠ e.1 ∧ a ∉ addrs (elements r)) ∧
      ∀ a ∈ addrs (elements r), a ≠ e.1 := by
  simp only [Pieces.elements, elements_node, addrs_append, addrs_cons, nodup_append,
    nodup_cons, mem_append, mem_cons] at h
  obtain ⟨⟨hL, ⟨hl, ⟨he, hr⟩, hle⟩, hLm⟩, hR, hLR⟩ := h
  refine ⟨hL, hR, hl, hr, fun a ha => ⟨?_, ?_, ?_, ?_⟩, fun a ha => ⟨?_, ?_, ?_⟩,
    fun a ha => ⟨?_, ?_⟩, fun a ha => ?_⟩
  · exact fun h => hLm a ha a (inl h) rfl
  · exact hLm a ha e.1 (inr (inl rfl))
  · exact fun h => hLm a ha a (inr (inr h)) rfl
  · exact fun h => hLR a (inl ha) a h rfl
  · exact fun h => hLR a (inr (inl h)) a ha rfl
  · exact fun h => hLR a (inr (inr (inl h))) a ha rfl
  · exact fun h => hLR a (inr (inr (inr h))) a ha rfl
  · exact hle a ha e.1 (inl rfl)
  · exact fun h => hle a ha a (inr h) rfl
  · exact fun h => he (h ▸ ha)

/-- Entries of a list lie outside a set of addresses that excludes theirs. -/
theorem SameOutside.on {s : List ℕ} {h h' : TreeHeap} {xs : List TreeNode}
    (hs : SameOutside s h h') (hx : ∀ a ∈ addrs xs, a ∉ s) : ∀ f ∈ xs, h' f.1 = h f.1 :=
  fun f hf => hs f.1 (hx f.1 (mem_map_of_mem hf))

variable {t : BinaryTree TreeNode}

/-- Distinctness of the three pieces. -/
theorem pieces_disjoint (h : (addrs (Pieces.elements ⟨L, t, R⟩)).Nodup) :
    (addrs (leftElements L)).Nodup ∧ (addrs (rightElements R)).Nodup ∧
      (∀ a ∈ addrs (leftElements L), a ∉ addrs (elements t) ∧ a ∉ addrs (rightElements R)) ∧
      ∀ a ∈ addrs (rightElements R), a ∉ addrs (elements t) := by
  simp only [Pieces.elements, addrs_append, nodup_append, mem_append] at h
  obtain ⟨⟨hL, -, hLm⟩, hR, hLR⟩ := h
  refine ⟨hL, hR, fun a ha => ⟨fun h => hLm a ha a h rfl, fun h => hLR a (inl ha) a h rfl⟩,
    fun a ha h => hLR a (inr h) a ha rfl⟩

variable {v : Option ℕ}

/-- A store into the left hole leaves the pieces as they are. -/
theorem Represents.storeLtreep (h : Represents c ⟨L, t, R⟩) :
    Represents (c.storeLtreep v) ⟨L, t, R⟩ ∧
      loadLtreep (c.storeLtreep v).heap (c.storeLtreep v).ltree (leftHole L) = v ∧
      SameOutside (addrs (leftElements L)) c.heap (c.storeLtreep v).heap := by
  obtain ⟨hLn, -, hL, -⟩ := pieces_disjoint h.nodup
  have hs := sameOutside_storeLtreep (v := v) h.ltreep
  obtain ⟨hleft, hload⟩ := isLeft_storeLtreep (v := v) h.left h.ltreep hLn
  refine ⟨⟨?_, hleft, ?_, ?_, ?_, h.nodup⟩, hload, hs⟩
  · rw [storeLtreep_tree]
    exact h.mid.congr (hs.on fun a ha hm => (hL a hm).1 ha)
  · rw [storeLtreep_ltreep]
    exact h.ltreep
  · rw [storeLtreep_rtree]
    exact h.right.congr (hs.on fun a ha hm => (hL a hm).2 ha)
  · rw [storeLtreep_rtreep]
    exact h.rtreep

/-- A store into the right hole leaves the pieces as they are, and the left hole. -/
theorem Represents.storeRtreep (h : Represents c ⟨L, t, R⟩) :
    Represents (c.storeRtreep v) ⟨L, t, R⟩ ∧
      loadRtreep (c.storeRtreep v).heap (c.storeRtreep v).rtree (rightHole R) = v ∧
      loadLtreep (c.storeRtreep v).heap (c.storeRtreep v).ltree (leftHole L) =
        loadLtreep c.heap c.ltree (leftHole L) ∧
      SameOutside (addrs (rightElements R)) c.heap (c.storeRtreep v).heap := by
  obtain ⟨-, hRn, hL, hR⟩ := pieces_disjoint h.nodup
  have hs := sameOutside_storeRtreep (v := v) h.rtreep
  obtain ⟨hright, hload⟩ := isRight_storeRtreep (v := v) h.right h.rtreep hRn
  refine ⟨⟨?_, ?_, ?_, hright, ?_, h.nodup⟩, hload, ?_, hs⟩
  · rw [storeRtreep_tree]
    exact h.mid.congr (hs.on fun a ha hm => hR a hm ha)
  · rw [storeRtreep_ltree]
    exact h.left.congr (hs.on fun a ha hm => (hL a ha).2 hm)
  · rw [storeRtreep_ltreep]
    exact h.ltreep
  · rw [storeRtreep_rtreep]
    exact h.rtreep
  · rw [storeRtreep_ltree]
    exact loadLtreep_congr (hs.on fun a ha hm => (hL a ha).2 hm)

/-- Storing pointers to parts of the middle tree into both holes completes the
left and the right tree. -/
theorem Represents.fillHoles {t tl tr : BinaryTree TreeNode} {v w : Option ℕ}
    (h : Represents c ⟨L, t, R⟩) (hv : IsTree c.heap v tl) (hw : IsTree c.heap w tr)
    (hvt : ∀ a ∈ addrs (elements tl), a ∈ addrs (elements t))
    (hwt : ∀ a ∈ addrs (elements tr), a ∈ addrs (elements t)) :
    Represents ((c.storeLtreep v).storeRtreep w) ⟨L, t, R⟩ ∧
      IsTree ((c.storeLtreep v).storeRtreep w).heap ((c.storeLtreep v).storeRtreep w).ltree
        (fillLeft L tl) ∧
      IsTree ((c.storeLtreep v).storeRtreep w).heap ((c.storeLtreep v).storeRtreep w).rtree
        (fillRight R tr) ∧
      SameOutside (addrs (leftElements L) ++ addrs (rightElements R)) c.heap
        ((c.storeLtreep v).storeRtreep w).heap := by
  obtain ⟨-, -, hL, hR⟩ := pieces_disjoint h.nodup
  obtain ⟨h₁, hload₁, hs₁⟩ := h.storeLtreep (v := v)
  obtain ⟨h₂, hload₂, hkeep, hs₂⟩ := h₁.storeRtreep (v := w)
  have hs : SameOutside (addrs (leftElements L) ++ addrs (rightElements R)) c.heap
      ((c.storeLtreep v).storeRtreep w).heap :=
    (hs₁.mono fun a ha => mem_append_left _ ha).trans (hs₂.mono fun a ha => mem_append_right _ ha)
  have hout {u : BinaryTree TreeNode} (hu : ∀ a ∈ addrs (elements u), a ∈ addrs (elements t)) :
      ∀ f ∈ elements u, ((c.storeLtreep v).storeRtreep w).heap f.1 = c.heap f.1 := by
    refine hs.on fun a ha hm => ?_
    rcases mem_append.mp hm with hm | hm
    · exact (hL a hm).1 (hu a ha)
    · exact hR a hm (hu a ha)
  refine ⟨h₂, h₂.left.fill ?_, h₂.right.fill ?_, hs⟩
  · rw [hkeep, hload₁]
    exact hv.congr (hout hvt)
  · rw [hload₂]
    exact hw.congr (hout hwt)

/-- A store into the left hole leaves the root as it is. -/
theorem Represents.storeLtreep_root (h : Represents c ⟨L, .node e l r, R⟩) :
    (c.storeLtreep v).heap e.1 = c.heap e.1 := by
  obtain ⟨-, -, -, -, hL, -, -, -⟩ := pieces_distinct h.nodup
  exact sameOutside_storeLtreep h.ltreep e.1 fun hm => (hL e.1 hm).2.1 rfl

/-- A store into the right hole leaves the root as it is. -/
theorem Represents.storeRtreep_root (h : Represents c ⟨L, .node e l r, R⟩) :
    (c.storeRtreep v).heap e.1 = c.heap e.1 := by
  obtain ⟨-, -, -, -, -, hR, -, -⟩ := pieces_distinct h.nodup
  exact sameOutside_storeRtreep h.rtreep e.1 fun hm => (hR e.1 hm).2.1 rfl

/-- `link_left` hangs the root and its left subtree on the left spine. -/
theorem linkLeft_spec (h : Represents c ⟨L, .node e l r, R⟩) :
    ∃ c', linkLeft c = some c' ∧ Represents c' ⟨(l, e) :: L, r, R⟩ ∧
      SameOutside (addrs (leftElements L)) c.heap c'.heap := by
  obtain ⟨hLn, hRn, hln, hrn, hL, hR, hl, hr⟩ := pieces_distinct h.nodup
  obtain ⟨htree, hname, htl, htr⟩ := h.mid
  have hs := sameOutside_storeLtreep (v := some e.1) h.ltreep
  obtain ⟨hleft, hload⟩ := isLeft_storeLtreep (v := some e.1) h.left h.ltreep hLn
  have he : (c.storeLtreep (some e.1)).heap e.1 = c.heap e.1 :=
    hs e.1 fun hm => (hL e.1 hm).2.1 rfl
  have hrun : linkLeft c = some { c.storeLtreep (some e.1) with
      ltreep := some e.1, tree := ((c.storeLtreep (some e.1)).heap e.1).iteRchild } := by
    simp [linkLeft, htree]
  refine ⟨_, hrun, ⟨?_, ⟨?_, ?_, hload, hleft⟩, rfl, ?_, ?_, ?_⟩, hs⟩
  · rw [he]
    exact htr.congr (hs.on fun a ha hm => (hL a hm).2.2.1 ha)
  · rw [he]
    exact hname
  · rw [he]
    exact htl.congr (hs.on fun a ha hm => (hL a hm).1 ha)
  · simp only [storeLtreep_rtree]
    exact h.right.congr (hs.on fun a ha hm => (hL a hm).2.2.2 ha)
  · simpa using h.rtreep
  · simpa [Pieces.elements] using h.nodup

/-- `link_right` hangs the root and its right subtree on the right spine. -/
theorem linkRight_spec (h : Represents c ⟨L, .node e l r, R⟩) :
    ∃ c', linkRight c = some c' ∧ Represents c' ⟨L, l, (e, r) :: R⟩ ∧
      SameOutside (addrs (rightElements R)) c.heap c'.heap := by
  obtain ⟨hLn, hRn, hln, hrn, hL, hR, hl, hr⟩ := pieces_distinct h.nodup
  obtain ⟨htree, hname, htl, htr⟩ := h.mid
  have hs := sameOutside_storeRtreep (v := some e.1) h.rtreep
  obtain ⟨hright, hload⟩ := isRight_storeRtreep (v := some e.1) h.right h.rtreep hRn
  have he : (c.storeRtreep (some e.1)).heap e.1 = c.heap e.1 :=
    hs e.1 fun hm => (hR e.1 hm).2.1 rfl
  have hrun : linkRight c = some { c.storeRtreep (some e.1) with
      rtreep := some e.1, tree := ((c.storeRtreep (some e.1)).heap e.1).iteLchild } := by
    simp [linkRight, htree]
  refine ⟨_, hrun, ⟨?_, ?_, ?_, ⟨?_, ?_, hload, hright⟩, rfl, ?_⟩, hs⟩
  · rw [he]
    exact htl.congr (hs.on fun a ha hm => (hR a hm).1 ha)
  · simp only [storeRtreep_ltree]
    exact h.left.congr (hs.on fun a ha hm => (hL a ha).2.2.2 hm)
  · simpa using h.ltreep
  · rw [he]
    exact hname
  · rw [he]
    exact htr.congr (hs.on fun a ha hm => (hR a hm).2.2 ha)
  · simpa [Pieces.elements] using h.nodup

/-- `rotate_right` makes the left child the root. -/
theorem rotateRight_spec (h : Represents c ⟨L, .node e (.node f ll lr) r, R⟩) :
    ∃ c', rotateRight c = some c' ∧ Represents c' ⟨L, .node f ll (.node e lr r), R⟩ ∧
      SameOutside [e.1, f.1] c.heap c'.heap := by
  obtain ⟨-, -, hln, -, hL, hR, hl, hr⟩ := pieces_distinct h.nodup
  obtain ⟨htree, hname, ⟨hchild, hfname, htll, htlr⟩, htr⟩ := h.mid
  simp only [elements_node, addrs_append, addrs_cons, mem_append, mem_cons, not_or,
    nodup_append, nodup_cons] at hL hR hl hln
  have hfe : f.1 ≠ e.1 := (hl f.1 (by simp)).1
  have hs : SameOutside [e.1, f.1] c.heap
      ((c.heap.setLchild e.1 (c.heap f.1).iteRchild).setRchild f.1 (some e.1)) :=
    (sameOutside_setLchild (by simp)).trans (sameOutside_setRchild (by simp))
  have hee : ((c.heap.setLchild e.1 (c.heap f.1).iteRchild).setRchild f.1 (some e.1)) e.1 =
      { c.heap e.1 with iteLchild := (c.heap f.1).iteRchild } := by
    rw [setRchild_of_ne hfe.symm, setLchild_self]
  have hff : ((c.heap.setLchild e.1 (c.heap f.1).iteRchild).setRchild f.1 (some e.1)) f.1 =
      { c.heap f.1 with iteRchild := some e.1 } := by
    rw [setRchild_self, setLchild_of_ne hfe]
  have hrun : rotateRight c = some { c with
      heap := (c.heap.setLchild e.1 (c.heap f.1).iteRchild).setRchild f.1 (some e.1),
      tree := some f.1 } := by
    simp [rotateRight, htree, hchild]
  refine ⟨_, hrun, ⟨⟨rfl, ?_, ?_, ?_, ?_, ?_, ?_⟩, ?_, h.ltreep, ?_, h.rtreep, ?_⟩, hs⟩
  · simp only [hff]
    exact hfname
  · simp only [hff]
    refine htll.congr (hs.on fun a ha hm => ?_)
    rcases mem_pair.mp hm with rfl | rfl
    · exact (hl _ (inl ha)).1 rfl
    · exact hln.2.2 _ ha _ (inl rfl) rfl
  · simp only [hff]
  · simp only [hee]
    exact hname
  · simp only [hee]
    refine htlr.congr (hs.on fun a ha hm => ?_)
    rcases mem_pair.mp hm with rfl | rfl
    · exact (hl _ (inr (inr ha))).1 rfl
    · exact hln.2.1.1 ha
  · simp only [hee]
    refine htr.congr (hs.on fun a ha hm => ?_)
    rcases mem_pair.mp hm with rfl | rfl
    · exact hr _ ha rfl
    · exact (hl _ (inr (inl rfl))).2 ha
  · refine h.left.congr (hs.on fun a ha hm => ?_)
    rcases mem_pair.mp hm with rfl | rfl
    · exact (hL _ ha).2.1 rfl
    · exact (hL _ ha).1.2.1 rfl
  · refine h.right.congr (hs.on fun a ha hm => ?_)
    rcases mem_pair.mp hm with rfl | rfl
    · exact (hR _ ha).2.1 rfl
    · exact (hR _ ha).1.2.1 rfl
  · simpa [Pieces.elements] using h.nodup

/-- `rotate_left` makes the right child the root. -/
theorem rotateLeft_spec (h : Represents c ⟨L, .node e l (.node f rl rr), R⟩) :
    ∃ c', rotateLeft c = some c' ∧ Represents c' ⟨L, .node f (.node e l rl) rr, R⟩ ∧
      SameOutside [e.1, f.1] c.heap c'.heap := by
  obtain ⟨-, -, -, hrn, hL, hR, hl, hr⟩ := pieces_distinct h.nodup
  obtain ⟨htree, hname, htl, hchild, hfname, htrl, htrr⟩ := h.mid
  simp only [elements_node, addrs_append, addrs_cons, mem_append, mem_cons, not_or,
    nodup_append, nodup_cons] at hL hR hl hr hrn
  have hfe : f.1 ≠ e.1 := hr f.1 (by simp)
  have hs : SameOutside [e.1, f.1] c.heap
      ((c.heap.setRchild e.1 (c.heap f.1).iteLchild).setLchild f.1 (some e.1)) :=
    (sameOutside_setRchild (by simp)).trans (sameOutside_setLchild (by simp))
  have hee : ((c.heap.setRchild e.1 (c.heap f.1).iteLchild).setLchild f.1 (some e.1)) e.1 =
      { c.heap e.1 with iteRchild := (c.heap f.1).iteLchild } := by
    rw [setLchild_of_ne hfe.symm, setRchild_self]
  have hff : ((c.heap.setRchild e.1 (c.heap f.1).iteLchild).setLchild f.1 (some e.1)) f.1 =
      { c.heap f.1 with iteLchild := some e.1 } := by
    rw [setLchild_self, setRchild_of_ne hfe]
  have hrun : rotateLeft c = some { c with
      heap := (c.heap.setRchild e.1 (c.heap f.1).iteLchild).setLchild f.1 (some e.1),
      tree := some f.1 } := by
    simp [rotateLeft, htree, hchild]
  refine ⟨_, hrun, ⟨⟨rfl, ?_, ⟨?_, ?_, ?_, ?_⟩, ?_⟩, ?_, h.ltreep, ?_, h.rtreep, ?_⟩, hs⟩
  · simp only [hff]
    exact hfname
  · simp only [hff]
  · simp only [hee]
    exact hname
  · simp only [hee]
    refine htl.congr (hs.on fun a ha hm => ?_)
    rcases mem_pair.mp hm with rfl | rfl
    · exact (hl _ ha).1 rfl
    · exact (hl _ ha).2.2.1 rfl
  · simp only [hee]
    refine htrl.congr (hs.on fun a ha hm => ?_)
    rcases mem_pair.mp hm with rfl | rfl
    · exact hr _ (inl ha) rfl
    · exact hrn.2.2 _ ha _ (inl rfl) rfl
  · simp only [hff]
    refine htrr.congr (hs.on fun a ha hm => ?_)
    rcases mem_pair.mp hm with rfl | rfl
    · exact hr _ (inr (inr ha)) rfl
    · exact hrn.2.1.1 ha
  · refine h.left.congr (hs.on fun a ha hm => ?_)
    rcases mem_pair.mp hm with rfl | rfl
    · exact (hL _ ha).2.1 rfl
    · exact (hL _ ha).2.2.1.2.1 rfl
  · refine h.right.congr (hs.on fun a ha hm => ?_)
    rcases mem_pair.mp hm with rfl | rfl
    · exact (hR _ ha).2.1 rfl
    · exact (hR _ ha).2.2.2.1 rfl
  · simpa [Pieces.elements] using h.nodup

end Macros

end MachVirtuTerm
