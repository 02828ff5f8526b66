import MachVirtuTerm.Ipc.SplayRefinement

/-!
# A traversal visits every entry once

In the middle of a traversal the entries are a tree at the current entry and the way up from it,
whose links towards the current entry point up instead. Each label of `ipc_splay_traverse_next`
moves along this way and leaves the order of the entries as it is.
-/

open List Option

namespace MachVirtuTerm

open SplayTree Prod

/-- An entry above the current one, with its subtree on the other side. -/
inductive Above where
  /-- The current entry is in the left subtree. -/
  | left (e : TreeNode) (r : BinaryTree TreeNode)
  /-- The current entry is in the right subtree. -/
  | right (e : TreeNode) (l : BinaryTree TreeNode)

/-- The entries before the subtree at the end of a way. -/
def beforeWay : List Above → List TreeNode
  | [] => []
  | .left _ _ :: way => beforeWay way
  | .right e l :: way => beforeWay way ++ (elements l ++ [e])

/-- The entries after the subtree at the end of a way. -/
def afterWay : List Above → List TreeNode
  | [] => []
  | .left e r :: way => e :: elements r ++ afterWay way
  | .right _ _ :: way => afterWay way

/-- All entries, in order. -/
def around (t : BinaryTree TreeNode) (way : List Above) : List TreeNode :=
  beforeWay way ++ (elements t ++ afterWay way)

/-- The links from `parent` go up the way. -/
def IsWay (h : TreeHeap) : Option ℕ → List Above → Prop
  | parent, [] => parent = none
  | parent, .left e r :: way =>
    parent = some e.1 ∧ (h e.1).iteName = e.2 ∧ IsTree h (h e.1).iteRchild r ∧
      IsWay h (h e.1).iteLchild way
  | parent, .right e l :: way =>
    parent = some e.1 ∧ (h e.1).iteName = e.2 ∧ IsTree h (h e.1).iteLchild l ∧
      IsWay h (h e.1).iteRchild way

/-- The memory in the middle of a traversal. -/
structure Inverted (h : TreeHeap) (current parent : Option ℕ) (t : BinaryTree TreeNode)
    (way : List Above) : Prop where
  tree : IsTree h current t
  up : IsWay h parent way
  sorted : Sorted snd (around t way)
  nodup : (addrs (around t way)).Nodup

section Ways

variable {h h' : TreeHeap} {current parent : Option ℕ} {e : TreeNode}
  {t l r : BinaryTree TreeNode} {way : List Above}

/-- A way depends on its own entries only. -/
theorem IsWay.congr (hw : IsWay h parent way)
    (hs : ∀ f ∈ beforeWay way ++ afterWay way, h' f.1 = h f.1) :
    IsWay h' parent way := by
  induction way generalizing parent with
  | nil => exact hw
  | cons above way ih =>
    cases above with
    | left e r =>
      obtain ⟨hp, hname, hr, hrest⟩ := hw
      simp only [beforeWay, afterWay, mem_append, mem_cons] at hs ih
      have he := hs e (by simp)
      refine ⟨hp, by rw [he]; exact hname, ?_, ?_⟩
      · rw [he]
        exact hr.congr fun f hf => hs f (by simp [hf])
      · rw [he]
        apply ih hrest
        rintro f (hf | hf)
        · exact hs f (by simp [hf])
        · exact hs f (by simp [hf])
    | right e l =>
      obtain ⟨hp, hname, hl, hrest⟩ := hw
      simp only [beforeWay, afterWay, mem_append, mem_cons] at hs ih
      have he := hs e (by simp)
      refine ⟨hp, by rw [he]; exact hname, ?_, ?_⟩
      · rw [he]
        exact hl.congr fun f hf => hs f (by simp [hf])
      · rw [he]
        apply ih hrest
        rintro f (hf | hf)
        · exact hs f (by simp [hf])
        · exact hs f (by simp [hf])

/-- A way is no longer than its entries. -/
theorem way_length_le (way : List Above) :
    way.length ≤ (beforeWay way).length + (afterWay way).length := by
  induction way with
  | nil => exact Nat.le_refl _
  | cons above way ih =>
    cases above with
    | left e r =>
      simp only [beforeWay, afterWay, length_cons, length_append]
      omega
    | right e l =>
      simp only [beforeWay, afterWay, length_cons, length_append, length_nil]
      omega

theorem around_node (e : TreeNode) (l r : BinaryTree TreeNode) (way : List Above) :
    around (.node e l r) way = beforeWay way ++ elements l ++ e :: (elements r ++ afterWay way) := by
  simp only [around, elements_node, append_assoc, cons_append]

theorem around_left (e : TreeNode) (l r : BinaryTree TreeNode) (way : List Above) :
    around l (.left e r :: way) = around (.node e l r) way := by
  simp only [around, beforeWay, afterWay, elements_node, append_assoc, cons_append]

theorem around_right (e : TreeNode) (l r : BinaryTree TreeNode) (way : List Above) :
    around r (.right e l :: way) = around (.node e l r) way := by
  simp only [around, beforeWay, afterWay, elements_node, append_assoc, cons_append, nil_append]

/-- The other entries have other addresses. -/
theorem ne_of_around (hn : (addrs (around (.node e l r) way)).Nodup) {f : TreeNode}
    (hf : f ∈ beforeWay way ++ elements l ++ (elements r ++ afterWay way)) : f.1 ≠ e.1 := by
  rw [around_node, addrs_append, addrs_cons, nodup_middle, ← addrs_append, nodup_cons] at hn
  intro heq
  exact hn.1 (heq ▸ List.mem_map_of_mem hf)

theorem IsTree.congr_of_ne {t : BinaryTree TreeNode} {a : ℕ} (ht : IsTree h current t)
    (hne : ∀ f ∈ elements t, f.1 ≠ a) (hs : ∀ b, b ≠ a → h' b = h b) : IsTree h' current t :=
  ht.congr fun f hf => hs f.1 (hne f hf)

theorem IsWay.congr_of_ne {a : ℕ} (hw : IsWay h parent way)
    (hne : ∀ f ∈ beforeWay way ++ afterWay way, f.1 ≠ a) (hs : ∀ b, b ≠ a → h' b = h b) :
    IsWay h' parent way :=
  hw.congr fun f hf => hs f.1 (hne f hf)

/-- Down to the left subtree. -/
theorem Inverted.downLeft (hi : Inverted h (some e.1) parent (.node e l r) way) :
    Inverted (h.setLchild e.1 parent) (h e.1).iteLchild (some e.1) l (.left e r :: way) := by
  obtain ⟨-, hname, hl, hr⟩ := hi.tree
  have hne := fun f => ne_of_around (f := f) hi.nodup
  have hs : ∀ b, b ≠ e.1 → h.setLchild e.1 parent b = h b := fun b hb => setLchild_of_ne hb
  constructor
  · exact hl.congr_of_ne (fun f hf => hne f (by simp [hf])) hs
  · refine ⟨rfl, ?_, ?_, ?_⟩
    · rw [setLchild_self]
      exact hname
    · rw [setLchild_self]
      exact hr.congr_of_ne (fun f hf => hne f (by simp [hf])) hs
    · rw [setLchild_self]
      apply hi.up.congr_of_ne _ hs
      intro f hf
      rcases mem_append.mp hf with hf | hf
      · exact hne f (by simp [hf])
      · exact hne f (by simp [hf])
  · rw [around_left]
    exact hi.sorted
  · rw [around_left]
    exact hi.nodup

/-- Down to the right subtree. -/
theorem Inverted.downRight (hi : Inverted h (some e.1) parent (.node e l r) way) :
    Inverted (h.setRchild e.1 parent) (h e.1).iteRchild (some e.1) r (.right e l :: way) := by
  obtain ⟨-, hname, hl, hr⟩ := hi.tree
  have hne := fun f => ne_of_around (f := f) hi.nodup
  have hs : ∀ b, b ≠ e.1 → h.setRchild e.1 parent b = h b := fun b hb => setRchild_of_ne hb
  constructor
  · exact hr.congr_of_ne (fun f hf => hne f (by simp [hf])) hs
  · refine ⟨rfl, ?_, ?_, ?_⟩
    · rw [setRchild_self]
      exact hname
    · rw [setRchild_self]
      exact hl.congr_of_ne (fun f hf => hne f (by simp [hf])) hs
    · rw [setRchild_self]
      apply hi.up.congr_of_ne _ hs
      intro f hf
      rcases mem_append.mp hf with hf | hf
      · exact hne f (by simp [hf])
      · exact hne f (by simp [hf])
  · rw [around_right]
    exact hi.sorted
  · rw [around_right]
    exact hi.nodup

/-- Up from a left subtree. -/
theorem Inverted.upLeft (hi : Inverted h current parent t (.left e r :: way)) :
    parent = some e.1 ∧
      Inverted (h.setLchild e.1 current) (some e.1) (h e.1).iteLchild (.node e t r) way := by
  obtain ⟨hp, hname, hr, hw⟩ := hi.up
  have hsorted := hi.sorted
  have hnodup := hi.nodup
  rw [around_left] at hsorted hnodup
  have hne := fun f => ne_of_around (f := f) hnodup
  have hs : ∀ b, b ≠ e.1 → h.setLchild e.1 current b = h b := fun b hb => setLchild_of_ne hb
  refine ⟨hp, ⟨rfl, ?_, ?_, ?_⟩, ?_, hsorted, hnodup⟩
  · rw [setLchild_self]
    exact hname
  · rw [setLchild_self]
    exact hi.tree.congr_of_ne (fun f hf => hne f (by simp [hf])) hs
  · rw [setLchild_self]
    exact hr.congr_of_ne (fun f hf => hne f (by simp [hf])) hs
  · apply hw.congr_of_ne _ hs
    intro f hf
    rcases mem_append.mp hf with hf | hf
    · exact hne f (by simp [hf])
    · exact hne f (by simp [hf])

/-- Up from a right subtree. -/
theorem Inverted.upRight (hi : Inverted h current parent t (.right e l :: way)) :
    parent = some e.1 ∧
      Inverted (h.setRchild e.1 current) (some e.1) (h e.1).iteRchild (.node e l t) way := by
  obtain ⟨hp, hname, hl, hw⟩ := hi.up
  have hsorted := hi.sorted
  have hnodup := hi.nodup
  rw [around_right] at hsorted hnodup
  have hne := fun f => ne_of_around (f := f) hnodup
  have hs : ∀ b, b ≠ e.1 → h.setRchild e.1 current b = h b := fun b hb => setRchild_of_ne hb
  refine ⟨hp, ⟨rfl, ?_, ?_, ?_⟩, ?_, hsorted, hnodup⟩
  · rw [setRchild_self]
    exact hname
  · rw [setRchild_self]
    exact hl.congr_of_ne (fun f hf => hne f (by simp [hf])) hs
  · rw [setRchild_self]
    exact hi.tree.congr_of_ne (fun f hf => hne f (by simp [hf])) hs
  · apply hw.congr_of_ne _ hs
    intro f hf
    rcases mem_append.mp hf with hf | hf
    · exact hne f (by simp [hf])
    · exact hne f (by simp [hf])

/-- The current entry goes, and another tree of the other entries below it takes its place. -/
theorem Inverted.replace (hi : Inverted h (some e.1) parent (.node e l r) way)
    {next : Option ℕ} (ht : IsTree h' next t) (hel : elements t = elements l ++ elements r)
    (hs : ∀ f ∈ beforeWay way ++ afterWay way, h' f.1 = h f.1) : Inverted h' next parent t way := by
  have hsub : (around t way).Sublist (around (.node e l r) way) := by
    rw [around_node, around, hel]
    simp only [append_assoc]
    exact ((sublist_cons_self ..).append_left _).append_left _
  exact ⟨ht, hi.up.congr hs, hi.sorted.sublist hsub, hi.nodup.sublist (hsub.map _)⟩

end Ways

/-- The traversal is over, and these entries are left. -/
def Finished (x : Traversal) (kept : List TreeNode) : Prop :=
  x.2.2 = none ∧ ∃ t, IsTree x.1 x.2.1.istRoot t ∧ elements t = kept ∧
    Sorted snd (elements t) ∧ (addrs (elements t)).Nodup

/-- An entry is visited; some before it are left, and some are to come. -/
def Visiting (x : Traversal) (kept : List TreeNode) (e : TreeNode) (rest : List TreeNode) : Prop :=
  x.2.2 = some e.1 ∧ x.2.1.istLtree = some e.1 ∧ ∃ l r way,
    Inverted x.1 (some e.1) x.2.1.istRtree (.node e l r) way ∧ beforeWay way ++ elements l = kept ∧
      elements r ++ afterWay way = rest

/-- What a call returns, by the entries left before and those to come. -/
def Outcome (x : Traversal) (kept : List TreeNode) : List TreeNode → Prop
  | [] => Finished x kept
  | e :: rest => Visiting x kept e rest

section Labels

variable {h : TreeHeap} {current parent : Option ℕ} {c fuel : ℕ} {e : TreeNode}
  {t l r : BinaryTree TreeNode} {way : List Above} (splay : IpcSplayTree)

theorem numNodes_le_around (t : BinaryTree TreeNode) (way : List Above) :
    t.numNodes ≤ (around t way).length := by
  rw [numNodes_eq_length, around, length_append, length_append]
  omega

theorem way_le_around (t : BinaryTree TreeNode) (way : List Above) :
    way.length ≤ (around t way).length := by
  have hway := way_length_le way
  rw [around, length_append, length_append]
  omega

/-- `traverse_left` comes to the first entry of the subtree. -/
theorem traverseLeft_outcome (hi : Inverted h (some c) parent t way) (hf : t.numNodes < fuel) :
    ∃ x, traverseLeft splay fuel h c parent = some x ∧
      Outcome x (beforeWay way) (elements t ++ afterWay way) := by
  induction t generalizing h c parent way fuel with
  | nil => cases hi.tree
  | node e l r ihl _ =>
    obtain ⟨fuel, rfl⟩ : ∃ m, fuel = m + 1 := ⟨fuel - 1, by omega⟩
    obtain rfl : c = e.1 := Option.some.inj hi.tree.1
    have hl := hi.tree.2.2.1
    simp only [BinaryTree.numNodes] at hf
    cases hlchild : (h e.1).iteLchild with
    | none =>
      obtain rfl : l = .nil := hl.eq_none_iff.mp hlchild
      refine ⟨traverseEntry h splay e.1 parent, ?_, rfl, rfl, .nil, r, way, hi, ?_, ?_⟩
      · simp only [traverseLeft, hlchild]
      · exact append_nil _
      · rfl
    | some next =>
      have hdown := hi.downLeft
      rw [hlchild] at hdown
      have hfuel : l.numNodes < fuel := by omega
      obtain ⟨x, hrun, hout⟩ := ihl hdown hfuel
      refine ⟨x, ?_, ?_⟩
      · simp only [traverseLeft, hlchild]
        exact hrun
      · simp only [beforeWay, afterWay] at hout
        rw [elements_node, append_assoc]
        exact hout

/-- `traverse_back` comes to the next entry above whose left subtree this was, or to an end. -/
theorem traverseBack_outcome (hi : Inverted h (some c) parent t way) (hf : way.length < fuel) :
    ∃ x, traverseBack splay fuel h c parent = some x ∧
      Outcome x (beforeWay way ++ elements t) (afterWay way) := by
  induction way generalizing h c parent t fuel with
  | nil =>
    obtain ⟨fuel, rfl⟩ : ∃ m, fuel = m + 1 := ⟨fuel - 1, by omega⟩
    obtain rfl : parent = none := hi.up
    have hall : around t [] = elements t := by
      simp only [around, beforeWay, afterWay, nil_append, append_nil]
    refine ⟨(h, { splay with istRoot := some c }, none), rfl, rfl, t, hi.tree, rfl, ?_, ?_⟩
    · rw [← hall]
      exact hi.sorted
    · rw [← hall]
      exact hi.nodup
  | cons above way ih =>
    obtain ⟨fuel, rfl⟩ : ∃ m, fuel = m + 1 := ⟨fuel - 1, by omega⟩
    rw [length_cons] at hf
    cases t with
    | nil => cases hi.tree
    | node f fl fr =>
      obtain rfl : c = f.1 := Option.some.inj hi.tree.1
      have hcname := hi.tree.2.1
      have hf' : f ∈ elements (.node f fl fr) := by simp
      cases above with
      | left e r =>
        obtain ⟨rfl, hup⟩ := hi.upLeft
        have hename := hi.up.2.1
        have hsorted := hup.sorted
        rw [around_node] at hsorted
        have hlt : f.2 < e.2 := by
          apply (pairwise_append.mp hsorted).2.2 f _ e (mem_cons_self ..)
          exact mem_append_right _ hf'
        refine ⟨traverseEntry (h.setLchild e.1 (some f.1)) splay e.1 (h e.1).iteLchild, ?_, rfl,
          rfl, .node f fl fr, r, way, hup, rfl, rfl⟩
        simp only [traverseBack, hcname, hename, if_pos hlt]
      | right e l =>
        obtain ⟨rfl, hup⟩ := hi.upRight
        have hename := hi.up.2.1
        have hsorted := hup.sorted
        rw [around_node] at hsorted
        have hlt : e.2 < f.2 := by
          have htail := (pairwise_append.mp hsorted).2.1
          apply (pairwise_cons.mp htail).1
          exact mem_append_left _ hf'
        have hfuel : way.length < fuel := by omega
        obtain ⟨x, hrun, hout⟩ := ih hup hfuel
        refine ⟨x, ?_, ?_⟩
        · simp only [traverseBack, hcname, hename, if_neg hlt.not_gt]
          exact hrun
        · simp only [beforeWay, afterWay]
          rw [elements_node] at hout
          simp only [append_assoc, singleton_append]
          exact hout

/-- `traverse_right` comes to the entry after the current one. -/
theorem traverseRight_outcome (hi : Inverted h (some e.1) parent (.node e l r) way)
    (hf : (around (.node e l r) way).length < fuel) :
    ∃ x, traverseRight splay fuel h e.1 parent = some x ∧
      Outcome x (beforeWay way ++ elements l ++ [e]) (elements r ++ afterWay way) := by
  have hr := hi.tree.2.2.2
  have hway := way_le_around (.node e l r) way
  cases hrchild : (h e.1).iteRchild with
  | none =>
    obtain rfl : r = .nil := hr.eq_none_iff.mp hrchild
    have hfuel : way.length < fuel := by omega
    obtain ⟨x, hrun, hout⟩ := traverseBack_outcome splay hi hfuel
    refine ⟨x, ?_, ?_⟩
    · simp only [traverseRight, hrchild]
      exact hrun
    · rw [elements_node, elements_nil, ← append_assoc] at hout
      exact hout
  | some next =>
    have hdown := hi.downRight
    rw [hrchild] at hdown
    have hnodes := numNodes_le_around r (.right e l :: way)
    rw [around_right] at hnodes
    have hfuel : r.numNodes < fuel := by omega
    obtain ⟨x, hrun, hout⟩ := traverseLeft_outcome splay hdown hfuel
    refine ⟨x, ?_, ?_⟩
    · simp only [traverseRight, hrchild]
      exact hrun
    · simp only [beforeWay, afterWay, ← append_assoc] at hout
      exact hout

/-- Deleting the current entry leaves those before it and goes on to those after it. -/
theorem traverseDelete_outcome (poison : ℕ → IpcTreeEntry)
    (hi : Inverted h (some e.1) parent (.node e l r) way)
    (hf : (around (.node e l r) way).length < fuel) :
    ∃ x, traverseDelete poison splay fuel h e.1 parent = some x ∧
      Outcome x (beforeWay way ++ elements l) (elements r ++ afterWay way) := by
  obtain ⟨-, hname, hl, hr⟩ := hi.tree
  have hne := fun f => ne_of_around (f := f) hi.nodup
  have hway := way_le_around (.node e l r) way
  have hfree : ∀ b, b ≠ e.1 → h.iteFree poison e.1 b = h b := fun b hb => if_neg hb
  have hrest : ∀ f ∈ beforeWay way ++ afterWay way, h.iteFree poison e.1 f.1 = h f.1 := by
    intro f hf
    apply hfree
    rcases mem_append.mp hf with hf | hf
    · exact hne f (by simp [hf])
    · exact hne f (by simp [hf])
  have hl' : IsTree (h.iteFree poison e.1) (h e.1).iteLchild l :=
    hl.congr_of_ne (fun f hf => hne f (by simp [hf])) hfree
  have hr' : IsTree (h.iteFree poison e.1) (h e.1).iteRchild r :=
    hr.congr_of_ne (fun f hf => hne f (by simp [hf])) hfree
  cases hlchild : (h e.1).iteLchild with
  | none =>
    obtain rfl : l = .nil := hl.eq_none_iff.mp hlchild
    cases hrchild : (h e.1).iteRchild with
    | none =>
      obtain rfl : r = .nil := hr.eq_none_iff.mp hrchild
      have hgone : Inverted (h.iteFree poison e.1) none parent .nil way :=
        hi.replace rfl rfl hrest
      cases way with
      | nil =>
        obtain rfl : parent = none := hi.up
        refine ⟨(h.iteFree poison e.1, { splay with istRoot := none }, none), ?_, rfl, .nil, rfl, rfl,
          List.Pairwise.nil, nodup_nil⟩
        simp only [traverseDelete, hlchild, hrchild]
      | cons above way =>
        cases above with
        | left f fr =>
          have hsorted := hi.sorted
          rw [around_left, around_node] at hsorted
          have hlt : e.2 < f.2 := by
            apply (pairwise_append.mp hsorted).2.2 e _ f (mem_cons_self ..)
            simp
          have hfname := hi.up.2.1
          obtain ⟨rfl, hup⟩ := hgone.upLeft
          refine ⟨traverseEntry ((h.iteFree poison e.1).setLchild f.1 none) splay f.1
            ((h.iteFree poison e.1) f.1).iteLchild, ?_, rfl, rfl, .nil, fr, way, hup, rfl, rfl⟩
          simp only [traverseDelete, hlchild, hrchild, hname, hfname, if_pos hlt]
        | right f fl =>
          have hsorted := hi.sorted
          rw [around_right, around_node] at hsorted
          have hlt : f.2 < e.2 := by
            have htail := (pairwise_append.mp hsorted).2.1
            apply (pairwise_cons.mp htail).1
            simp
          have hfname := hi.up.2.1
          obtain ⟨rfl, hup⟩ := hgone.upRight
          rw [length_cons] at hway
          have hfuel : way.length < fuel := by omega
          obtain ⟨x, hrun, hout⟩ := traverseBack_outcome splay hup hfuel
          refine ⟨x, ?_, ?_⟩
          · simp only [traverseDelete, hlchild, hrchild, hname, hfname, if_neg hlt.not_gt]
            exact hrun
          · rw [elements_nil, append_nil]
            exact hout
    | some rchild =>
      rw [hrchild] at hr'
      have hnext : Inverted (h.iteFree poison e.1) (some rchild) parent r way :=
        hi.replace hr' rfl hrest
      have hnodes := numNodes_le_around (.node e .nil r) way
      simp only [BinaryTree.numNodes] at hnodes
      have hfuel : r.numNodes < fuel := by omega
      obtain ⟨x, hrun, hout⟩ := traverseLeft_outcome splay hnext hfuel
      refine ⟨x, ?_, ?_⟩
      · simp only [traverseDelete, hlchild, hrchild]
        exact hrun
      · rw [elements_nil, append_nil]
        exact hout
  | some lchild =>
    rw [hlchild] at hl' hl
    cases hrchild : (h e.1).iteRchild with
    | none =>
      obtain rfl : r = .nil := hr.eq_none_iff.mp hrchild
      have hnext : Inverted (h.iteFree poison e.1) (some lchild) parent l way :=
        hi.replace hl' (append_nil _).symm hrest
      have hfuel : way.length < fuel := by omega
      obtain ⟨x, hrun, hout⟩ := traverseBack_outcome splay hnext hfuel
      refine ⟨x, ?_, hout⟩
      simp only [traverseDelete, hlchild, hrchild]
      exact hrun
    | some rchild =>
      rw [hrchild] at hr
      have hbelow : (elements l ++ elements r).Sublist (around (.node e l r) way) := by
        rw [around, elements_node, append_assoc]
        refine List.Sublist.trans ?_ (sublist_append_right _ _)
        exact ((sublist_append_left _ _).cons e).append_left _
      have hlength := hbelow.length_le
      rw [length_append] at hlength
      have hfuel : (elements l).length < fuel := by omega
      obtain ⟨c₁, c₂, d, dl, dr, hlookup, hassemble, hd, hroot, ht, -, hs⟩ :=
        @hangRight_spec fuel ⟨h, none, none, none, none, none⟩ l r lchild rchild hl hr
          (hi.nodup.sublist (hbelow.map _)) hfuel
      have hlne : l ≠ .nil := by
        rintro rfl
        cases hl
      have hlsorted : Sorted snd (elements l) :=
        hi.sorted.sublist ((sublist_append_left _ _).trans hbelow)
      obtain ⟨d', dl', hlargest, hlast⟩ := assemble_topDown_top hlne hlsorted
      rw [hroot] at hlargest
      cases hlargest
      have hel : elements (.node d dl r) = elements l ++ elements r := by
        rw [hlast, elements_node, append_assoc, singleton_append]
      have ht' : IsTree ((c₂.heap.setRchild d.1 (some rchild)).iteFree poison e.1) (some d.1)
          (.node d dl r) := by
        apply ht.congr_of_ne _ fun b hb => if_neg hb
        intro f hf
        rw [hel, mem_append] at hf
        apply hne f
        rcases hf with hf | hf
        · simp [hf]
        · simp [hf]
      have hrest' : ∀ f ∈ beforeWay way ++ afterWay way,
          (c₂.heap.setRchild d.1 (some rchild)).iteFree poison e.1 f.1 = h f.1 := by
        intro f hf
        have hfe : f.1 ≠ e.1 := by
          rcases mem_append.mp hf with hf | hf
          · exact hne f (by simp [hf])
          · exact hne f (by simp [hf])
        have hfl : f.1 ∉ addrs (elements l) := by
          intro hmem
          have hnodup := hi.nodup
          rw [around_node, addrs_append, addrs_cons, addrs_append, addrs_append] at hnodup
          obtain ⟨hleft, -, hapart⟩ := nodup_append.mp hnodup
          rcases mem_append.mp hf with hf | hf
          · exact (nodup_append.mp hleft).2.2 f.1 (List.mem_map_of_mem hf) f.1 hmem rfl
          · apply hapart f.1 (mem_append_right _ hmem) f.1 _ rfl
            exact mem_cons_of_mem _ (mem_append_right _ (List.mem_map_of_mem hf))
        rw [show (c₂.heap.setRchild d.1 (some rchild)).iteFree poison e.1 f.1 = _ from if_neg hfe]
        exact hs f.1 hfl
      have hnext := hi.replace ht' hel hrest'
      have hshorter : (around (.node d dl r) way).length < fuel := by
        rw [around_node] at hf
        rw [around, hel]
        simp only [length_append, length_cons] at hf ⊢
        omega
      obtain ⟨x, hrun, hout⟩ := traverseRight_outcome splay hnext hshorter
      refine ⟨x, ?_, ?_⟩
      · simp only [traverseDelete, hlchild, hrchild, hlookup, hassemble, hd, bind_eq_bind,
          bind_some]
        exact hrun
      · rw [hlast, ← append_assoc]
        exact hout

end Labels

/-- Whether an entry was deleted is what was chosen after the visits before it. -/
def Chosen (choose : List Visit → ℕ × MachPort → Bool) : List Visit → List Visit → Prop
  | _, [] => True
  | visits, v :: later => v.2 = choose visits v.1 ∧ Chosen choose (visits ++ [v]) later

/-- The entries that were visited and not deleted. -/
def keptOf (visits : List Visit) : List TreeNode := (visits.filter fun v => !v.2).map fst

section Loop

variable {h : TreeHeap} {s splay : IpcSplayTree} {u : SplaySet} {e : TreeNode} {fuel n : ℕ}
  {entry : Option ℕ} {kept rest : List TreeNode} {x : Traversal} (poison : ℕ → IpcTreeEntry)
  (choose : List Visit → ℕ × MachPort → Bool)

/-- A call of `ipc_splay_traverse_next` comes to the entry after the one visited. -/
theorem ipcSplayTraverseNext_outcome (hv : Visiting (h, splay, entry) kept e rest)
    (hf : kept.length + (rest.length + 1) < fuel) (delete : Bool) :
    ∃ x, ipcSplayTraverseNext poison fuel h splay delete = some x ∧
      Outcome x (if delete then kept else kept ++ [e]) rest := by
  obtain ⟨-, hcurrent, l, r, way, hi, rfl, rfl⟩ := hv
  have hlength : (around (.node e l r) way).length < fuel := by
    rw [around_node, length_append, length_cons]
    exact hf
  simp only at hcurrent hi
  cases delete with
  | true =>
    obtain ⟨x, hrun, hout⟩ := traverseDelete_outcome splay poison hi hlength
    refine ⟨x, ?_, hout⟩
    simp only [ipcSplayTraverseNext, hcurrent, bind_eq_bind, bind_some]
    exact hrun
  | false =>
    obtain ⟨x, hrun, hout⟩ := traverseRight_outcome splay hi hlength
    refine ⟨x, ?_, hout⟩
    simp only [ipcSplayTraverseNext, hcurrent, bind_eq_bind, bind_some]
    exact hrun

/-- The loop visits the entries to come and leaves those not deleted. -/
theorem traverseLoop_spec (ho : Outcome x kept rest) (hf : kept.length + rest.length < fuel)
    (hn : rest.length ≤ n) (visits : List Visit) :
    ∃ h s later, traverseLoop poison fuel choose n x visits = some (h, s, visits ++ later) ∧
      later.map fst = rest ∧ Chosen choose visits later ∧
      Finished (h, s, none) (kept ++ keptOf later) := by
  induction rest generalizing n x kept visits with
  | nil =>
    obtain ⟨h, s, entry⟩ := x
    obtain ⟨hnone, hleft⟩ := ho
    obtain rfl : entry = none := hnone
    refine ⟨h, s, [], ?_, rfl, trivial, rfl, ?_⟩
    · rw [append_nil]
      unfold traverseLoop
      rfl
    · rw [show keptOf [] = [] from rfl, append_nil]
      exact hleft
  | cons e rest ih =>
    obtain ⟨n, rfl⟩ : ∃ m, n = m + 1 := ⟨n - 1, by rw [length_cons] at hn; omega⟩
    obtain ⟨h, s, entry⟩ := x
    rw [length_cons] at hf hn
    have hv : Visiting (h, s, entry) kept e rest := ho
    obtain ⟨hentry, -, l, r, way, hi, -, -⟩ := hv
    obtain rfl : entry = some e.1 := hentry
    have hname : (h e.1).iteName = e.2 := hi.tree.2.1
    obtain ⟨y, hrun, hout⟩ := ipcSplayTraverseNext_outcome poison ho hf (choose visits e)
    have hfewer : (if choose visits e then kept else kept ++ [e]).length + rest.length < fuel := by
      split
      next => omega
      next =>
        rw [length_append, length_singleton]
        omega
    obtain ⟨h', s', later, hloop, hmap, hchosen, hfinished⟩ :=
      ih hout hfewer (Nat.le_of_succ_le_succ hn) (visits ++ [(e, choose visits e)])
    refine ⟨h', s', (e, choose visits e) :: later, ?_, ?_, ⟨rfl, hchosen⟩, ?_⟩
    · simp only [traverseLoop, hname]
      rw [hrun, bind_eq_bind, bind_some, hloop, append_assoc, singleton_append]
    · rw [map_cons, hmap]
    · cases hdelete : choose visits e with
      | true =>
        rw [hdelete] at hfinished
        exact hfinished
      | false =>
        rw [hdelete, if_neg Bool.false_ne_true, append_assoc] at hfinished
        exact hfinished

/-- `ipc_splay_traverse_start` assembles the tree and comes to its first entry. -/
theorem ipcSplayTraverseStart_outcome (hd : Denotes h s u) (hw : WellFormed snd u)
    (hf : u.elements.length < fuel) :
    ∃ x, ipcSplayTraverseStart fuel h s = some x ∧ Outcome x [] u.elements := by
  by_cases hm : u.pieces.mid = .nil
  · have hroot := hd.empty hm
    have hempty := hw.elements_eq_nil.mpr hm
    refine ⟨(h, s, none), ?_, ?_⟩
    · simp only [ipcSplayTraverseStart, hroot]
    · rw [hempty]
      exact ⟨rfl, .nil, hroot, rfl, List.Pairwise.nil, nodup_nil⟩
  · have hrep := hd.represents hm
    obtain ⟨root, hroot⟩ : ∃ root, s.istRoot = some root :=
      ne_none_iff_exists'.mp fun hnone => hm (hrep.mid.eq_none_iff.mp hnone)
    obtain ⟨c, hassemble, htree, hrep', -⟩ := ipcSplayPrimAssemble_spec hrep hm
    have hel : elements u.pieces.assemble = u.elements := Pieces.elements_assemble hm
    have hall : around u.pieces.assemble [] = u.elements := by
      rw [around, beforeWay, afterWay, nil_append, append_nil, hel]
    have hi : Inverted c.heap (some root) none u.pieces.assemble [] := by
      constructor
      · have hmid := hrep'.mid
        rw [show c.tree = some root from htree.trans hroot] at hmid
        exact hmid
      · rfl
      · rw [hall]
        exact hw.sorted
      · have hnodup := hrep'.nodup
        rw [hall, ← hel]
        simpa [Pieces.elements] using hnodup
    have hnodes := numNodes_le_around u.pieces.assemble []
    rw [hall] at hnodes
    obtain ⟨x, hrun, hout⟩ := traverseLeft_outcome
      ⟨s.istName, some root, c.ltree, c.ltreep, c.rtree, c.rtreep⟩ hi
      (Nat.lt_of_le_of_lt hnodes hf)
    refine ⟨x, ?_, ?_⟩
    · simp only [ipcSplayTraverseStart, hroot, hassemble, bind_eq_bind, bind_some]
      exact hrun
    · rw [beforeWay, afterWay, append_nil, hel] at hout
      exact hout

/-- A traversal visits every entry once, in the order of the names, and leaves a well-formed tree
of those that were not deleted. -/
theorem ipcSplayTraverse_spec (hd : Denotes h s u) (hw : WellFormed snd u)
    (hf : u.elements.length < fuel) :
    ∃ h' s' visits u', ipcSplayTraverse poison fuel choose h s = some (h', s', visits) ∧
      visits.map fst = u.elements ∧ (visits.map fun v => v.1.2).Pairwise (· < ·) ∧
      Chosen choose [] visits ∧ Denotes h' s' u' ∧ WellFormed snd u' ∧
      u'.elements = keptOf visits := by
  obtain ⟨x, hstart, ho⟩ := ipcSplayTraverseStart_outcome hd hw hf
  obtain ⟨h', s', visits, hloop, hmap, hchosen, -, t, ht, hel, hsorted, hnodup⟩ :=
    traverseLoop_spec poison choose ho (by simpa using hf) (Nat.le_of_lt hf) []
  rw [nil_append] at hloop hel
  refine ⟨h', ipcSplayTraverseFinish h' s', visits, rooted snd s'.istName t, ?_, hmap, ?_,
    hchosen, ?_, wellFormed_rooted hsorted, ?_⟩
  · simp only [ipcSplayTraverse, hstart, hloop, bind_eq_bind, bind_some]
  · have hnames := hw.sorted
    rw [← hmap, Sorted, pairwise_map] at hnames
    exact pairwise_map.mpr hnames
  · have hroot : (ipcSplayTraverseFinish h' s').istRoot = s'.istRoot := by
      unfold ipcSplayTraverseFinish
      split
      next => rfl
      next => rfl
    apply denotes_rooted
    · rw [hroot]
      exact ht
    · exact hnodup
    · intro a ha
      rw [hroot] at ha
      simp only [ipcSplayTraverseFinish, ha]
    · intro hne
      rw [hroot] at hne
      obtain ⟨a, ha⟩ := ne_none_iff_exists'.mp hne
      simp only [ipcSplayTraverseFinish, ha]
    · intro hne
      rw [hroot] at hne
      obtain ⟨a, ha⟩ := ne_none_iff_exists'.mp hne
      simp only [ipcSplayTraverseFinish, ha]
  · rw [elements_rooted, hel]

/-- Three entries, the root of which is deleted on the way. -/
theorem delete_root_on_the_way : ∃ h' s' visits u',
    ipcSplayTraverse (fun _ => default) 4 (fun _ e => e.2 == 20)
      (fun a => ⟨BitVec.ofNat 32 (10 * a), if a = 2 then some 1 else none,
        if a = 2 then some 3 else none⟩)
      ⟨20, some 2, none, none, none, none⟩ = some (h', s', visits) ∧
    visits.map fst = [(1, 10), (2, 20), (3, 30)] ∧ Denotes h' s' u' ∧
      u'.elements = keptOf visits := by
  obtain ⟨t, ht⟩ : ∃ t : BinaryTree TreeNode,
      t = .node (2, 20) (.node (1, 10) .nil .nil) (.node (3, 30) .nil .nil) := ⟨_, rfl⟩
  have hel : elements t = [(1, 10), (2, 20), (3, 30)] := by
    rw [ht]
    rfl
  have hd : Denotes (fun a => ⟨BitVec.ofNat 32 (10 * a), if a = 2 then some 1 else none,
      if a = 2 then some 3 else none⟩) ⟨20, some 2, none, none, none, none⟩
      (rooted snd 0 t) := by
    apply denotes_rooted
    · rw [ht]
      exact ⟨rfl, rfl, ⟨rfl, rfl, rfl, rfl⟩, ⟨rfl, rfl, rfl, rfl⟩⟩
    · rw [hel]
      decide
    · intro a ha
      cases ha
      rfl
    · exact fun _ => rfl
    · exact fun _ => rfl
  have hsorted : Sorted snd (elements t) := by
    rw [hel]
    unfold Sorted
    decide
  have hlength : (rooted snd (0 : MachPort) t).elements.length < 4 := by
    rw [elements_rooted, hel]
    decide
  obtain ⟨h', s', visits, u', hrun, hmap, -, -, hd', -, hkept⟩ :=
    ipcSplayTraverse_spec (fun _ => default) (fun _ e => e.2 == 20) hd
      (wellFormed_rooted hsorted) hlength
  rw [elements_rooted, hel] at hmap
  exact ⟨h', s', visits, u', hrun, hmap, hd', hkept⟩

end Loop

end MachVirtuTerm
