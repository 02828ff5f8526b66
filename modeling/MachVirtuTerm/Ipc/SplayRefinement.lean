import MachVirtuTerm.Ipc.SplayLoop

/-!
# The splay tree operations refine those on unassembled trees

A tree in memory denotes an unassembled splay tree of addresses and names. Each
operation of `ipc_splay.c` runs to its end with more fuel than entries, leaves
memory that denotes the result of the operation on unassembled trees, returns what
that returns and keeps the links of all entries of other trees.
-/

namespace MachVirtuTerm

open SplayTree Pieces SameOutside Prod

/-- An unassembled splay tree of entries, ordered by name. -/
abbrev SplaySet := Unassembled TreeNode MachPort

/-- What a tree in memory denotes. A null root is the empty tree, whatever the
other fields hold. -/
structure Denotes (h : TreeHeap) (s : IpcSplayTree) (u : SplaySet) : Prop where
  /-- The root of the empty tree is null. -/
  empty : u.pieces.mid = .nil → s.istRoot = none
  /-- The remembered name. -/
  name : u.pieces.mid ≠ .nil → s.istName = u.name
  /-- The pieces. -/
  represents : u.pieces.mid ≠ .nil → Represents (s.cursor h) u.pieces

variable {h : TreeHeap} {s small : IpcSplayTree} {u w : SplaySet} {k : MachPort} {fuel : ℕ}

/-- A null root denotes the empty tree. -/
theorem denotes_empty (hs : s.istRoot = none) (n : MachPort) : Denotes h s (.empty n) :=
  ⟨fun _ => hs, fun hm => absurd rfl hm, fun hm => absurd rfl hm⟩

variable {c : SplayCursor}

/-- Pieces depend on their own entries only. -/
theorem Represents.congr {p : Pieces TreeNode} {h' : TreeHeap}
    (hc : Represents c p) (hs : ∀ a ∈ addrs p.elements, h' a = c.heap a) :
    Represents { c with heap := h' } p := by
  have hel {e : TreeNode} (he : e ∈ p.elements) : h' e.1 = c.heap e.1 :=
    hs e.1 (List.mem_map_of_mem he)
  refine ⟨hc.mid.congr fun e he => hel ?_, hc.left.congr fun e he => hel ?_, hc.ltreep,
    hc.right.congr fun e he => hel ?_, hc.rtreep, hc.nodup⟩ <;>
    simp [Pieces.elements, he]

/-- What a tree denotes depends on its own entries only. -/
theorem Denotes.congr {h' : TreeHeap} (hd : Denotes h s u)
    (hs : ∀ a ∈ addrs u.elements, h' a = h a) : Denotes h' s u :=
  ⟨hd.empty, hd.name, fun hm => (hd.represents hm).congr hs⟩

variable {t : BinaryTree TreeNode}

/-- A fresh assembled tree in memory. -/
theorem denotes_rooted (n : MachPort) (ht : IsTree h s.istRoot t)
    (hn : (addrs (elements t)).Nodup) (hname : ∀ a, s.istRoot = some a → s.istName = (h a).iteName)
    (hl : s.istRoot ≠ none → s.istLtreep = none) (hr : s.istRoot ≠ none → s.istRtreep = none) :
    Denotes h s (rooted snd n t) := by
  cases t with
  | nil => exact denotes_empty ht n
  | node e l r =>
    have hroot : s.istRoot = some e.1 := ht.1
    have hne : s.istRoot ≠ none := by simp [hroot]
    refine ⟨fun hm => ?_, fun _ => (hname e.1 hroot).trans ht.2.1, fun _ => ?_⟩
    · simp [rooted] at hm
    · exact ⟨ht, trivial, hl hne, trivial, hr hne, by simpa [rooted, Pieces.elements] using hn⟩

/-- A fresh assembled tree at a root. -/
theorem denotes_rootAt {f : TreeNode} {fl fr : BinaryTree TreeNode} {a : ℕ}
    (ht : IsTree h (some a) (.node f fl fr)) (hn : (addrs (elements (.node f fl fr))).Nodup)
    (n : MachPort) (ltree rtree : Option ℕ) :
    Denotes h ⟨(h a).iteName, some a, ltree, none, rtree, none⟩
      (rooted snd n (.node f fl fr)) :=
  denotes_rooted n ht hn (fun b hb => by rw [Option.some.inj hb]) (fun _ => rfl) fun _ => rfl

/-- The number of nodes is the number of elements. -/
theorem numNodes_eq_length (t : BinaryTree TreeNode) : t.numNodes = (elements t).length := by
  induction t with
  | nil => rfl
  | node e l r ihl ihr =>
    simp only [BinaryTree.numNodes, elements_node, List.length_append, List.length_cons, ihl, ihr]
    omega

/-- Looking up an assembled tree takes it apart. -/
theorem primLookupIn_spec {root : ℕ}
    (ht : IsTree c.heap (some root) t) (hn : (addrs (elements t)).Nodup)
    (hf : (elements t).length < fuel) :
    ∃ c', primLookupIn fuel k c root = some c' ∧ Represents c' (topDown snd k t) ∧
      SameOutside (addrs (elements t)) c.heap c'.heap := by
  have hrep : Represents { c with tree := some root, ltreep := none, rtreep := none } ⟨[], t, []⟩ :=
    ⟨ht, trivial, rfl, trivial, rfl, by simpa [Pieces.elements] using hn⟩
  have hne : t ≠ .nil := by
    rintro rfl
    simp [IsTree] at ht
  obtain ⟨c', hrun, hrep', hs⟩ := ipcSplayPrimLookup_spec (k := k) (n := t.numNodes) hrep hne
    le_rfl (by rwa [numNodes_eq_length])
  exact ⟨c', hrun, hrep', by simpa [Pieces.elements] using hs⟩

/-- Bringing a name to the top. -/
theorem splayTo_spec (hd : Denotes h s u) (hm : u.pieces.mid ≠ .nil)
    (hf : u.elements.length < fuel) (k : MachPort) :
    ∃ root c, s.istRoot = some root ∧ splayTo fuel k h s root = some c ∧
      Represents c (find snd k u).pieces ∧ SameOutside (addrs u.elements) h c.heap := by
  have hrep := hd.represents hm
  obtain ⟨root, hroot⟩ : ∃ root, s.istRoot = some root :=
    Option.ne_none_iff_exists'.mp fun hnone => hm (hrep.mid.eq_none_iff.mp hnone)
  have hnil : ¬isNil u.pieces.mid = true := fun hn => hm (isNil_iff.mp hn)
  by_cases hk : s.istName = k
  · refine ⟨root, s.cursor h, hroot, by simp [splayTo, hk], ?_, refl _ _⟩
    rw [find, if_pos (Or.inr ((hd.name hm).symm.trans hk))]
    exact hrep
  · obtain ⟨c₁, hasm, htree, hrep₁, hs₁⟩ := ipcSplayPrimAssemble_spec hrep hm
    have hel := elements_assemble hm
    have hroot₁ : c₁.tree = some root := htree.trans hroot
    have hn := hrep₁.nodup
    simp only [Pieces.elements, leftElements_nil, rightElements_nil, List.nil_append,
      List.append_nil] at hn
    have hlen : (elements u.pieces.assemble).length < fuel := by rw [hel]; exact hf
    obtain ⟨c₂, hrun, hrep₂, hs₂⟩ := primLookupIn_spec (c := c₁) (k := k)
      (by rw [← hroot₁]; exact hrep₁.mid) hn hlen
    refine ⟨root, c₂, hroot, ?_, ?_, hs₁.trans (by rw [hel] at hs₂; exact hs₂)⟩
    · simp [splayTo, hk, hasm, hrun]
    · rw [find, if_neg (not_or.mpr ⟨hnil, fun hn => hk ((hd.name hm).trans hn)⟩)]
      exact hrep₂

/-- The tree around a cursor denotes the pieces the cursor represents. -/
theorem denotes_of_represents (hc : Represents c u.pieces) (hm : u.pieces.mid ≠ .nil) :
    Denotes c.heap ⟨u.name, c.tree, c.ltree, c.ltreep, c.rtree, c.rtreep⟩ u :=
  ⟨fun hn => absurd hn hm, fun _ => rfl, fun _ => hc⟩

/-- Picking returns the element at the root. -/
theorem ipcSplayTreePick_spec (hd : Denotes h s u) :
    ipcSplayTreePick h s = (pick u).map fun e => (e.2, e.1) := by
  cases hmid : u.pieces.mid with
  | nil => simp [ipcSplayTreePick, pick, hmid, hd.empty hmid]
  | node e l r =>
    have hrep := hd.represents (by simp [hmid])
    obtain ⟨htree, hname, -, -⟩ : IsTree h s.istRoot (.node e l r) := hmid ▸ hrep.mid
    simp [ipcSplayTreePick, pick, hmid, htree, hname]

/-- Looking up refines `lookup`. -/
theorem ipcSplayTreeLookup_spec (hd : Denotes h s u) (hf : u.elements.length < fuel)
    (k : MachPort) :
    ∃ h' s', ipcSplayTreeLookup fuel h s k = some (h', s', (lookup snd k u).2.map fst) ∧
      Denotes h' s' (lookup snd k u).1 ∧ SameOutside (addrs u.elements) h h' := by
  rw [lookup_fst]
  by_cases hm : u.pieces.mid = .nil
  · refine ⟨h, s, ?_, by rwa [find_of_nil hm], refl _ _⟩
    simp [ipcSplayTreeLookup, hd.empty hm, lookup, find_of_nil hm, hm]
  · obtain ⟨root, c, hroot, hrun, hrep, hs⟩ := splayTo_spec hd hm hf k
    have hne := find_mid_ne_nil (f := snd) (k := k) hm
    have hdf := denotes_of_represents hrep hne
    rw [find_name hm] at hdf
    cases hmid : (find snd k u).pieces.mid with
    | nil => exact absurd hmid hne
    | node e l r =>
      obtain ⟨htree, hname, -, -⟩ : IsTree c.heap c.tree (.node e l r) := hmid ▸ hrep.mid
      refine ⟨c.heap, ⟨k, c.tree, c.ltree, c.ltreep, c.rtree, c.rtreep⟩, ?_, hdf, hs⟩
      simp only [ipcSplayTreeLookup, hroot, hrun, htree, hname, Option.bind_eq_bind,
        Option.bind_some, lookup, hmid]
      by_cases hk : k = e.2 <;> simp [hk]

/-- The names at the holes are those the bounds are read from. -/
theorem Represents.hole_names {p : Pieces TreeNode} (hc : Represents c p) :
    nameAtLtreep c.heap c.ltreep = lowerKey snd p.left ∧
      nameAtRtreep c.heap c.rtreep = upperKey snd p.right := by
  obtain ⟨L, t, R⟩ := p
  have hleft := hc.left
  have hright := hc.right
  rw [hc.ltreep, hc.rtreep]
  constructor
  · cases L with
    | nil => rfl
    | cons q rest => exact hleft.1
  · cases R with
    | nil => rfl
    | cons q rest => exact hright.1

/-- Computing the bounds refines `bounds`. -/
theorem ipcSplayTreeBounds_spec (hd : Denotes h s u) (hf : u.elements.length < fuel)
    (k : MachPort) :
    ∃ h' s', ipcSplayTreeBounds fuel h s k =
        some (h', s', (bounds snd k u).2.1, (bounds snd k u).2.2) ∧
      Denotes h' s' (bounds snd k u).1 ∧ SameOutside (addrs u.elements) h h' := by
  by_cases hm : u.pieces.mid = .nil
  · refine ⟨h, s, ?_, ?_, refl _ _⟩
    · simp only [ipcSplayTreeBounds, hd.empty hm, bounds, find_of_nil hm, hm]
      rfl
    · simpa only [bounds, find_of_nil hm, hm] using hd
  · obtain ⟨root, c, hroot, hrun, hrep, hs⟩ := splayTo_spec hd hm hf k
    have hne := find_mid_ne_nil (f := snd) (k := k) hm
    have hdf := denotes_of_represents hrep hne
    rw [find_name hm] at hdf
    obtain ⟨hlower, hupper⟩ := hrep.hole_names
    cases hmid : (find snd k u).pieces.mid with
    | nil => exact absurd hmid hne
    | node e l r =>
      obtain ⟨htree, hname, -, -⟩ : IsTree c.heap c.tree (.node e l r) := hmid ▸ hrep.mid
      refine ⟨c.heap, ⟨k, c.tree, c.ltree, c.ltreep, c.rtree, c.rtreep⟩, ?_, ?_, hs⟩
      · simp only [ipcSplayTreeBounds, hroot, hrun, htree, hname, Option.bind_eq_bind,
          Option.bind_some, bounds, hmid, hlower, hupper]
      · simpa only [bounds, hmid] using hdf

/-- A null pointer is the empty tree. -/
theorem isTree_null (h : TreeHeap) : IsTree h none .nil := rfl

/-- Making an entry the root of a tree whose subtrees it is not part of. -/
theorem isTree_newRoot {h : TreeHeap} {entry : ℕ} {p q : Option ℕ} {tl tr : BinaryTree TreeNode}
    (hl : IsTree h p tl) (hr : IsTree h q tr) (hel : entry ∉ addrs (elements tl))
    (her : entry ∉ addrs (elements tr)) (k : MachPort) :
    IsTree (((h.setLchild entry p).setRchild entry q).setName entry k) (some entry)
        (.node (entry, k) tl tr) ∧
      SameOutside [entry] h (((h.setLchild entry p).setRchild entry q).setName entry k) := by
  have hs : SameOutside [entry] h (((h.setLchild entry p).setRchild entry q).setName entry k) :=
    ((sameOutside_setLchild (by simp)).trans (sameOutside_setRchild (by simp))).trans
      (sameOutside_setName (by simp))
  have hout {t : BinaryTree TreeNode} (ht : entry ∉ addrs (elements t)) :
      ∀ f ∈ elements t, ((h.setLchild entry p).setRchild entry q).setName entry k f.1 = h f.1 :=
    hs.on fun a ha hm => ht (List.mem_singleton.mp hm ▸ ha)
  refine ⟨⟨rfl, by simp, ?_, ?_⟩, hs⟩
  · simpa using hl.congr (hout hel)
  · simpa using hr.congr (hout her)

/-- Making a new entry the root over both completed trees. -/
theorem newRoot_spec {c c' : SplayCursor} {L : LeftSpine TreeNode} {R : RightSpine TreeNode}
    {t tl tr : BinaryTree TreeNode} {v w : Option ℕ} {entry : ℕ} (hc : Represents c ⟨L, t, R⟩)
    (hc' : (c.storeLtreep v).storeRtreep w = c') (hv : IsTree c.heap v tl)
    (hw : IsTree c.heap w tr) (hvw : elements tl ++ elements tr = elements t)
    (hfresh : entry ∉ addrs (Pieces.elements ⟨L, t, R⟩)) (k : MachPort) :
    Denotes (((c'.heap.setLchild entry c'.ltree).setRchild entry c'.rtree).setName entry k)
        ⟨k, some entry, c'.ltree, none, c'.rtree, none⟩
        ⟨k, ⟨[], .node (entry, k) (fillLeft L tl) (fillRight R tr), []⟩⟩ ∧
      SameOutside (entry :: addrs (Pieces.elements ⟨L, t, R⟩)) c.heap
        (((c'.heap.setLchild entry c'.ltree).setRchild entry c'.rtree).setName entry k) := by
  obtain ⟨-, hltree, hrtree, hs₁⟩ := hc.fillHoles hv hw
    (fun a ha => by rw [← hvw]; simp [ha]) (fun a ha => by rw [← hvw]; simp [ha])
  rw [hc'] at hltree hrtree hs₁
  have hn : (addrs (elements (.node (entry, k) (fillLeft L tl) (fillRight R tr)))).Nodup := by
    have hnodup := hc.nodup
    simp only [Pieces.elements, ← hvw, addrs_append, List.append_assoc] at hnodup hfresh
    simp only [elements_node, elements_fillLeft, elements_fillRight, addrs_append, addrs_cons]
    rw [List.nodup_middle, List.nodup_cons, List.append_assoc]
    exact ⟨hfresh, hnodup⟩
  have hent := hn
  rw [elements_node, addrs_append, addrs_cons, List.nodup_middle, List.nodup_cons,
    List.mem_append, not_or] at hent
  obtain ⟨ht, hs₂⟩ := isTree_newRoot hltree hrtree hent.1.1 hent.1.2 k
  refine ⟨denotes_rooted (t := .node (entry, k) _ _) k ht hn ?_ (fun _ => rfl) fun _ => rfl,
    (hs₁.mono fun a ha => ?_).trans (hs₂.mono fun a ha => ?_)⟩
  · intro a ha
    obtain rfl := Option.some.inj ha
    exact ht.2.1.symm
  · exact List.mem_cons_of_mem _ ((List.mem_append.mp ha).elim mem_addrs_left mem_addrs_right)
  · simp [List.mem_singleton.mp ha]

/-- Inserting an entry that is not in the tree refines `insert`. -/
theorem ipcSplayTreeInsert_spec (hd : Denotes h s u) (hf : u.elements.length < fuel)
    {entry : ℕ} (hfresh : entry ∉ addrs u.elements) (k : MachPort) :
    ∃ h' s', ipcSplayTreeInsert fuel h s k entry = some (h', s') ∧
      Denotes h' s' (SplayTree.insert snd (entry, k) u) ∧
      SameOutside (entry :: addrs u.elements) h h' := by
  by_cases hm : u.pieces.mid = .nil
  · obtain ⟨ht, hs⟩ := isTree_newRoot (isTree_null h) (isTree_null h) (List.not_mem_nil (a := entry))
      List.not_mem_nil k
    refine ⟨_, ⟨k, some entry, s.istLtree, none, s.istRtree, none⟩, ?_, ?_,
      hs.mono fun a ha => by simp [List.mem_singleton.mp ha]⟩
    · simp [ipcSplayTreeInsert, hd.empty hm, IpcSplayTree.cursor]
    · simp only [SplayTree.insert, find_of_nil hm, hm]
      exact denotes_rooted (t := .node (entry, k) .nil .nil) k ht (by simp) (by simp)
        (fun _ => rfl) (fun _ => rfl)
  · obtain ⟨root, c, hroot, hrun, hrep, hs⟩ := splayTo_spec hd hm hf k
    have hne := find_mid_ne_nil (f := snd) (k := k) hm
    rw [← elements_find (f := snd) (k := k) u] at hfresh hs ⊢
    simp only [SplayTree.insert]
    generalize find snd k u = f at hne hrep hfresh hs ⊢
    obtain ⟨name, L, t, R⟩ := f
    cases t with
    | nil => exact absurd rfl hne
    | node e l r =>
      obtain ⟨htree, hname, -, -⟩ := hrep.mid
      have hmid : IsTree c.heap (some e.1) (.node e l r) := htree ▸ hrep.mid
      by_cases hk : k < e.2
      · obtain ⟨hden, hs'⟩ := newRoot_spec hrep rfl (isTree_null _) hmid (by simp) hfresh k
        refine ⟨_, _, ?_, by simpa only [if_pos hk] using hden,
          (hs.mono fun a ha => List.mem_cons_of_mem _ ha).trans hs'⟩
        simp only [ipcSplayTreeInsert, hroot, hrun, htree, hname, if_pos hk,
          Option.bind_eq_bind, Option.bind_some]
      · obtain ⟨hden, hs'⟩ := newRoot_spec hrep rfl hmid (isTree_null _) (by simp) hfresh k
        refine ⟨_, _, ?_, by simpa only [if_neg hk] using hden,
          (hs.mono fun a ha => List.mem_cons_of_mem _ ha).trans hs'⟩
        simp only [ipcSplayTreeInsert, hroot, hrun, htree, hname, if_neg hk,
          Option.bind_eq_bind, Option.bind_some]

/-- The largest entry of a tree made its root, with another tree as its right subtree. -/
theorem hangRight_spec {lt rt : BinaryTree TreeNode} {root saved : ℕ}
    (hlt : IsTree c.heap (some root) lt) (hrt : IsTree c.heap (some saved) rt)
    (hn : (addrs (elements lt ++ elements rt)).Nodup) (hf : (elements lt).length < fuel) :
    ∃ c₁ c₂ d dl dr, primLookupIn fuel (BitVec.allOnes 32) c root = some c₁ ∧
      ipcSplayPrimAssemble c₁ = some c₂ ∧ c₂.tree = some d.1 ∧
      (topDown snd ⊤ lt).assemble = .node d dl dr ∧
      IsTree (c₂.heap.setRchild d.1 (some saved)) (some d.1) (.node d dl rt) ∧
      (addrs (elements (.node d dl rt))).Nodup ∧
      SameOutside (addrs (elements lt)) c.heap (c₂.heap.setRchild d.1 (some saved)) := by
  have hne : lt ≠ .nil := by
    rintro rfl
    simp [IsTree] at hlt
  rw [addrs_append] at hn
  obtain ⟨hnl, -, hdis⟩ := List.nodup_append.mp hn
  obtain ⟨c₁, hrun, hrep₁, hs₁⟩ := primLookupIn_spec (k := ⊤) hlt hnl hf
  obtain ⟨c₂, hasm, htree, hrep₂, hs₂⟩ := ipcSplayPrimAssemble_spec hrep₁ (topDown_mid_ne_nil hne)
  have hel := elements_assemble (topDown_mid_ne_nil (f := snd) (k := ⊤) hne)
  rw [topDown_elements] at hel hs₂
  have hmid := hrep₂.mid
  cases hroot : (topDown snd ⊤ lt).assemble with
  | nil => exact absurd hroot (assemble_ne_nil (topDown_mid_ne_nil hne))
  | node d dl dr =>
    simp only [hroot] at hmid
    rw [hroot, elements_node] at hel
    obtain ⟨hd, hname, hdl, -⟩ := hmid
    have hdlt : d.1 ∈ addrs (elements lt) := by simp [← hel]
    have hs₃ : SameOutside [d.1] c₂.heap (c₂.heap.setRchild d.1 (some saved)) :=
      sameOutside_setRchild (by simp)
    have hs : SameOutside (addrs (elements lt)) c.heap (c₂.heap.setRchild d.1 (some saved)) :=
      (hs₁.trans hs₂).trans (hs₃.mono fun a ha => List.mem_singleton.mp ha ▸ hdlt)
    refine ⟨c₁, c₂, d, dl, dr, hrun, hasm, hd, rfl, ⟨rfl, by simpa using hname, ?_, ?_⟩, ?_, hs⟩
    · simp only [setRchild_self]
      refine hdl.congr (hs₃.on fun a ha hm => ?_)
      rw [← hel, addrs_append, addrs_cons] at hnl
      exact (List.nodup_append.mp hnl).2.2 a ha d.1 (by simp) (List.mem_singleton.mp hm)
    · simp only [setRchild_self]
      exact hrt.congr (hs.on fun a ha hm => hdis a hm a ha rfl)
    · rw [← addrs_append, ← hel] at hn
      refine hn.sublist (List.Sublist.map _ ?_)
      simp

/-- Deleting a name that is in the tree refines `delete`. -/
theorem ipcSplayTreeDelete_spec (hd : Denotes h s u) (hm : u.pieces.mid ≠ .nil)
    (hf : u.elements.length < fuel) (k : MachPort) :
    ∃ h' s', ipcSplayTreeDelete fuel h s k = some (h', s') ∧
      Denotes h' s' (SplayTree.delete snd k u) ∧ SameOutside (addrs u.elements) h h' := by
  obtain ⟨root, c, hroot, hrun, hrep, hs⟩ := splayTo_spec hd hm hf k
  have hne := find_mid_ne_nil (f := snd) (k := k) hm
  rw [← elements_find (f := snd) (k := k) u] at hf hs ⊢
  simp only [SplayTree.delete]
  generalize find snd k u = f at hne hrep hf hs ⊢
  obtain ⟨name, L, t, R⟩ := f
  cases t with
  | nil => exact absurd rfl hne
  | node e l r =>
    obtain ⟨htree, hname, htl, htr⟩ := hrep.mid
    obtain ⟨-, hltree, hrtree, hs₁⟩ := hrep.fillHoles htl htr
      (fun a ha => by simp [ha]) (fun a ha => by simp [ha])
    have hroot₁ := hrep.storeLtreep_root (v := (c.heap e.1).iteLchild)
    obtain ⟨c₁, hc₁⟩ : ∃ c₁, (c.storeLtreep (c.heap e.1).iteLchild).storeRtreep
      (c.heap e.1).iteRchild = c₁ := ⟨_, rfl⟩
    rw [hc₁] at hltree hrtree hs₁
    have hn : (addrs (elements (fillLeft L l) ++ elements (fillRight R r))).Nodup := by
      refine List.Nodup.sublist ?_ hrep.nodup
      simp only [Pieces.elements, elements_node, elements_fillLeft, elements_fillRight]
      exact List.Sublist.map _ (by simp)
    have hlen : (elements (fillLeft L l)).length < fuel := by
      refine lt_of_le_of_lt ?_ hf
      simp [Unassembled.elements, Pieces.elements]
    have hs₂ : SameOutside (addrs (Pieces.elements ⟨L, .node e l r, R⟩)) h c₁.heap :=
      hs.trans (hs₁.mono fun a ha =>
        (List.mem_append.mp ha).elim mem_addrs_left mem_addrs_right)
    cases hlt : fillLeft L l with
    | nil =>
      rw [hlt] at hltree hn
      have hnone : c₁.ltree = none := hltree
      cases hrt : fillRight R r with
      | nil =>
        rw [hrt] at hrtree
        have hnone' : c₁.rtree = none := hrtree
        simp only [hlt, hrt]
        refine ⟨c₁.heap, ⟨s.istName, none, c₁.ltree, c₁.ltreep, c₁.rtree, c₁.rtreep⟩, ?_,
          denotes_empty rfl _, hs₂⟩
        simp only [ipcSplayTreeDelete, hroot, hrun, htree, hroot₁, hc₁, hnone, hnone',
          Option.bind_eq_bind, Option.bind_some]
      | node f fl fr =>
        rw [hrt] at hrtree hn
        simp only [hlt, hrt]
        refine ⟨c₁.heap, _, ?_, denotes_rootAt (hrtree.1 ▸ hrtree) (by simpa using hn) _ none
          (some f.1), hs₂⟩
        simp only [ipcSplayTreeDelete, hroot, hrun, htree, hroot₁, hc₁, hnone, hrtree.1,
          Option.bind_eq_bind, Option.bind_some]
    | node b bl br =>
      rw [hlt] at hltree hn hlen
      cases hrt : fillRight R r with
      | nil =>
        rw [hrt] at hrtree hn
        have hnone' : c₁.rtree = none := hrtree
        simp only [hlt, hrt]
        refine ⟨c₁.heap, _, ?_, denotes_rootAt (hltree.1 ▸ hltree) (by simpa using hn) _ (some b.1)
          none, hs₂⟩
        simp only [ipcSplayTreeDelete, hroot, hrun, htree, hroot₁, hc₁, hltree.1, hnone',
          Option.bind_eq_bind, Option.bind_some]
      | node f fl fr =>
        rw [hrt] at hrtree hn
        obtain ⟨c₂, c₃, d, dl, dr, hrun₂, hasm, hd, hroot₂, ht, hn', hs₃⟩ :=
          hangRight_spec (hltree.1 ▸ hltree) (hrtree.1 ▸ hrtree) hn hlen
        simp only [hlt, hrt, hroot₂]
        refine ⟨_, _, ?_, denotes_rootAt ht hn' _ c₃.ltree c₃.rtree, hs₂.trans (hs₃.mono fun a ha => ?_)⟩
        · simp only [ipcSplayTreeDelete, hroot, hrun, htree, hroot₁, hc₁, hltree.1, hrtree.1,
            hrun₂, hasm, hd, Option.bind_eq_bind, Option.bind_some]
        · rw [← hlt, elements_fillLeft, addrs_append, List.mem_append] at ha
          refine ha.elim mem_addrs_left fun ha => mem_addrs_mid ?_
          simp [ha]

/-- A tree, possibly empty, moved into a splay tree structure. -/
theorem denotes_moved {p : Option ℕ} (s : IpcSplayTree)
    (ht : IsTree h p t) (hn : (addrs (elements t)).Nodup) (n : MachPort)
    (hnone : p = none → s.istRoot = none)
    (hsome : ∀ a, p = some a → s.istRoot = some a ∧ s.istName = (h a).iteName ∧
      s.istLtreep = none ∧ s.istRtreep = none) : Denotes h s (rooted snd n t) := by
  cases t with
  | nil => exact denotes_empty (hnone ht) n
  | node e l r =>
    obtain ⟨hroot, hname, hl, hr⟩ := hsome e.1 ht.1
    refine denotes_rooted n (hroot ▸ ht.1 ▸ ht) hn ?_ (fun _ => hl) fun _ => hr
    intro a ha
    rwa [← Option.some.inj (hroot.symm.trans ha)]

/-- Splitting refines `split`. -/
theorem ipcSplayTreeSplit_spec (hd : Denotes h s u) (hf : u.elements.length < fuel)
    (k : MachPort) (small : IpcSplayTree) :
    ∃ h' s' small', ipcSplayTreeSplit fuel h s k small = some (h', s', small') ∧
      Denotes h' s' (split snd k u).1 ∧ Denotes h' small' (split snd k u).2 ∧
      SameOutside (addrs u.elements) h h' := by
  by_cases hm : u.pieces.mid = .nil
  · refine ⟨h, s, ipcSplayTreeInit small, ?_, ?_, ?_, refl _ _⟩
    · simp [ipcSplayTreeSplit, hd.empty hm]
    · simpa only [split, find_of_nil hm, hm] using hd
    · simp only [split, find_of_nil hm, hm]
      exact denotes_empty rfl _
  · obtain ⟨root, c, hroot, hrun, hrep, hs⟩ := splayTo_spec hd hm hf k
    have hne := find_mid_ne_nil (f := snd) (k := k) hm
    rw [← elements_find (f := snd) (k := k) u] at hs ⊢
    simp only [split]
    generalize find snd k u = f at hne hrep hs ⊢
    obtain ⟨name, L, t, R⟩ := f
    cases t with
    | nil => exact absurd rfl hne
    | node e l r =>
      obtain ⟨htree, hname, htl, htr⟩ := hrep.mid
      obtain ⟨-, -, -, -, hL, hR, hl, hr⟩ := pieces_distinct hrep.nodup
      have hroot₁ := hrep.storeLtreep_root (v := (c.heap e.1).iteLchild)
      by_cases hk : e.2 < k
      · obtain ⟨hrep₁, hltree, hrtree, hs₁⟩ := hrep.fillHoles htl (isTree_null _)
          (fun a ha => by simp [ha]) (by simp)
        obtain ⟨c₁, hc₁⟩ : ∃ c₁, (c.storeLtreep (c.heap e.1).iteLchild).storeRtreep none = c₁ :=
          ⟨_, rfl⟩
        rw [hc₁] at hltree hrtree hs₁ hrep₁
        have he := (hrep.storeLtreep (v := (c.heap e.1).iteLchild)).1.storeRtreep_root (v := none)
        rw [hroot₁, hc₁] at he
        obtain ⟨heap, hheap⟩ : ∃ heap, c₁.heap.setLchild e.1 c₁.ltree = heap := ⟨_, rfl⟩
        have hs₂ : SameOutside [e.1] c₁.heap heap := hheap ▸ sameOutside_setLchild (by simp)
        have he₂ : heap e.1 = { c.heap e.1 with iteLchild := c₁.ltree } := by
          rw [← hheap, setLchild_self, he]
        have hs' : SameOutside (addrs (Pieces.elements ⟨L, .node e l r, R⟩)) h heap := by
          refine (hs.trans (hs₁.mono fun a ha => ?_)).trans (hs₂.mono fun a ha => mem_addrs_mid ?_)
          · exact (List.mem_append.mp ha).elim mem_addrs_left mem_addrs_right
          · simp [List.mem_singleton.mp ha]
        have hout {t : BinaryTree TreeNode} (ht : e.1 ∉ addrs (elements t)) :
            ∀ f ∈ elements t, heap f.1 = c₁.heap f.1 :=
          hs₂.on fun a ha hm => ht (List.mem_singleton.mp hm ▸ ha)
        have hrtree' : IsTree heap c₁.rtree (fillRight R .nil) := by
          refine hrtree.congr (hout ?_)
          simpa using fun hm => (hR e.1 hm).2.1 rfl
        have hsmall : IsTree heap (some e.1) (.node e (fillLeft L l) r) := by
          refine ⟨rfl, by simpa only [he₂] using hname, ?_, ?_⟩
          · simp only [he₂]
            refine hltree.congr (hout ?_)
            simpa using ⟨fun hm => (hL e.1 hm).2.1 rfl, fun hm => (hl e.1 hm).1 rfl⟩
          · simp only [he₂]
            refine (htr.congr (hs₁.on fun a ha hm => ?_)).congr (hout fun hm => hr e.1 hm rfl)
            exact (List.mem_append.mp hm).elim (fun hm => (hL a hm).2.2.1 ha)
              fun hm => (hR a hm).2.2 ha
        have hn₁ : (addrs (elements (fillRight R .nil))).Nodup := by
          simpa using (pieces_disjoint hrep.nodup).2.1
        have hn₂ : (addrs (elements (.node e (fillLeft L l) r))).Nodup := by
          refine hrep.nodup.sublist (List.Sublist.map _ ?_)
          simp [Pieces.elements]
        simp only [if_pos hk]
        cases hrt : c₁.rtree with
        | none =>
          rw [hrt] at hrtree'
          refine ⟨heap, ⟨s.istName, none, c₁.ltree, c₁.ltreep, none, c₁.rtreep⟩,
            ⟨(heap e.1).iteName, some e.1, small.istLtree, none, small.istRtree, none⟩, ?_,
            denotes_moved _ hrtree' hn₁ _ (fun _ => rfl) (by simp), denotes_rootAt hsmall hn₂ k _ _,
            hs'⟩
          simp only [ipcSplayTreeSplit, hroot, hrun, htree, hname, if_pos hk, hc₁, hheap,
            hrt, ipcSplayTreeInit, Option.bind_eq_bind, Option.bind_some]
        | some r =>
          rw [hrt] at hrtree'
          refine ⟨heap, ⟨(heap r).iteName, some r, c₁.ltree, none, some r, none⟩,
            ⟨(heap e.1).iteName, some e.1, small.istLtree, none, small.istRtree, none⟩, ?_,
            denotes_moved _ hrtree' hn₁ _ (by simp) (by simp), denotes_rootAt hsmall hn₂ k _ _,
            hs'⟩
          simp only [ipcSplayTreeSplit, hroot, hrun, htree, hname, if_pos hk, hc₁, hheap,
            hrt, ipcSplayTreeInit, Option.bind_eq_bind, Option.bind_some]
      · obtain ⟨hrep₁, hload, hs₁⟩ := hrep.storeLtreep (v := (c.heap e.1).iteLchild)
        obtain ⟨c₁, hc₁⟩ : ∃ c₁, c.storeLtreep (c.heap e.1).iteLchild = c₁ := ⟨_, rfl⟩
        rw [hc₁] at hrep₁ hload hs₁ hroot₁
        have htree₁ : c₁.tree = some e.1 := hrep₁.mid.1
        obtain ⟨-, -, -, htr₁⟩ := hrep₁.mid
        rw [hroot₁] at htr₁
        obtain ⟨heap, hheap⟩ : ∃ heap, c₁.heap.setLchild e.1 none = heap := ⟨_, rfl⟩
        have hs₂ : SameOutside [e.1] c₁.heap heap := hheap ▸ sameOutside_setLchild (by simp)
        have he₂ : heap e.1 = { c.heap e.1 with iteLchild := none } := by
          rw [← hheap, setLchild_self, hroot₁]
        have hs' : SameOutside (addrs (Pieces.elements ⟨L, .node e l r, R⟩)) h heap := by
          refine (hs.trans (hs₁.mono fun a ha => mem_addrs_left ha)).trans
            (hs₂.mono fun a ha => mem_addrs_mid ?_)
          simp [List.mem_singleton.mp ha]
        have hltree : IsTree c₁.heap c₁.ltree (fillLeft L l) :=
          hrep₁.left.fill (hload ▸ htl.congr (hs₁.on fun a ha hm => (hL a hm).1 ha))
        have hltree' : IsTree heap c₁.ltree (fillLeft L l) := by
          refine hltree.congr (hs₂.on fun a ha hm => ?_)
          obtain rfl := List.mem_singleton.mp hm
          rw [elements_fillLeft, addrs_append, List.mem_append] at ha
          exact ha.elim (fun ha => (hL _ ha).2.1 rfl) fun ha => (hl _ ha).1 rfl
        have hn₁ : (addrs (elements (fillLeft L l))).Nodup := by
          refine hrep.nodup.sublist (List.Sublist.map _ ?_)
          simp [Pieces.elements]
        have hden : Denotes heap ⟨k, some e.1, c₁.ltree, none, c₁.rtree, c₁.rtreep⟩
            ⟨k, ⟨[], .node e .nil r, R⟩⟩ := by
          refine ⟨by simp, fun _ => rfl, fun _ => ⟨⟨rfl, ?_, ?_, ?_⟩, trivial, rfl, ?_,
            hrep₁.rtreep, ?_⟩⟩
          · simpa only [he₂, IpcSplayTree.cursor] using hname
          · simp only [he₂, IpcSplayTree.cursor]
            rfl
          · simp only [he₂, IpcSplayTree.cursor]
            exact htr₁.congr (hs₂.on fun a ha hm => hr a ha (List.mem_singleton.mp hm))
          · exact hrep₁.right.congr (hs₂.on fun a ha hm => (hR a ha).2.1 (List.mem_singleton.mp hm))
          · refine hrep.nodup.sublist (List.Sublist.map _ ?_)
            simp [Pieces.elements]
        simp only [if_neg hk]
        cases hlt : c₁.ltree with
        | none =>
          rw [hlt] at hltree' hden
          refine ⟨heap, _, ipcSplayTreeInit small, ?_, hden,
            denotes_moved _ hltree' hn₁ _ (fun _ => rfl) (by simp), hs'⟩
          simp only [ipcSplayTreeSplit, hroot, hrun, htree, hname, if_neg hk, hc₁, hheap,
            hlt, ipcSplayTreeInit, Option.bind_eq_bind, Option.bind_some]
        | some r =>
          rw [hlt] at hltree' hden
          refine ⟨heap, _,
            ⟨(heap r).iteName, some r, small.istLtree, none, small.istRtree, none⟩, ?_, hden,
            denotes_moved _ hltree' hn₁ _ (by simp) (by simp), hs'⟩
          simp only [ipcSplayTreeSplit, hroot, hrun, htree, hname, if_neg hk, hc₁, hheap,
            hlt, ipcSplayTreeInit, Option.bind_eq_bind, Option.bind_some]

/-- Joining refines `join` and leaves the other tree empty. -/
theorem ipcSplayTreeJoin_spec (hd : Denotes h s u) (hdw : Denotes h small w)
    (hdis : ∀ a ∈ addrs u.elements, a ∉ addrs w.elements) (hf : u.elements.length < fuel) :
    ∃ h' s' small', ipcSplayTreeJoin fuel h s small = some (h', s', small') ∧
      Denotes h' s' (join snd u w) ∧ small'.istRoot = none ∧
      SameOutside (addrs u.elements ++ addrs w.elements) h h' := by
  by_cases hmw : w.pieces.mid = .nil
  · have hnil : w.pieces.assemble = .nil := by simp [assemble, hmw]
    refine ⟨h, s, small, ?_, by simpa only [join, hnil] using hd, hdw.empty hmw, refl _ _⟩
    simp [ipcSplayTreeJoin, hdw.empty hmw]
  · have hrepw := hdw.represents hmw
    obtain ⟨c₁, hasm, htree₁, hrep₁, hs₁⟩ := ipcSplayPrimAssemble_spec hrepw hmw
    have hel₁ := elements_assemble hmw
    have hmid₁ := hrep₁.mid
    cases hroot₁ : w.pieces.assemble with
    | nil => exact absurd hroot₁ (assemble_ne_nil hmw)
    | node b bl br =>
      simp only [hroot₁] at hmid₁
      rw [hroot₁] at hel₁
      have hsroot : small.istRoot = some b.1 := htree₁.symm.trans hmid₁.1
      have hwtree : IsTree c₁.heap (some b.1) (.node b bl br) := hmid₁.1 ▸ hmid₁
      have hwn : (addrs (elements (.node b bl br))).Nodup := hel₁ ▸ hrepw.nodup
      have hs₁' : SameOutside (addrs u.elements ++ addrs w.elements) h c₁.heap :=
        hs₁.mono fun a ha => List.mem_append_right _ ha
      have hd₁ : Denotes c₁.heap s u := hd.congr fun a ha => hs₁ a (hdis a ha)
      simp only [join, hroot₁]
      by_cases hm : u.pieces.mid = .nil
      · simp only [hm]
        refine ⟨c₁.heap, _, ⟨small.istName, none, c₁.ltree, c₁.ltreep, c₁.rtree, c₁.rtreep⟩, ?_,
          denotes_rootAt hwtree hwn _ s.istLtree s.istRtree, rfl, hs₁'⟩
        simp only [ipcSplayTreeJoin, hsroot, hasm, hd.empty hm, Option.bind_eq_bind,
          Option.bind_some]
      · obtain ⟨root, c₂, hroot, hrun, hrep₂, hs₂⟩ := splayTo_spec hd₁ hm hf ⊥
        have hne := find_mid_ne_nil (f := snd) (k := (⊥ : MachPort)) hm
        have hrun' : splayTo fuel 0 c₁.heap s root = some c₂ := hrun
        obtain ⟨c₃, hasm₃, htree₃, hrep₃, hs₃⟩ := ipcSplayPrimAssemble_spec hrep₂ hne
        have hel₃ := elements_assemble hne
        have hel := elements_find (f := snd) (k := (⊥ : MachPort)) u
        have hmid₃ := hrep₃.mid
        cases hroot₃ : (find snd ⊥ u).pieces.assemble with
        | nil => exact absurd hroot₃ (assemble_ne_nil hne)
        | node a l r =>
          simp only [hroot₃] at hmid₃
          rw [hroot₃] at hel₃
          rw [Unassembled.elements, ← hel₃] at hel
          obtain ⟨ha, haname, -, har⟩ := hmid₃
          have hs₂₃ : SameOutside (addrs u.elements) c₁.heap c₃.heap := by
            refine hs₂.trans (hs₃.mono fun x hx => ?_)
            rwa [← hel₃, hel] at hx
          have hau : a.1 ∈ addrs u.elements := by simp [← hel]
          have hs₄ : SameOutside [a.1] c₃.heap (c₃.heap.setLchild a.1 (some b.1)) :=
            sameOutside_setLchild (by simp)
          have hs₁₄ : SameOutside (addrs u.elements) c₁.heap (c₃.heap.setLchild a.1 (some b.1)) :=
            hs₂₃.trans (hs₄.mono fun x hx => List.mem_singleton.mp hx ▸ hau)
          have hun : (addrs (elements (.node a l r))).Nodup := by
            rw [hel₃]
            exact hrep₂.nodup
          have hjoined : IsTree (c₃.heap.setLchild a.1 (some b.1)) (some a.1)
              (.node a (.node b bl br) r) := by
            refine ⟨rfl, by simpa using haname, ?_, ?_⟩
            · simp only [setLchild_self]
              refine hwtree.congr (hs₁₄.on fun x hx hxu => hdis x hxu ?_)
              rwa [Unassembled.elements, ← hel₁]
            · simp only [setLchild_self]
              refine har.congr (hs₄.on fun x hx hxa => ?_)
              obtain rfl := List.mem_singleton.mp hxa
              rw [elements_node, addrs_append, addrs_cons] at hun
              exact (List.nodup_cons.mp (List.nodup_append.mp hun).2.1).1 hx
          have hjn : (addrs (elements (.node a (.node b bl br) r))).Nodup := by
            have hall : (addrs (elements (.node b bl br)) ++ addrs (elements (.node a l r))).Nodup :=
              List.nodup_append.mpr ⟨hwn, hun, fun x hx y hy hxy => by
                rw [hel] at hy
                rw [hel₁] at hx
                exact hdis y hy (hxy ▸ hx)⟩
            rw [← addrs_append] at hall
            refine hall.sublist (List.Sublist.map _ ?_)
            simp
          obtain ⟨mid, hmid⟩ : ∃ mid, u.pieces.mid = mid := ⟨_, rfl⟩
          cases mid with
          | nil => exact absurd hmid hm
          | node _ _ _ =>
            simp only [hmid]
            refine ⟨_, _, ⟨small.istName, none, c₁.ltree, c₁.ltreep, c₁.rtree, c₁.rtreep⟩, ?_,
              denotes_rootAt hjoined hjn _ c₃.ltree c₃.rtree, rfl,
              hs₁'.trans (hs₁₄.mono fun x hx => List.mem_append_left _ hx)⟩
            simp only [ipcSplayTreeJoin, hsroot, hasm, hroot, hrun', hasm₃, ha,
              Option.bind_eq_bind, Option.bind_some]

end MachVirtuTerm
