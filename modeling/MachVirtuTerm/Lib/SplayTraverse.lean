import MachVirtuTerm.Lib.UnassembledSplay

/-!
# Traversing a splay tree

A traversal in symmetric order that may delete the element it visits. A deleted
node gives its place to its only subtree or, if it has two, to the largest
element of the left one. On the elements this is one pass over the in-order list
that keeps the elements not deleted.
-/

open List

namespace SplayTree

variable {α K σ : Type*}

/-- One pass over a list: the elements kept and the state at the end. -/
def visitAll (visit : σ → α → σ × Bool) : List α → σ → List α × σ
  | [], s => ([], s)
  | a :: xs, s =>
    let v := visit s a
    let rest := visitAll visit xs v.1
    (if v.2 then rest.1 else a :: rest.1, rest.2)

variable {visit : σ → α → σ × Bool}

@[simp] theorem visitAll_nil (s : σ) : visitAll visit [] s = ([], s) := rfl

theorem visitAll_cons (a : α) (xs : List α) (s : σ) :
    visitAll visit (a :: xs) s =
      (if (visit s a).2 then (visitAll visit xs (visit s a).1).1
        else a :: (visitAll visit xs (visit s a).1).1, (visitAll visit xs (visit s a).1).2) := rfl

/-- A pass over two lists is a pass over one after the other. -/
theorem visitAll_append (xs ys : List α) (s : σ) :
    visitAll visit (xs ++ ys) s =
      ((visitAll visit xs s).1 ++ (visitAll visit ys (visitAll visit xs s).2).1,
        (visitAll visit ys (visitAll visit xs s).2).2) := by
  induction xs generalizing s with
  | nil => rfl
  | cons a xs ih =>
    simp only [cons_append, visitAll_cons, ih]
    split_ifs <;> rfl

/-- A pass keeps a sublist. -/
theorem visitAll_sublist (xs : List α) (s : σ) : (visitAll visit xs s).1.Sublist xs := by
  induction xs generalizing s with
  | nil => simp
  | cons a xs ih =>
    rw [visitAll_cons]
    split_ifs
    · exact (ih _).cons a
    · exact (ih _).cons_cons a

/-- A pass that deletes nothing keeps everything. -/
theorem visitAll_keep (hkeep : ∀ s a, (visit s a).2 = false) (xs : List α) (s : σ) :
    (visitAll visit xs s).1 = xs := by
  induction xs generalizing s with
  | nil => rfl
  | cons a xs ih => rw [visitAll_cons, hkeep, if_neg Bool.false_ne_true, ih]

section Order

variable [LinearOrder K] [BoundedOrder K] (key : α → K)

/-- What takes the place of a deleted node whose left subtree has been traversed:
its only subtree, or the largest of its left children. The right subtree is `r`
before and `r'` after its traversal. -/
def replaceNode (l r r' : BinaryTree α) : BinaryTree α :=
  if isNil l = true then r'
  else if isNil r = true then l
  else
    match (topDown key ⊤ l).assemble with
    | .nil => r'
    | .node d dl _ => .node d dl r'

/-- Traverse an assembled tree. -/
def traverseTree (visit : σ → α → σ × Bool) : BinaryTree α → σ → BinaryTree α × σ
  | .nil, s => (.nil, s)
  | .node a l r, s =>
    let left := traverseTree visit l s
    let v := visit left.2 a
    let right := traverseTree visit r v.1
    (if v.2 then replaceNode key left.1 r right.1 else .node a left.1 right.1, right.2)

/-- Traverse a tree, assembling it first. -/
def traverse (visit : σ → α → σ × Bool) (u : Unassembled α K) (s : σ) : Unassembled α K × σ :=
  let t := traverseTree key visit u.pieces.assemble s
  (rooted key u.name t.1, t.2)

variable {f : α → K}

/-- Replacing a node keeps the elements of its subtrees. -/
theorem elements_replaceNode {l r r' : BinaryTree α} (hs : Sorted f (elements l))
    (hr : r = .nil → r' = .nil) :
    elements (replaceNode f l r r') = elements l ++ elements r' := by
  unfold replaceNode
  split_ifs with hl hnil
  · rw [isNil_iff.mp hl]
    rfl
  · rw [hr (isNil_iff.mp hnil), elements_nil, append_nil]
  · obtain ⟨d, dl, hasm, hel⟩ := assemble_topDown_top (fun h => hl (isNil_iff.mpr h)) hs
    rw [hasm, hel, elements_node, append_assoc, singleton_append]

/-- Traversing an assembled tree is a pass over its elements. -/
theorem elements_traverseTree {t : BinaryTree α} (hs : Sorted f (elements t)) (s : σ) :
    elements (traverseTree f visit t s).1 = (visitAll visit (elements t) s).1 ∧
      (traverseTree f visit t s).2 = (visitAll visit (elements t) s).2 := by
  induction t generalizing s with
  | nil => exact ⟨rfl, rfl⟩
  | node a l r ihl ihr =>
    obtain ⟨hsl, hsr, -⟩ := pairwise_append.mp hs
    obtain ⟨hl, hls⟩ := ihl hsl s
    have hsort : Sorted f (elements (traverseTree f visit l s).1) := by
      rw [hl]
      exact hsl.sublist (visitAll_sublist _ _)
    obtain ⟨hr, hrs⟩ := ihr (pairwise_cons.mp hsr).2 (visit (traverseTree f visit l s).2 a).1
    rw [elements_node, visitAll_append, visitAll_cons, ← hl, ← hls, ← hr, ← hrs]
    simp only [traverseTree, and_true]
    split_ifs
    · refine elements_replaceNode hsort ?_
      rintro rfl
      rfl
    · rfl

/-- Traversing a tree is a pass over its elements. -/
theorem elements_traverse {u : Unassembled α K} (h : WellFormed f u) (s : σ) :
    (traverse f visit u s).1.elements = (visitAll visit u.elements s).1 ∧
      (traverse f visit u s).2 = (visitAll visit u.elements s).2 := by
  have hel : elements u.pieces.assemble = u.elements := by
    by_cases hm : u.pieces.mid = .nil
    · rw [h.elements_eq_nil.mpr hm, Pieces.assemble, hm]
      rfl
    · exact Pieces.elements_assemble hm
  have hsorted : Sorted f (elements u.pieces.assemble) := by
    rw [hel]
    exact h.sorted
  simp only [traverse, elements_rooted]
  rw [← hel]
  exact elements_traverseTree hsorted s

/-- Traversing keeps a tree well formed. -/
theorem WellFormed.traverse {u : Unassembled α K} (h : WellFormed f u) (s : σ) :
    WellFormed f (SplayTree.traverse f visit u s).1 := by
  have hsorted : Sorted f (SplayTree.traverse f visit u s).1.elements := by
    rw [(elements_traverse h s).1]
    exact h.sorted.sublist (visitAll_sublist _ _)
  exact wellFormed_rooted (by simpa only [SplayTree.traverse, elements_rooted] using hsorted)

end Order

end SplayTree
