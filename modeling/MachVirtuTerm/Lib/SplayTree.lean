import Mathlib.Data.Tree.Basic
import Mathlib.Order.BoundedOrder.Basic
import Mathlib.Data.List.Basic
import Mathlib.Order.Lattice

/-!
# Top-down splay trees in unassembled form

A top-down splay takes a tree apart along a search path. What is left is a
middle tree whose root is the node found (or the last one visited), a left
spine of nodes that precede it and a right spine of nodes that follow it. An
unassembled splay tree keeps these three pieces between operations, together
with the key of the last search, and reassembles them only when another key is
searched. This file gives the operations as functions on binary trees and their
meaning as the in-order list of elements.
-/

open List

namespace SplayTree

variable {α K : Type*}

/-- A left spine: subtree and element of each node, the node at the hole first. -/
abbrev LeftSpine (α : Type*) := List (BinaryTree α × α)

/-- A right spine: element and subtree of each node, the node at the hole first. -/
abbrev RightSpine (α : Type*) := List (α × BinaryTree α)

/-- The in-order elements of a binary tree. -/
def elements : BinaryTree α → List α
  | .nil => []
  | .node a l r => elements l ++ a :: elements r

/-- The in-order elements of a left spine. -/
def leftElements : LeftSpine α → List α
  | [] => []
  | (l, a) :: rest => leftElements rest ++ (elements l ++ [a])

/-- The in-order elements of a right spine. -/
def rightElements : RightSpine α → List α
  | [] => []
  | (a, r) :: rest => a :: elements r ++ rightElements rest

/-- Put a tree into the hole of a left spine. -/
def fillLeft : LeftSpine α → BinaryTree α → BinaryTree α
  | [], t => t
  | (l, a) :: rest, t => fillLeft rest (.node a l t)

/-- Put a tree into the hole of a right spine. -/
def fillRight : RightSpine α → BinaryTree α → BinaryTree α
  | [], t => t
  | (a, r) :: rest, t => fillRight rest (.node a t r)

@[simp] theorem elements_nil : elements (.nil : BinaryTree α) = [] := rfl

@[simp] theorem elements_node (a : α) (l r : BinaryTree α) :
    elements (.node a l r) = elements l ++ a :: elements r := rfl

@[simp] theorem leftElements_nil : leftElements ([] : LeftSpine α) = [] := rfl

@[simp] theorem leftElements_cons (l : BinaryTree α) (a : α) (rest : LeftSpine α) :
    leftElements ((l, a) :: rest) = leftElements rest ++ (elements l ++ [a]) := rfl

@[simp] theorem rightElements_nil : rightElements ([] : RightSpine α) = [] := rfl

@[simp] theorem rightElements_cons (a : α) (r : BinaryTree α) (rest : RightSpine α) :
    rightElements ((a, r) :: rest) = a :: elements r ++ rightElements rest := rfl

/-- Only the empty tree has no elements. -/
theorem elements_eq_nil {t : BinaryTree α} : elements t = [] ↔ t = .nil := by
  cases t <;> simp

/-- The emptiness test on trees. -/
def isNil : BinaryTree α → Bool
  | .nil => true
  | .node _ _ _ => false

@[simp] theorem isNil_nil : isNil (.nil : BinaryTree α) = true := rfl

@[simp] theorem isNil_node (a : α) (l r : BinaryTree α) : isNil (.node a l r) = false := rfl

/-- The test holds of the empty tree alone. -/
theorem isNil_iff {t : BinaryTree α} : isNil t = true ↔ t = .nil := by
  cases t <;> simp

/-- Filling a left spine appends the tree to the spine's elements. -/
@[simp] theorem elements_fillLeft (L : LeftSpine α) (t : BinaryTree α) :
    elements (fillLeft L t) = leftElements L ++ elements t := by
  induction L generalizing t with
  | nil => rfl
  | cons p rest ih =>
    obtain ⟨l, a⟩ := p
    simp [fillLeft, ih]

/-- Filling a right spine puts the tree before the spine's elements. -/
@[simp] theorem elements_fillRight (R : RightSpine α) (t : BinaryTree α) :
    elements (fillRight R t) = elements t ++ rightElements R := by
  induction R generalizing t with
  | nil => simp [fillRight]
  | cons p rest ih =>
    obtain ⟨a, r⟩ := p
    simp [fillRight, ih]

/-- The three pieces a top-down splay leaves. -/
structure Pieces (α : Type*) where
  /-- Nodes before the middle tree. -/
  left : LeftSpine α
  /-- The middle tree. -/
  mid : BinaryTree α
  /-- Nodes after the middle tree. -/
  right : RightSpine α
  deriving DecidableEq

/-- The in-order elements of the three pieces. -/
def Pieces.elements (p : Pieces α) : List α :=
  leftElements p.left ++ SplayTree.elements p.mid ++ rightElements p.right

/-- Put the two spines under the root of the middle tree. -/
def Pieces.assemble (p : Pieces α) : BinaryTree α :=
  match p.mid with
  | .nil => .nil
  | .node a l r => .node a (fillLeft p.left l) (fillRight p.right r)

/-- Assembling keeps the elements, as long as there is a middle tree. -/
theorem Pieces.elements_assemble {p : Pieces α} (h : p.mid ≠ .nil) :
    SplayTree.elements p.assemble = p.elements := by
  unfold Pieces.assemble Pieces.elements
  split
  · contradiction
  · simp_all

/-- Assembling a non-empty middle tree gives a non-empty tree. -/
theorem Pieces.assemble_ne_nil {p : Pieces α} (h : p.mid ≠ .nil) : p.assemble ≠ .nil := by
  unfold Pieces.assemble
  split <;> simp_all

section Order

variable [LinearOrder K] (key : α → K)

/-- One turn of the top-down splay at `k`: hang the node passed on a spine, or
two nodes at a time, with a rotation where both turns go the same way. There is
no turn left at the node searched or where the next subtree is missing. -/
def step (k : K) (p : Pieces α) : Option (Pieces α) :=
  match p.mid with
  | .nil => none
  | .node a l r =>
    if k < key a then
      match l with
      | .nil => none
      | .node b ll lr =>
        if k < key b ∧ isNil ll = false then
          some ⟨p.left, ll, (b, .node a lr r) :: p.right⟩
        else if key b < k ∧ isNil lr = false then
          some ⟨(ll, b) :: p.left, lr, (a, r) :: p.right⟩
        else some ⟨p.left, .node b ll lr, (a, r) :: p.right⟩
    else if key a < k then
      match r with
      | .nil => none
      | .node b rl rr =>
        if key b < k ∧ isNil rr = false then
          some ⟨(.node a l rl, b) :: p.left, rr, p.right⟩
        else if k < key b ∧ isNil rl = false then
          some ⟨(l, a) :: p.left, rl, (b, rr) :: p.right⟩
        else some ⟨(l, a) :: p.left, .node b rl rr, p.right⟩
    else none

/-- At most `n` turns of the top-down splay. -/
def run (k : K) : ℕ → Pieces α → Pieces α
  | 0, p => p
  | n + 1, p =>
    match step key k p with
    | none => p
    | some q => run k n q

/-- The whole top-down splay of a tree at `k`. -/
def topDown (k : K) (t : BinaryTree α) : Pieces α :=
  run key k t.numNodes ⟨[], t, []⟩

/-- The nodes on the spines lie strictly on either side of `k`. -/
def Spines (k : K) (p : Pieces α) : Prop :=
  (∀ x ∈ leftElements p.left, key x < k) ∧ ∀ x ∈ rightElements p.right, k < key x

/-- Strictly increasing keys. -/
def Sorted (xs : List α) : Prop := xs.Pairwise (fun x y => key x < key y)

variable {f : α → K} {k : K} {p q : Pieces α}

/-- The cases of one turn: which nodes move where, and on which side of `k`
they lie. -/
theorem step_cases (h : step f k p = some q) :
    ∃ a l r, p.mid = .node a l r ∧
      ((k < f a ∧ ∃ b ll lr, l = .node b ll lr ∧
        ((k < f b ∧ ll ≠ .nil ∧ q = ⟨p.left, ll, (b, .node a lr r) :: p.right⟩) ∨
        (f b < k ∧ lr ≠ .nil ∧ q = ⟨(ll, b) :: p.left, lr, (a, r) :: p.right⟩) ∨
        q = ⟨p.left, .node b ll lr, (a, r) :: p.right⟩)) ∨
      (f a < k ∧ ∃ b rl rr, r = .node b rl rr ∧
        ((f b < k ∧ rr ≠ .nil ∧ q = ⟨(.node a l rl, b) :: p.left, rr, p.right⟩) ∨
        (k < f b ∧ rl ≠ .nil ∧ q = ⟨(l, a) :: p.left, rl, (b, rr) :: p.right⟩) ∨
        q = ⟨(l, a) :: p.left, .node b rl rr, p.right⟩))) := by
  obtain ⟨L, t, R⟩ := p
  have hne {t : BinaryTree α} (ht : isNil t = false) : t ≠ .nil := by
    rintro rfl
    simp at ht
  cases t with
  | nil => simp [step] at h
  | node a l r =>
    refine ⟨a, l, r, rfl, ?_⟩
    by_cases hlt : k < f a
    · cases l with
      | nil => simp [step, hlt] at h
      | node b ll lr =>
        refine Or.inl ⟨hlt, b, ll, lr, rfl, ?_⟩
        simp only [step, if_pos hlt] at h
        split_ifs at h with h1 h2
        · exact Or.inl ⟨h1.1, hne h1.2, (Option.some.inj h).symm⟩
        · exact Or.inr (Or.inl ⟨h2.1, hne h2.2, (Option.some.inj h).symm⟩)
        · exact Or.inr (Or.inr (Option.some.inj h).symm)
    · by_cases hgt : f a < k
      · cases r with
        | nil => simp [step, hlt, hgt] at h
        | node b rl rr =>
          refine Or.inr ⟨hgt, b, rl, rr, rfl, ?_⟩
          simp only [step, if_neg hlt, if_pos hgt] at h
          split_ifs at h with h1 h2
          · exact Or.inl ⟨h1.1, hne h1.2, (Option.some.inj h).symm⟩
          · exact Or.inr (Or.inl ⟨h2.1, hne h2.2, (Option.some.inj h).symm⟩)
          · exact Or.inr (Or.inr (Option.some.inj h).symm)
      · simp [step, hlt, hgt] at h

/-- A turn keeps the in-order elements. -/
theorem step_elements (h : step f k p = some q) : q.elements = p.elements := by
  obtain ⟨a, l, r, hmid, hcase⟩ := step_cases h
  rcases hcase with ⟨_, b, ll, lr, rfl, ⟨_, _, rfl⟩ | ⟨_, _, rfl⟩ | rfl⟩ |
    ⟨_, b, rl, rr, rfl, ⟨_, _, rfl⟩ | ⟨_, _, rfl⟩ | rfl⟩ <;>
    simp [Pieces.elements, hmid]

/-- A turn leaves a non-empty middle tree, smaller than before. -/
theorem step_mid (h : step f k p = some q) : q.mid ≠ .nil ∧ q.mid.numNodes < p.mid.numNodes := by
  obtain ⟨a, l, r, hmid, hcase⟩ := step_cases h
  rw [hmid]
  rcases hcase with ⟨_, b, ll, lr, rfl, ⟨_, hn, rfl⟩ | ⟨_, hn, rfl⟩ | rfl⟩ |
    ⟨_, b, rl, rr, rfl, ⟨_, hn, rfl⟩ | ⟨_, hn, rfl⟩ | rfl⟩
  all_goals
    refine ⟨by first | exact hn | simp, ?_⟩
    simp only [BinaryTree.numNodes]
    omega

/-- In a search tree, a turn keeps the spines on their sides of `k`. -/
theorem step_spines (hs : Sorted f p.elements) (hp : Spines f k p)
    (h : step f k p = some q) : Spines f k q := by
  obtain ⟨hl, hr⟩ := hp
  obtain ⟨a, l, r, hmid, hcase⟩ := step_cases h
  have hsm : Sorted f (elements p.mid) :=
    (pairwise_append.mp (pairwise_append.mp hs).1).2.1
  rw [hmid, elements_node] at hsm
  obtain ⟨hsl, hsr, hlt⟩ := pairwise_append.mp hsm
  obtain ⟨har, hsr⟩ := pairwise_cons.mp hsr
  have hla (x : α) (hx : x ∈ elements l) : f x < f a := hlt x hx a (by simp)
  rcases hcase with ⟨hka, b, ll, lr, rfl, hcase⟩ | ⟨hka, b, rl, rr, rfl, hcase⟩
  · obtain ⟨hsll, hslr, hllr⟩ := pairwise_append.mp hsl
    obtain ⟨hblr, hslr⟩ := pairwise_cons.mp hslr
    rcases hcase with ⟨hkb, _, rfl⟩ | ⟨hkb, _, rfl⟩ | rfl
    · refine ⟨hl, fun x hx => ?_⟩
      simp only [rightElements_cons, elements_node, cons_append, mem_cons, mem_append] at hx
      rcases hx with rfl | (hx | rfl | hx) | hx
      · exact hkb
      · exact hkb.trans (hblr x hx)
      · exact hka
      · exact hka.trans (har x hx)
      · exact hr x hx
    · refine ⟨fun x hx => ?_, fun x hx => ?_⟩
      · simp only [leftElements_cons, mem_append, mem_singleton] at hx
        rcases hx with hx | hx | rfl
        · exact hl x hx
        · exact (hllr x hx b (by simp)).trans hkb
        · exact hkb
      · simp only [rightElements_cons, cons_append, mem_cons, mem_append] at hx
        rcases hx with rfl | hx | hx
        · exact hka
        · exact hka.trans (har x hx)
        · exact hr x hx
    · refine ⟨hl, fun x hx => ?_⟩
      simp only [rightElements_cons, cons_append, mem_cons, mem_append] at hx
      rcases hx with rfl | hx | hx
      · exact hka
      · exact hka.trans (har x hx)
      · exact hr x hx
  · obtain ⟨hsrl, hsrr, hrlr⟩ := pairwise_append.mp hsr
    obtain ⟨hbrr, hsrr⟩ := pairwise_cons.mp hsrr
    rcases hcase with ⟨hkb, _, rfl⟩ | ⟨hkb, _, rfl⟩ | rfl
    · refine ⟨fun x hx => ?_, hr⟩
      simp only [leftElements_cons, elements_node, mem_append, mem_cons,
        not_mem_nil, or_false] at hx
      rcases hx with hx | (hx | rfl | hx) | rfl
      · exact hl x hx
      · exact (hla x hx).trans hka
      · exact hka
      · exact (hrlr x hx b (by simp)).trans hkb
      · exact hkb
    · refine ⟨fun x hx => ?_, fun x hx => ?_⟩
      · simp only [leftElements_cons, mem_append, mem_singleton] at hx
        rcases hx with hx | hx | rfl
        · exact hl x hx
        · exact (hla x hx).trans hka
        · exact hka
      · simp only [rightElements_cons, cons_append, mem_cons, mem_append] at hx
        rcases hx with rfl | hx | hx
        · exact hkb
        · exact hkb.trans (hbrr x hx)
        · exact hr x hx
    · refine ⟨fun x hx => ?_, hr⟩
      simp only [leftElements_cons, mem_append, mem_singleton] at hx
      rcases hx with hx | hx | rfl
      · exact hl x hx
      · exact (hla x hx).trans hka
      · exact hka

/-- Where no turn is left, the root is the node searched or has no subtree on
the side of `k`. -/
theorem step_none (h : step f k p = none) {a : α} {l r : BinaryTree α}
    (hmid : p.mid = .node a l r) :
    (k < f a → l = .nil) ∧ (f a < k → r = .nil) := by
  simp only [step, hmid] at h
  constructor
  · intro hlt
    cases l with
    | nil => rfl
    | node b ll lr =>
      simp only [if_pos hlt] at h
      split_ifs at h
  · intro hgt
    cases r with
    | nil => rfl
    | node b rl rr =>
      simp only [if_neg hgt.not_gt, if_pos hgt] at h
      split_ifs at h

/-- Turns keep the in-order elements. -/
@[simp] theorem run_elements (n : ℕ) (p : Pieces α) : (run f k n p).elements = p.elements := by
  induction n generalizing p with
  | zero => rfl
  | succ n ih =>
    unfold run
    cases hstep : step f k p with
    | none => rfl
    | some q => rw [ih q, step_elements hstep]

/-- Turns keep the middle tree non-empty. -/
theorem run_mid_ne_nil (n : ℕ) (h : p.mid ≠ .nil) : (run f k n p).mid ≠ .nil := by
  induction n generalizing p with
  | zero => exact h
  | succ n ih =>
    unfold run
    cases hstep : step f k p with
    | none => exact h
    | some q => exact ih (step_mid hstep).1

/-- In a search tree, turns keep the spines on their sides of `k`. -/
theorem run_spines (n : ℕ) (hs : Sorted f p.elements) (hp : Spines f k p) :
    Spines f k (run f k n p) := by
  induction n generalizing p with
  | zero => exact hp
  | succ n ih =>
    unfold run
    cases hstep : step f k p with
    | none => exact hp
    | some q => exact ih (by rwa [step_elements hstep]) (step_spines hs hp hstep)

/-- As many turns as there are nodes in the middle tree bring the splay to its end. -/
theorem step_run {n : ℕ} (hn : p.mid.numNodes ≤ n) : step f k (run f k n p) = none := by
  induction n generalizing p with
  | zero =>
    have hmid : p.mid = .nil := by
      cases hmid : p.mid with
      | nil => rfl
      | node a l r => simp [hmid] at hn
    simp [run, step, hmid]
  | succ n ih =>
    unfold run
    cases hstep : step f k p with
    | none => exact hstep
    | some q =>
      have hlt := (step_mid hstep).2
      exact ih (by omega)

/-- A top-down splay keeps the in-order elements. -/
@[simp] theorem topDown_elements (t : BinaryTree α) : (topDown f k t).elements = elements t := by
  rw [topDown, run_elements]
  simp [Pieces.elements]

/-- A top-down splay of a non-empty tree has a non-empty middle tree. -/
theorem topDown_mid_ne_nil {t : BinaryTree α} (h : t ≠ .nil) : (topDown f k t).mid ≠ .nil :=
  run_mid_ne_nil _ h

/-- A top-down splay of a search tree puts the spines on their sides of `k`. -/
theorem topDown_spines {t : BinaryTree α} (hs : Sorted f (elements t)) :
    Spines f k (topDown f k t) :=
  run_spines _ (by simpa [Pieces.elements] using hs) (by simp [Spines])

/-- A top-down splay goes on to its end. -/
theorem step_topDown (t : BinaryTree α) : step f k (topDown f k t) = none :=
  step_run (Nat.le_refl t.numNodes)

end Order

end SplayTree
