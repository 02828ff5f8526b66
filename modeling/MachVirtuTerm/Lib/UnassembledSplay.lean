import Mathlib.Order.Bounds.Basic
import MachVirtuTerm.Lib.SplayTree

/-!
# Ordered sets as unassembled splay trees

The operations of a splay tree that is kept unassembled between calls. Each one
first brings the searched key to the top, unless it was the key of the last
search, and then rearranges the three pieces. The meaning of every operation is
given on the in-order elements: searching keeps them, inserting, deleting and
splitting filter them by key, and joining concatenates them.
-/

open List

namespace SplayTree

open Pieces Or

variable {α K : Type*}

/-- An unassembled splay tree: the key of the last search and the pieces it
left. The tree is empty when the middle tree is. -/
structure Unassembled (α K : Type*) where
  /-- The key of the last search. -/
  name : K
  /-- What the last search left. -/
  pieces : Pieces α
  deriving DecidableEq

/-- The in-order elements. -/
def Unassembled.elements (u : Unassembled α K) : List α := u.pieces.elements

/-- The empty tree, with a stale key. -/
def Unassembled.empty (n : K) : Unassembled α K := ⟨n, ⟨[], .nil, []⟩⟩

/-- An assembled tree as an unassembled one: both spines are empty and the key
of the root counts as the last one searched. The key of an empty tree is stale. -/
def rooted (key : α → K) (n : K) : BinaryTree α → Unassembled α K
  | .nil => .empty n
  | .node a l r => ⟨key a, ⟨[], .node a l r, []⟩⟩

@[simp] theorem elements_mk (n : K) (L : LeftSpine α) (t : BinaryTree α) (R : RightSpine α) :
    (⟨n, ⟨L, t, R⟩⟩ : Unassembled α K).elements =
      leftElements L ++ elements t ++ rightElements R := rfl

@[simp] theorem elements_empty (n : K) : (Unassembled.empty n : Unassembled α K).elements = [] := rfl

@[simp] theorem elements_rooted (key : α → K) (n : K) (t : BinaryTree α) :
    (rooted key n t).elements = elements t := by
  cases t <;> simp [rooted, Unassembled.elements, Pieces.elements, Unassembled.empty]

section Order

variable [LinearOrder K] (key : α → K)

/-- What every operation keeps: a search tree whose pieces are those a search
for the remembered key leaves, with empty spines around an empty middle tree. -/
structure WellFormed (u : Unassembled α K) : Prop where
  /-- The elements are sorted by key. -/
  sorted : Sorted key u.elements
  /-- The spines lie on their sides of the remembered key. -/
  spines : Spines key u.name u.pieces
  /-- The search for the remembered key ended at the root of the middle tree. -/
  ended : step key u.name u.pieces = none
  /-- No spines hang from an empty middle tree. -/
  empty : u.pieces.mid = .nil → u.pieces.left = [] ∧ u.pieces.right = []

/-- Bring `k`, or the last node on the way to it, to the top. -/
def find (k : K) (u : Unassembled α K) : Unassembled α K :=
  if isNil u.pieces.mid = true ∨ u.name = k then u
  else ⟨k, topDown key k u.pieces.assemble⟩

/-- The element with key `k`, and the tree after the search. -/
def lookup (k : K) (u : Unassembled α K) : Unassembled α K × Option α :=
  let s := find key k u
  match s.pieces.mid with
  | .nil => (s, none)
  | .node a _ _ => (s, if k = key a then some a else none)

/-- The element at the root. -/
def pick (u : Unassembled α K) : Option α :=
  match u.pieces.mid with
  | .nil => none
  | .node a _ _ => some a

/-- Make a new element the root, with the pieces of the search for its key below. -/
def insert (e : α) (u : Unassembled α K) : Unassembled α K :=
  let s := find key (key e) u
  match s.pieces.mid with
  | .nil => ⟨key e, ⟨[], .node e .nil .nil, []⟩⟩
  | .node a l r =>
    if key e < key a then
      ⟨key e, ⟨[], .node e (fillLeft s.pieces.left .nil)
        (fillRight s.pieces.right (.node a l r)), []⟩⟩
    else
      ⟨key e, ⟨[], .node e (fillLeft s.pieces.left (.node a l r))
        (fillRight s.pieces.right .nil), []⟩⟩

/-- Put the elements smaller than `k` into a tree of their own (the second one). -/
def split (k : K) (u : Unassembled α K) : Unassembled α K × Unassembled α K :=
  let s := find key k u
  match s.pieces.mid with
  | .nil => (u, .empty u.name)
  | .node a l r =>
    if key a < k then
      (rooted key u.name (fillRight s.pieces.right .nil),
        ⟨key a, ⟨[], .node a (fillLeft s.pieces.left l) r, []⟩⟩)
    else
      (⟨k, ⟨[], .node a .nil r, s.pieces.right⟩⟩, rooted key u.name (fillLeft s.pieces.left l))

variable [BoundedOrder K]

/-- Remove the element with key `k`: what precedes it and what follows it is
joined at the largest element of the former. -/
def delete (k : K) (u : Unassembled α K) : Unassembled α K :=
  let s := find key k u
  match s.pieces.mid with
  | .nil => u
  | .node _ l r =>
    match fillLeft s.pieces.left l, fillRight s.pieces.right r with
    | .nil, rt => rooted key u.name rt
    | .node b bl br, .nil => rooted key u.name (.node b bl br)
    | .node b bl br, .node c cl cr =>
      match (topDown key ⊤ (.node b bl br)).assemble with
      | .nil => u
      | .node d dl _ => rooted key u.name (.node d dl (.node c cl cr))

/-- Add the elements of `small`, all of which precede those of `u`. -/
def join (u small : Unassembled α K) : Unassembled α K :=
  match small.pieces.assemble with
  | .nil => u
  | .node b bl br =>
    match u.pieces.mid with
    | .nil => rooted key u.name (.node b bl br)
    | .node _ _ _ =>
      match (find key ⊥ u).pieces.assemble with
      | .nil => u
      | .node a _ r => rooted key u.name (.node a (.node b bl br) r)

/-- The key at the hole of a left spine. -/
def lowerKey : LeftSpine α → K
  | [] => ⊤
  | (_, b) :: _ => key b

/-- The key at the hole of a right spine. -/
def upperKey : RightSpine α → K
  | [] => ⊥
  | (b, _) :: _ => key b

/-- The greatest key up to `k` and the least key from `k` on; `⊤` and `⊥` stand
for none. -/
def bounds (k : K) (u : Unassembled α K) : Unassembled α K × K × K :=
  let s := find key k u
  match s.pieces.mid with
  | .nil => (s, ⊤, ⊥)
  | .node a _ _ =>
    (s, if key a ≤ k then key a else lowerKey key s.pieces.left,
      if k ≤ key a then key a else upperKey key s.pieces.right)

end Order

section Meaning

variable [LinearOrder K] {f : α → K} {k : K} {u small : Unassembled α K}

/-- An empty tree is well formed. -/
theorem wellFormed_empty (n : K) : WellFormed f (Unassembled.empty n : Unassembled α K) :=
  ⟨List.Pairwise.nil, by simp [Spines, Unassembled.empty], rfl, fun _ => ⟨rfl, rfl⟩⟩

/-- There is no turn left at the searched key. -/
theorem step_self {a : α} {l r : BinaryTree α} {L : LeftSpine α} {R : RightSpine α} :
    step f (f a) ⟨L, .node a l r, R⟩ = none := by
  simp [step]

/-- A sorted assembled tree is well formed. -/
theorem wellFormed_rooted {n : K} {t : BinaryTree α} (h : Sorted f (elements t)) :
    WellFormed f (rooted f n t) := by
  cases t with
  | nil => exact wellFormed_empty n
  | node a l r =>
    refine ⟨by simpa using h, by simp [rooted, Spines], step_self, ?_⟩
    simp [rooted]

/-- The emptiness of a tree shows in its middle piece. -/
theorem WellFormed.elements_eq_nil (h : WellFormed f u) :
    u.elements = [] ↔ u.pieces.mid = .nil := by
  constructor
  · intro hnil
    simp only [Unassembled.elements, Pieces.elements, append_eq_nil_iff] at hnil
    exact SplayTree.elements_eq_nil.mp hnil.1.2
  · intro hmid
    obtain ⟨hl, hr⟩ := h.empty hmid
    simp [Unassembled.elements, Pieces.elements, hmid, hl, hr]

/-- Searching keeps the elements. -/
theorem elements_find (u : Unassembled α K) : (find f k u).elements = u.elements := by
  unfold find
  split_ifs with h
  · rfl
  · have hmid : u.pieces.mid ≠ .nil := fun hm => h (inl (isNil_iff.mpr hm))
    simp [Unassembled.elements, elements_assemble hmid]

/-- Searching keeps a tree well formed. -/
theorem WellFormed.find (h : WellFormed f u) : WellFormed f (find f k u) := by
  have hel := elements_find (f := f) (k := k) u
  have hsorted : Sorted f (SplayTree.find f k u).elements := by rw [hel]; exact h.sorted
  unfold SplayTree.find at hel hsorted ⊢
  split_ifs at hsorted ⊢ with hc
  · exact h
  · have hmid : u.pieces.mid ≠ .nil := fun hm => hc (inl (isNil_iff.mpr hm))
    have hne := assemble_ne_nil hmid
    refine ⟨hsorted, ?_, step_topDown _, fun hm => absurd hm (topDown_mid_ne_nil hne)⟩
    apply topDown_spines
    rw [elements_assemble hmid]
    exact h.sorted

/-- After a search of a non-empty tree the searched key is the remembered one. -/
theorem find_name (h : u.pieces.mid ≠ .nil) : (find f k u).name = k := by
  unfold find
  split_ifs with hc
  · rcases hc with hc | hc
    · exact absurd (isNil_iff.mp hc) h
    · exact hc
  · rfl

/-- Searching keeps the middle tree non-empty. -/
theorem find_mid_ne_nil (h : u.pieces.mid ≠ .nil) : (find f k u).pieces.mid ≠ .nil := by
  unfold find
  split_ifs
  · exact h
  · exact topDown_mid_ne_nil (assemble_ne_nil h)

/-- Searching an empty tree changes nothing. -/
theorem find_of_nil (h : u.pieces.mid = .nil) : find f k u = u := by
  unfold find
  rw [if_pos (inl (isNil_iff.mpr h))]

/-- What a search of a non-empty tree ends at. -/
theorem exists_root (k : K) (h : u.pieces.mid ≠ .nil) :
    ∃ a l r, (find f k u).pieces.mid = .node a l r ∧
      u.elements = leftElements (find f k u).pieces.left ++ (elements l ++ a :: elements r) ++
        rightElements (find f k u).pieces.right := by
  rw [← elements_find (f := f) (k := k) u]
  cases hmid : (find f k u).pieces.mid with
  | nil => exact absurd hmid (find_mid_ne_nil h)
  | node a l r => exact ⟨a, l, r, rfl, by simp [Unassembled.elements, Pieces.elements, hmid]⟩

/-- Where the search for `k` ended: the elements before it and
those after it, on either side of the root. -/
theorem WellFormed.cut (h : WellFormed f u) (hname : u.name = k) {a : α} {l r : BinaryTree α}
    (hmid : u.pieces.mid = .node a l r) :
    (k < f a ∧ l = .nil ∧ (∀ x ∈ leftElements u.pieces.left, f x < k) ∧
      ∀ x ∈ a :: (elements r ++ rightElements u.pieces.right), k < f x) ∨
    (f a < k ∧ r = .nil ∧
      (∀ x ∈ leftElements u.pieces.left ++ (elements l ++ [a]), f x < k) ∧
      ∀ x ∈ rightElements u.pieces.right, k < f x) ∨
    (f a = k ∧ (∀ x ∈ leftElements u.pieces.left ++ elements l, f x < k) ∧
      ∀ x ∈ elements r ++ rightElements u.pieces.right, k < f x) := by
  subst hname
  obtain ⟨hl, hr⟩ := h.spines
  have hs := h.sorted
  simp only [Unassembled.elements, Pieces.elements, hmid, elements_node] at hs
  have hsm := (pairwise_append.mp (pairwise_append.mp hs).1).2.1
  obtain ⟨_, hsr, hlt⟩ := pairwise_append.mp hsm
  have har := (pairwise_cons.mp hsr).1
  have hla (x : α) (hx : x ∈ elements l) : f x < f a := hlt x hx a (by simp)
  obtain ⟨hleft, hright⟩ := step_none h.ended hmid
  rcases lt_trichotomy u.name (f a) with hlt | heq | hgt
  · refine inl ⟨hlt, hleft hlt, hl, fun x hx => ?_⟩
    simp only [mem_cons, mem_append] at hx
    rcases hx with rfl | hx | hx
    · exact hlt
    · exact hlt.trans (har x hx)
    · exact hr x hx
  · refine inr (inr ⟨heq.symm, fun x hx => ?_, fun x hx => ?_⟩)
    · rcases mem_append.mp hx with hx | hx
      · exact hl x hx
      · exact heq ▸ hla x hx
    · rcases mem_append.mp hx with hx | hx
      · exact heq ▸ har x hx
      · exact hr x hx
  · refine inr (inl ⟨hgt, hright hgt, fun x hx => ?_, hr⟩)
    simp only [mem_append, mem_singleton] at hx
    rcases hx with hx | hx | rfl
    · exact hl x hx
    · exact (hla x hx).trans hgt
    · exact hgt

/-- The element found is the one with the searched key, if there is one. -/
theorem lookup_eq_some (h : WellFormed f u) {x : α} :
    (lookup f k u).2 = some x ↔ x ∈ u.elements ∧ f x = k := by
  by_cases hm : u.pieces.mid = .nil
  · simp [lookup, find_of_nil hm, hm, (h.elements_eq_nil).mpr hm]
  obtain ⟨a, l, r, hmid, hel⟩ := exists_root (f := f) k hm
  have hcut := h.find.cut (find_name hm) hmid
  simp only [lookup, hmid, hel]
  constructor
  · intro hx
    split_ifs at hx with hk
    obtain rfl := Option.some.inj hx
    exact ⟨by simp, hk.symm⟩
  · rintro ⟨hx, rfl⟩
    simp only [mem_append, mem_cons] at hx
    rcases hcut with ⟨hlt, rfl, hl, hr⟩ | ⟨hlt, rfl, hl, hr⟩ | ⟨heq, hl, hr⟩
    · simp only [mem_cons, mem_append] at hr
      rcases hx with (hx | hx | rfl | hx) | hx
      · exact absurd (hl x hx) (lt_irrefl _)
      · simp at hx
      · exact absurd hlt (lt_irrefl _)
      · exact absurd (hr x (inr (inl hx))) (lt_irrefl _)
      · exact absurd (hr x (inr (inr hx))) (lt_irrefl _)
    · simp only [mem_append, mem_singleton] at hl
      rcases hx with (hx | hx | rfl | hx) | hx
      · exact absurd (hl x (inl hx)) (lt_irrefl _)
      · exact absurd (hl x (inr (inl hx))) (lt_irrefl _)
      · exact absurd hlt (lt_irrefl _)
      · simp at hx
      · exact absurd (hr x hx) (lt_irrefl _)
    · simp only [mem_append] at hl hr
      rcases hx with (hx | hx | rfl | hx) | hx
      · exact absurd (hl x (inl hx)) (lt_irrefl _)
      · exact absurd (hl x (inr hx)) (lt_irrefl _)
      · simp
      · exact absurd (hr x (inl hx)) (lt_irrefl _)
      · exact absurd (hr x (inr hx)) (lt_irrefl _)

/-- Looking up leaves the tree of the search. -/
theorem lookup_fst (u : Unassembled α K) : (lookup f k u).1 = find f k u := by
  simp only [lookup]
  cases (find f k u).pieces.mid <;> rfl

/-- The root is an element; there is none only in the empty tree. -/
theorem pick_eq_none (h : WellFormed f u) : pick u = none ↔ u.elements = [] := by
  rw [h.elements_eq_nil, pick]
  cases u.pieces.mid <;> simp

omit [LinearOrder K] in
/-- The picked element is in the tree. -/
theorem mem_of_pick {x : α} (h : pick u = some x) : x ∈ u.elements := by
  unfold pick at h
  cases hmid : u.pieces.mid with
  | nil => simp [hmid] at h
  | node a l r =>
    simp only [hmid, Option.some.injEq] at h
    subst h
    simp [Unassembled.elements, Pieces.elements, hmid]

/-- Splitting at `k` cuts the elements in two, the first part with the keys
below `k`. -/
theorem elements_split (h : WellFormed f u) :
    (split f k u).2.elements ++ (split f k u).1.elements = u.elements ∧
      (∀ x ∈ (split f k u).2.elements, f x < k) ∧
      ∀ x ∈ (split f k u).1.elements, k ≤ f x := by
  by_cases hm : u.pieces.mid = .nil
  · simp [split, find_of_nil hm, hm, (h.elements_eq_nil).mpr hm]
  obtain ⟨a, l, r, hmid, hel⟩ := exists_root (f := f) k hm
  have hcut := h.find.cut (find_name hm) hmid
  rw [hel]
  rcases hcut with ⟨hlt, rfl, hl, hr⟩ | ⟨hlt, rfl, hl, hr⟩ | ⟨heq, hl, hr⟩
  · simp only [split, hmid, if_neg hlt.not_gt]
    refine ⟨?_, ?_, fun x hx => (hr x ?_).le⟩
    · simp
    · simpa using hl
    · simpa using hx
  · simp only [split, hmid, if_pos hlt]
    refine ⟨?_, fun x hx => hl x ?_, fun x hx => (hr x ?_).le⟩
    · simp
    · simpa using hx
    · simpa using hx
  · simp only [split, hmid, if_neg heq.not_lt]
    refine ⟨?_, ?_, fun x hx => ?_⟩
    · simp
    · simpa using hl
    · simp only [elements_mk, leftElements_nil, elements_node, elements_nil, nil_append,
        cons_append, mem_cons] at hx
      rcases hx with rfl | hx
      · exact heq.ge
      · exact (hr x hx).le

/-- Splitting keeps both parts well formed. -/
theorem WellFormed.split (h : WellFormed f u) :
    WellFormed f (split f k u).1 ∧ WellFormed f (split f k u).2 := by
  have hsorted := h.sorted
  rw [← (elements_split (k := k) h).1] at hsorted
  obtain ⟨hs2, hs1, _⟩ := pairwise_append.mp hsorted
  by_cases hm : u.pieces.mid = .nil
  · rw [SplayTree.split, find_of_nil hm, hm]
    exact ⟨h, wellFormed_empty _⟩
  have hs := h.find (k := k)
  have hname := find_name (f := f) (k := k) hm
  cases hmid : (SplayTree.find f k u).pieces.mid with
  | nil => exact absurd hmid (find_mid_ne_nil hm)
  | node a l r =>
    simp only [SplayTree.split, hmid] at hs1 hs2 ⊢
    split_ifs at hs1 hs2 ⊢ with hlt
    · refine ⟨wellFormed_rooted (by simpa [Sorted] using hs1), ?_⟩
      exact wellFormed_rooted (n := k) (t := .node a (fillLeft _ l) r) (by simpa [Sorted] using hs2)
    · refine ⟨⟨hs1, ⟨by simp, ?_⟩, ?_, by simp⟩, wellFormed_rooted (by simpa [Sorted] using hs2)⟩
      · simpa [hname] using hs.spines.2
      · simp [step, hlt]

/-- Joining puts the elements of the smaller tree first. -/
theorem elements_join [BoundedOrder K] (h : WellFormed f u) (hsmall : WellFormed f small) :
    (join f u small).elements = small.elements ++ u.elements := by
  by_cases hsm : small.pieces.mid = .nil
  · have : small.pieces.assemble = .nil := by simp [assemble, hsm]
    rw [join, this, (hsmall.elements_eq_nil).mpr hsm, nil_append]
  have hasm := elements_assemble hsm
  cases hroot : small.pieces.assemble with
  | nil => exact absurd hroot (assemble_ne_nil hsm)
  | node b bl br =>
    rw [hroot] at hasm
    have hsel : small.elements = elements (.node b bl br) := hasm.symm
    simp only [join, hroot]
    by_cases hm : u.pieces.mid = .nil
    · rw [hm, (h.elements_eq_nil).mpr hm, append_nil, elements_rooted, hsel]
    cases hmid : u.pieces.mid with
    | nil => exact absurd hmid hm
    | node c cl cr =>
      obtain ⟨a, l, r, hfm, hel⟩ := exists_root (f := f) ⊥ hm
      have hcut := h.find.cut (find_name hm) hfm
      -- Nothing precedes the node a search for the least key ends at.
      have hfirst : leftElements (find f ⊥ u).pieces.left ++ elements l = [] := by
        rw [eq_nil_iff_forall_not_mem]
        intro x hx
        rcases hcut with ⟨_, rfl, hl, _⟩ | ⟨hlt, _, _⟩ | ⟨_, hl, _⟩
        · exact not_lt_bot (hl x (by simpa using hx))
        · exact not_lt_bot hlt
        · exact not_lt_bot (hl x hx)
      obtain ⟨hL, hl⟩ := append_eq_nil_iff.mp hfirst
      have hassemble : (find f ⊥ u).pieces.assemble =
          .node a (fillLeft (find f ⊥ u).pieces.left l)
            (fillRight (find f ⊥ u).pieces.right r) := by
        simp [assemble, hfm]
      simp only [hassemble, elements_rooted]
      rw [hsel, hel]
      simp [hL, hl]

/-- Joining gives a well-formed tree. -/
theorem WellFormed.join [BoundedOrder K] (h : WellFormed f u) (hsmall : WellFormed f small)
    (hlt : ∀ x ∈ small.elements, ∀ y ∈ u.elements, f x < f y) :
    WellFormed f (join f u small) := by
  have hsorted : Sorted f (SplayTree.join f u small).elements := by
    rw [elements_join h hsmall]
    exact pairwise_append.mpr ⟨hsmall.sorted, h.sorted, hlt⟩
  unfold SplayTree.join at hsorted ⊢
  split at hsorted
  · exact h
  · split at hsorted
    · exact wellFormed_rooted (by simpa only [elements_rooted] using hsorted)
    · split at hsorted
      · exact h
      · exact wellFormed_rooted (by simpa only [elements_rooted] using hsorted)

/-- Inserting an element with a new key puts it between the elements with
smaller keys and those with larger ones. -/
theorem elements_insert (h : WellFormed f u) {e : α} (hnew : ∀ x ∈ u.elements, f x ≠ f e) :
    ∃ xs ys, u.elements = xs ++ ys ∧ (insert f e u).elements = xs ++ e :: ys ∧
      (∀ x ∈ xs, f x < f e) ∧ ∀ y ∈ ys, f e < f y := by
  by_cases hm : u.pieces.mid = .nil
  · refine ⟨[], [], (h.elements_eq_nil).mpr hm, ?_, by simp, by simp⟩
    simp [insert, find_of_nil hm, hm]
  obtain ⟨a, l, r, hmid, hel⟩ := exists_root (f := f) (f e) hm
  have hcut := h.find.cut (find_name hm) hmid
  rw [hel] at hnew ⊢
  rcases hcut with ⟨hlt, rfl, hl, hr⟩ | ⟨hlt, rfl, hl, hr⟩ | ⟨heq, _, _⟩
  · refine ⟨_, _, ?_, ?_, hl, hr⟩
    · simp
    · simp [insert, hmid, hlt]
  · refine ⟨_, _, ?_, ?_, hl, hr⟩
    · simp
    · simp [insert, hmid, hlt.not_gt]
  · exact absurd heq (hnew a (by simp))

/-- Inserting an element with a new key gives a well-formed tree. -/
theorem WellFormed.insert (h : WellFormed f u) {e : α}
    (hnew : ∀ x ∈ u.elements, f x ≠ f e) : WellFormed f (insert f e u) := by
  obtain ⟨xs, ys, hu, hins, hxs, hys⟩ := elements_insert h hnew
  have hsorted : Sorted f (SplayTree.insert f e u).elements := by
    have hs := h.sorted
    rw [hu] at hs
    obtain ⟨h1, h2, h3⟩ := pairwise_append.mp hs
    rw [hins]
    refine pairwise_append.mpr ⟨h1, pairwise_cons.mpr ⟨hys, h2⟩, fun x hx y hy => ?_⟩
    rcases mem_cons.mp hy with rfl | hy
    · exact hxs x hx
    · exact h3 x hx y hy
  simp only [SplayTree.insert] at hsorted ⊢
  split at hsorted
  · exact wellFormed_rooted (n := u.name) (t := .node e .nil .nil) (by simp [Sorted])
  · split_ifs at hsorted ⊢
    · exact wellFormed_rooted (n := u.name) (t := .node e _ _) (by simpa using hsorted)
    · exact wellFormed_rooted (n := u.name) (t := .node e _ _) (by simpa using hsorted)

/-- The tree with the largest element at the root: nothing is right of it. -/
theorem assemble_topDown_top [BoundedOrder K] {t : BinaryTree α} (h : t ≠ .nil)
    (hs : Sorted f (elements t)) :
    ∃ d dl, (topDown f ⊤ t).assemble = .node d dl .nil ∧ elements t = elements dl ++ [d] := by
  have hwf : WellFormed f (⟨⊤, topDown f ⊤ t⟩ : Unassembled α K) :=
    ⟨by simpa [Unassembled.elements] using hs, topDown_spines hs, step_topDown t,
      fun hm => absurd hm (topDown_mid_ne_nil h)⟩
  have hel := topDown_elements (f := f) (k := ⊤) t
  cases hmid : (topDown f ⊤ t).mid with
  | nil => exact absurd hmid (topDown_mid_ne_nil h)
  | node d l r =>
    have hcut := hwf.cut rfl hmid
    -- Nothing follows the node a search for the greatest key ends at.
    have hlast : elements r ++ rightElements (topDown f ⊤ t).right = [] := by
      rw [eq_nil_iff_forall_not_mem]
      intro x hx
      rcases hcut with ⟨hlt, _⟩ | ⟨_, rfl, _, hr⟩ | ⟨_, _, hr⟩
      · exact not_top_lt hlt
      · exact not_top_lt (hr x (by simpa using hx))
      · exact not_top_lt (hr x hx)
    obtain ⟨hr, hR⟩ := append_eq_nil_iff.mp hlast
    have hfill : fillRight (topDown f ⊤ t).right r = .nil := by
      rw [← elements_eq_nil, elements_fillRight, hr, hR, append_nil]
    refine ⟨d, fillLeft (topDown f ⊤ t).left l, by simp [assemble, hmid, hfill], ?_⟩
    rw [← hel]
    simp [Pieces.elements, hmid, hr, hR]

/-- Deleting the element with key `k` leaves the others. -/
theorem elements_delete [BoundedOrder K] (h : WellFormed f u)
    (hk : ∃ x ∈ u.elements, f x = k) :
    ∃ xs a ys, u.elements = xs ++ a :: ys ∧ f a = k ∧ (delete f k u).elements = xs ++ ys := by
  obtain ⟨x, hx, hxk⟩ := hk
  have hm : u.pieces.mid ≠ .nil := by
    intro hm
    rw [h.elements_eq_nil.mpr hm] at hx
    cases hx
  have hfound := (lookup_eq_some h).mpr ⟨hx, hxk⟩
  obtain ⟨a, l, r, hmid, hel⟩ := exists_root (f := f) k hm
  have hka : k = f a := by
    simp only [lookup, hmid] at hfound
    split_ifs at hfound with hka
    exact hka
  refine ⟨leftElements (find f k u).pieces.left ++ elements l, a,
    elements r ++ rightElements (find f k u).pieces.right, ?_, hka.symm, ?_⟩
  · simp [hel]
  · have hsorted : Sorted f (elements (fillLeft (find f k u).pieces.left l)) := by
      have hsorted := h.sorted
      rw [hel, append_assoc, append_assoc, ← append_assoc] at hsorted
      simpa [Sorted] using (pairwise_append.mp hsorted).1
    rw [← elements_fillLeft, ← elements_fillRight]
    simp only [delete, hmid]
    split
    · rename_i hlt
      rw [elements_rooted, hlt]
      rfl
    · rename_i b bl br hlt hrt
      rw [elements_rooted, hlt, hrt]
      simp
    · rename_i b bl br c cl cr hlt hrt
      rw [hlt] at hsorted
      obtain ⟨d, dl, hasm, hel⟩ := assemble_topDown_top (by simp) hsorted
      rw [hlt, hrt, hasm, hel]
      simp only [elements_rooted, elements_node, append_assoc, cons_append, nil_append]

/-- Deleting an element keeps a tree well formed. -/
theorem WellFormed.delete [BoundedOrder K] (h : WellFormed f u)
    (hk : ∃ x ∈ u.elements, f x = k) : WellFormed f (delete f k u) := by
  obtain ⟨xs, a, ys, hu, _, hdel⟩ := elements_delete h hk
  have hsorted : Sorted f (SplayTree.delete f k u).elements := by
    rw [hdel]
    have hs := h.sorted
    rw [hu] at hs
    exact List.Pairwise.sublist (by simp) hs
  simp only [SplayTree.delete] at hsorted ⊢
  split at hsorted
  · exact h
  · split at hsorted
    · exact wellFormed_rooted (by simpa only [elements_rooted] using hsorted)
    · exact wellFormed_rooted (by simpa only [elements_rooted] using hsorted)
    · split at hsorted
      · exact h
      · exact wellFormed_rooted (by simpa only [elements_rooted] using hsorted)

/-- Inserting adds the new element. -/
theorem mem_elements_insert (h : WellFormed f u) {e x : α}
    (hnew : ∀ y ∈ u.elements, f y ≠ f e) :
    x ∈ (insert f e u).elements ↔ x = e ∨ x ∈ u.elements := by
  obtain ⟨xs, ys, hu, hins, -, -⟩ := elements_insert h hnew
  rw [hu, hins]
  simp only [mem_append, mem_cons]
  tauto

/-- Deleting removes the element with the key. -/
theorem mem_elements_delete [BoundedOrder K] (h : WellFormed f u)
    (hk : ∃ x ∈ u.elements, f x = k) {x : α} :
    x ∈ (delete f k u).elements ↔ x ∈ u.elements ∧ f x ≠ k := by
  obtain ⟨xs, a, ys, hu, rfl, hdel⟩ := elements_delete h hk
  have hs := h.sorted
  rw [hu] at hs
  obtain ⟨-, hays, hxs⟩ := pairwise_append.mp hs
  have hlt := (pairwise_cons.mp hays).1
  rw [hu, hdel]
  simp only [mem_append, mem_cons]
  constructor
  · rintro (hx | hx)
    · exact ⟨inl hx, (hxs x hx a (by simp)).ne⟩
    · exact ⟨inr (inr hx), (hlt x hx).ne'⟩
  · rintro ⟨hx | rfl | hx, hne⟩
    · exact inl hx
    · exact absurd rfl hne
    · exact inr hx

/-- The first part of a split has the keys from `k` on. -/
theorem mem_elements_split_fst (h : WellFormed f u) {x : α} :
    x ∈ (split f k u).1.elements ↔ x ∈ u.elements ∧ k ≤ f x := by
  obtain ⟨hel, hlt, hle⟩ := elements_split (k := k) h
  rw [← hel, mem_append]
  refine ⟨fun hx => ⟨inr hx, hle x hx⟩, ?_⟩
  rintro ⟨hx | hx, hk⟩
  · exact absurd hk (hlt x hx).not_ge
  · exact hx

/-- The second part of a split has the keys below `k`. -/
theorem mem_elements_split_snd (h : WellFormed f u) {x : α} :
    x ∈ (split f k u).2.elements ↔ x ∈ u.elements ∧ f x < k := by
  obtain ⟨hel, hlt, hle⟩ := elements_split (k := k) h
  rw [← hel, mem_append]
  refine ⟨fun hx => ⟨inl hx, hlt x hx⟩, ?_⟩
  rintro ⟨hx | hx, hk⟩
  · exact hx
  · exact absurd hk (hle x hx).not_gt

/-- Joining unites the elements. -/
theorem mem_elements_join [BoundedOrder K] (h : WellFormed f u) (hsmall : WellFormed f small)
    {x : α} : x ∈ (join f u small).elements ↔ x ∈ small.elements ∨ x ∈ u.elements := by
  rw [elements_join h hsmall, mem_append]

/-- The keys of a list of elements that are at most `k`. -/
def lowerKeys (f : α → K) (k : K) (xs : List α) : Set K := {n | n ≤ k ∧ ∃ x ∈ xs, f x = n}

/-- The keys of a list of elements that are at least `k`. -/
def upperKeys (f : α → K) (k : K) (xs : List α) : Set K := {n | k ≤ n ∧ ∃ x ∈ xs, f x = n}

/-- In a sorted list the last element up to `k` has the greatest such key. -/
theorem isGreatest_lowerKeys {ys zs : List α} {b : α} (xs : List α) (hs : Sorted f zs)
    (hzs : zs = xs ++ b :: ys) (hb : f b ≤ k) (hys : ∀ y ∈ ys, k < f y) :
    IsGreatest (lowerKeys f k zs) (f b) := by
  subst hzs
  refine ⟨⟨hb, b, by simp, rfl⟩, ?_⟩
  rintro _ ⟨hn, x, hx, rfl⟩
  obtain ⟨_, _, hlt⟩ := pairwise_append.mp hs
  simp only [mem_append, mem_cons] at hx
  rcases hx with hx | rfl | hx
  · exact (hlt x hx b (by simp)).le
  · exact le_rfl
  · exact absurd (hys x hx) hn.not_gt

/-- In a sorted list the first element from `k` on has the least such key. -/
theorem isLeast_upperKeys {xs zs : List α} {b : α} (ys : List α) (hs : Sorted f zs)
    (hzs : zs = xs ++ b :: ys) (hb : k ≤ f b) (hxs : ∀ x ∈ xs, f x < k) :
    IsLeast (upperKeys f k zs) (f b) := by
  subst hzs
  refine ⟨⟨hb, b, by simp, rfl⟩, ?_⟩
  rintro _ ⟨hn, x, hx, rfl⟩
  obtain ⟨_, h2, _⟩ := pairwise_append.mp hs
  simp only [mem_append, mem_cons] at hx
  rcases hx with hx | rfl | hx
  · exact absurd (hxs x hx) hn.not_gt
  · exact le_rfl
  · exact ((pairwise_cons.mp h2).1 x hx).le

/-- The lower bound of `k` is the greatest key up to `k`, or `⊤` if all keys
are larger. -/
theorem bounds_lower [BoundedOrder K] (h : WellFormed f u) :
    ((bounds f k u).2.1 = ⊤ ∧ ∀ x ∈ u.elements, k < f x) ∨
      IsGreatest (lowerKeys f k u.elements) (bounds f k u).2.1 := by
  by_cases hm : u.pieces.mid = .nil
  · left
    simp [bounds, find_of_nil hm, hm, h.elements_eq_nil.mpr hm]
  have hname := find_name (f := f) (k := k) hm
  obtain ⟨a, l, r, hmid, hel⟩ := exists_root (f := f) k hm
  have hcut := h.find.cut hname hmid
  simp only [bounds, hmid]
  rcases hcut with ⟨hlt, rfl, _, hr⟩ | ⟨hlt, rfl, _, hr⟩ | ⟨heq, _, hr⟩
  · rw [if_neg hlt.not_ge]
    cases hL : (find f k u).pieces.left with
    | nil =>
      refine inl ⟨rfl, fun x hx => hr x ?_⟩
      rw [hel, hL] at hx
      simpa using hx
    | cons p rest =>
      obtain ⟨bl, b⟩ := p
      right
      have hb : f b < k := hname ▸ h.find.spines.1 b (by simp [hL])
      refine isGreatest_lowerKeys (leftElements rest ++ elements bl) h.sorted ?_ hb.le hr
      simp [hel, hL]
  · rw [if_pos hlt.le]
    right
    refine isGreatest_lowerKeys (leftElements (find f k u).pieces.left ++ elements l)
      h.sorted ?_ hlt.le hr
    simp [hel]
  · rw [if_pos heq.le]
    right
    refine isGreatest_lowerKeys (leftElements (find f k u).pieces.left ++ elements l)
      h.sorted ?_ heq.le hr
    simp [hel]

/-- The upper bound of `k` is the least key from `k` on, or `⊥` if all keys
are smaller. -/
theorem bounds_upper [BoundedOrder K] (h : WellFormed f u) :
    ((bounds f k u).2.2 = ⊥ ∧ ∀ x ∈ u.elements, f x < k) ∨
      IsLeast (upperKeys f k u.elements) (bounds f k u).2.2 := by
  by_cases hm : u.pieces.mid = .nil
  · left
    simp [bounds, find_of_nil hm, hm, h.elements_eq_nil.mpr hm]
  have hname := find_name (f := f) (k := k) hm
  obtain ⟨a, l, r, hmid, hel⟩ := exists_root (f := f) k hm
  have hcut := h.find.cut hname hmid
  simp only [bounds, hmid]
  rcases hcut with ⟨hlt, rfl, hl, _⟩ | ⟨hlt, rfl, hl, _⟩ | ⟨heq, hl, _⟩
  · rw [if_pos hlt.le]
    right
    refine isLeast_upperKeys (elements r ++ rightElements (find f k u).pieces.right)
      h.sorted ?_ hlt.le hl
    simp [hel]
  · rw [if_neg hlt.not_ge]
    cases hR : (find f k u).pieces.right with
    | nil =>
      refine inl ⟨rfl, fun x hx => hl x ?_⟩
      rw [hel, hR] at hx
      simpa using hx
    | cons p rest =>
      obtain ⟨b, br⟩ := p
      right
      have hb : k < f b := hname ▸ h.find.spines.2 b (by simp [hR])
      refine isLeast_upperKeys (elements br ++ rightElements rest) h.sorted ?_ hb.le hl
      simp [hel, hR]
  · rw [if_pos heq.ge]
    right
    refine isLeast_upperKeys (elements r ++ rightElements (find f k u).pieces.right)
      h.sorted ?_ heq.ge hl
    simp [hel]

end Meaning

end SplayTree
