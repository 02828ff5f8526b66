import MachVirtuTerm.Ipc.SplayRefinement

/-!
# Splay trees as ordered maps

Any number of splay trees share one memory of entries. Against them stands an
abstract map of names to entries for every tree. Every operation whose
precondition holds in the abstract maps runs to its end, answers as the maps do
and leaves trees that denote the updated maps. By induction the same holds of
every sequence of operations on trees that start empty.
-/

open Function

namespace MachVirtuTerm

open SplayTree List Prod

/-- A call of one of the routines of `ipc_splay.c`. The type `T` numbers the trees. -/
inductive SplayOp (T : Type)
  /-- `ipc_splay_tree_lookup`. -/
  | lookup (splay : T) (name : MachPort)
  /-- `ipc_splay_tree_insert`. -/
  | insert (splay : T) (name : MachPort) (entry : ℕ)
  /-- `ipc_splay_tree_delete`. -/
  | delete (splay : T) (name : MachPort)
  /-- `ipc_splay_tree_split`. -/
  | split (splay : T) (name : MachPort) (small : T)
  /-- `ipc_splay_tree_join`. -/
  | join (splay small : T)
  /-- `ipc_splay_tree_pick`. -/
  | pick (splay : T)
  /-- `ipc_splay_tree_bounds`. -/
  | bounds (splay : T) (name : MachPort)

/-- What a call returns. -/
inductive SplayResult
  | done
  | found (entry : Option ℕ)
  | picked (entry : Option (MachPort × ℕ))
  | bounds (lower upper : MachPort)
  deriving DecidableEq

/-- The memory of tree entries and the splay trees in it. -/
structure SplayWorld (T : Type) where
  heap : TreeHeap
  trees : T → IpcSplayTree

variable {T : Type} [DecidableEq T]

/-- Execute a call. -/
def SplayOp.exec (fuel : ℕ) (w : SplayWorld T) : SplayOp T → Option (SplayWorld T × SplayResult)
  | .lookup t name => do
    let (heap, splay, entry) ← ipcSplayTreeLookup fuel w.heap (w.trees t) name
    some (⟨heap, Function.update w.trees t splay⟩, .found entry)
  | .insert t name entry => do
    let (heap, splay) ← ipcSplayTreeInsert fuel w.heap (w.trees t) name entry
    some (⟨heap, Function.update w.trees t splay⟩, .done)
  | .delete t name => do
    let (heap, splay) ← ipcSplayTreeDelete fuel w.heap (w.trees t) name
    some (⟨heap, Function.update w.trees t splay⟩, .done)
  | .split t name t' => do
    let (heap, splay, small) ← ipcSplayTreeSplit fuel w.heap (w.trees t) name (w.trees t')
    some (⟨heap, Function.update (Function.update w.trees t splay) t' small⟩, .done)
  | .join t t' => do
    let (heap, splay, small) ← ipcSplayTreeJoin fuel w.heap (w.trees t) (w.trees t')
    some (⟨heap, Function.update (Function.update w.trees t' small) t splay⟩, .done)
  | .pick t => some (w, .picked (ipcSplayTreePick w.heap (w.trees t)))
  | .bounds t name => do
    let (heap, splay, lower, upper) ← ipcSplayTreeBounds fuel w.heap (w.trees t) name
    some (⟨heap, Function.update w.trees t splay⟩, .bounds lower upper)

/-- Execute calls one after the other. -/
def SplayWorld.exec (fuel : ℕ) (w : SplayWorld T) :
    List (SplayOp T) → Option (SplayWorld T × List SplayResult)
  | [] => some (w, [])
  | op :: ops => do
    let (w, r) ← op.exec fuel w
    let (w, rs) ← w.exec fuel ops
    some (w, r :: rs)

/-- The abstract state: for each tree a map of names to entries. -/
abbrev SplayMaps (T : Type) := T → MachPort → Option ℕ

/-- What a call requires: a name inserted is absent and its entry unused, a name
deleted is present, a split puts the smaller names into another tree, and the names
of a tree joined precede those of the tree it is joined to. -/
def SplayOp.Pre (m : SplayMaps T) : SplayOp T → Prop
  | .insert t name entry => m t name = none ∧ ∀ t' name', m t' name' ≠ some entry
  | .delete t name => m t name ≠ none
  | .split t _ t' => t' ≠ t
  | .join t t' => ∀ n n', m t' n ≠ none → m t n' ≠ none → n < n'
  | .lookup _ _ | .pick _ | .bounds _ _ => True

/-- The abstract maps after a call. -/
def SplayOp.post (m : SplayMaps T) : SplayOp T → SplayMaps T
  | .insert t name entry => Function.update m t (Function.update (m t) name (some entry))
  | .delete t name => Function.update m t (Function.update (m t) name none)
  | .split t name t' =>
    Function.update
      (Function.update m t fun n => if name ≤ n then m t n else none) t'
      fun n => if n < name then m t n else none
  | .join t t' =>
    Function.update (Function.update m t' fun _ => none) t fun n => (m t' n).orElse fun _ => m t n
  | .lookup _ _ | .pick _ | .bounds _ _ => m

/-- The answers the abstract maps admit. -/
def SplayOp.Answer (m : SplayMaps T) : SplayOp T → SplayResult → Prop
  | .lookup t name, .found entry => entry = m t name
  | .insert _ _ _, .done | .delete _ _, .done | .split _ _ _, .done | .join _ _, .done => True
  | .pick t, .picked none => ∀ n, m t n = none
  | .pick t, .picked (some (name, entry)) => m t name = some entry
  | .bounds t name, .bounds lower upper =>
    (IsGreatest {n | n ≤ name ∧ m t n ≠ none} lower ∨
      lower = BitVec.allOnes 32 ∧ ∀ n ≤ name, m t n = none) ∧
    (IsLeast {n | name ≤ n ∧ m t n ≠ none} upper ∨ upper = 0 ∧ ∀ n ≥ name, m t n = none)
  | _, _ => False

/-- Every call of a sequence meets its precondition. -/
def PreAll (m : SplayMaps T) : List (SplayOp T) → Prop
  | [] => True
  | op :: ops => op.Pre m ∧ PreAll (op.post m) ops

/-- Every call of a sequence is answered as the abstract maps admit. -/
def AnswerAll (m : SplayMaps T) : List (SplayOp T) → List SplayResult → Prop
  | [], [] => True
  | op :: ops, r :: rs => op.Answer m r ∧ AnswerAll (op.post m) ops rs
  | _, _ => False

/-- A tree in memory is a search tree whose pairs of names and entries are those of a map. -/
def DenotesMap (h : TreeHeap) (s : IpcSplayTree) (m : MachPort → Option ℕ) : Prop :=
  ∃ u : SplaySet, Denotes h s u ∧ WellFormed snd u ∧
    ∀ name entry, (entry, name) ∈ u.elements ↔ m name = some entry

/-- What relates the memory, the unassembled trees it denotes and the abstract maps.
Trees share no entries, and all their entries are among those in `S`. -/
structure SplayInv (w : SplayWorld T) (us : T → SplaySet) (m : SplayMaps T) (S : List ℕ) :
    Prop where
  /-- Each tree in memory denotes an unassembled tree. -/
  denotes : ∀ t, Denotes w.heap (w.trees t) (us t)
  /-- The unassembled trees are search trees. -/
  wf : ∀ t, WellFormed snd (us t)
  /-- They hold the pairs of the maps. -/
  mem : ∀ t name entry, (entry, name) ∈ (us t).elements ↔ m t name = some entry
  /-- No entry is in two trees. -/
  disjoint : ∀ t t', t ≠ t' → ∀ a ∈ addrs (us t).elements, a ∉ addrs (us t').elements
  /-- The entries in use. -/
  used : ∀ t, ∀ a ∈ addrs (us t).elements, a ∈ S

variable {w : SplayWorld T} {us : T → SplaySet} {m : SplayMaps T} {S : List ℕ} {fuel : ℕ}

omit [DecidableEq T] in
/-- A tree has at most as many entries as are in use. -/
theorem SplayInv.length_le (hinv : SplayInv w us m S) (t : T) :
    (us t).elements.length ≤ S.length := by
  by_cases hm : (us t).pieces.mid = .nil
  · simp [(hinv.wf t).elements_eq_nil.mpr hm]
  · have hn := ((hinv.denotes t).represents hm).nodup
    have hle := (hn.subperm fun a ha => hinv.used t a ha).length_le
    rwa [addrs, length_map] at hle

omit [DecidableEq T] in
/-- The entries of a tree are those its map holds. -/
theorem SplayInv.mem_addrs (hinv : SplayInv w us m S) {t : T} {a : ℕ} :
    a ∈ addrs (us t).elements ↔ ∃ name, m t name = some a := by
  simp only [addrs, mem_map, Prod.exists, exists_and_right, exists_eq_right, hinv.mem]

omit [DecidableEq T] in
/-- A call that keeps the entries outside `A` in place keeps the trees outside it. -/
theorem SplayInv.change (hinv : SplayInv w us m S) {w' : SplayWorld T} {us' : T → SplaySet}
    {m' : SplayMaps T} {S' : List ℕ} (A : List ℕ) (touched : T → Prop)
    (hheap : SameOutside A w.heap w'.heap)
    (hout : ∀ t, ¬touched t → w'.trees t = w.trees t ∧ us' t = us t ∧ m' t = m t ∧
      ∀ a ∈ addrs (us t).elements, a ∉ A)
    (hin : ∀ t, touched t → Denotes w'.heap (w'.trees t) (us' t) ∧ WellFormed snd (us' t) ∧
      (∀ name entry, (entry, name) ∈ (us' t).elements ↔ m' t name = some entry) ∧
      ∀ a ∈ addrs (us' t).elements, a ∈ A)
    (hdis : ∀ t t', touched t → touched t' → t ≠ t' →
      ∀ a ∈ addrs (us' t).elements, a ∉ addrs (us' t').elements)
    (hS : ∀ a ∈ S, a ∈ S') (hA : ∀ a ∈ A, a ∈ S') : SplayInv w' us' m' S' := by
  refine ⟨fun t => ?_, fun t => ?_, fun t => ?_, fun t t' hne a ha ha' => ?_, fun t a ha => ?_⟩
  · by_cases ht : touched t
    · exact (hin t ht).1
    · obtain ⟨htree, hus, -, hdisA⟩ := hout t ht
      rw [htree, hus]
      exact (hinv.denotes t).congr fun a ha => hheap a (hdisA a ha)
  · by_cases ht : touched t
    · exact (hin t ht).2.1
    · rw [(hout t ht).2.1]
      exact hinv.wf t
  · by_cases ht : touched t
    · exact (hin t ht).2.2.1
    · rw [(hout t ht).2.1, (hout t ht).2.2.1]
      exact hinv.mem t
  · by_cases ht : touched t <;> by_cases ht' : touched t'
    · exact hdis t t' ht ht' hne a ha ha'
    · rw [(hout t' ht').2.1] at ha'
      exact (hout t' ht').2.2.2 a ha' ((hin t ht).2.2.2 a ha)
    · rw [(hout t ht).2.1] at ha
      exact (hout t ht).2.2.2 a ha ((hin t' ht').2.2.2 a ha')
    · rw [(hout t ht).2.1] at ha
      rw [(hout t' ht').2.1] at ha'
      exact hinv.disjoint t t' hne a ha ha'
  · by_cases ht : touched t
    · exact hA a ((hin t ht).2.2.2 a ha)
    · rw [(hout t ht).2.1] at ha
      exact hS a (hinv.used t a ha)

/-- A call on one tree. -/
theorem SplayInv.update (hinv : SplayInv w us m S) {t : T} {h' : TreeHeap} {s' : IpcSplayTree}
    {u' : SplaySet} {f : MachPort → Option ℕ} {S' : List ℕ} (A : List ℕ)
    (hheap : SameOutside A w.heap h') (hd : Denotes h' s' u') (hwf : WellFormed snd u')
    (hmem : ∀ name entry, (entry, name) ∈ u'.elements ↔ f name = some entry)
    (hout : ∀ t', t' ≠ t → ∀ a ∈ addrs (us t').elements, a ∉ A)
    (hin : ∀ a ∈ addrs u'.elements, a ∈ A) (hS : ∀ a ∈ S, a ∈ S') (hA : ∀ a ∈ A, a ∈ S') :
    SplayInv ⟨h', Function.update w.trees t s'⟩ (Function.update us t u')
      (Function.update m t f) S' := by
  refine hinv.change A (· = t) hheap (fun t' ht' => ?_) (fun t' ht' => ?_)
    (fun t₁ t₂ h₁ h₂ hne => absurd (h₁.trans h₂.symm) hne) hS hA
  · simp only [update_of_ne ht']
    exact ⟨trivial, trivial, trivial, hout t' ht'⟩
  · subst ht'
    simp only [update_self]
    exact ⟨hd, hwf, hmem, hin⟩

/-- A call on a tree that keeps its entries. -/
theorem SplayInv.update_same (hinv : SplayInv w us m S) {t : T} {h' : TreeHeap}
    {s' : IpcSplayTree} {u' : SplaySet} (hel : u'.elements = (us t).elements)
    (hheap : SameOutside (addrs (us t).elements) w.heap h') (hd : Denotes h' s' u')
    (hwf : WellFormed snd u') :
    SplayInv ⟨h', Function.update w.trees t s'⟩ (Function.update us t u') m S := by
  have h := hinv.update (addrs (us t).elements) hheap hd hwf (f := m t)
    (by rw [hel]; exact hinv.mem t) (fun t' ht' => hinv.disjoint t' t ht') (by simp [hel])
    (fun a ha => ha) (hinv.used t)
  rwa [update_eq_self] at h

/-- The entries a call brings into use. -/
def SplayOp.entries : SplayOp T → List ℕ
  | .insert _ _ entry => [entry]
  | _ => []

/-- What is shown of each call: it returns, keeps the invariant and answers as the
abstract maps do. -/
def SplayOp.Refines (fuel : ℕ) (w : SplayWorld T) (m : SplayMaps T) (S : List ℕ)
    (op : SplayOp T) : Prop :=
  ∃ w' r us', op.exec fuel w = some (w', r) ∧ SplayInv w' us' (op.post m) (op.entries ++ S) ∧
    op.Answer m r

section

variable (hinv : SplayInv w us m S)

include hinv

/-- Looking up. -/
theorem lookup_refines (hf : S.length < fuel) (t : T)
    (name : MachPort) : (SplayOp.lookup t name).Refines fuel w m S := by
  have hwf := hinv.wf t
  obtain ⟨h', s', hrun, hd, hs⟩ := ipcSplayTreeLookup_spec (hinv.denotes t)
    ((hinv.length_le t).trans_lt hf) name
  rw [lookup_fst] at hd
  refine ⟨_, .found ((lookup snd name (us t)).2.map fst), _, ?_,
    hinv.update_same (elements_find _) hs hd hwf.find, ?_⟩
  · simp only [SplayOp.exec, hrun, Option.bind_eq_bind, Option.bind_some]
  · rw [SplayOp.Answer]
    cases hm : m t name with
    | none =>
      cases hl : (lookup snd name (us t)).2 with
      | none => rfl
      | some x =>
        obtain ⟨hx, rfl⟩ := (lookup_eq_some hwf).mp hl
        simp [(hinv.mem t x.2 x.1).mp hx] at hm
    | some entry =>
      have hx := (lookup_eq_some hwf).mpr ⟨(hinv.mem t name entry).mpr hm, rfl⟩
      simp only [hx, Option.map_some]

/-- Picking. -/
theorem pick_refines (t : T) : (SplayOp.pick t).Refines fuel w m S := by
  refine ⟨_, _, us, rfl, hinv, ?_⟩
  rw [ipcSplayTreePick_spec (hinv.denotes t)]
  cases hp : pick (us t) with
  | none =>
    have hnil := (pick_eq_none (hinv.wf t)).mp hp
    intro n
    rw [Option.eq_none_iff_forall_ne_some]
    intro entry hn
    simpa [hnil] using (hinv.mem t n entry).mpr hn
  | some x => exact (hinv.mem t x.2 x.1).mp (mem_of_pick hp)

variable (hf : S.length < fuel)

include hf

/-- Computing the bounds. -/
theorem bounds_refines (t : T) (name : MachPort) : (SplayOp.bounds t name).Refines fuel w m S := by
  have hwf := hinv.wf t
  obtain ⟨h', s', hrun, hd, hs⟩ := ipcSplayTreeBounds_spec (hinv.denotes t)
    ((hinv.length_le t).trans_lt hf) name
  have hfst : (bounds snd name (us t)).1 = find snd name (us t) := by
    simp only [bounds]
    cases (find snd name (us t)).pieces.mid <;> rfl
  rw [hfst] at hd
  have hdom (n : MachPort) : m t n ≠ none ↔ ∃ x ∈ (us t).elements, snd x = n := by
    rw [Option.ne_none_iff_exists']
    constructor
    · rintro ⟨entry, hn⟩
      exact ⟨(entry, n), (hinv.mem t n entry).mpr hn, rfl⟩
    · rintro ⟨x, hx, rfl⟩
      exact ⟨x.1, (hinv.mem t x.2 x.1).mp hx⟩
  refine ⟨_, .bounds (bounds snd name (us t)).2.1 (bounds snd name (us t)).2.2, _, ?_,
    hinv.update_same (elements_find _) hs hd hwf.find, ?_, ?_⟩
  · simp only [SplayOp.exec, hrun, Option.bind_eq_bind, Option.bind_some]
  · simp only [hdom]
    refine (bounds_lower hwf).symm.imp id fun hbound => ⟨hbound.1, fun n hn => ?_⟩
    by_contra hne
    obtain ⟨x, hx, rfl⟩ := (hdom n).mp hne
    exact (hbound.2 x hx).not_ge hn
  · simp only [hdom]
    refine (bounds_upper hwf).symm.imp id fun hbound => ⟨hbound.1, fun n hn => ?_⟩
    by_contra hne
    obtain ⟨x, hx, rfl⟩ := (hdom n).mp hne
    exact (hbound.2 x hx).not_ge hn

/-- Inserting. -/
theorem insert_refines {t : T}
    {name : MachPort} {entry : ℕ} (hpre : (SplayOp.insert t name entry).Pre m) :
    (SplayOp.insert t name entry).Refines fuel w m S := by
  obtain ⟨hnone, hunused⟩ := hpre
  have hwf := hinv.wf t
  have hfresh (t' : T) : entry ∉ addrs (us t').elements := fun ha => by
    obtain ⟨n, hn⟩ := hinv.mem_addrs.mp ha
    exact hunused t' n hn
  have hnew : ∀ x ∈ (us t).elements, x.2 ≠ name := by
    rintro x hx rfl
    simp [(hinv.mem t x.2 x.1).mp hx] at hnone
  obtain ⟨h', s', hrun, hd, hs⟩ := ipcSplayTreeInsert_spec (hinv.denotes t)
    ((hinv.length_le t).trans_lt hf) (hfresh t) name
  have hmem {x : TreeNode} := mem_elements_insert (x := x) hwf (e := (entry, name)) hnew
  refine ⟨_, .done, _, ?_, hinv.update (entry :: addrs (us t).elements) hs hd (hwf.insert hnew)
    (f := Function.update (m t) name (some entry)) ?_ ?_ ?_ ?_ ?_, trivial⟩
  · simp only [SplayOp.exec, hrun, Option.bind_eq_bind, Option.bind_some]
  · intro n e
    rw [hmem, mk.injEq]
    by_cases hn : n = name
    · subst hn
      simp only [hinv.mem, hnone, update_self, Option.some.injEq, and_true, reduceCtorEq, or_false]
      exact eq_comm
    · simp only [hn, and_false, false_or, hinv.mem, update_of_ne hn]
  · intro t' ht' a ha hm
    rcases mem_cons.mp hm with rfl | hm
    · exact hfresh t' ha
    · exact hinv.disjoint t' t ht' a ha hm
  · intro a ha
    obtain ⟨x, hx, rfl⟩ := mem_map.mp ha
    rcases hmem.mp hx with rfl | hx
    · simp
    · exact mem_cons_of_mem _ (mem_map_of_mem hx)
  · exact fun a ha => mem_cons_of_mem _ ha
  · intro a ha
    rcases mem_cons.mp ha with rfl | ha
    · simp [SplayOp.entries]
    · exact mem_cons_of_mem _ (hinv.used t a ha)

/-- Deleting. -/
theorem delete_refines {t : T} {name : MachPort} (hpre : (SplayOp.delete t name).Pre m) :
    (SplayOp.delete t name).Refines fuel w m S := by
  obtain ⟨entry, hentry⟩ := Option.ne_none_iff_exists'.mp hpre
  have hwf := hinv.wf t
  have hpresent : ∃ x ∈ (us t).elements, snd x = name :=
    ⟨(entry, name), (hinv.mem t name entry).mpr hentry, rfl⟩
  have hm : (us t).pieces.mid ≠ .nil := by
    intro hm
    obtain ⟨x, hx, -⟩ := hpresent
    simp [hwf.elements_eq_nil.mpr hm] at hx
  obtain ⟨h', s', hrun, hd, hs⟩ := ipcSplayTreeDelete_spec (hinv.denotes t) hm
    ((hinv.length_le t).trans_lt hf) name
  have hmem {x : TreeNode} := mem_elements_delete (x := x) hwf hpresent
  refine ⟨_, .done, _, ?_, hinv.update (addrs (us t).elements) hs hd (hwf.delete hpresent)
    (f := Function.update (m t) name none) ?_ (fun t' ht' => hinv.disjoint t' t ht') ?_
    (fun a ha => ha) (hinv.used t), trivial⟩
  · simp only [SplayOp.exec, hrun, Option.bind_eq_bind, Option.bind_some]
  · intro n e
    rw [hmem, hinv.mem]
    by_cases hn : n = name
    · subst hn
      simp
    · simp [hn]
  · intro a ha
    obtain ⟨x, hx, rfl⟩ := mem_map.mp ha
    exact mem_map_of_mem (hmem.mp hx).1

/-- Splitting. -/
theorem split_refines {t t' : T} {name : MachPort} (hpre : (SplayOp.split t name t').Pre m) :
    (SplayOp.split t name t').Refines fuel w m S := by
  have hne : t' ≠ t := hpre
  have hwf := hinv.wf t
  obtain ⟨h', s', small', hrun, hd, hd', hs⟩ := ipcSplayTreeSplit_spec (hinv.denotes t)
    ((hinv.length_le t).trans_lt hf) name (w.trees t')
  have hfst {x : TreeNode} := mem_elements_split_fst (x := x) (k := name) hwf
  have hsnd {x : TreeNode} := mem_elements_split_snd (x := x) (k := name) hwf
  have hnodup : ∀ x ∈ (us t).elements, ∀ y ∈ (us t).elements, x.1 = y.1 → x = y := by
    intro x hx y hy hxy
    have hm : (us t).pieces.mid ≠ .nil := by
      intro hm
      simp [hwf.elements_eq_nil.mpr hm] at hx
    exact inj_on_of_nodup_map ((hinv.denotes t).represents hm).nodup hx hy hxy
  refine ⟨⟨h', Function.update (Function.update w.trees t s') t' small'⟩, .done,
    Function.update (Function.update us t (split snd name (us t)).1) t'
      (split snd name (us t)).2, ?_, hinv.change (addrs (us t).elements)
    (fun t₁ => t₁ = t ∨ t₁ = t') hs ?_ ?_ ?_ (fun a ha => ha) (hinv.used t), trivial⟩
  · simp only [SplayOp.exec, hrun, Option.bind_eq_bind, Option.bind_some]
  · intro t₁ ht₁
    obtain ⟨h₁, h₂⟩ := not_or.mp ht₁
    simp only [SplayOp.post, update_of_ne h₁, update_of_ne h₂]
    exact ⟨trivial, trivial, trivial, hinv.disjoint t₁ t h₁⟩
  · rintro t₁ (rfl | rfl)
    · simp only [SplayOp.post, update_of_ne hne.symm, update_self]
      refine ⟨hd, hwf.split.1, fun n e => ?_, fun a ha => ?_⟩
      · rw [hfst, hinv.mem]
        by_cases hn : name ≤ n <;> simp [hn]
      · obtain ⟨x, hx, rfl⟩ := mem_map.mp ha
        exact mem_map_of_mem (hfst.mp hx).1
    · simp only [SplayOp.post, update_self]
      refine ⟨hd', hwf.split.2, fun n e => ?_, fun a ha => ?_⟩
      · rw [hsnd, hinv.mem]
        by_cases hn : n < name <;> simp [hn]
      · obtain ⟨x, hx, rfl⟩ := mem_map.mp ha
        exact mem_map_of_mem (hsnd.mp hx).1
  · have hdis : ∀ a ∈ addrs (split snd name (us t)).1.elements,
        a ∉ addrs (split snd name (us t)).2.elements := by
      intro a ha ha'
      obtain ⟨x, hx, rfl⟩ := mem_map.mp ha
      obtain ⟨y, hy, hyx⟩ := mem_map.mp ha'
      obtain rfl := hnodup y (hsnd.mp hy).1 x (hfst.mp hx).1 hyx
      exact (hfst.mp hx).2.not_gt (hsnd.mp hy).2
    rintro t₁ t₂ (rfl | rfl) (rfl | rfl) h₁₂
    · exact absurd rfl h₁₂
    · simpa only [update_of_ne hne.symm, update_self] using hdis
    · simp only [update_of_ne hne.symm, update_self]
      exact fun a ha ha' => hdis a ha' ha
    · exact absurd rfl h₁₂

/-- Joining. -/
theorem join_refines {t t' : T}
    (hpre : (SplayOp.join t t').Pre m) : (SplayOp.join t t').Refines fuel w m S := by
  have hwf := hinv.wf t
  have hwf' := hinv.wf t'
  have hlt : ∀ x ∈ (us t').elements, ∀ y ∈ (us t).elements, x.2 < y.2 := fun x hx y hy =>
    hpre x.2 y.2 (by simp [(hinv.mem t' x.2 x.1).mp hx]) (by simp [(hinv.mem t y.2 y.1).mp hy])
  -- A tree joined to itself is empty.
  have hdisj : ∀ a ∈ addrs (us t).elements, a ∉ addrs (us t').elements := by
    by_cases hne : t = t'
    · subst hne
      intro a ha
      obtain ⟨x, hx, -⟩ := mem_map.mp ha
      exact absurd (hlt x hx x hx) (lt_irrefl _)
    · exact hinv.disjoint t t' hne
  obtain ⟨h', s', small', hrun, hd, hnone, hs⟩ := ipcSplayTreeJoin_spec (hinv.denotes t)
    (hinv.denotes t') hdisj ((hinv.length_le t).trans_lt hf)
  have hmem {x : TreeNode} := mem_elements_join (x := x) hwf hwf'
  refine ⟨⟨h', Function.update (Function.update w.trees t' small') t s'⟩, .done,
    Function.update (Function.update us t' (.empty 0)) t (join snd (us t) (us t')), ?_,
    hinv.change (addrs (us t).elements ++ addrs (us t').elements)
      (fun t₁ => t₁ = t ∨ t₁ = t') hs ?_ ?_ ?_ (fun a ha => ha) ?_, trivial⟩
  · simp only [SplayOp.exec, hrun, Option.bind_eq_bind, Option.bind_some]
  · intro t₁ ht₁
    obtain ⟨h₁, h₂⟩ := not_or.mp ht₁
    simp only [SplayOp.post, update_of_ne h₁, update_of_ne h₂]
    refine ⟨trivial, trivial, trivial, fun a ha hm => ?_⟩
    rcases mem_append.mp hm with hm | hm
    · exact hinv.disjoint t₁ t h₁ a ha hm
    · exact hinv.disjoint t₁ t' h₂ a ha hm
  · intro t₁ ht₁
    by_cases h₁ : t₁ = t
    · subst h₁
      simp only [SplayOp.post, update_self]
      refine ⟨hd, hwf.join hwf' hlt, fun n e => ?_, fun a ha => ?_⟩
      · rw [hmem, hinv.mem, hinv.mem]
        cases hn : m t' n with
        | none => simp
        | some e' =>
          have hnone' : m t₁ n = none := by
            by_contra hsome
            exact lt_irrefl n (hpre n n (by simp [hn]) hsome)
          simp [hnone']
      · obtain ⟨x, hx, rfl⟩ := mem_map.mp ha
        rw [mem_append]
        exact (hmem.mp hx).symm.imp mem_map_of_mem mem_map_of_mem
    · obtain rfl := ht₁.resolve_left h₁
      simp only [SplayOp.post, update_of_ne h₁, update_self]
      exact ⟨denotes_empty hnone _, wellFormed_empty _, by simp, by simp⟩
  · rintro t₁ t₂ ht₁ ht₂ h₁₂ a ha
    by_cases h₁ : t₁ = t
    · have h₂ : t₂ ≠ t := fun h => h₁₂ (h₁.trans h.symm)
      obtain rfl := ht₂.resolve_left h₂
      simp [update_of_ne h₂]
    · obtain rfl := ht₁.resolve_left h₁
      simp [update_of_ne h₁] at ha
  · intro a ha
    exact (mem_append.mp ha).elim (hinv.used t a) (hinv.used t' a)

/-- Every call whose precondition holds refines its abstract effect. -/
theorem SplayOp.refines (op : SplayOp T) (hpre : op.Pre m) : op.Refines fuel w m S := by
  cases op with
  | lookup t name => exact lookup_refines hinv hf t name
  | insert t name entry => exact insert_refines hinv hf hpre
  | delete t name => exact delete_refines hinv hf hpre
  | split t name t' => exact split_refines hinv hf hpre
  | join t t' => exact join_refines hinv hf hpre
  | pick t => exact pick_refines hinv t
  | bounds t name => exact bounds_refines hinv hf t name

end

omit [DecidableEq T] in
/-- Each call brings at most one entry into use. -/
theorem SplayOp.length_entries (op : SplayOp T) : op.entries.length ≤ 1 := by
  cases op <;> simp [SplayOp.entries]

/-- A sequence of calls keeps the invariant. -/
theorem SplayWorld.exec_refines (ops : List (SplayOp T)) (hinv : SplayInv w us m S)
    (hf : S.length + ops.length < fuel) (hpre : PreAll m ops) :
    ∃ w' rs us' S', w.exec fuel ops = some (w', rs) ∧
      SplayInv w' us' (ops.foldl SplayOp.post m) S' ∧ AnswerAll m ops rs := by
  induction ops generalizing w us m S with
  | nil => exact ⟨w, [], us, S, rfl, hinv, trivial⟩
  | cons op ops ih =>
    obtain ⟨hop, hops⟩ := hpre
    simp only [length_cons] at hf
    have hlen := op.length_entries
    have hf₁ : S.length < fuel := by omega
    obtain ⟨w₁, r, us₁, hrun, hinv₁, hans⟩ := op.refines hinv hf₁ hop
    obtain ⟨w₂, rs, us₂, S₂, hrun₂, hinv₂, hans₂⟩ := ih hinv₁
      (by rw [length_append]; omega) hops
    refine ⟨w₂, r :: rs, us₂, S₂, ?_, hinv₂, hans, hans₂⟩
    simp only [SplayWorld.exec, hrun, hrun₂, Option.bind_eq_bind, Option.bind_some]

/-- On trees that start empty, every sequence of calls whose preconditions hold in
the abstract maps returns, is answered as the maps admit, and leaves trees that
denote the maps. No loop takes more turns than there were calls. -/
theorem splay_trees_refine_maps (heap : TreeHeap) (raw : T → IpcSplayTree)
    (ops : List (SplayOp T)) (hpre : PreAll (fun _ _ => none) ops) (hfuel : ops.length < fuel) :
    ∃ w rs, SplayWorld.exec fuel ⟨heap, fun t => ipcSplayTreeInit (raw t)⟩ ops = some (w, rs) ∧
      AnswerAll (fun _ _ => none) ops rs ∧
      ∀ t, DenotesMap w.heap (w.trees t) (ops.foldl SplayOp.post (fun _ _ => none) t) := by
  have hinit : SplayInv ⟨heap, fun t => ipcSplayTreeInit (raw t)⟩ (fun _ => .empty 0)
      (fun _ _ => none) [] :=
    ⟨fun _ => denotes_empty rfl 0, fun _ => wellFormed_empty 0, by simp, by simp, by simp⟩
  obtain ⟨w, rs, us, S, hrun, hinv, hans⟩ :=
    SplayWorld.exec_refines ops hinit (by simpa using hfuel) hpre
  exact ⟨w, rs, hrun, hans, fun t => ⟨us t, hinv.denotes t, hinv.wf t, hinv.mem t⟩⟩

/-- Two trees: one is filled, split into the other, joined with it again and thinned. -/
def splitAndJoin : List (SplayOp Bool) :=
  [.insert true 5 0, .insert true 3 1, .split true 4 false, .lookup false 3, .join true false,
    .delete true 5, .bounds true 4]

/-- The refinement on two trees that are split and joined. -/
theorem splay_trees_refine_maps_splitAndJoin :
    ∃ w rs, SplayWorld.exec 8 ⟨fun _ => default, fun _ => ipcSplayTreeInit default⟩
        splitAndJoin = some (w, rs) ∧
      AnswerAll (fun _ _ => none) splitAndJoin rs ∧
      ∀ t, DenotesMap w.heap (w.trees t) (splitAndJoin.foldl SplayOp.post (fun _ _ => none) t) := by
  refine splay_trees_refine_maps _ (fun _ => default) splitAndJoin ?_ (by decide)
  have hcut (n n' : MachPort) (hn : n < 4) (hn' : 4 ≤ n') : n < n' := hn.trans_le hn'
  simpa [splitAndJoin, PreAll, SplayOp.Pre, SplayOp.post, update_apply] using
    fun n n' hn _ hn' _ => hcut n n' hn hn'

end MachVirtuTerm
