import MachVirtuTerm.Ipc.SplayHeap

/-!
# The lookup loop and its inverse

One iteration of `ipc_splay_prim_lookup` is one turn of the top-down splay of the
pieces its cursor represents. With more fuel than entries the loop therefore ends,
and the cursor it returns represents the finished splay. `ipc_splay_prim_assemble`
puts the pieces together again.
-/

open Option

namespace MachVirtuTerm

open SplayTree SplayTree

variable {c : SplayCursor} {p : Pieces TreeNode} {k : MachPort}

/-- A subtree is missing exactly when the pointer to it is null. -/
theorem IsTree.ne_none_iff {h : TreeHeap} {a : Option ℕ} {t : BinaryTree TreeNode}
    (ht : IsTree h a t) : a ≠ none ↔ isNil t = false := by
  rw [Ne, ht.eq_none_iff, ← isNil_iff, Bool.not_eq_true]

variable {L : LeftSpine TreeNode}

variable {R : RightSpine TreeNode}

variable {t : BinaryTree TreeNode}

/-- The entries of the root and its left child are among those of the pieces. -/
theorem mem_addrs_mid {a : ℕ} (ha : a ∈ addrs (elements t)) :
    a ∈ addrs (Pieces.elements ⟨L, t, R⟩) := by
  simp [Pieces.elements, ha]

/-- The entries of a left spine are among those of the pieces. -/
theorem mem_addrs_left {a : ℕ} (ha : a ∈ addrs (leftElements L)) :
    a ∈ addrs (Pieces.elements ⟨L, t, R⟩) := by
  simp [Pieces.elements, ha]

/-- The entries of a right spine are among those of the pieces. -/
theorem mem_addrs_right {a : ℕ} (ha : a ∈ addrs (rightElements R)) :
    a ∈ addrs (Pieces.elements ⟨L, t, R⟩) := by
  simp [Pieces.elements, ha]

/-- The loop goes on from `c` as it does from `c'`, whose pieces are one turn further. -/
structure Turn (k : MachPort) (c c' : SplayCursor) (p q : Pieces TreeNode) : Prop where
  /-- The turn of the splay. -/
  step : step Prod.snd k p = some q
  /-- The memory after the iteration. -/
  represents : Represents c' q
  /-- Other entries keep their links. -/
  frame : SameOutside (addrs p.elements) c.heap c'.heap
  /-- The iteration. -/
  loop : ∀ fuel, ipcSplayPrimLookup k (fuel + 1) c = ipcSplayPrimLookup k fuel c'

/-- An iteration that descends to the left. -/
theorem turn_left {e f : TreeNode}
    {ll lr r : BinaryTree TreeNode} (h : Represents c ⟨L, .node e (.node f ll lr) r, R⟩)
    (hk : k < e.2) : ∃ c' q, Turn k c c' ⟨L, .node e (.node f ll lr) r, R⟩ q := by
  obtain ⟨htree, hname, ⟨hchild, hfname, htll, -⟩, -⟩ := h.mid
  have hll := htll.ne_none_iff
  -- The iteration up to the choice of the macros.
  have hloop : ∀ fuel, ipcSplayPrimLookup k (fuel + 1) c =
      (do
        let c ← if k < f.2 ∧ (c.heap f.1).iteLchild ≠ none then rotateRight c else some c
        let c ← linkRight c
        let c ← if f.2 < k ∧ (c.heap f.1).iteRchild ≠ none then linkLeft c else some c
        ipcSplayPrimLookup k fuel c) := by
    intro fuel
    simp only [ipcSplayPrimLookup, htree, hname, hchild, hfname, bind_eq_bind,
      bind_some, if_neg hk.ne, if_pos hk]
  by_cases h1 : k < f.2 ∧ isNil ll = false
  · obtain ⟨c₁, hrot, hrep₁, hs₁⟩ := rotateRight_spec h
    obtain ⟨c₂, hlink, hrep₂, hs₂⟩ := linkRight_spec hrep₁
    refine ⟨c₂, ⟨L, ll, (f, .node e lr r) :: R⟩, ?_, hrep₂, ?_, fun fuel => ?_⟩
    · simp only [step, if_pos hk, if_pos h1]
    · refine (hs₁.mono fun a ha => mem_addrs_mid ?_).trans (hs₂.mono fun a ha => ?_)
      · rcases List.mem_pair.mp ha with rfl | rfl <;> simp
      · exact mem_addrs_right ha
    · have hcond : k < f.2 ∧ (c.heap f.1).iteLchild ≠ none := ⟨h1.1, hll.mpr h1.2⟩
      simp only [hloop, if_pos hcond, hrot, hlink, bind_eq_bind, bind_some,
        if_neg (fun hc : f.2 < k ∧ _ => hc.1.not_gt h1.1)]
  · obtain ⟨c₁, hlink, hrep₁, hs₁⟩ := linkRight_spec h
    obtain ⟨-, -, -, htlr⟩ := hrep₁.mid
    have hlr := htlr.ne_none_iff
    have hcond : ¬(k < f.2 ∧ (c.heap f.1).iteLchild ≠ none) := by rwa [hll]
    by_cases h2 : f.2 < k ∧ isNil lr = false
    · obtain ⟨c₂, hlink₂, hrep₂, hs₂⟩ := linkLeft_spec hrep₁
      refine ⟨c₂, ⟨(ll, f) :: L, lr, (e, r) :: R⟩, ?_, hrep₂, ?_, fun fuel => ?_⟩
      · simp only [step, if_pos hk, if_neg h1, if_pos h2]
      · refine (hs₁.mono fun a ha => mem_addrs_right ha).trans (hs₂.mono fun a ha => ?_)
        exact mem_addrs_left ha
      · have hcond₂ : f.2 < k ∧ (c₁.heap f.1).iteRchild ≠ none := ⟨h2.1, hlr.mpr h2.2⟩
        simp only [hloop, if_neg hcond, hlink, bind_eq_bind, bind_some, if_pos hcond₂, hlink₂]
    · refine ⟨c₁, ⟨L, .node f ll lr, (e, r) :: R⟩, ?_, hrep₁, ?_, fun fuel => ?_⟩
      · simp only [step, if_pos hk, if_neg h1, if_neg h2]
      · exact hs₁.mono fun a ha => mem_addrs_right ha
      · have hcond₂ : ¬(f.2 < k ∧ (c₁.heap f.1).iteRchild ≠ none) := by rwa [hlr]
        simp only [hloop, if_neg hcond, hlink, bind_eq_bind, bind_some, if_neg hcond₂]

/-- An iteration that descends to the right. -/
theorem turn_right {e f : TreeNode}
    {l rl rr : BinaryTree TreeNode} (h : Represents c ⟨L, .node e l (.node f rl rr), R⟩)
    (hk : e.2 < k) : ∃ c' q, Turn k c c' ⟨L, .node e l (.node f rl rr), R⟩ q := by
  obtain ⟨htree, hname, -, hchild, hfname, -, htrr⟩ := h.mid
  have hrr := htrr.ne_none_iff
  have hloop : ∀ fuel, ipcSplayPrimLookup k (fuel + 1) c =
      (do
        let c ← if f.2 < k ∧ (c.heap f.1).iteRchild ≠ none then rotateLeft c else some c
        let c ← linkLeft c
        let c ← if k < f.2 ∧ (c.heap f.1).iteLchild ≠ none then linkRight c else some c
        ipcSplayPrimLookup k fuel c) := by
    intro fuel
    simp only [ipcSplayPrimLookup, htree, hname, hchild, hfname, bind_eq_bind,
      bind_some, if_neg hk.ne', if_neg hk.not_gt]
  by_cases h1 : f.2 < k ∧ isNil rr = false
  · obtain ⟨c₁, hrot, hrep₁, hs₁⟩ := rotateLeft_spec h
    obtain ⟨c₂, hlink, hrep₂, hs₂⟩ := linkLeft_spec hrep₁
    refine ⟨c₂, ⟨(.node e l rl, f) :: L, rr, R⟩, ?_, hrep₂, ?_, fun fuel => ?_⟩
    · simp only [step, if_neg hk.not_gt, if_pos hk, if_pos h1]
    · refine (hs₁.mono fun a ha => mem_addrs_mid ?_).trans (hs₂.mono fun a ha => ?_)
      · rcases List.mem_pair.mp ha with rfl | rfl <;> simp
      · exact mem_addrs_left ha
    · have hcond : f.2 < k ∧ (c.heap f.1).iteRchild ≠ none := ⟨h1.1, hrr.mpr h1.2⟩
      simp only [hloop, if_pos hcond, hrot, hlink, bind_eq_bind, bind_some,
        if_neg (fun hc : k < f.2 ∧ _ => hc.1.not_gt h1.1)]
  · obtain ⟨c₁, hlink, hrep₁, hs₁⟩ := linkLeft_spec h
    obtain ⟨-, -, htrl, -⟩ := hrep₁.mid
    have hrl := htrl.ne_none_iff
    have hcond : ¬(f.2 < k ∧ (c.heap f.1).iteRchild ≠ none) := by rwa [hrr]
    by_cases h2 : k < f.2 ∧ isNil rl = false
    · obtain ⟨c₂, hlink₂, hrep₂, hs₂⟩ := linkRight_spec hrep₁
      refine ⟨c₂, ⟨(l, e) :: L, rl, (f, rr) :: R⟩, ?_, hrep₂, ?_, fun fuel => ?_⟩
      · simp only [step, if_neg hk.not_gt, if_pos hk, if_neg h1, if_pos h2]
      · refine (hs₁.mono fun a ha => mem_addrs_left ha).trans (hs₂.mono fun a ha => ?_)
        exact mem_addrs_right ha
      · have hcond₂ : k < f.2 ∧ (c₁.heap f.1).iteLchild ≠ none := ⟨h2.1, hrl.mpr h2.2⟩
        simp only [hloop, if_neg hcond, hlink, bind_eq_bind, bind_some, if_pos hcond₂, hlink₂]
    · refine ⟨c₁, ⟨(l, e) :: L, .node f rl rr, R⟩, ?_, hrep₁, ?_, fun fuel => ?_⟩
      · simp only [step, if_neg hk.not_gt, if_pos hk, if_neg h1, if_neg h2]
      · exact hs₁.mono fun a ha => mem_addrs_left ha
      · have hcond₂ : ¬(k < f.2 ∧ (c₁.heap f.1).iteLchild ≠ none) := by rwa [hrl]
        simp only [hloop, if_neg hcond, hlink, bind_eq_bind, bind_some, if_neg hcond₂]

/-- One iteration of the loop is one turn, and it stops where no turn is left. -/
theorem lookup_turn (h : Represents c p) (hne : p.mid ≠ .nil) :
    (step Prod.snd k p = none ∧ ∀ fuel, ipcSplayPrimLookup k (fuel + 1) c = some c) ∨
      ∃ c' q, Turn k c c' p q := by
  obtain ⟨L, t, R⟩ := p
  cases t with
  | nil => exact absurd rfl hne
  | node e l r =>
    obtain ⟨htree, hname, htl, htr⟩ := h.mid
    rcases lt_trichotomy k e.2 with hk | hk | hk
    · cases l with
      | nil =>
        have hchild : (c.heap e.1).iteLchild = none := htl
        refine Or.inl ⟨by simp [step, hk], fun fuel => ?_⟩
        simp only [ipcSplayPrimLookup, htree, hname, hchild, bind_eq_bind,
          bind_some, if_neg hk.ne, if_pos hk]
      | node f ll lr => exact Or.inr (turn_left h hk)
    · refine Or.inl ⟨by simp [step, hk], fun fuel => ?_⟩
      simp only [ipcSplayPrimLookup, htree, hname, bind_eq_bind, bind_some, if_pos hk]
    · cases r with
      | nil =>
        have hchild : (c.heap e.1).iteRchild = none := htr
        refine Or.inl ⟨by simp [step, hk, hk.not_gt], fun fuel => ?_⟩
        simp only [ipcSplayPrimLookup, htree, hname, hchild, bind_eq_bind,
          bind_some, if_neg hk.ne', if_neg hk.not_gt]
      | node f rl rr => exact Or.inr (turn_right h hk)

/-- With more fuel than nodes in the middle tree the loop ends, and its cursor
represents what all turns leave. -/
theorem ipcSplayPrimLookup_spec {n fuel : ℕ} (h : Represents c p) (hne : p.mid ≠ .nil)
    (hn : p.mid.numNodes ≤ n) (hfuel : n < fuel) :
    ∃ c', ipcSplayPrimLookup k fuel c = some c' ∧ Represents c' (run Prod.snd k n p) ∧
      SameOutside (addrs p.elements) c.heap c'.heap := by
  induction n generalizing c p fuel with
  | zero =>
    cases hmid : p.mid with
    | nil => exact absurd hmid hne
    | node e l r => simp [hmid] at hn
  | succ n ih =>
    obtain ⟨fuel, rfl⟩ : ∃ m, fuel = m + 1 := ⟨fuel - 1, by omega⟩
    have hfuel' : n < fuel := by omega
    rcases lookup_turn (k := k) h hne with ⟨hstep, hloop⟩ | ⟨c₁, q, hturn⟩
    · refine ⟨c, hloop fuel, ?_, SameOutside.refl _ _⟩
      simpa only [run, hstep] using h
    · obtain ⟨hqne, hqn⟩ := step_mid hturn.step
      obtain ⟨c', hrun, hrep, hs⟩ := ih hturn.represents hqne (by omega) hfuel'
      refine ⟨c', (hturn.loop fuel).trans hrun, ?_, ?_⟩
      · simpa only [run, hturn.step] using hrep
      · rw [step_elements hturn.step] at hs
        exact hturn.frame.trans hs

/-- `ipc_splay_prim_assemble` makes the root of the middle tree that of the whole tree. -/
theorem ipcSplayPrimAssemble_spec (h : Represents c p) (hne : p.mid ≠ .nil) :
    ∃ c', ipcSplayPrimAssemble c = some c' ∧ c'.tree = c.tree ∧
      Represents { c' with ltreep := none, rtreep := none } ⟨[], p.assemble, []⟩ ∧
      SameOutside (addrs p.elements) c.heap c'.heap := by
  obtain ⟨L, t, R⟩ := p
  cases t with
  | nil => exact absurd rfl hne
  | node e l r =>
    obtain ⟨-, -, -, -, hL, hR, hl, hr⟩ := pieces_distinct h.nodup
    obtain ⟨htree, hname, htl, htr⟩ := h.mid
    obtain ⟨-, hltree, hrtree, hs₁⟩ := h.fillHoles htl htr
      (fun a ha => by simp [ha]) (fun a ha => by simp [ha])
    have he := (h.storeLtreep (v := (c.heap e.1).iteLchild)).1.storeRtreep_root
      (v := (c.heap e.1).iteRchild)
    rw [h.storeLtreep_root] at he
    obtain ⟨c₂, hc₂⟩ : ∃ c₂, c₂ = (c.storeLtreep (c.heap e.1).iteLchild).storeRtreep
      (c.heap e.1).iteRchild := ⟨_, rfl⟩
    rw [← hc₂] at he hltree hrtree hs₁
    -- The two stores into the root.
    obtain ⟨heap, hheap⟩ : ∃ heap, heap = (c₂.heap.setLchild e.1 c₂.ltree).setRchild e.1 c₂.rtree :=
      ⟨_, rfl⟩
    have hs₂ : SameOutside [e.1] c₂.heap heap := by
      rw [hheap]
      exact (sameOutside_setLchild (by simp)).trans (sameOutside_setRchild (by simp))
    have he₂ : heap e.1 = { c.heap e.1 with iteLchild := c₂.ltree, iteRchild := c₂.rtree } := by
      rw [hheap, setRchild_self, setLchild_self, he]
    have hrun : ipcSplayPrimAssemble c = some { c₂ with heap := heap } := by
      simp only [ipcSplayPrimAssemble, htree, bind_eq_bind, bind_some,
        h.storeLtreep_root, ← hc₂, ← hheap]
    refine ⟨_, hrun, by simp [hc₂], ⟨⟨?_, ?_, ?_, ?_⟩, trivial, rfl, trivial, rfl, ?_⟩, ?_⟩
    · simp [hc₂, htree]
    · simpa only [he₂] using hname
    · simp only [he₂]
      refine hltree.congr (hs₂.on fun a ha hm => ?_)
      rw [elements_fillLeft, addrs_append, List.mem_append] at ha
      rw [List.mem_singleton] at hm
      subst hm
      exact ha.elim (fun ha => (hL _ ha).2.1 rfl) fun ha => (hl _ ha).1 rfl
    · simp only [he₂]
      refine hrtree.congr (hs₂.on fun a ha hm => ?_)
      rw [elements_fillRight, addrs_append, List.mem_append] at ha
      rw [List.mem_singleton] at hm
      subst hm
      exact ha.elim (fun ha => hr _ ha rfl) fun ha => (hR _ ha).2.1 rfl
    · have hel := Pieces.elements_assemble (p := ⟨L, .node e l r, R⟩) hne
      simpa [Pieces.elements, hel] using h.nodup
    · refine (hs₁.mono fun a ha => ?_).trans (hs₂.mono fun a ha => mem_addrs_mid ?_)
      · exact (List.mem_append.mp ha).elim mem_addrs_left mem_addrs_right
      · simp [List.mem_singleton.mp ha]

end MachVirtuTerm
