import MachVirtuTerm.Vm.MapOverwriteProtection

/-!
# Protections after the map was unlocked

Source and destination of a copy together, and runs in which others change the protection
of an entry while the map is unlocked.
-/

open List Option

namespace MachVirtuTerm

open OverwriteState CopyinState OverwriteAction

/-- Whatever others do to the map while it is unlocked: a call of `vm_map_copy_overwrite` writes
to entries only that can be written and need no copy, and a call of `vm_map_copyin_common`
accepts copies of entries only that can be read, in every run in which the entries that are
looked up again after the map has changed have the protection that the first pass and the
first check ask for, and in which a changed map is not again in the version that was saved. -/
theorem protections_rechecked (dstAddr : VmOffset) (copy : VmMapCopy) (call : CopyinCall) :
    (∀ (init s : OverwriteState)
      (trace : List (OverwriteState × OverwriteAction × List CopyEvent)),
      Run (CopyStep step entries) init trace s →
      init.pc = .enter dstAddr copy → EntriesSorted init.entries → copy.WellFormed →
      (∀ x ∈ trace, OverwriteState.StepOk x.1 x.2) →
      ∀ x ∈ trace, ∀ event ∈ x.2.2, OverwriteState.EventOk x.1 event) ∧
    ∀ (init s : CopyinState)
      (trace : List (CopyinState × CopyinAction × List CopyEvent)),
      Run (CopyStep (step call) CopyinAction.entries) init trace s →
      init.pc = .enter → (∀ x ∈ trace, CopyinState.StepOk call x.1 x.2) →
      ∀ x ∈ trace, ∀ event ∈ x.2.2, CopyinState.AcceptOk call event :=
  ⟨fun _ _ _ h hpc hsorted hcopy hok =>
    written_writable h hpc hsorted hcopy hok,
    fun _ _ _ h hpc hok => accepted_readable h hpc hok⟩

/-- Two pages with an object. -/
def twoPages : VmMapEntry where
  vmeStart := 0x1000
  vmeEnd := 0x3000
  object := some 1
  offset := 0
  isShared := false
  isSubMap := false
  inTransition := false
  needsWakeup := false
  behavior := 0
  needsCopy := false
  protection := 3
  maxProtection := 7
  inheritance := 1
  wiredCount := 0
  userWiredCount := 0

/-- The two pages, and a call about to begin. -/
def MapState.onTwoPages {Pc : Type*} (pc : Pc) : MapState Pc where
  before := []
  after := [twoPages]
  minOffset := 0
  maxOffset := 0xC0000000
  timestamp := 0
  locked := false
  moved := false
  needWakeup := false
  lastTimestamp := ~~~0
  pc := pc

/-- The call goes on, and what it calls succeeds. -/
def OverwriteAction.go : OverwriteAction := .run ⟨fun _ => true, 7, true, true, .found false⟩

/-- A part of a page from the start of the two pages, others at work, and the next part. -/
def partAndOthers (protection : VmProt) : List OverwriteAction :=
  [.go, .go, .go, .go, .others [{ twoPages with protection }], .go, .go, .go]

/-- A copy that does not start at a page. -/
def unalignedCopy : VmMapCopy :=
  ⟨0x10, 0x1800, [{ twoPages with vmeStart := 0, vmeEnd := 0x2000, object := some 2 }]⟩

/-- The call goes on, and objects are copied while the map is unlocked. -/
def CopyinAction.go : CopyinAction := .run ⟨fun _ => true, none, .copied (some 8) 0 true, .quiet⟩

/-- The copy of an object, others at work, and what follows the copy. -/
def copyAndOthers (protection : VmProt) : List CopyinAction :=
  [.go, .others [{ twoPages with protection }], .go, .go, .go]

/-- A call that copies in the two pages. -/
def copyinTwoPages : CopyinCall := ⟨0x1000, 0x2000, false, false, false⟩

/-- What was replayed is a run if others left the entries in order. -/
theorem run_of_replay {S Action : Type*} {step : S → Action → Option (S × List CopyEvent)}
    {others : Action → Option (List VmMapEntry)} {init s : S} {actions : List Action}
    {trace : List (S × Action × List CopyEvent)}
    (h : replay step init actions = some (trace, s))
    (hsorted : ∀ action ∈ actions, ∀ entries ∈ others action, EntriesSorted entries) :
    Run (CopyStep step others) init trace s :=
  Run.of_replay h hsorted

/-- Others leave the two pages in order. -/
theorem partAndOthers_sorted (protection : VmProt) :
    ∀ action ∈ partAndOthers protection, ∀ entries ∈ action.entries, EntriesSorted entries := by
  intro action haction entries hentries
  simp only [partAndOthers, go, mem_cons, not_mem_nil, or_false] at haction
  rcases haction with rfl | rfl | rfl | rfl | rfl | rfl | rfl | rfl <;> cases hentries
  exact ⟨pairwise_singleton _ _, by simp [twoPages]⟩

@[inherit_doc partAndOthers_sorted]
theorem copyAndOthers_sorted (protection : VmProt) :
    ∀ action ∈ copyAndOthers protection, ∀ entries ∈ action.entries, EntriesSorted entries := by
  intro action haction entries hentries
  simp only [copyAndOthers, CopyinAction.go, mem_cons, not_mem_nil, or_false] at haction
  rcases haction with rfl | rfl | rfl | rfl | rfl <;> cases hentries
  exact ⟨pairwise_singleton _ _, by simp [twoPages]⟩

/-- With the protection left as it was, two parts are written and a copy is accepted. -/
theorem protections_rechecked_unchanged :
    (∃ trace s, Run (CopyStep step entries) (.onTwoPages (.enter 0x1000 unalignedCopy)) trace s ∧
      (trace.flatMap fun x => x.2.2).length = 2 ∧
      ∀ x ∈ trace, ∀ event ∈ x.2.2, OverwriteState.EventOk x.1 event) ∧
    ∃ trace s, Run (CopyStep (step copyinTwoPages) CopyinAction.entries)
        (.onTwoPages .enter) trace s ∧
      (trace.flatMap fun x => x.2.2).length = 1 ∧
      ∀ x ∈ trace, ∀ event ∈ x.2.2, CopyinState.AcceptOk copyinTwoPages event := by
  constructor
  · have hreplay : (replay step (.onTwoPages (.enter 0x1000 unalignedCopy))
        (partAndOthers 3)).map (fun r => decide ((r.1.flatMap fun x => x.2.2).length = 2 ∧
          ∀ x ∈ r.1, OverwriteState.StepOk x.1 x.2)) = some true := by
      decide +kernel
    obtain ⟨⟨trace, s⟩, hreplay, hres⟩ := map_eq_some_iff.mp hreplay
    obtain ⟨hlength, hok⟩ := of_decide_eq_true hres
    have hrun := run_of_replay hreplay (partAndOthers_sorted 3)
    exact ⟨trace, s, hrun, hlength,
      (protections_rechecked 0x1000 unalignedCopy copyinTwoPages).1 _ s trace hrun rfl
        (by decide) (by decide) hok⟩
  · have hreplay : (replay (step copyinTwoPages) (.onTwoPages .enter)
        (copyAndOthers 1)).map (fun r => decide ((r.1.flatMap fun x => x.2.2).length = 1 ∧
          ∀ x ∈ r.1, CopyinState.StepOk copyinTwoPages x.1 x.2)) = some true := by
      decide +kernel
    obtain ⟨⟨trace, s⟩, hreplay, hres⟩ := map_eq_some_iff.mp hreplay
    obtain ⟨hlength, hok⟩ := of_decide_eq_true hres
    have hrun := run_of_replay hreplay (copyAndOthers_sorted 1)
    exact ⟨trace, s, hrun, hlength,
      (protections_rechecked 0x1000 unalignedCopy copyinTwoPages).2 _ s trace hrun rfl hok⟩

/-- When others take the right to write away, the next part is written all the same, and when
they take the right to read away, the copy is accepted all the same. -/
theorem protections_not_rechecked :
    (∃ trace s, Run (CopyStep step entries) (.onTwoPages (.enter 0x1000 unalignedCopy)) trace s ∧
      ¬∀ x ∈ trace, ∀ event ∈ x.2.2, OverwriteState.EventOk x.1 event) ∧
    ∃ trace s, Run (CopyStep (step copyinTwoPages) CopyinAction.entries)
        (.onTwoPages .enter) trace s ∧
      ¬∀ x ∈ trace, ∀ event ∈ x.2.2, CopyinState.AcceptOk copyinTwoPages event := by
  constructor
  · have hreplay : (replay step (.onTwoPages (.enter 0x1000 unalignedCopy))
        (partAndOthers 1)).map (fun r =>
          decide (¬∀ x ∈ r.1, ∀ event ∈ x.2.2, OverwriteState.EventOk x.1 event)) = some true := by
      decide +kernel
    obtain ⟨⟨trace, s⟩, hreplay, hres⟩ := map_eq_some_iff.mp hreplay
    exact ⟨trace, s, run_of_replay hreplay (partAndOthers_sorted 1), of_decide_eq_true hres⟩
  · have hreplay : (replay (step copyinTwoPages) (.onTwoPages .enter)
        (copyAndOthers 2)).map (fun r =>
          decide (¬∀ x ∈ r.1, ∀ event ∈ x.2.2, CopyinState.AcceptOk copyinTwoPages event)) =
            some true := by
      decide +kernel
    obtain ⟨⟨trace, s⟩, hreplay, hres⟩ := map_eq_some_iff.mp hreplay
    exact ⟨trace, s, run_of_replay hreplay (copyAndOthers_sorted 2), of_decide_eq_true hres⟩

end MachVirtuTerm
