import MachVirtuTerm.Vm.MapCopyProtection
import MachVirtuTerm.Vm.MapCopyinCover
import MachVirtuTerm.Vm.MapFirstFit

/-!
# Runs of a copyin

Each step of a call is one towards its end, but for those that others make necessary; so a call
returns, with the entries of the whole region or with the reason why there are none.
-/

open List

namespace MachVirtuTerm

open CopyinAction BitVec Option

/-- The call has not returned. -/
def CopyinPc.working : CopyinPc → Bool
  | .returned _ _ => false
  | _ => true

/-- The call is at work on the entries, and has not begun to delete the source. -/
def CopyinPc.copiesIn : CopyinPc → Bool
  | .destroy _ _ | .returned _ _ => false
  | _ => true

/-- An object is being copied. -/
def CopyinPc.copies : CopyinPc → Bool
  | .copying _ _ => true
  | _ => false

/-- The call goes on. -/
def CopyinAction.runs : CopyinAction → Bool
  | .run _ => true
  | .others _ => false

/-- The copy of an object is to be made again. -/
def CopyinAction.restarts : CopyinAction → Bool
  | .run oracle => oracle.copy = .restart
  | .others _ => false

namespace CopyinState

open RoundUp

variable {call : CopyinCall} {Q : VmOffset → VmMapEntry → Prop} {F : KernReturn → Prop}
  {s s' init : CopyinState} {oracle : CopyinOracle} {events : List CopyEvent}
  {trace : List (CopyinState × CopyinAction × List CopyEvent)}

/-- The end of the region is behind its start, or the call is refused for its addresses. -/
def Ordered (call : CopyinCall) : Prop :=
  call.srcStart < call.srcEnd ∨ call.srcEnd ≤ call.srcStart ∧ call.srcStart ≠ 0

/-- What a step adds to the work that is left. -/
def extra (s : CopyinState) (action : CopyinAction) : ℕ :=
  if action.runs then (if s.pc.copies && action.restarts then 2 else 0) else 3

/-- A step of the call at work. -/
theorem step_outcome (hlen : call.len ≠ 0) (horder : Ordered call) (hinv : CoverInv call Q F s)
    (hworks : s.pc.copiesIn = true) (hfails : ∀ kr, oracle.copy = .failed kr → F kr) :
    ∃ s' events, s.step call (.run oracle) = some (s', events) ∧ CoverInv call Q F s' ∧
      SameMap s.entries s'.entries ∧
      rank call s' + 1 ≤ rank call s + extra s (.run oracle) := by
  unfold step
  unfold CoverInv at hinv
  cases hpc : s.pc with
  | enter =>
    simp only [hpc] at hinv
    have houtcome := @enterStep_outcome call Q F s hlen horder hinv.1 hinv.2
    have hrank := houtcome.rank
    refine ⟨_, _, rfl, houtcome.inv, houtcome.same, ?_⟩
    rw [show rank call s = 4 * (call.srcEnd.toNat - call.srcStart.toNat) + 3 by
      rw [rank, hpc]]
    omega
  | newEntry srcStart copyEntries version =>
    simp only [hpc] at hinv
    obtain ⟨hmap, hcopied, hat⟩ := hinv
    have houtcome := @newEntryStep_outcome call Q F s copyEntries srcStart version hmap hcopied hat
    have hrank := houtcome.rank
    refine ⟨_, _, rfl, houtcome.inv, houtcome.same, ?_⟩
    rw [show rank call s = 4 * (call.srcEnd.toNat - srcStart.toNat) + 3 by rw [rank, hpc]]
    omega
  | loop srcStart copyEntries =>
    simp only [hpc] at hinv
    obtain ⟨hmap, hcopied, hlocked, hat⟩ := hinv
    obtain ⟨s', events, hstep, houtcome⟩ :=
      @loopStep_outcome call Q F s copyEntries srcStart oracle hmap hcopied hlocked hat
    have hrank := houtcome.rank
    refine ⟨s', events, hstep, houtcome.inv, houtcome.same, ?_⟩
    rw [show rank call s = 4 * (call.srcEnd.toNat - srcStart.toNat) + 2 by rw [rank, hpc]]
    omega
  | restartCopy c =>
    simp only [hpc] at hinv
    obtain ⟨hmap, hc, hrestart, -, hat⟩ := hinv
    obtain ⟨s', events, hstep, houtcome⟩ :=
      @restartCopyStep_outcome call Q F s c oracle hmap hc hrestart hat
    have hrank := houtcome.rank
    refine ⟨s', events, hstep, houtcome.inv, houtcome.same, ?_⟩
    rw [show rank call s = 4 * (call.srcEnd.toNat - c.srcStart.toNat) + 1 by rw [rank, hpc]]
    omega
  | copying c version =>
    simp only [hpc] at hinv
    obtain ⟨hmap, hc, hrestart, hat⟩ := hinv
    obtain ⟨s', events, hstep, houtcome⟩ :=
      @copyingStep_outcome call Q F s c version oracle.copy hmap hc hrestart hat hfails
    have hrank := houtcome.rank
    have hlt := hc.copied.lt
    rw [lt_def] at hlt
    refine ⟨s', events, hstep, houtcome.inv, houtcome.same, ?_⟩
    rw [show rank call s = 4 * (call.srcEnd.toNat - c.srcStart.toNat) +
      if version = s.timestamp then 0 else 3 by rw [rank, hpc]]
    have hextra : extra s (.run oracle) = if oracle.copy = .restart then 2 else 0 := by
      simp [extra, runs, CopyinPc.copies, restarts, hpc]
    rw [hextra]
    split_ifs at hrank ⊢ <;> omega
  | destroy copyEntries pc =>
    rw [hpc] at hworks
    cases hworks
  | returned kr copyEntries =>
    rw [hpc] at hworks
    cases hworks

/-- Others have the lock for a while, and do not bring back the version that was saved. -/
theorem others_outcome {entries : List VmMapEntry} (hinv : CoverInv call Q F s)
    (hversion : s.version ≠ some (s.timestamp + 1)) (hsorted : EntriesSorted entries)
    (hholds : MapHolds Q entries) (h : s.others [] entries = some s') :
    CoverInv call Q F s' ∧ rank call s' ≤ rank call s + 3 := by
  unfold MapState.others at h
  split_ifs at h with hlocked
  obtain rfl := some.inj h
  have hmap : MapInv Q s.entries s.minOffset → MapInv Q ([] ++ entries) s.minOffset :=
    fun h => ⟨hsorted, hholds, h.mappable⟩
  unfold CoverInv at hinv ⊢
  unfold rank
  cases hpc : s.pc with
  | enter =>
    simp only [hpc] at hinv ⊢
    exact ⟨⟨hmap hinv.1, hinv.2⟩, by omega⟩
  | newEntry srcStart copyEntries version =>
    simp only [hpc] at hinv ⊢
    have hne : version ≠ s.timestamp + 1 := fun h =>
      hversion (by rw [CopyinState.version, hpc, h])
    exact ⟨⟨hmap hinv.1, hinv.2.1, fun h => absurd h hne⟩, by omega⟩
  | loop srcStart copyEntries =>
    simp only [hpc] at hinv
    exact absurd hinv.2.2.1 hlocked
  | restartCopy c =>
    simp only [hpc] at hinv
    exact absurd hinv.2.2.2.1 hlocked
  | copying c version =>
    simp only [hpc] at hinv ⊢
    have hne : version ≠ s.timestamp + 1 := fun h =>
      hversion (by rw [CopyinState.version, hpc, h])
    refine ⟨⟨hmap hinv.1, hinv.2.1, hinv.2.2.1, fun h => absurd h hne⟩, ?_⟩
    rw [if_neg hne]
    omega
  | destroy copyEntries pc =>
    simp only [hpc] at hinv ⊢
    exact ⟨hinv, by omega⟩
  | returned kr copyEntries =>
    simp only [hpc] at hinv ⊢
    exact ⟨hinv, by omega⟩

/-- The source is destroyed. -/
theorem destroyStep_outcome {oracle : MapOracle} {copyEntries : List VmMapEntry} {pc : DeletePc}
    (hcovered : call.srcDestroy = true ∧ Covered call Q copyEntries)
    (h : s.destroyStep call oracle copyEntries pc = some s') :
    CoverInv call Q F s' ∧ rank call s' = 0 := by
  unfold destroyStep at h
  split at h
  · obtain rfl := some.inj h
    exact ⟨⟨rfl, .inl ⟨rfl, hcovered.2⟩⟩, rfl⟩
  · obtain ⟨⟨t, events⟩, -, rfl⟩ := map_eq_some_iff.mp h
    exact ⟨hcovered, rfl⟩

/-- The failures of copies are known; and what others leave has the property, and they do not
lock the map so often that its version is again the one that was saved. -/
def LabelOk (Q : VmOffset → VmMapEntry → Prop) (F : KernReturn → Prop) (s : CopyinState) :
    CopyinAction → Prop
  | .run oracle => ∀ kr, oracle.copy = .failed kr → F kr
  | .others entries => MapHolds Q entries ∧ s.version ≠ some (s.timestamp + 1)

/-- Without `src_destroy` a call that has not returned is at work on the entries. -/
theorem CoverInv.copiesIn (hinv : CoverInv call Q F s) (hdestroy : call.srcDestroy = false)
    (hworks : s.pc.working = true) : s.pc.copiesIn = true := by
  unfold CoverInv at hinv
  cases hpc : s.pc with
  | destroy copyEntries pc =>
    rw [hpc] at hinv
    exact absurd (hdestroy.symm.trans hinv.1) Bool.false_ne_true
  | returned kr copyEntries =>
    rw [hpc] at hworks
    cases hworks
  | _ => rfl

/-- A call that goes on has not returned. -/
theorem working_of_step (h : s.step call (.run oracle) = some (s', events)) :
    s.pc.working = true := by
  unfold step at h
  cases hpc : s.pc with
  | returned kr copyEntries =>
    simp only [hpc] at h
    cases h
  | _ => rfl

/-- A step. The work that is left gets less by a step of the call at work. -/
theorem cover_step {l : CopyinAction × List CopyEvent} (hlen : call.len ≠ 0)
    (horder : Ordered call) (hinv : CoverInv call Q F s) (hok : LabelOk Q F s l.1)
    (h : CopyStep (step call) entries s l s') :
    CoverInv call Q F s' ∧
      (if s.pc.copiesIn && l.1.runs then 1 else 0) + rank call s' ≤ rank call s + extra s l.1 := by
  obtain ⟨action, events⟩ := l
  obtain ⟨hstep, hsorted⟩ := h
  cases action with
  | others entries =>
    simp only [step, map_eq_some_iff, Prod.mk.injEq] at hstep
    obtain ⟨t, hothers, rfl, rfl⟩ := hstep
    obtain ⟨hinv', hrank⟩ := others_outcome hinv hok.2 (hsorted entries rfl) hok.1 hothers
    refine ⟨hinv', ?_⟩
    simpa [extra, runs] using hrank
  | run oracle =>
    by_cases hworks : s.pc.copiesIn = true
    · obtain ⟨t, events', hstep', hinv', -, hrank⟩ := step_outcome hlen horder hinv hworks hok
      rw [hstep] at hstep'
      obtain ⟨rfl, -⟩ := Prod.mk.inj (some.inj hstep')
      refine ⟨hinv', ?_⟩
      rw [hworks]
      simp only [runs, Bool.and_self, if_true]
      omega
    · rw [Bool.not_eq_true] at hworks
      have hdone : CoverInv call Q F s' ∧ rank call s' = 0 := by
        unfold step at hstep
        unfold CoverInv at hinv
        cases hpc : s.pc with
        | destroy copyEntries pc =>
          simp only [hpc] at hstep hinv
          obtain ⟨t, hdestroy, heq⟩ := map_eq_some_iff.mp hstep
          obtain ⟨rfl, -⟩ := Prod.mk.inj heq
          exact destroyStep_outcome hinv hdestroy
        | returned kr copyEntries =>
          simp only [hpc] at hstep
          cases hstep
        | _ =>
          rw [hpc] at hworks
          cases hworks
      refine ⟨hdone.1, ?_⟩
      rw [hworks, hdone.2]
      simp

/-! ## Runs -/

/-- The steps that a call takes before it returns or begins to delete the source. -/
def ownSteps (trace : List (CopyinState × CopyinAction × List CopyEvent)) : ℕ :=
  trace.countP fun x => x.1.pc.copiesIn && x.2.1.runs

/-- The steps that others make necessary: three each time they have the lock, two for each copy
that is to be made again. -/
def extras (trace : List (CopyinState × CopyinAction × List CopyEvent)) : ℕ :=
  (trace.map fun x => extra x.1 x.2.1).sum

/-- What holds all along a run. -/
theorem run_cover (h : Run (CopyStep (step call) entries) init trace s)
    (hlen : call.len ≠ 0) (horder : Ordered call) (hinit : CoverInv call Q F init)
    (hok : ∀ x ∈ trace, LabelOk Q F x.1 x.2.1) :
    CoverInv call Q F s ∧ ownSteps trace + rank call s ≤ rank call init + extras trace ∧
      (call.srcDestroy = false → ownSteps trace = trace.countP fun x => x.2.1.runs) := by
  induction h with
  | nil => exact ⟨hinit, by simp [ownSteps, extras]⟩
  | @cons trace s s' l h hstep ih =>
    obtain ⟨hinv, hle, hall⟩ := ih fun x hx => hok x (.tail _ hx)
    obtain ⟨hinv', hle'⟩ := cover_step hlen horder hinv (hok _ (.head _)) hstep
    simp only [ownSteps, extras, countP_cons, map_cons, sum_cons] at hle hle' hall ⊢
    refine ⟨hinv', by omega, fun hdestroy => ?_⟩
    rw [hall hdestroy]
    cases haction : l.1 with
    | others entries => simp [runs]
    | run oracle =>
      have hstep := hstep.1
      rw [haction] at hstep
      rw [hinv.copiesIn hdestroy (working_of_step hstep)]
      rfl

/-- What was mapped at some time: in the map at the beginning, or as others left it. -/
def Mapped (init : CopyinState) (trace : List (CopyinState × CopyinAction × List CopyEvent))
    (address : VmOffset) (view : VmMapEntry) : Prop :=
  Maps init.entries address view ∨
    ∃ x ∈ trace, ∃ entries, x.2.1 = .others entries ∧ Maps entries address view

/-- The copy of an object has failed so. -/
def CopyFailed (trace : List (CopyinState × CopyinAction × List CopyEvent)) (kr : KernReturn) :
    Prop :=
  ∃ x ∈ trace, ∃ oracle : CopyinOracle, x.2.1 = .run oracle ∧ oracle.copy = .failed kr

/-- The end of the region, in whole pages. -/
def regionEnd (call : CopyinCall) : ℕ :=
  (call.srcAddr.toNat + call.len.toNat + (pageSize - 1)) / pageSize * pageSize

/-- The end of the region fits in a word, or the call is refused for its addresses. -/
def EndOk (call : CopyinCall) : Prop :=
  regionEnd call < 2 ^ 32 ∨ call.srcEnd ≤ call.srcStart ∧ call.srcStart ≠ 0

/-- The results a call can have where an address of the region is not mapped: there is a gap, an
entry before that address cannot be read, or the copy of an object has failed. -/
def GapResult (call : CopyinCall) (init : CopyinState)
    (trace : List (CopyinState × CopyinAction × List CopyEvent)) (p : VmOffset)
    (kr : KernReturn) : Prop :=
  kr = .invalidAddress ∨
    (kr = .protectionFailure ∧ ∃ address view, call.srcStart ≤ address ∧ address < p ∧
      Mapped init trace address view ∧ ¬view.Readable call.useMaxprot) ∨
    CopyFailed trace kr

/-- What is expected of a call in each state it reaches; without `src_destroy` all its steps are
those that are bounded, until it returns. -/
structure CopyinSound (call : CopyinCall) (init : CopyinState)
    (trace : List (CopyinState × CopyinAction × List CopyEvent)) (s : CopyinState) : Prop where
  bounded : ownSteps trace ≤ 4 * (call.srcEnd.toNat - call.srcStart.toNat) + 3 + extras trace
  goesOn : s.pc.copiesIn = true → ∀ oracle, ∃ s' events,
    s.step call (.run oracle) = some (s', events) ∧ SameMap s.entries s'.entries
  whole : call.srcDestroy = false → ownSteps trace = trace.countP (fun x => x.2.1.runs) ∧
    (s.pc.working = true → s.pc.copiesIn = true)
  unlocked : ∀ kr copyEntries, s.pc = .returned kr copyEntries → s.locked = false
  success : ∀ copyEntries, s.pc = .returned .success copyEntries → copyEntries ≠ [] ∧
    call.srcEnd.toNat = regionEnd call ∧ EntriesTile call.srcStart copyEntries call.srcEnd ∧
    ∀ address, call.srcStart ≤ address → address < call.srcEnd →
      ∃ view, Mapped init trace address view
  overflow : 2 ^ 32 ≤ call.srcAddr.toNat + call.len.toNat → ∀ kr copyEntries,
    s.pc = .returned kr copyEntries → kr = .invalidAddress
  gap : ∀ p, call.srcStart ≤ p → p.toNat < regionEnd call → (∀ view, ¬Mapped init trace p view) →
    ∀ kr copyEntries, s.pc = .returned kr copyEntries → GapResult call init trace p kr

/-! ## The result -/

theorem toNat_srcStart (call : CopyinCall) :
    call.srcStart.toNat = call.srcAddr.toNat / 4096 * 4096 := by
  have hmask : IsMask pageMask 12 := ⟨by decide, rfl⟩
  rw [CopyinCall.srcStart, truncPage, hmask.toNat_and_not]
  rfl

/-- If the end fits in a word, then `src_end` is the end. -/
theorem toNat_srcEnd (h : regionEnd call < 2 ^ 32) : call.srcEnd.toNat = regionEnd call := by
  have hmask : IsMask pageMask 12 := ⟨by decide, rfl⟩
  have hend : regionEnd call = (call.srcAddr.toNat + call.len.toNat + 4095) / 4096 * 4096 := rfl
  rw [hend] at h ⊢
  rw [CopyinCall.srcEnd, roundPage, truncPage, hmask.toNat_and_not, toNat_add,
    toNat_add, hmask.toNat_eq]
  omega

/-- The addresses are in order, or the call is refused. -/
theorem ordered_of_endOk (hlen : call.len ≠ 0) (h : EndOk call) : Ordered call := by
  refine h.imp_left fun hfits => ?_
  have hend := toNat_srcEnd hfits
  have hpos : 0 < call.len.toNat := by bv_omega
  rw [lt_def, toNat_srcStart, hend]
  have hregion : regionEnd call = (call.srcAddr.toNat + call.len.toNat + 4095) / 4096 * 4096 := rfl
  omega

/-- A call that is refused for its addresses fails so. -/
theorem eq_invalidAddress (hnot : ¬call.srcStart < call.srcEnd) {kr : KernReturn}
    {copyEntries : List VmMapEntry} (h : kr = .success ∧ Covered call Q copyEntries ∨
      Explained call Q F kr) : kr = .invalidAddress := by
  rcases h with ⟨-, hcovered⟩ | hexplained
  · exact absurd hcovered.lt hnot
  · cases hexplained with
    | gap => rfl
    | unreadable hcopied => exact absurd hcopied.region hnot
    | object hlt => exact absurd hlt hnot

/-- An address that is never mapped is not among those that were copied. -/
theorem CopiedTo.le_of_not_mapped {copyEntries : List VmMapEntry} {srcStart p : VmOffset}
    (h : CopiedTo call Q copyEntries srcStart) (hp : call.srcStart ≤ p)
    (hnot : ∀ view, ¬Q p view) : srcStart ≤ p := by
  by_contra hlt
  obtain ⟨e, he, hc⟩ := h.tiles.exists_contains hp (BitVec.not_le.mp hlt)
  obtain ⟨view, hview⟩ := h.seen e he p hc
  exact hnot view hview

/-- A call for a region whose end fits in a word, or that is refused for its addresses, in a run
in which others do not bring back the version that was saved. In each state the map denotes what
it did before the last step of the call; the call goes on until it returns or, with
`src_destroy`, calls `vm_map_delete`, within a number of steps given by its region and by what
others do; and what it returns is the whole region, or the reason why it is not. -/
theorem copyin_sound (hlen : call.len ≠ 0) (hend : EndOk call)
    (hrun : Run (CopyStep (step call) entries) init trace s)
    (henter : init.pc = .enter) (hlocked : init.locked = false)
    (hsorted : EntriesSorted init.entries)
    (hmappable : Mappable init.minOffset (Mapped init trace))
    (hversion : ∀ x ∈ trace, x.2.1.runs = false → x.1.version ≠ some (x.1.timestamp + 1))
    (hfailed : ¬CopyFailed trace .success) : CopyinSound call init trace s := by
  have horder := ordered_of_endOk hlen hend
  have hinit : CoverInv call (Mapped init trace)
      (fun kr => kr ≠ .success ∧ CopyFailed trace kr) init := by
    unfold CoverInv
    rw [henter]
    exact ⟨⟨hsorted, fun address view => .inl, hmappable⟩, hlocked⟩
  have hok : ∀ x ∈ trace, LabelOk (Mapped init trace)
      (fun kr => kr ≠ .success ∧ CopyFailed trace kr) x.1 x.2.1 := by
    intro x hx
    have hversion := hversion x hx
    cases haction : x.2.1 with
    | run oracle =>
      intro kr hkr
      have hthis : CopyFailed trace kr := ⟨x, hx, oracle, haction, hkr⟩
      exact ⟨fun heq => hfailed (heq ▸ hthis), hthis⟩
    | others entries =>
      rw [haction] at hversion
      exact ⟨fun address view hmaps => .inr ⟨x, hx, entries, haction, hmaps⟩, hversion rfl⟩
  obtain ⟨hinv, hrank, hall⟩ := run_cover hrun hlen horder hinit hok
  have hreturned : ∀ kr copyEntries, s.pc = .returned kr copyEntries → s.locked = false ∧
      (kr = .success ∧ Covered call (Mapped init trace) copyEntries ∨
        Explained call (Mapped init trace) (fun kr => kr ≠ .success ∧ CopyFailed trace kr) kr) := by
    intro kr copyEntries hpc
    rw [CoverInv, hpc] at hinv
    exact hinv
  refine ⟨?_, ?_, fun hdestroy => ⟨hall hdestroy, hinv.copiesIn hdestroy⟩,
    fun kr ce hpc => (hreturned kr ce hpc).1, ?_, ?_, ?_⟩
  · rw [show rank call init = 4 * (call.srcEnd.toNat - call.srcStart.toNat) + 3 by
      rw [rank, henter]] at hrank
    omega
  · intro hworks oracle
    have hany : ∀ x ∈ trace, LabelOk (Mapped init trace) (fun _ => True) x.1 x.2.1 := by
      intro x hx
      have h := hok x hx
      cases haction : x.2.1 with
      | run oracle => exact fun _ _ => trivial
      | others entries =>
        rw [haction] at h
        exact h
    have hinit' : CoverInv call (Mapped init trace) (fun _ => True) init := by
      unfold CoverInv at hinit ⊢
      rw [henter] at hinit ⊢
      exact hinit
    have hinv' := (run_cover hrun hlen horder hinit' hany).1
    obtain ⟨s', events, hstep, -, hsame, -⟩ :=
      step_outcome hlen horder hinv' hworks fun kr (_ : oracle.copy = .failed kr) => trivial
    exact ⟨s', events, hstep, hsame⟩
  · intro copyEntries hpc
    rcases (hreturned _ _ hpc).2 with ⟨-, hcovered⟩ | hexplained
    · have hfits := hend.resolve_right fun h => BitVec.not_le.mpr hcovered.lt h.1
      refine ⟨?_, toNat_srcEnd hfits, hcovered.tiles, fun address hstart hlt => ?_⟩
      · rintro rfl
        have heq : call.srcStart = call.srcEnd := hcovered.tiles
        exact absurd hcovered.lt (heq ▸ BitVec.lt_irrefl _)
      · obtain ⟨e, he, hc⟩ := hcovered.tiles.exists_contains hstart hlt
        exact hcovered.seen e he address hc
    · cases hexplained with
      | object _ hkr => exact absurd rfl hkr.1
  · intro hover kr copyEntries hpc
    refine eq_invalidAddress (fun hlt => ?_) (hreturned kr copyEntries hpc).2
    have hfits := hend.resolve_right fun h => BitVec.not_le.mpr hlt h.1
    have hregion : regionEnd call =
        (call.srcAddr.toNat + call.len.toNat + 4095) / 4096 * 4096 := rfl
    omega
  · intro p hp hlt hnot kr copyEntries hpc
    by_cases hregion : call.srcStart < call.srcEnd
    · have hfits := hend.resolve_right fun h => BitVec.not_le.mpr hregion h.1
      rw [← toNat_srcEnd hfits, ← lt_def] at hlt
      rcases (hreturned kr copyEntries hpc).2 with ⟨-, hcovered⟩ | hexplained
      · obtain ⟨e, he, hc⟩ := hcovered.tiles.exists_contains hp hlt
        obtain ⟨view, hview⟩ := hcovered.seen e he p hc
        exact absurd hview (hnot view)
      · cases hexplained with
        | gap => exact .inl rfl
        | @unreadable _ srcStart view hcopied hmapped hread =>
          have hle := hcopied.le_of_not_mapped hp hnot
          have hne : srcStart ≠ p := fun heq => hnot view (heq ▸ hmapped)
          have hbefore : srcStart < p := by bv_omega
          exact .inr (.inl ⟨rfl, srcStart, view, hcopied.tiles.le, hbefore, hmapped, hread⟩)
        | object _ hkr => exact .inr (.inr hkr.2)
    · exact .inl (eq_invalidAddress hregion (hreturned kr copyEntries hpc).2)

/-- What was replayed are the actions. -/
theorem map_action_of_replay {actions : List CopyinAction}
    (h : replay (step call) init actions = some (trace, s)) :
    trace.map (·.2.1) = actions := by
  induction actions generalizing trace s with
  | nil =>
    cases h
    rfl
  | cons action actions ih =>
    simp only [replay, bind_eq_some_iff, map_eq_some_iff] at h
    obtain ⟨⟨trace₁, s₁⟩, hreplay, ⟨s₂, output⟩, -, heq⟩ := h
    cases heq
    rw [map_cons, ih hreplay]

/-- The call goes on while nobody else changes the map. -/
theorem run_of_replay_go {n : ℕ}
    (h : replay (step call) init (replicate n .go) = some (trace, s)) :
    Run (CopyStep (step call) entries) init trace s ∧
      (∀ address view, Mapped init trace address view → Maps init.entries address view) ∧
      (∀ x ∈ trace, x.2.1.runs = false → x.1.version ≠ some (x.1.timestamp + 1)) ∧
      ¬CopyFailed trace .success := by
  have hgo : ∀ x ∈ trace, x.2.1 = .go := fun x hx => by
    have hmem : x.2.1 ∈ trace.map (·.2.1) := mem_map_of_mem hx
    rw [map_action_of_replay h] at hmem
    exact eq_of_mem_replicate hmem
  refine ⟨run_of_replay h fun action haction => ?_, fun address view hmapped => ?_,
    fun x hx hothers => ?_, ?_⟩
  · rw [eq_of_mem_replicate haction]
    exact fun entries hentries => nomatch hentries
  · refine hmapped.resolve_right ?_
    rintro ⟨x, hx, entries, hothers, -⟩
    rw [hgo x hx] at hothers
    cases hothers
  · rw [hgo x hx] at hothers
    cases hothers
  · rintro ⟨x, hx, oracle, hrun, hfailed⟩
    rw [hgo x hx] at hrun
    cases hrun
    cases hfailed

/-- A map of the two pages. -/
theorem mappable_twoPages : Mappable 0 (Maps [twoPages]) := by
  refine ⟨fun address view _ => by bv_omega, ?_⟩
  rintro address view ⟨e, he, -, rfl⟩ hwired
  rw [mem_singleton] at he
  subst he
  exact absurd rfl hwired

/-- The two pages are copied in. -/
theorem copyin_sound_twoPages :
    ∃ trace s, CopyinSound copyinTwoPages (.onTwoPages .enter) trace s ∧
      s.pc = .returned .success [{ twoPages with object := some 8, needsCopy := true }] := by
  have hreplay : (replay (step copyinTwoPages) (.onTwoPages .enter)
      (replicate 4 .go)).map (fun r => decide (r.2.pc = .returned .success
        [{ twoPages with object := some 8, needsCopy := true }])) = some true := by
    decide +kernel
  obtain ⟨⟨trace, s⟩, hreplay, hres⟩ := map_eq_some_iff.mp hreplay
  obtain ⟨hrun, hmapped, hversion, hfailed⟩ := run_of_replay_go hreplay
  refine ⟨trace, s, ?_, of_decide_eq_true hres⟩
  exact copyin_sound (by decide) (.inl (by decide)) hrun rfl rfl (by decide)
    ⟨fun address view h => mappable_twoPages.min_le address view (hmapped address view h),
      fun address view h => mappable_twoPages.wired address view (hmapped address view h)⟩
    hversion hfailed

/-- The two pages when they cannot be read. -/
def onUnreadablePages : CopyinState :=
  { MapState.onTwoPages .enter with after := [{ twoPages with protection := 0 }] }

/-- An entry that cannot be read, before a gap, makes a call fail by its protection. -/
theorem unreadable_before_gap :
    ¬∀ (call : CopyinCall) (init s : CopyinState)
      (trace : List (CopyinState × CopyinAction × List CopyEvent)),
      call.len ≠ 0 → Run (CopyStep (step call) entries) init trace s →
      init.pc = .enter → init.locked = false → EntriesSorted init.entries →
      ∀ p, call.srcStart ≤ p → p.toNat < regionEnd call → (∀ view, ¬Mapped init trace p view) →
      ∀ kr copyEntries, s.pc = .returned kr copyEntries → kr = .invalidAddress := by
  intro hclaim
  have hreplay : (replay (step ⟨0x1000, 0x4000, false, false, false⟩) onUnreadablePages
      (replicate 2 .go)).map (fun r => decide (r.2.pc = .returned .protectionFailure [])) =
        some true := by
    decide +kernel
  obtain ⟨⟨trace, s⟩, hreplay, hres⟩ := map_eq_some_iff.mp hreplay
  obtain ⟨hrun, hmapped, -, -⟩ := run_of_replay_go hreplay
  have hgap : ∀ view, ¬Mapped onUnreadablePages trace 0x3000 view := by
    rintro view h
    obtain ⟨e, he, hcontains, -⟩ := hmapped _ _ h
    rw [MapState.entries, onUnreadablePages, MapState.onTwoPages, nil_append, mem_singleton] at he
    subst he
    exact absurd hcontains (by decide)
  have hkr := hclaim _ onUnreadablePages s trace (by decide) hrun rfl rfl (by decide) 0x3000
    (by decide) (by decide) hgap _ _ (of_decide_eq_true hres)
  cases hkr

end CopyinState

end MachVirtuTerm
