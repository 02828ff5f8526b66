import MachVirtuTerm.Vm.MapTransition
import MachVirtuTerm.Vm.MapWire

/-!
# Wiring keeps track of transitions

A call of `vm_map_unwire` or `vm_map_wire` has its lock when it should, clears each
transition bit it has set, and remembers in `need_wakeup` whom it has to wake up.
-/

open List

namespace MachVirtuTerm

open WireState TransitionStep MapState MapRoutine WirePc

variable {entries before after : List VmMapEntry} {entry tmpEntry : VmMapEntry}
  {address : VmOffset} {pending : Bool} {events : List MapEvent} {action : MapAction}

/-- A clip of the start changes no more of an entry than where it starts. -/
theorem clipStart_snd (before : List VmMapEntry) (entry : VmMapEntry) (address : VmOffset) :
    (vmMapClipStart before entry address).2 = { entry with
      vmeStart := (vmMapClipStart before entry address).2.vmeStart
      offset := (vmMapClipStart before entry address).2.offset } := by
  unfold vmMapClipStart
  split <;> rfl

/-- An entry clipped at both ends of a region that is not empty. -/
theorem TransitionStep.clip {start «end» : VmOffset} (h : EntriesOk (before ++ entry :: after))
    (hlt : start < entry.vmeEnd) (hstart : entry.vmeStart < «end») (hrange : start < «end») :
    TransitionStep none none (before ++ entry :: after)
      ((vmMapClipStart before entry start).1 ++
        (vmMapClipEnd (vmMapClipStart before entry start).2 after «end»).1 ::
          (vmMapClipEnd (vmMapClipStart before entry start).2 after «end»).2) [] := by
  have hclip := clipStart h hlt
  refine hclip.trans (clipEnd hclip.ok ?_)
  unfold vmMapClipStart
  split
  · exact hrange
  · exact hstart

/-- An entry clipped at both ends differs from what it was in its range and offset only. -/
theorem clip_eq (before : List VmMapEntry) (entry : VmMapEntry) (after : List VmMapEntry)
    (start «end» : VmOffset) :
    ∃ vmeStart vmeEnd offset,
      (vmMapClipEnd (vmMapClipStart before entry start).2 after «end»).1 =
        { entry with vmeStart, vmeEnd, offset } := by
  unfold vmMapClipEnd vmMapClipStart
  split <;> split <;> exact ⟨_, _, _, rfl⟩

/-- After a clip of the end the entries from there on still end after an address. -/
theorem lt_of_mem_clipEnd {start : VmOffset} (address : VmOffset) (hs : start < entry.vmeEnd)
    (hafter : ∀ e ∈ after, start < e.vmeEnd) :
    ∀ e ∈ (vmMapClipEnd entry after address).2, start < e.vmeEnd := by
  unfold vmMapClipEnd
  split
  · intro e he
    rcases mem_cons.mp he with rfl | he
    · exact hs
    · exact hafter e he
  · exact hafter

/-- After a clip of the end an entry still ends after an address before it. -/
theorem lt_vmeEnd_clipEnd {start : VmOffset} (after : List VmMapEntry) (hs : start < entry.vmeEnd) (hend : start < address) :
    start < (vmMapClipEnd entry after address).1.vmeEnd := by
  unfold vmMapClipEnd
  split
  · exact hend
  · exact hs

/-- A clip of the start leaves the end. -/
theorem clipStart_vmeEnd (before : List VmMapEntry) (entry : VmMapEntry) (address : VmOffset) :
    (vmMapClipStart before entry address).2.vmeEnd = entry.vmeEnd := by
  rw [clipStart_snd]

namespace UnwireState

variable {s s' : UnwireState} {call : UnwireCall}

/-- What holds of a call at each place. -/
def PcInv (s : UnwireState) : UnwirePc → Prop
  | .enter _ | .finish | .returned _ => s.locked = false
  | .loop call => s.locked = true ∧ ∀ e ∈ s.after, call.start < e.vmeEnd
  | .faultUnwire call tmpEntry =>
    s.locked = false ∧ call.start < tmpEntry.vmeEnd ∧
      (s.moved = false → ∀ e ∈ s.before, e.vmeEnd ≤ tmpEntry.vmeStart)

/-- A call remembers that it has to wake somebody up. -/
def Owes (s : UnwireState) : UnwirePc → Prop
  | .loop _ | .faultUnwire _ _ | .finish => s.needWakeup = true
  | .enter _ | .returned _ => False

/-- The region of a call is not empty, if it unwires an entry that starts before its end; and
when the call takes the lock again after others, the version is not again the one it saved. -/
def Proper (s : UnwireState) : UnwirePc → Prop
  | .loop call => ∀ entry ∈ s.after.head?, entry.vmeStart < call.end →
    entry.inTransition = false → entry.wiredCount ≠ 0 → call.start < call.end
  | .faultUnwire _ _ => s.moved = true → s.Stale
  | _ => True

instance (s : UnwireState) (pc : UnwirePc) : Decidable (s.Proper pc) :=
  match pc with
  | .loop call =>
    inferInstanceAs (Decidable (∀ entry ∈ s.after.head?, entry.vmeStart < call.end → _ → _ → _))
  | .faultUnwire _ _ => inferInstanceAs (Decidable (s.moved = true → s.Stale))
  | .enter _ | .finish | .returned _ => inferInstanceAs (Decidable True)

end UnwireState

/-- The invariant of a call of `vm_map_unwire`. -/
structure UnwireInv (s : UnwireState) (pending : Bool) : Prop where
  ok : EntriesOk s.entries
  pc : s.PcInv s.pc
  owes : pending = true → s.Owes s.pc

namespace UnwireInv

variable {s s' : UnwireState} {call : UnwireCall}

variable (h : UnwireInv s pending)

include h

/-- The lock, the range check and the lookup of the start. -/
theorem enterStep (hpc : s.pc = .enter call) (hstep : s.enterStep call = (s', events)) :
    UnwireInv s' (pendingAfter pending events) ∧ StepOk UnwirePc.held s s' events := by
  have howes := h.owes
  rw [hpc] at howes
  have hpending : pending = false := by simpa [UnwireState.Owes] using howes
  have hheld : s.pc.held = none := by rw [hpc]; rfl
  have hrefl := refl none h.ok
  unfold UnwireState.enterStep at hstep
  dsimp only at hstep
  split at hstep
  · rename_i before after hlookup
    have happend := vmMapLookupEntry_append s.lock.entries (s.lock.rangeCheck call.start call.end).1
    rw [hlookup] at happend
    have hentries : before ++ after = s.entries := happend
    have hafter : ∀ e ∈ after, (s.lock.rangeCheck call.start call.end).1 < e.vmeEnd :=
      fun e he => h.ok.sorted.lt_of_lookup (by rw [← s.entries_lock, hlookup]; exact he)
    rw [← hentries] at hrefl
    cases hstep
    refine ⟨⟨hrefl.ok, ⟨rfl, hafter⟩, by simp [pendingAfter, hpending]⟩, ?_, by simp, ?_, by simp⟩
    · rw [hheld, ← hentries]
      exact hrefl
    · exact fun _ ht => absurd ht (by simp [lock])
  · cases hstep
    refine ⟨⟨h.ok, rfl, by simp [pendingAfter, MapEvent.pending, hpending]⟩, ?_, by simp, ?_, ?_⟩
    · rw [hheld]
      exact hrefl
    · exact fun _ ht => absurd ht (by simp [lock, unlock])
    · simp [returnsLocked]

/-- The loop, for one entry. -/
theorem loopStep (hpc : s.pc = .loop call) (hproper : s.Proper s.pc)
    (hstep : s.loopStep call = some (s', events)) :
    UnwireInv s' (pendingAfter pending events) ∧ StepOk UnwirePc.held s s' events := by
  have hinv := h.pc
  have howes := h.owes
  rw [hpc] at hinv howes
  obtain ⟨hlocked, hafter⟩ := hinv
  have hheld : s.pc.held = none := by rw [hpc]; rfl
  have hunlocked : ∀ {P : Prop}, s.locked = false → P := fun hl =>
    absurd (hl.symm.trans hlocked) (by simp)
  have hrefl := refl none h.ok
  have hpending : ∀ entry kernel, pendingAfter pending [.unwired entry kernel] = pending :=
    fun _ _ => rfl
  -- Leaving the loop.
  have hfinish : UnwireInv { s.unlock with pc := .finish } pending ∧
      StepOk UnwirePc.held s { s.unlock with pc := .finish } [] := by
    refine ⟨⟨h.ok, rfl, howes⟩, ?_, by simp, hunlocked, by simp⟩
    rw [hheld]
    exact hrefl
  -- Passing over an entry.
  have hadvance : UnwireInv s.advance pending ∧ StepOk UnwirePc.held s s.advance [] := by
    refine ⟨⟨by simpa using h.ok, ?_, ?_⟩, ?_, by simp, hunlocked, by simp⟩
    · change UnwireState.PcInv s.advance s.pc
      rw [hpc]
      exact ⟨hlocked, fun e he => hafter e (mem_of_mem_drop he)⟩
    · change pending = true → UnwireState.Owes s.advance s.pc
      rw [hpc]
      exact howes
    · change TransitionStep _ s.pc.held _ _ _
      rw [hheld, s.entries_advance]
      exact hrefl
  unfold UnwireState.loopStep at hstep
  split at hstep
  · cases hstep
    exact hfinish
  rename_i entry after heq
  rw [heq] at hafter
  have hok := h.ok
  rw [entries, heq] at hok
  split at hstep
  · rename_i hlt
    split at hstep
    · split at hstep
      · cases hstep
        exact hadvance
      · cases hstep
    rename_i htransition
    split at hstep
    · split at hstep
      · cases hstep
        exact hadvance
      · cases hstep
    rename_i hwired
    rw [not_or] at hwired
    rw [hpc] at hproper
    have hrange := hproper entry (by simp [heq]) hlt (by simpa using htransition) hwired.1
    have hclip := clip hok (hafter entry (by simp)) hlt hrange
    have hentry₁ : call.start < (vmMapClipStart s.before entry call.start).2.vmeEnd := by
      rw [clipStart_vmeEnd]
      exact hafter entry (by simp)
    have hend := lt_of_mem_clipEnd call.end hentry₁ fun e he =>
      hafter e (mem_cons_of_mem entry he)
    obtain ⟨vmeStart, vmeEnd, offset, heq'⟩ := clip_eq s.before entry after call.start call.end
    rcases hclipStart : vmMapClipStart s.before entry call.start with ⟨before', entry₁⟩
    rcases hclipEnd : vmMapClipEnd entry₁ after call.end with ⟨entry', after'⟩
    simp only [hclipStart, hclipEnd] at hstep hclip hend hentry₁ heq'
    have hneeds : entry'.NeedsOk := hclip.ok.needs entry' (by simp)
    -- The entry gets other counts, or a transition bit.
    have hupdate : ∀ (wiredEntry : VmMapEntry) (held' : Option VmMapEntry),
        wiredEntry.range = entry'.range → wiredEntry.NeedsOk →
        (entry'.needsWakeup = true → wiredEntry.needsWakeup = true) →
        (wiredEntry.inTransition = true → entry'.inTransition = true ∨ held' = some wiredEntry) →
        TransitionStep none held' s.entries (before' ++ wiredEntry :: after') [] := by
      intro wiredEntry held' hrange' hok' hneeds' htransition'
      rw [entries, heq]
      exact hclip.trans (.update wiredEntry held' hclip.ok hrange' hok' hneeds' htransition')
    split at hstep
    · split at hstep
      · cases hstep
        have hskip := hupdate entry' none rfl hneeds id Or.inl
        rw [append_cons] at hskip
        refine ⟨⟨hskip.ok, ?_, ?_⟩, ?_, by simp, hunlocked, by simp⟩
        · change UnwireState.PcInv _ s.pc
          rw [hpc]
          exact ⟨hlocked, hend⟩
        · change pending = true → UnwireState.Owes _ s.pc
          rw [hpc]
          exact howes
        · change TransitionStep s.pc.held s.pc.held _ _ _
          rw [hheld]
          exact hskip
      · cases hstep
    · split at hstep
      · rename_i hwired
        cases hstep
        have hcount := hupdate (UnwireState.unwire call entry') none rfl (fun _ => Or.inr hwired) id Or.inl
        rw [append_cons] at hcount
        refine ⟨⟨hcount.ok, ?_, ?_⟩, ?_, by simp, hunlocked, by simp⟩
        · change UnwireState.PcInv _ s.pc
          rw [hpc]
          exact ⟨hlocked, hend⟩
        · change pending = true → UnwireState.Owes _ s.pc
          rw [hpc]
          exact howes
        · change TransitionStep s.pc.held s.pc.held _ _ _
          rw [hheld]
          exact hcount
      · cases hstep
        have hmark := hupdate { UnwireState.unwire call entry' with inTransition := true }
          (some { UnwireState.unwire call entry' with inTransition := true }) rfl
          (fun _ => Or.inl rfl) id fun _ => Or.inr rfl
        refine ⟨⟨hmark.ok, ⟨rfl, ?_, fun _ => hmark.ok.sorted.le_vmeStart⟩, howes⟩, ?_, by simp,
          hunlocked, by simp⟩
        · have hlt := lt_vmeEnd_clipEnd after hentry₁ hrange
          rw [hclipEnd] at hlt
          exact hlt
        · rw [hheld]
          exact hmark
  · cases hstep
    exact hfinish

/-- What follows `vm_fault_unwire`. -/
theorem unwiredStep (hpc : s.pc = .faultUnwire call tmpEntry) (hversion : s.moved = true → s.Stale)
    (hstep : s.unwiredStep call tmpEntry = some (s', events)) :
    UnwireInv s' (pendingAfter pending events) ∧ StepOk UnwirePc.held s s' events := by
  have hinv := h.pc
  have howes := h.owes
  rw [hpc] at hinv howes
  obtain ⟨-, hlt, hplace⟩ := hinv
  unfold UnwireState.unwiredStep at hstep
  split at hstep
  · cases hstep
  cases hstep
  have hok : EntriesOk (s.relock tmpEntry.vmeStart).entries := by simpa using h.ok
  have hclear := (s.relock tmpEntry.vmeStart).transitionStep_clearPast id hok
    (s.before_relock hplace hversion) (fun _ => rfl) fun _ => ⟨rfl, rfl⟩
  refine ⟨⟨hclear.ok, ⟨s.locked_relock _, fun e he => ?_⟩, fun hpending => ?_⟩, ?_, by simp, ?_, by simp⟩
  · have hsorted := hok.sorted.sublist (sublist_append_right _ _)
    have hle := hsorted.le_of_dropWhile he
    have hne := hclear.ok.sorted.nonempty e (mem_append_right _ he)
    bv_omega
  · refine (s.relock tmpEntry.vmeStart).pending_clearPast _ id (fun hp => ?_) hpending
    exact (s.needWakeup_relock _).trans (howes hp)
  · have hheld : s.pc.held = some tmpEntry := by rw [hpc]; rfl
    rw [s.entries_relock] at hclear
    rw [hheld, flatMap_singleton]
    exact hclear
  · exact fun _ ht => absurd ht (by simp [clearPast])

/-- One step. -/
theorem step (hproper : s.Proper s.pc) (haction : action.entries = none)
    (hstep : s.step action = some (s', events)) :
    UnwireInv s' (pendingAfter pending events) ∧ StepOk UnwirePc.held s s' events := by
  cases action with
  | run oracle =>
    cases hpc : s.pc with
    | enter call =>
      simp only [UnwireState.step, hpc, Option.some.injEq] at hstep
      exact h.enterStep hpc hstep
    | loop call =>
      simp only [UnwireState.step, hpc] at hstep
      exact h.loopStep hpc hproper hstep
    | faultUnwire call tmpEntry =>
      simp only [UnwireState.step, hpc] at hstep
      rw [hpc] at hproper
      exact h.unwiredStep hpc hproper hstep
    | finish =>
      simp only [UnwireState.step, hpc, Option.some.injEq, Prod.mk.injEq] at hstep
      obtain ⟨rfl, rfl⟩ := hstep
      have hinv := h.pc
      have howes := h.owes
      rw [hpc] at hinv howes
      have hheld : s.pc.held = none := by rw [hpc]; rfl
      refine ⟨⟨h.ok, hinv, ?_⟩, ?_, ?_, fun _ _ => ⟨rfl, hinv⟩, ?_⟩
      · rw [pendingAfter_wakeupIf howes]
        simp [pendingAfter, MapEvent.pending]
      · rw [hheld]
        rw [flatMap_append, flatMap_wakeupIf]
        exact refl none h.ok
      · simp
      · simp [returnsLocked]
    | returned kr =>
      simp only [UnwireState.step, hpc, reduceCtorEq] at hstep
  | interrupt =>
    simp only [UnwireState.step, reduceCtorEq] at hstep
  | others before after =>
    cases haction

end UnwireInv

/-- A call of `vm_map_wire` leaves at an entry: it has too many wirings of the user, or it is
not wired and there is a hole after it or it denies the access. -/
def WireCall.Refuses (call : WireCall) (entry : VmMapEntry) (after : List VmMapEntry) : Prop :=
  entry.inTransition = false ∧
    (entry.wiredCount ≠ 0 ∧ call.userWire = true ∧ entry.userWiredCount ≥ maxWireCount ∨
      entry.wiredCount = 0 ∧ (entry.vmeEnd < call.end ∧ entry.HoleAfter after ∨
        entry.protection &&& call.accessType ≠ call.accessType))

instance (call : WireCall) (entry : VmMapEntry) (after : List VmMapEntry) :
    Decidable (call.Refuses entry after) :=
  inferInstanceAs (Decidable (_ ∧ _))

namespace WireState

variable {s s' : WireState} {call : WireCall}

/-- What holds of a call at each place. -/
def PcInv (s : WireState) : WirePc → Prop
  | .enter _ | .failed _ _ _ | .finish | .returned _ => s.locked = false
  | .loop call => s.locked = true ∧ ∀ e ∈ s.after, call.start < e.vmeEnd
  | .waitTransition call address => s.locked = false ∧ call.start ≤ address
  | .faultWire call tmpEntry =>
    s.locked = false ∧ call.start < tmpEntry.vmeEnd ∧
      (s.moved = false → ∀ e ∈ s.before, e.vmeEnd ≤ tmpEntry.vmeStart)
  | .undo _ pc => UnwireState.PcInv (s.goto pc) pc

/-- A call remembers that it has to wake somebody up. -/
def Owes (s : WireState) : WirePc → Prop
  | .loop _ | .faultWire _ _ | .failed _ _ _ | .finish => s.needWakeup = true
  | .undo _ pc => UnwireState.Owes (s.goto pc) pc
  | .enter _ | .waitTransition _ _ | .returned _ => False

/-- The region of a call is not empty, if it wires an entry that starts before its end, and
the call does not leave at an entry while it has to wake somebody up; and when it takes the lock
again after others, the version is not again the one it saved. -/
def Proper (s : WireState) : WirePc → Prop
  | .loop call => ∀ entry ∈ s.after.head?, entry.vmeStart < call.end →
    (entry.inTransition = false → call.start < call.end) ∧
      (s.needWakeup = true → ¬call.Refuses entry s.after.tail)
  | .faultWire _ _ => s.moved = true → s.Stale
  | .undo _ pc => UnwireState.Proper (s.goto pc) pc
  | _ => True

instance (s : WireState) (pc : WirePc) : Decidable (s.Proper pc) :=
  match pc with
  | .loop call =>
    inferInstanceAs (Decidable (∀ entry ∈ s.after.head?, entry.vmeStart < call.end →
      (_ → _) ∧ (_ → ¬_)))
  | .faultWire _ _ => inferInstanceAs (Decidable (s.moved = true → s.Stale))
  | .undo _ pc => inferInstanceAs (Decidable (UnwireState.Proper (s.goto pc) pc))
  | .enter _ | .waitTransition _ _ | .failed _ _ _ | .finish | .returned _ =>
    inferInstanceAs (Decidable True)

end WireState

/-- The invariant of a call of `vm_map_wire`. -/
structure WireInv (s : WireState) (pending : Bool) : Prop where
  ok : EntriesOk s.entries
  pc : s.PcInv s.pc
  owes : pending = true → s.Owes s.pc

/-- An entry that gets an object differs from what it was in that. -/
theorem ownObject_eq (oracle : MapOracle) (entry : VmMapEntry) :
    ∃ object offset needsCopy,
      ownObject oracle entry = { entry with object, offset, needsCopy } := by
  unfold ownObject
  split
  · split <;> exact ⟨_, _, _, rfl⟩
  · split <;> exact ⟨_, _, _, rfl⟩

/-- A hole after a clipped entry is one after the entry. -/
theorem hole_of_clip (before : List VmMapEntry) (entry : VmMapEntry) (after : List VmMapEntry)
    (start «end» : VmOffset)
    (hlt : (vmMapClipEnd (vmMapClipStart before entry start).2 after «end»).1.vmeEnd < «end»)
    (hhole : (vmMapClipEnd (vmMapClipStart before entry start).2 after «end»).1.HoleAfter
      (vmMapClipEnd (vmMapClipStart before entry start).2 after «end»).2) :
    entry.vmeEnd < «end» ∧ entry.HoleAfter after := by
  rcases hclip : vmMapClipStart before entry start with ⟨before', entry₁⟩
  have hend := clipStart_vmeEnd before entry start
  rw [hclip] at hlt hhole hend
  dsimp only at hlt hhole hend
  unfold vmMapClipEnd at hlt hhole
  split at hlt
  · exact absurd hlt (BitVec.lt_irrefl _)
  · rename_i hnot
    rw [if_neg hnot] at hhole
    simp only [VmMapEntry.HoleAfter, hend] at hhole
    exact ⟨hend ▸ hlt, hhole⟩

namespace WireInv

variable {s s' : WireState} {call : WireCall}

/-- The lock, the range check and the lookup of the start. -/
theorem enterStep (h : WireInv s pending) (hpc : s.pc = .enter call)
    (hstep : s.enterStep call = (s', events)) :
    WireInv s' (pendingAfter pending events) ∧ StepOk held s s' events := by
  have howes := h.owes
  rw [hpc] at howes
  have hpending : pending = false := by simpa [WireState.Owes] using howes
  have hheld : s.pc.held = none := by rw [hpc]; rfl
  have hrefl := refl none h.ok
  unfold WireState.enterStep at hstep
  dsimp only at hstep
  split at hstep
  · rename_i before after hlookup
    have happend := vmMapLookupEntry_append s.lock.entries (s.lock.rangeCheck call.start call.end).1
    rw [hlookup] at happend
    have hentries : before ++ after = s.entries := happend
    have hafter : ∀ e ∈ after, (s.lock.rangeCheck call.start call.end).1 < e.vmeEnd :=
      fun e he => h.ok.sorted.lt_of_lookup (by rw [← s.entries_lock, hlookup]; exact he)
    rw [← hentries] at hrefl
    cases hstep
    refine ⟨⟨hrefl.ok, ⟨rfl, hafter⟩, by simp [pendingAfter, hpending]⟩, ?_, by simp, ?_, by simp⟩
    · rw [hheld, ← hentries]
      exact hrefl
    · exact fun _ ht => absurd ht (by simp [lock])
  · cases hstep
    refine ⟨⟨h.ok, rfl, by simp [pendingAfter, MapEvent.pending, hpending]⟩, ?_, by simp, ?_, ?_⟩
    · rw [hheld]
      exact hrefl
    · exact fun _ ht => absurd ht (by simp [lock, unlock])
    · simp [returnsLocked]

/-- The checks of an unwired entry, and its mark. -/
theorem unwiredEntryStep (h : WireInv s pending) (hpc : s.pc = .loop call)
    (hentries : TransitionStep none none s.entries (before ++ entry :: after) [])
    (hlt : call.start < entry.vmeEnd)
    (hrefuses : s.needWakeup = true → ¬((entry.vmeEnd < call.end ∧ entry.HoleAfter after) ∨
      entry.protection &&& call.accessType ≠ call.accessType))
    (hstep : s.unwiredEntryStep call before entry after = (s', events)) :
    WireInv s' (pendingAfter pending events) ∧ StepOk held s s' events := by
  have hinv := h.pc
  have howes := h.owes
  rw [hpc] at hinv howes
  have hheld : s.pc.held = none := by rw [hpc]; rfl
  have hunlocked : ∀ {P : Prop}, s.locked = false → P := fun hl =>
    absurd (hl.symm.trans hinv.1) (by simp)
  unfold WireState.unwiredEntryStep at hstep
  dsimp only at hstep
  split at hstep
  · rename_i hrefuse
    have hpending : pending = false := by
      rw [← Bool.not_eq_true]
      exact fun hp => hrefuses (howes hp) hrefuse
    split at hstep
    · cases hstep
      refine ⟨⟨hentries.ok, rfl, by simp [pendingAfter, hpending]⟩, ?_, by simp, 
        hunlocked, by simp⟩
      rw [hheld]
      exact hentries
    · cases hstep
      refine ⟨⟨hentries.ok, rfl, by simp [pendingAfter, MapEvent.pending, hpending]⟩, ?_, by simp,
        hunlocked, by simp [returnsLocked]⟩
      rw [hheld]
      exact hentries
  · cases hstep
    have hmark := hentries.trans (.update (wireFirst call entry)
      (some (wireFirst call entry)) hentries.ok rfl (fun _ => Or.inl rfl) id
      fun _ => Or.inr rfl)
    refine ⟨⟨hmark.ok, ⟨rfl, hlt, fun _ => hmark.ok.sorted.le_vmeStart⟩, howes⟩, ?_, by simp,
      hunlocked, by simp⟩
    rw [hheld]
    exact hmark

/-- The loop, for one entry. -/
theorem loopStep {oracle : MapOracle} (h : WireInv s pending) (hpc : s.pc = .loop call)
    (hproper : s.Proper s.pc) (hstep : s.loopStep call oracle = some (s', events)) :
    WireInv s' (pendingAfter pending events) ∧ StepOk held s s' events := by
  have hinv := h.pc
  have howes := h.owes
  rw [hpc] at hinv howes
  obtain ⟨hlocked, hafter⟩ := hinv
  have hheld : s.pc.held = none := by rw [hpc]; rfl
  have hunlocked : ∀ {P : Prop}, s.locked = false → P := fun hl =>
    absurd (hl.symm.trans hlocked) (by simp)
  have hrefl := refl none h.ok
  -- Leaving the loop.
  have hfinish : WireInv { s.unlock with pc := .finish } pending ∧
      StepOk held s { s.unlock with pc := .finish } [] := by
    refine ⟨⟨h.ok, rfl, howes⟩, ?_, by simp, hunlocked, by simp⟩
    rw [hheld]
    exact hrefl
  unfold WireState.loopStep at hstep
  split at hstep
  · cases hstep
    exact hfinish
  rename_i entry after heq
  have hok := h.ok
  rw [entries, heq] at hok
  have hentryAfter := hafter entry (by simp [heq])
  split at hstep
  · rename_i hlt
    rw [hpc] at hproper
    obtain ⟨hrange, hrefuses⟩ := hproper entry (by simp [heq]) hlt
    rw [heq, tail_cons] at hrefuses
    split at hstep
    · rename_i htransition
      cases hstep
      have hwait := update { entry with needsWakeup := true } none hok rfl (fun _ => Or.inl htransition) (fun _ => rfl) Or.inl
      refine ⟨⟨hwait.ok, ⟨rfl, ?_⟩, ?_⟩, ?_, ?_, hunlocked, ?_⟩
      · split
        · exact BitVec.le_refl _
        · rename_i hge
          exact BitVec.not_lt.mp hge
      · rw [pendingAfter_wakeupIf howes]
        simp [pendingAfter, MapEvent.pending]
      · rw [hheld, flatMap_append, flatMap_wakeupIf, entries, heq]
        exact hwait
      · simp only [mem_append, mem_wakeupIf, reduceCtorEq, and_false, mem_singleton,
          MapEvent.waits.injEq, false_or, forall_eq]
        refine ⟨{ entry with needsWakeup := true }, by simp [entries], ⟨?_, ?_⟩, rfl⟩
        · split
          · rename_i hstart
            exact BitVec.le_of_lt hstart
          · exact BitVec.le_refl _
        · split
          · exact hentryAfter
          · exact hok.sorted.nonempty entry (by simp)
      · simp
    · rename_i htransition
      have hrange := hrange (by simpa using htransition)
      split at hstep
      · rename_i hwired
        split at hstep
        · cases hstep
        rename_i hmax
        split at hstep
        · rename_i huser
          cases hstep
          have hpending : pending = false := by
            rw [← Bool.not_eq_true]
            intro hp
            exact hrefuses (howes hp)
              ⟨by simpa using htransition, Or.inl ⟨hwired, huser.1, huser.2⟩⟩
          refine ⟨⟨h.ok, rfl, by simp [pendingAfter, hpending]⟩, ?_, by simp, 
            hunlocked, by simp⟩
          rw [hheld]
          exact hrefl
        · have hclip := clip hok hentryAfter hlt hrange
          have hentry₁ : call.start < (vmMapClipStart s.before entry call.start).2.vmeEnd := by
            rw [clipStart_vmeEnd]
            exact hentryAfter
          have hend := lt_of_mem_clipEnd call.end hentry₁ fun e he =>
            hafter e (by rw [heq]; exact mem_cons_of_mem entry he)
          obtain ⟨vmeStart, vmeEnd, offset, heq'⟩ :=
            clip_eq s.before entry after call.start call.end
          rcases hclipStart : vmMapClipStart s.before entry call.start with ⟨before', entry₁⟩
          rcases hclipEnd : vmMapClipEnd entry₁ after call.end with ⟨entry', after'⟩
          simp only [hclipStart, hclipEnd] at hstep hclip hend heq'
          cases hstep
          have hcount : (wire call entry').wiredCount ≠ 0 := by
            have hne : entry'.wiredCount = entry.wiredCount := by rw [heq']
            have hlt : entry.wiredCount < maxWireCount := BitVec.not_le.mp hmax
            simp only [wire, hne]
            simp only [maxWireCount] at hlt
            split
            · bv_omega
            · exact hwired
          have hwire := hclip.trans (.update (wire call entry') none hclip.ok rfl
            (fun _ => Or.inr hcount) id Or.inl)
          rw [← heq, ← entries, append_cons] at hwire
          refine ⟨⟨hwire.ok, ?_, ?_⟩, ?_, by simp, hunlocked, by simp⟩
          · change WireState.PcInv _ s.pc
            rw [hpc]
            exact ⟨hlocked, hend⟩
          · change pending = true → WireState.Owes _ s.pc
            rw [hpc]
            exact howes
          · change TransitionStep s.pc.held s.pc.held _ _ _
            rw [hheld]
            exact hwire
      · rename_i hwired
        have hwired : entry.wiredCount = 0 := by simpa using hwired
        obtain ⟨object, offset₀, needsCopy, hown⟩ := ownObject_eq oracle entry
        have hobject := update (ownObject oracle entry) none hok (by rw [hown]; rfl) (by rw [hown]; exact hok.needs entry (by simp))
          (by rw [hown]; exact id) (by rw [hown]; exact Or.inl)
        have hafter₀ : call.start < (ownObject oracle entry).vmeEnd := by
          rw [hown]
          exact hentryAfter
        have hlt₀ : (ownObject oracle entry).vmeStart < call.end := by
          rw [hown]
          exact hlt
        have hclip := hobject.trans (clip hobject.ok hafter₀ hlt₀ hrange)
        have hentry₁ : call.start <
            (vmMapClipStart s.before (ownObject oracle entry) call.start).2.vmeEnd := by
          rw [clipStart_vmeEnd]
          exact hafter₀
        have hend := lt_vmeEnd_clipEnd after hentry₁ hrange
        obtain ⟨vmeStart, vmeEnd, offset, heq'⟩ :=
          clip_eq s.before (ownObject oracle entry) after call.start call.end
        have hhole := hole_of_clip s.before (ownObject oracle entry) after call.start call.end
        rcases hclipStart : vmMapClipStart s.before (ownObject oracle entry)
          call.start with ⟨before', entry₁⟩
        rcases hclipEnd : vmMapClipEnd entry₁ after call.end with ⟨entry', after'⟩
        simp only [hclipStart, hclipEnd] at hstep hclip hend heq' hhole
        refine h.unwiredEntryStep hpc ?_ hend (fun hneed hrefuse => ?_) (Option.some.inj hstep)
        · rw [entries, heq]
          exact hclip
        · refine hrefuses hneed ⟨by simpa using htransition, Or.inr ⟨hwired, ?_⟩⟩
          rcases hrefuse with ⟨hlt', hhole'⟩ | hdenied
          · have hh := hhole hlt' hhole'
            rw [hown] at hh
            exact Or.inl hh
          · rw [heq', hown] at hdenied
            exact Or.inr hdenied
  · cases hstep
    exact hfinish

/-- What follows a wait. -/
theorem wokenStep (h : WireInv s pending) (hpc : s.pc = .waitTransition call address)
    (hstep : s.wokenStep call address = some (s', events)) :
    WireInv s' (pendingAfter pending events) ∧ StepOk held s s' events := by
  have hinv := h.pc
  have howes := h.owes
  rw [hpc] at hinv howes
  have hheld : s.pc.held = none := by rw [hpc]; rfl
  have hrefl := refl none h.ok
  unfold WireState.wokenStep at hstep
  dsimp only at hstep
  split at hstep
  · rename_i before after hlookup
    have happend := vmMapLookupEntry_append s.lock.entries address
    rw [hlookup] at happend
    have hentries : before ++ after = s.entries := happend
    have hafter : ∀ e ∈ after, call.start < e.vmeEnd := by
      intro e he
      have hmem : e ∈ (vmMapLookupEntry s.entries address).2.2 := by
        rw [← s.entries_lock, hlookup]
        exact he
      have hlt := h.ok.sorted.lt_of_lookup hmem
      have hle := hinv.2
      bv_omega
    rw [← hentries] at hrefl
    cases hstep
    refine ⟨⟨hrefl.ok, ⟨rfl, hafter⟩, fun hp => (howes hp).elim⟩, ?_, by simp, ?_, by simp⟩
    · rw [hheld, ← hentries]
      exact hrefl
    · exact fun _ ht => absurd ht (by simp [lock])
  · split at hstep
    · cases hstep
      refine ⟨⟨h.ok, rfl, fun hp => (howes hp).elim⟩, ?_, by simp, ?_, by simp⟩
      · rw [hheld]
        exact hrefl
      · exact fun _ ht => absurd ht (by simp [lock, unlock])
    · cases hstep

/-- What follows `vm_fault_wire`. -/
theorem wiredStep {rc : KernReturn} (h : WireInv s pending) (hpc : s.pc = .faultWire call tmpEntry)
    (hversion : s.moved = true → s.Stale)
    (hstep : s.wiredStep call tmpEntry rc = some (s', events)) :
    WireInv s' (pendingAfter pending events) ∧ StepOk held s s' events := by
  have hinv := h.pc
  have howes := h.owes
  rw [hpc] at hinv howes
  obtain ⟨-, hlt, hplace⟩ := hinv
  have hheld : s.pc.held = some tmpEntry := by rw [hpc]; rfl
  have hneed : pending = true → (s.relock tmpEntry.vmeStart).needWakeup = true := fun hp =>
    (s.needWakeup_relock _).trans (howes hp)
  have hok : EntriesOk (s.relock tmpEntry.vmeStart).entries := by simpa using h.ok
  unfold WireState.wiredStep at hstep
  split at hstep
  · cases hstep
  dsimp only at hstep
  split at hstep
  · cases hstep
    have hclear := (s.relock tmpEntry.vmeStart).transitionStep_clearPast id hok
      (s.before_relock hplace hversion) (fun _ => rfl) fun _ => ⟨rfl, rfl⟩
    refine ⟨⟨hclear.ok, ⟨s.locked_relock _, fun e he => ?_⟩, fun hpending => ?_⟩, ?_, by simp, ?_,
      by simp⟩
    · have hsorted := hok.sorted.sublist (sublist_append_right _ _)
      have hle := hsorted.le_of_dropWhile he
      have hne := hclear.ok.sorted.nonempty e (mem_append_right _ he)
      bv_omega
    · exact (s.relock tmpEntry.vmeStart).pending_clearPast _ id hneed hpending
    · rw [s.entries_relock] at hclear
      rw [hheld, flatMap_singleton]
      exact hclear
    · exact fun _ ht => absurd ht (by simp [clearPast])
  · cases hstep
    have hclear := (s.relock tmpEntry.vmeStart).transitionStep_clearPast (unwire call) hok
      (s.before_relock hplace hversion) (fun _ => rfl) fun _ => ⟨rfl, rfl⟩
    refine ⟨⟨hclear.ok, rfl, fun hpending => ?_⟩, ?_, by simp, ?_, by simp⟩
    · exact (s.relock tmpEntry.vmeStart).pending_clearPast _ (unwire call) hneed hpending
    · rw [s.entries_relock] at hclear
      rw [hheld, flatMap_singleton]
      exact hclear
    · exact fun _ ht => absurd ht (by simp [clearPast, unlock])

/-- The call of `vm_map_unwire` goes on, or its caller returns after it. -/
theorem undoStep {kr : KernReturn} {pc : UnwirePc} (h : WireInv s pending)
    (hpc : s.pc = .undo kr pc) (hproper : s.Proper s.pc) (haction : action.entries = none)
    (hstep : s.undoStep kr pc action = some (s', events)) :
    WireInv s' (pendingAfter pending events) ∧ StepOk held s s' events := by
  have hinv := h.pc
  have howes := h.owes
  rw [hpc] at hinv howes
  unfold WireState.undoStep at hstep
  split at hstep
  · rename_i kr'
    cases hstep
    have hheld : s.pc.held = none := by rw [hpc]; rfl
    have hpending : pending = false := by simpa [WireState.Owes, UnwireState.Owes] using howes
    refine ⟨⟨h.ok, hinv, by simp [pendingAfter, MapEvent.pending, hpending]⟩, ?_, by simp,
      fun _ _ => ⟨rfl, hinv⟩, by simp [returnsLocked]⟩
    rw [hheld]
    exact refl none h.ok
  · obtain ⟨⟨s₁, events₁⟩, hstep, heq⟩ := Option.map_eq_some_iff.mp hstep
    cases heq
    have hunwire : UnwireInv (s.goto pc) pending := ⟨h.ok, hinv, howes⟩
    rw [hpc] at hproper
    obtain ⟨hinv', hok⟩ := hunwire.step hproper haction hstep
    exact ⟨⟨hinv'.ok, hinv'.pc, hinv'.owes⟩, hok.lift hpc fun _ => rfl⟩

/-- One step. -/
theorem step (h : WireInv s pending) (hproper : s.Proper s.pc) (haction : action.entries = none)
    (hstep : s.step action = some (s', events)) :
    WireInv s' (pendingAfter pending events) ∧ StepOk held s s' events := by
  have hinv := h.pc
  have howes := h.owes
  have hrefl := refl none h.ok
  cases action with
  | run oracle =>
    cases hpc : s.pc with
    | enter call =>
      simp only [step, hpc, Option.some.injEq] at hstep
      exact h.enterStep hpc hstep
    | loop call =>
      simp only [step, hpc] at hstep
      exact h.loopStep hpc hproper hstep
    | waitTransition call address =>
      simp only [step, hpc] at hstep
      exact h.wokenStep hpc hstep
    | faultWire call tmpEntry =>
      simp only [step, hpc] at hstep
      rw [hpc] at hproper
      exact h.wiredStep hpc hproper hstep
    | failed call address rc =>
      simp only [step, hpc, Option.some.injEq, Prod.mk.injEq] at hstep
      obtain ⟨rfl, rfl⟩ := hstep
      rw [hpc] at hinv howes
      have hheld : s.pc.held = none := by rw [hpc]; rfl
      refine ⟨⟨h.ok, hinv, ?_⟩, ?_, by simp, fun _ _ => ⟨rfl, hinv⟩, by simp⟩
      · have hafter := pendingAfter_wakeupIf howes []
        rw [append_nil] at hafter
        rw [hafter]
        simp [pendingAfter]
      · rw [hheld, flatMap_wakeupIf]
        exact hrefl
    | undo kr pc =>
      simp only [step, hpc] at hstep
      exact h.undoStep hpc hproper haction hstep
    | finish =>
      simp only [step, hpc, Option.some.injEq, Prod.mk.injEq] at hstep
      obtain ⟨rfl, rfl⟩ := hstep
      rw [hpc] at hinv howes
      have hheld : s.pc.held = none := by rw [hpc]; rfl
      refine ⟨⟨h.ok, hinv, ?_⟩, ?_, ?_, fun _ _ => ⟨rfl, hinv⟩, ?_⟩
      · rw [pendingAfter_wakeupIf howes]
        simp [pendingAfter, MapEvent.pending]
      · rw [hheld, flatMap_append, flatMap_wakeupIf]
        exact hrefl
      · simp
      · simp [returnsLocked]
    | returned kr =>
      simp only [step, hpc, reduceCtorEq] at hstep
  | interrupt =>
    simp only [step] at hstep
    split at hstep
    · rename_i call address hpc
      split at hstep
      · cases hstep
        rw [hpc] at hinv howes
        have hheld : s.pc.held = none := by rw [hpc]; rfl
        refine ⟨⟨h.ok, hinv.1, fun hp => (howes hp).elim⟩, ?_, by simp, 
          fun _ _ => ⟨rfl, hinv.1⟩, by simp⟩
        rw [hheld]
        exact hrefl
      · cases hstep
    · cases hstep
  | others before after =>
    cases haction

end WireInv

end MachVirtuTerm
