import MachVirtuTerm.Lib.Run
import MachVirtuTerm.Vm.MapCopyin

/-!
# The protection of the source of a copy

Which entries a call of `vm_map_copyin_common` accepts, whatever others do to the map while
it is unlocked.
-/

open Option

namespace MachVirtuTerm

/-- A step of a system that works on a map, with what it does to the bytes of entries;
others leave the entries in order. -/
def CopyStep {S Action : Type*} (step : S → Action → Option (S × List CopyEvent))
    (others : Action → Option (List VmMapEntry)) (s : S) (l : Action × List CopyEvent)
    (s' : S) : Prop :=
  step s l.1 = some (s', l.2) ∧ ∀ entries ∈ others l.1, EntriesSorted entries

/-- The entries others leave. -/
def OverwriteAction.entries : OverwriteAction → Option (List VmMapEntry)
  | .others entries => some entries
  | .run _ => none

@[inherit_doc OverwriteAction.entries]
def CopyinAction.entries : CopyinAction → Option (List VmMapEntry)
  | .others entries => some entries
  | .run _ => none

/-- An entry found by a lookup, and what is left of it when its start is clipped there. -/
theorem clipStart_of_found {entries before after : List VmMapEntry} {entry : VmMapEntry}
    {address : VmOffset}
    (hlookup : vmMapLookupEntry entries address = (true, before, entry :: after)) :
    entry ∈ entries ∧ entry.Contains address ∧
      (vmMapClipStart before entry address).2 = { entry with
        vmeStart := address
        offset := entry.offset + (address - entry.vmeStart) } := by
  have happend := vmMapLookupEntry_append entries address
  have hlt : address < entry.vmeEnd := lt_vmeEnd_of_lookup (by rw [hlookup])
  have hle : entry.vmeStart ≤ address := of_decide_eq_true (lookup_found hlookup).symm
  rw [hlookup] at happend
  refine ⟨by simp [← happend], ⟨hle, hlt⟩, ?_⟩
  unfold vmMapClipStart
  split
  · rfl
  · obtain rfl : address = entry.vmeStart := by bv_omega
    simp

/-- The check of the protection after the map was unlocked lets every entry pass. -/
theorem recheckFails_eq_false (entry : VmMapEntry) (useMaxprot : Bool) :
    entry.recheckFails useMaxprot = false := by
  simp [VmMapEntry.recheckFails, comparison, vmProtRead]

namespace CopyinState

/-- The entry at the place can be read. -/
def AtReadable (call : CopyinCall) (s : CopyinState) : Prop :=
  ∃ entry after, s.after = entry :: after ∧ entry.Readable call.useMaxprot

/-- What a call knows of the entry it copies: while it has the lock, and as long as the map
is in the version it was in. -/
def Inv (call : CopyinCall) (s : CopyinState) : Prop :=
  match s.pc with
  | .loop _ _ => s.locked = true
  | .restartCopy _ => s.locked = true ∧ AtReadable call s
  | .copying _ version => s.timestamp = version → AtReadable call s
  | _ => True

/-- Where the map has changed during the copy of an object, an entry that still maps the same
part of that object can be read; and others do not lock the map so often that its version is
again the one that was saved. -/
def StepOk (call : CopyinCall) (s : CopyinState) (l : CopyinAction × List CopyEvent) : Prop :=
  match l.1 with
  | .others _ => s.version ≠ some (s.timestamp + 1)
  | .run oracle =>
    match s.pc with
    | .copying c version =>
      oracle.copy.fails = true ∨ s.timestamp = version ∨
        ∀ entry ∈ s.entries, entry.Contains c.srcStart → entry.object = c.srcObject →
          entry.offset + (c.srcStart - entry.vmeStart) = c.srcOffset →
          entry.Readable call.useMaxprot
    | _ => True

instance (call : CopyinCall) (s : CopyinState) (l : CopyinAction × List CopyEvent) :
    Decidable (StepOk call s l) := by
  unfold StepOk
  repeat' split
  all_goals infer_instance

/-- A copy is accepted of entries only that can be read. -/
def AcceptOk (call : CopyinCall) : CopyEvent → Prop
  | .accepted entry _ => entry.Readable call.useMaxprot
  | _ => True

instance (call : CopyinCall) (event : CopyEvent) : Decidable (AcceptOk call event) := by
  unfold AcceptOk
  split <;> infer_instance

variable {call : CopyinCall} {s s' : CopyinState} {c : Copying} {entry : VmMapEntry}
  {after : List VmMapEntry} {events : List CopyEvent}

/-- After a copy that succeeded no entry is being copied. -/
theorem successStep_inv (h : s.successStep call c entry after = some s') : Inv call s' := by
  unfold successStep at h
  simp only at h
  split at h
  · split at h <;> · cases h; trivial
  · split at h
    · split at h <;> · cases h; trivial
    · split at h <;> cases h
      trivial

/-- The copy of an entry that can be read succeeds. -/
theorem successStep_spec (hentry : entry.Readable call.useMaxprot) (newEntry : VmMapEntry)
    (h : (s.successStep call c entry after).map (·, [CopyEvent.accepted entry newEntry]) =
      some (s', events)) :
    Inv call s' ∧ ∀ event ∈ events, AcceptOk call event := by
  simp only [map_eq_some_iff, Prod.mk.injEq] at h
  obtain ⟨t, hsuccess, rfl, rfl⟩ := h
  refine ⟨successStep_inv hsuccess, fun event hevent => ?_⟩
  rw [List.mem_singleton.mp hevent]
  exact hentry

/-- What `RestartCopy` keeps. -/
theorem restartCopyStep_spec {oracle : CopyinOracle} (hread : AtReadable call s)
    (h : s.restartCopyStep call oracle c = some (s', events)) :
    Inv call s' ∧ ∀ event ∈ events, AcceptOk call event := by
  obtain ⟨entry, after, hafter, hentry⟩ := hread
  unfold restartCopyStep at h
  rw [hafter] at h
  simp only at h
  split at h
  · rename_i srcNeedsCopy _ _
    have hmarked : { entry with
        needsCopy := entry.needsCopy || srcNeedsCopy }.Readable call.useMaxprot := hentry
    exact successStep_spec hmarked _ h
  · simp only [map_eq_some_iff, Prod.mk.injEq] at h
    obtain ⟨_, -, rfl, rfl⟩ := h
    refine ⟨fun _ => ⟨entry, after, hafter, hentry⟩, ?_⟩
    rintro event (_ | _)

/-- What the loop keeps. -/
theorem loopStep_spec {oracle : CopyinOracle} {srcStart : VmOffset}
    {copyEntries : List VmMapEntry} (hlocked : s.locked = true)
    (h : s.loopStep call oracle srcStart copyEntries = some (s', events)) :
    Inv call s' ∧ ∀ event ∈ events, AcceptOk call event := by
  unfold loopStep at h
  split at h
  · cases h
  split at h
  · cases h
    refine ⟨trivial, ?_⟩
    rintro event (_ | _)
  · rename_i entry after _ hentry
    have hread : entry.Readable call.useMaxprot := not_not.mp hentry
    have hclip : (vmMapClipEnd entry after call.srcEnd).1.Readable call.useMaxprot := by
      unfold vmMapClipEnd
      split <;> exact hread
    simp only at h
    split at h
    · exact successStep_spec hclip _ h
    · cases h
      refine ⟨⟨hlocked, _, _, rfl, hclip⟩, ?_⟩
      rintro event (_ | _)

/-- What follows a verification that succeeded. -/
theorem verifiedStep_spec {restart : Bool} (hlocked : s.locked = true)
    (hread : AtReadable call s) (h : s.verifiedStep call c restart = some (s', events)) :
    Inv call s' ∧ ∀ event ∈ events, AcceptOk call event := by
  obtain ⟨entry, after, hafter, hentry⟩ := hread
  unfold verifiedStep at h
  rw [hafter] at h
  simp only at h
  split at h
  · cases h
    refine ⟨⟨hlocked, entry, after, rfl, hentry⟩, ?_⟩
    rintro event (_ | _)
  · exact successStep_spec hentry _ h

/-- What the verification after the copy of an object keeps. -/
theorem copiedStep_spec {version : BitVec 32} {restart : Bool}
    (hread : s.timestamp = version → AtReadable call s)
    (hok : s.timestamp = version ∨ ∀ entry ∈ s.entries, entry.Contains c.srcStart →
      entry.object = c.srcObject → entry.offset + (c.srcStart - entry.vmeStart) = c.srcOffset →
      entry.Readable call.useMaxprot)
    (h : s.copiedStep call c version restart = some (s', events)) :
    Inv call s' ∧ ∀ event ∈ events, AcceptOk call event := by
  unfold copiedStep at h
  simp only at h
  split at h
  · rename_i hversion
    have hsame : s.timestamp = version := ((BitVec.add_left_inj 1).mp hversion).symm
    exact verifiedStep_spec (s := MapState.lock s) rfl (hread hsame) h
  · rename_i hversion
    have hok := hok.resolve_left fun hsame => hversion (by rw [← hsame]; rfl)
    split at h
    · rename_i before entry after hlookup
      obtain ⟨hmem, hcontains, hclip⟩ := clipStart_of_found hlookup
      generalize (vmMapClipStart before entry c.srcStart).2 = entry' at h hclip
      simp only [recheckFails_eq_false, Bool.false_eq_true, if_false] at h
      split at h
      · cases h
        exact ⟨rfl, by rintro event (_ | _)⟩
      · rename_i hsame
        simp only [Copying.shrink_srcObject, Copying.shrink_srcOffset, not_or, not_not] at hsame
        subst hclip
        refine verifiedStep_spec ?_ ?_ h
        · rfl
        · exact ⟨_, _, rfl, hok entry hmem hcontains hsame.1 hsame.2⟩
    · cases h
      refine ⟨trivial, ?_⟩
      rintro event (_ | _)

/-- A lookup that leads to the loop keeps the lock. -/
theorem lookupClip_inv {srcStart : VmOffset} {copyEntries : List VmMapEntry}
    (hlocked : s.locked = true) : Inv call (lookupClip s srcStart copyEntries) := by
  unfold lookupClip
  split
  · exact hlocked
  · trivial

/-- What others do keeps what a call knows, unless they bring back the version it saved. -/
theorem others_inv {entries : List VmMapEntry} (hinv : Inv call s)
    (hversion : s.version ≠ some (s.timestamp + 1))
    (h : s.others [] entries = some s') : Inv call s' := by
  unfold MapState.others at h
  split at h
  · cases h
  rename_i hlocked
  cases h
  unfold Inv at hinv ⊢
  cases hpc : s.pc with
  | loop => exact absurd (by rw [hpc] at hinv; exact hinv) hlocked
  | restartCopy => exact absurd (by rw [hpc] at hinv; exact hinv.1) hlocked
  | copying c version =>
    exact fun heq => absurd (by rw [CopyinState.version, hpc, ← heq]) hversion
  | _ => trivial

/-- What a call knows of the entry it copies stays true, and it accepts readable ones only. -/
theorem step_spec {l : CopyinAction × List CopyEvent} (hinv : Inv call s) (hok : StepOk call s l)
    (h : CopyStep (step call) CopyinAction.entries s l s') :
    Inv call s' ∧ ∀ event ∈ l.2, AcceptOk call event := by
  obtain ⟨action, events⟩ := l
  obtain ⟨hstep, -⟩ := h
  cases action with
  | others entries =>
    simp only [step, map_eq_some_iff, Prod.mk.injEq] at hstep
    obtain ⟨t, hothers, rfl, rfl⟩ := hstep
    exact ⟨others_inv hinv hok hothers, by rintro event (_ | _)⟩
  | run oracle =>
    simp only [step] at hstep
    unfold Inv at hinv
    unfold StepOk at hok
    cases hpc : s.pc with
    | enter =>
      rw [hpc] at hstep
      cases hstep
      refine ⟨?_, by rintro event (_ | _)⟩
      unfold enterStep
      split
      · trivial
      split
      · trivial
      · exact lookupClip_inv rfl
    | newEntry srcStart copyEntries version =>
      rw [hpc] at hstep
      cases hstep
      refine ⟨?_, by rintro event (_ | _)⟩
      unfold newEntryStep
      simp only
      split
      · exact lookupClip_inv rfl
      · rfl
    | loop srcStart copyEntries =>
      rw [hpc] at hstep hinv
      exact loopStep_spec hinv hstep
    | restartCopy c =>
      rw [hpc] at hstep hinv
      exact restartCopyStep_spec hinv.2 hstep
    | copying c version =>
      rw [hpc] at hstep hinv hok
      simp only at hstep hok
      unfold copyingStep at hstep
      cases hcopy : oracle.copy with
      | copied object offset needsCopy =>
        rw [hcopy] at hstep hok
        simp only at hstep
        exact copiedStep_spec (c := Copied c object offset needsCopy) hinv
          (hok.resolve_left (by simp [ObjectCopy.fails])) hstep
      | restart =>
        rw [hcopy] at hstep hok
        exact copiedStep_spec hinv (hok.resolve_left (by simp [ObjectCopy.fails])) hstep
      | failed kr =>
        rw [hcopy] at hstep
        cases hstep
        exact ⟨trivial, by rintro event (_ | _)⟩
    | destroy copyEntries pc =>
      rw [hpc] at hstep
      simp only [map_eq_some_iff, Prod.mk.injEq] at hstep
      obtain ⟨t, hdestroy, rfl, rfl⟩ := hstep
      refine ⟨?_, by rintro event (_ | _)⟩
      unfold destroyStep at hdestroy
      split at hdestroy
      · cases hdestroy
        trivial
      · simp only [map_eq_some_iff] at hdestroy
        obtain ⟨u, -, rfl⟩ := hdestroy
        trivial
    | returned kr copyEntries =>
      rw [hpc] at hstep
      cases hstep

/-- In a run of a call in which an entry whose object was copied while the map changed can
still be read, no copy of an unreadable entry is accepted. -/
theorem accepted_readable {init : CopyinState}
    {trace : List (CopyinState × CopyinAction × List CopyEvent)}
    (h : Run (CopyStep (step call) CopyinAction.entries) init trace s) (hpc : init.pc = .enter)
    (hok : ∀ x ∈ trace, StepOk call x.1 x.2) :
    ∀ x ∈ trace, ∀ event ∈ x.2.2, AcceptOk call event := by
  intro x hx
  have hinit : Inv call init := by
    unfold Inv
    rw [hpc]
    trivial
  obtain ⟨hinv, hokx, s', hstep⟩ := h.invariant_of_mem (Inv call) hok hinit
    (fun s l s' hinv hok hstep => (step_spec hinv hok hstep).1) hx
  exact (step_spec hinv hokx hstep).2

end CopyinState

end MachVirtuTerm
