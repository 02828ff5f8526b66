import MachVirtuTerm.Vm.MapState

/-!
# Entries in transition

What a step of a routine leaves of the entries in transition and of those that somebody
waits for: an entry goes into transition in the range the routine holds, a mark
`needs_wakeup` stays until the transition bit is cleared, and entries in transition are
clipped at most by anybody else.
-/

open List

namespace MachVirtuTerm

open Or

variable {entries entries' entries'' before mid mid' after cleared : List VmMapEntry}
  {entry tmpEntry : VmMapEntry} {held held' : Option VmMapEntry} {address : VmOffset}

/-- Somebody is to be woken when the entry at the address is no longer in transition. -/
def NeedsAt (entries : List VmMapEntry) (address : VmOffset) : Prop :=
  ∃ e ∈ entries, e.Contains address ∧ e.needsWakeup = true

/-- An entry that somebody waits for is in transition or wired. -/
def VmMapEntry.NeedsOk (entry : VmMapEntry) : Prop :=
  entry.needsWakeup = true → entry.inTransition = true ∨ entry.wiredCount ≠ 0

/-- The entries of a map at any time. -/
structure EntriesOk (entries : List VmMapEntry) : Prop where
  sorted : EntriesSorted entries
  needs : ∀ e ∈ entries, e.NeedsOk

/-- What a step of a routine does to the entries: `held` and `held'` are those it has in
transition before and after, and `cleared` those it clears the transition bit of. -/
structure TransitionStep (held held' : Option VmMapEntry)
    (entries entries' cleared : List VmMapEntry) : Prop where
  ok : EntriesOk entries'
  needs : ∀ a, NeedsAt entries a → NeedsAt entries' a ∨ NeedsAt cleared a
  transition : ∀ e' ∈ entries', e'.inTransition = true →
    (∃ tmpEntry, held' = some tmpEntry ∧ e'.Within tmpEntry) ∨
      ∃ e ∈ entries, e.inTransition = true ∧ e'.Within e ∧
        ∀ tmpEntry, held = some tmpEntry → ¬e.Within tmpEntry

/-- An entry is in its own range. -/
theorem VmMapEntry.Within.refl (entry : VmMapEntry) : entry.Within entry :=
  ⟨BitVec.le_refl _, BitVec.le_refl _⟩

/-- Ranges in ranges. -/
theorem VmMapEntry.Within.trans {e₁ e₂ e₃ : VmMapEntry} (h : e₁.Within e₂) (h' : e₂.Within e₃) :
    e₁.Within e₃ :=
  ⟨BitVec.le_trans h'.1 h.1, BitVec.le_trans h.2 h'.2⟩

/-- Who waits for an entry waits for one of some or one of the others. -/
theorem needsAt_append :
    NeedsAt (entries ++ entries') address ↔ NeedsAt entries address ∨ NeedsAt entries' address := by
  simp only [NeedsAt, mem_append, or_and_right, exists_or]

namespace TransitionStep

/-- Nothing happens to the entries. -/
theorem refl (held : Option VmMapEntry) (h : EntriesOk entries) :
    TransitionStep held held entries entries [] := by
  refine ⟨h, fun a ha => inl ha, fun e he htransition => ?_⟩
  by_cases hwithin : ∃ tmpEntry, held = some tmpEntry ∧ e.Within tmpEntry
  · exact inl hwithin
  · refine inr ⟨e, he, htransition, .refl e, fun tmpEntry hheld hin => ?_⟩
    exact hwithin ⟨tmpEntry, hheld, hin⟩

/-- A step of a routine that holds nothing, and another one. -/
theorem trans (h : TransitionStep none none entries entries' [])
    (h' : TransitionStep none held' entries' entries'' cleared) :
    TransitionStep none held' entries entries'' cleared := by
  refine ⟨h'.ok, fun a ha => ?_, fun e'' he'' htransition'' => ?_⟩
  · rcases h.needs a ha with ha | ⟨e, he, -⟩
    · exact h'.needs a ha
    · cases he
  · rcases h'.transition e'' he'' htransition'' with hheld | ⟨e', he', htransition', hwithin', -⟩
    · exact inl hheld
    · rcases h.transition e' he' htransition' with ⟨_, hnone, -⟩ | ⟨e, he, htransition, hwithin, -⟩
      · cases hnone
      · exact inr ⟨e, he, htransition, hwithin'.trans hwithin, by simp⟩

/-- Some neighbouring entries are replaced. -/
theorem edit (before mid mid' after cleared : List VmMapEntry) (held' : Option VmMapEntry)
    (h : EntriesOk (before ++ mid ++ after))
    (hsorted : EntriesSorted (before ++ mid' ++ after)) (hok : ∀ e ∈ mid', e.NeedsOk)
    (hneeds : ∀ a, NeedsAt mid a → NeedsAt mid' a ∨ NeedsAt cleared a)
    (htransition : ∀ e' ∈ mid', e'.inTransition = true →
      (∃ tmpEntry, held' = some tmpEntry ∧ e'.Within tmpEntry) ∨
        ∃ e ∈ mid, e.inTransition = true ∧ e'.Within e) :
    TransitionStep none held' (before ++ mid ++ after) (before ++ mid' ++ after) cleared := by
  refine ⟨⟨hsorted, fun e he => ?_⟩, fun a ha => ?_, fun e he htrans => ?_⟩
  · simp only [mem_append] at he
    rcases he with (he | he) | he
    · exact h.needs e (by simp [he])
    · exact hok e he
    · exact h.needs e (by simp [he])
  · simp only [needsAt_append] at ha ⊢
    rcases ha with (ha | ha) | ha
    · exact inl (inl (inl ha))
    · exact (hneeds a ha).imp_left fun ha => inl (inr ha)
    · exact inl (inr ha)
  · simp only [mem_append] at he
    rcases he with (he | he) | he
    · exact inr ⟨e, by simp [he], htrans, .refl e, by simp⟩
    · refine (htransition e he htrans).imp_right fun ⟨e₁, he₁, htrans₁, hwithin⟩ => ?_
      exact ⟨e₁, by simp [he₁], htrans₁, hwithin, by simp⟩
    · exact inr ⟨e, by simp [he], htrans, .refl e, by simp⟩

/-- One entry is replaced by one with the same range, for which whoever waited still waits. -/
theorem update (entry' : VmMapEntry) (held' : Option VmMapEntry) (h : EntriesOk (before ++ entry :: after))
    (hrange : entry'.range = entry.range) (hok : entry'.NeedsOk)
    (hneeds : entry.needsWakeup = true → entry'.needsWakeup = true)
    (htransition : entry'.inTransition = true → entry.inTransition = true ∨ held' = some entry') :
    TransitionStep none held' (before ++ entry :: after) (before ++ entry' :: after) [] := by
  obtain ⟨hstart, hend⟩ := Prod.mk.inj hrange
  have hmid := edit before [entry] [entry'] after [] held' (by simpa using h) ?_
    (by simpa using hok) ?_ ?_
  · simpa using hmid
  · simpa using h.sorted.congr (by simp [hrange])
  · rintro a ⟨e, he, hcontains, hneed⟩
    obtain rfl := mem_singleton.mp he
    refine inl ⟨entry', by simp, ?_, hneeds hneed⟩
    rw [VmMapEntry.Contains, hstart, hend]
    exact hcontains
  · intro e he htrans
    obtain rfl := mem_singleton.mp he
    rcases htransition htrans with htrans | hheld
    · refine inr ⟨entry, by simp, htrans, ?_⟩
      rw [VmMapEntry.Within, hstart, hend]
      exact VmMapEntry.Within.refl entry
    · exact inl ⟨_, hheld, .refl _⟩

section

variable (h : EntriesOk (before ++ entry :: after))

include h

/-- An entry is clipped. -/
theorem split (hstart : entry.vmeStart < address) (hend : address < entry.vmeEnd) :
    TransitionStep none none (before ++ entry :: after)
      (before ++ entry.front address :: entry.back address :: after) [] := by
  have hentry := h.needs entry (by simp)
  have hmid := edit before [entry] [entry.front address, entry.back address] after [] none
    (by simpa using h)
    (by simpa using h.sorted.split hstart hend) ?_ ?_ ?_
  · simpa using hmid
  · intro e he
    obtain rfl | rfl : e = entry.front address ∨ e = entry.back address := by simpa using he
    · exact hentry
    · exact hentry
  · rintro a ⟨e, he, hcontains, hneed⟩
    obtain rfl := mem_singleton.mp he
    by_cases hlt : a < address
    · exact inl ⟨e.front address, by simp, ⟨hcontains.1, hlt⟩, hneed⟩
    · exact inl ⟨e.back address, by simp, ⟨BitVec.not_lt.mp hlt, hcontains.2⟩, hneed⟩
  · intro e he htrans
    obtain rfl | rfl : e = entry.front address ∨ e = entry.back address := by simpa using he
    · refine inr ⟨entry, by simp, htrans, BitVec.le_refl _, ?_⟩
      exact BitVec.le_of_lt hend
    · refine inr ⟨entry, by simp, htrans, ?_, BitVec.le_refl _⟩
      exact BitVec.le_of_lt hstart

/-- `vm_map_clip_start`. -/
theorem clipStart (hend : address < entry.vmeEnd) :
    TransitionStep none none (before ++ entry :: after)
      ((vmMapClipStart before entry address).1 ++
        (vmMapClipStart before entry address).2 :: after) [] := by
  unfold vmMapClipStart
  split
  · rename_i hgt
    simpa using split h hgt hend
  · exact refl none h

/-- `vm_map_clip_end`. -/
theorem clipEnd (hstart : entry.vmeStart < address) :
    TransitionStep none none (before ++ entry :: after)
      (before ++ (vmMapClipEnd entry after address).1 :: (vmMapClipEnd entry after address).2)
      [] := by
  unfold vmMapClipEnd
  split
  · rename_i hlt
    exact split h hstart hlt
  · exact refl none h

end

/-- Entries that end before another starts are not in its range. -/
theorem not_within (hs : EntriesSorted entries) (h : ∀ e ∈ before, e.vmeEnd ≤ tmpEntry.vmeStart)
    (hsub : before ⊆ entries) :
    ∀ e ∈ before, e.inTransition = true → ¬e.Within tmpEntry := by
  intro e he _ hwithin
  have h1 := h e he
  have h2 := hs.nonempty e (hsub he)
  have h3 := hwithin.1
  bv_omega

/-- The transition bits of the entries in the range of one are cleared, from a place on before
which there are none. -/
theorem clear (change : VmMapEntry → VmMapEntry) (h : EntriesOk (before ++ after))
    (hplace : ∀ e ∈ before, e.inTransition = true → ¬e.Within tmpEntry)
    (hrange : ∀ e, (change e).range = e.range)
    (hbits : ∀ e, (change e).inTransition = e.inTransition ∧
      (change e).needsWakeup = e.needsWakeup) :
    TransitionStep (some tmpEntry) none (before ++ after)
      ((before ++ (after.takeWhile (·.vmeStart < tmpEntry.vmeEnd)).map
        fun e => change e.unmark) ++ after.dropWhile (·.vmeStart < tmpEntry.vmeEnd))
      (after.takeWhile (·.vmeStart < tmpEntry.vmeEnd)) := by
  have hafter : after.takeWhile (·.vmeStart < tmpEntry.vmeEnd) ++
      after.dropWhile (·.vmeStart < tmpEntry.vmeEnd) = after := takeWhile_append_dropWhile
  have hlater : ∀ e ∈ after.dropWhile (·.vmeStart < tmpEntry.vmeEnd),
      tmpEntry.vmeEnd ≤ e.vmeStart := fun e he =>
    (h.sorted.sublist (sublist_append_right before after)).le_of_dropWhile he
  generalize hrest : after.dropWhile (·.vmeStart < tmpEntry.vmeEnd) = rest at *
  generalize after.takeWhile (·.vmeStart < tmpEntry.vmeEnd) = cleared at *
  rw [← hafter] at h ⊢
  refine ⟨⟨?_, fun e he => ?_⟩, fun a ha => ?_, fun e he htrans => ?_⟩
  · refine h.sorted.congr ?_
    simp only [VmMapEntry.range, VmMapEntry.unmark, map_append, map_map,
      append_assoc, append_cancel_left_eq, append_cancel_right_eq, map_inj_left,
      Function.comp_apply]
    intro e _
    have := hrange e.unmark
    simpa [VmMapEntry.range, VmMapEntry.unmark] using this
  · simp only [mem_append, mem_map] at he
    rcases he with (he | ⟨e₁, he₁, rfl⟩) | he
    · exact h.needs e (by simp [he])
    · intro hneed
      rw [(hbits _).2] at hneed
      cases hneed
    · exact h.needs e (by simp [he])
  · simp only [needsAt_append] at ha ⊢
    rcases ha with ha | ha | ha
    · exact inl (inl (inl ha))
    · exact inr ha
    · exact inl (inr ha)
  · simp only [mem_append, mem_map] at he
    refine inr ?_
    rcases he with (he | ⟨e₁, he₁, rfl⟩) | he
    · refine ⟨e, by simp [he], htrans, .refl e, fun tmp htmp hwithin => ?_⟩
      obtain rfl := Option.some.inj htmp
      exact hplace e he htrans hwithin
    · rw [(hbits _).1] at htrans
      cases htrans
    · refine ⟨e, by simp [he], htrans, .refl e, fun tmp htmp hwithin => ?_⟩
      obtain rfl := Option.some.inj htmp
      have h1 := hlater e he
      have h2 := h.sorted.nonempty e (by simp [he])
      have h3 := hwithin.2
      bv_omega

end TransitionStep

/-- The entries whose transition bits an event clears. -/
def MapEvent.clearedEntries : MapEvent → List VmMapEntry
  | .cleared entries => entries
  | _ => []

/-- A wakeup clears no transition bit. -/
@[simp] theorem flatMap_wakeupIf (needed : Bool) :
    (wakeupIf needed).flatMap MapEvent.clearedEntries = [] := by
  cases needed <;> rfl

/-- The only event of a wakeup. -/
@[simp] theorem mem_wakeupIf {needed : Bool} {event : MapEvent} :
    event ∈ wakeupIf needed ↔ needed = true ∧ event = .wakeup := by
  cases needed <;> simp [wakeupIf]

/-- Whether somebody is to be woken after an event, if `pending` says so before it. -/
def MapEvent.pending (pending : Bool) : MapEvent → Bool
  | .cleared entries => pending || entries.any (·.needsWakeup)
  | .wakeup => false
  | _ => pending

/-- Whether somebody is to be woken after some events. -/
def pendingAfter (pending : Bool) (events : List MapEvent) : Bool :=
  events.foldl MapEvent.pending pending

/-- After a wakeup that is made when somebody is to be woken, nobody is. -/
theorem pendingAfter_wakeupIf {pending needed : Bool} (h : pending = true → needed = true)
    (events : List MapEvent) :
    pendingAfter pending (wakeupIf needed ++ events) = pendingAfter false events := by
  cases needed with
  | true => rfl
  | false =>
    have hpending : pending = false := by simpa using h
    rw [hpending]
    rfl

/-- Whether a routine returns with the map locked. -/
def MapRoutine.returnsLocked : MapRoutine → Bool
  | .vmMapDelete => true
  | _ => false

/-- What holds of each step of a routine. -/
structure StepOk {Pc : Type*} (held : Pc → Option VmMapEntry) (s s' : MapState Pc)
    (events : List MapEvent) : Prop where
  entries : TransitionStep (held s.pc) (held s'.pc) s.entries s'.entries
    (events.flatMap MapEvent.clearedEntries)
  waits : ∀ a, .waits a ∈ events → NeedsAt s'.entries a
  unlocked : s.locked = false → s'.timestamp = s.timestamp →
    s'.entries = s.entries ∧ s'.locked = false
  returned : .finished ∉ events ∧ ∀ routine kr locked, .returned routine kr locked ∈ events →
    locked = routine.returnsLocked

/-- A step of a routine that another one has called is a step of that one. -/
theorem StepOk.lift {Pc Pc' : Type*} {held : Pc → Option VmMapEntry}
    {held' : Pc' → Option VmMapEntry} {wrap : Pc → Pc'} {s : MapState Pc'} {s₁ : MapState Pc}
    {pc : Pc} {events : List MapEvent} (h : StepOk held (s.goto pc) s₁ events)
    (hpc : s.pc = wrap pc) (hheld : ∀ pc, held' (wrap pc) = held pc) :
    StepOk held' s (s₁.goto (wrap s₁.pc)) events := by
  refine ⟨?_, h.waits, h.unlocked, h.returned⟩
  have hentries := h.entries
  rw [hpc, hheld]
  change TransitionStep _ (held' (wrap s₁.pc)) _ _ _
  rw [hheld]
  exact hentries

namespace MapState

variable {Pc Pc' : Type*} (s : MapState Pc)

@[simp] theorem entries_goto (pc : Pc') : (s.goto pc).entries = s.entries := rfl

@[simp] theorem entries_lock : s.lock.entries = s.entries := rfl

@[simp] theorem entries_unlock : s.unlock.entries = s.entries := rfl

/-- The next entry is still one of the map. -/
@[simp] theorem entries_advance : s.advance.entries = s.entries := by
  rw [advance, entries, append_assoc, take_append_drop]
  rfl

/-- A lookup leaves the entries. -/
@[simp] theorem entries_lookup (address : VmOffset) : (s.lookup address).entries = s.entries :=
  vmMapLookupEntry_append s.entries address

/-- The place looked up is not before the address. -/
theorem before_relock {address : VmOffset}
    (h : s.moved = false → ∀ e ∈ s.before, e.vmeEnd ≤ address)
    (hversion : s.moved = true → s.Stale) :
    ∀ e ∈ (s.relock address).before, e.vmeEnd ≤ address := by
  unfold relock
  split
  · exact fun e he => vmeEnd_le_of_lookup he
  · rename_i hsame
    exact h (Bool.eq_false_iff.mpr (mt hversion hsame))

variable (address : VmOffset)

@[simp] theorem timestamp_relock : (s.relock address).timestamp = s.timestamp + 1 := by
  unfold relock
  split <;> rfl

@[simp] theorem locked_relock : (s.relock address).locked = true := by
  unfold relock
  split <;> rfl

@[simp] theorem needWakeup_relock : (s.relock address).needWakeup = s.needWakeup := by
  unfold relock
  split <;> rfl

/-- Taking the lock again leaves the entries. -/
@[simp] theorem entries_relock : (s.relock address).entries = s.entries := by
  unfold relock
  split
  · simp [lockLookup]
  · rfl

/-- The entries in the range of one are no longer in transition when the loop that clears
their transition bits has gone past them. -/
theorem transitionStep_clearPast {tmpEntry : VmMapEntry} (change : VmMapEntry → VmMapEntry)
    (h : EntriesOk s.entries) (hplace : ∀ e ∈ s.before, e.vmeEnd ≤ tmpEntry.vmeStart)
    (hrange : ∀ e, (change e).range = e.range)
    (hbits : ∀ e, (change e).inTransition = e.inTransition ∧
      (change e).needsWakeup = e.needsWakeup) :
    TransitionStep (some tmpEntry) none s.entries (s.clearPast tmpEntry.vmeEnd change).entries
      (s.constituents tmpEntry.vmeEnd) :=
  TransitionStep.clear change h
    (TransitionStep.not_within h.sorted hplace (subset_append_left _ _)) hrange hbits

/-- The loop that clears transition bits remembers whom to wake up. -/
theorem pending_clearPast {pending : Bool} (vmeEnd : VmOffset) (change : VmMapEntry → VmMapEntry)
    (h : pending = true → s.needWakeup = true)
    (hpending : pendingAfter pending [.cleared (s.constituents vmeEnd)] = true) :
    (s.clearPast vmeEnd change).needWakeup = true := by
  simp only [pendingAfter, foldl_cons, foldl_nil, MapEvent.pending, Bool.or_eq_true] at hpending
  exact Bool.or_eq_true_iff.mpr (hpending.imp_left h)

end MapState

end MachVirtuTerm
