import MachVirtuTerm.Vm.MapTransition
import MachVirtuTerm.Vm.MapCopyout

/-!
# Deletion and copying out keep track of transitions

The same for calls of `vm_map_delete` and `vm_map_copyout_page_list`: they have the lock when
they should, clear each transition bit they have set, and remember whom they have to wake up.
-/

open List

namespace MachVirtuTerm

open TransitionStep MapState CopyoutState CopyoutPc Option

variable {entries before after : List VmMapEntry} {entry tmpEntry last : VmMapEntry}
  {address start : VmOffset} {pending : Bool} {events : List MapEvent} {action : MapAction}

/-- The entries after a loop that clears transition bits. -/
theorem clearTransition_fst (vmeEnd : VmOffset) (entries : List VmMapEntry) :
    (clearTransition vmeEnd entries).1 =
      (entries.takeWhile (·.vmeStart < vmeEnd)).map VmMapEntry.unmark ++
        entries.dropWhile (·.vmeStart < vmeEnd) := by
  induction entries with
  | nil => rfl
  | cons entry entries ih =>
    by_cases h : entry.vmeStart < vmeEnd <;> simp [clearTransition, h, ih]

/-- Whether anybody waits for one of the entries. -/
theorem clearTransition_snd (vmeEnd : VmOffset) (entries : List VmMapEntry) :
    (clearTransition vmeEnd entries).2 =
      (entries.takeWhile (·.vmeStart < vmeEnd)).any (·.needsWakeup) := by
  induction entries with
  | nil => rfl
  | cons entry entries ih =>
    by_cases h : entry.vmeStart < vmeEnd <;> simp [clearTransition, h, ih]

namespace DeleteState

variable (s : DeleteState)

/-- What holds of a call at each place. -/
def TransitInv : DeletePc → Prop
  | .lookup | .loop | .retryEntry | .finish | .returned _ => s.locked = true
  | .waitTransition _ | .waitKwire _ => s.locked = false
  | .faultUnwire tmpEntry =>
    s.locked = false ∧ (s.moved = false → ∀ e ∈ s.before, e.vmeEnd ≤ tmpEntry.vmeStart)

/-- A call remembers that it has to wake somebody up. -/
def Owes : DeletePc → Prop
  | .returned _ => False
  | _ => s.needWakeup = true

/-- A call gives up at an entry: it is wired by the kernel, and the call is not to wait. -/
def GivesUp (call : DeleteCall) (entry : VmMapEntry) : Prop :=
  entry.inTransition = false ∧ entry.wiredCount ≠ 0 ∧ (unwire call entry).wiredCount ≠ 0 ∧
    call.flags.waitForKwire = false

instance (call : DeleteCall) (entry : VmMapEntry) : Decidable (GivesUp call entry) :=
  inferInstanceAs (Decidable (_ ∧ _))

/-- The call does not give up at an entry while it has to wake somebody up, and no wait of it
is interrupted; and when it takes the lock again after others, the version is not again the one it
saved. -/
def Proper (call : DeleteCall) (action : MapAction) : DeletePc → Prop
  | .retryEntry => s.needWakeup = true → ∀ entry ∈ s.after.head?, ¬GivesUp call entry
  | .waitTransition _ | .waitKwire _ => action ≠ .interrupt
  | .faultUnwire _ => s.moved = true → s.Stale
  | _ => True

instance (s : DeleteState) (call : DeleteCall) (action : MapAction) (pc : DeletePc) :
    Decidable (s.Proper call action pc) :=
  match pc with
  | .retryEntry => inferInstanceAs (Decidable (_ → ∀ entry ∈ s.after.head?, ¬GivesUp call entry))
  | .waitTransition _ | .waitKwire _ => inferInstanceAs (Decidable (action ≠ .interrupt))
  | .faultUnwire _ => inferInstanceAs (Decidable (s.moved = true → s.Stale))
  | .lookup | .loop | .finish | .returned _ => inferInstanceAs (Decidable True)

end DeleteState

/-- The invariant of a call of `vm_map_delete`. -/
structure DeleteTransit (s : DeleteState) (pending : Bool) : Prop where
  ok : EntriesOk s.entries
  pc : s.TransitInv s.pc
  owes : pending = true → s.Owes s.pc

namespace DeleteTransit

variable {s s' : DeleteState} {call : DeleteCall}

variable (h : DeleteTransit s pending)

include h

/-- The lookup of the start of the region. -/
theorem lookupStep (hpc : s.pc = .lookup) :
    DeleteTransit (s.lookupStep call) pending ∧ StepOk DeletePc.held s (s.lookupStep call) [] := by
  have hinv := h.pc
  have howes := h.owes
  rw [hpc] at hinv howes
  have hheld : s.pc.held = none := by rw [hpc]; rfl
  have hunlocked : ∀ {P : Prop}, s.locked = false → P := fun hl =>
    absurd (hl.symm.trans hinv) (by simp)
  have happend := vmMapLookupEntry_append s.entries call.start
  have hrefl := refl none h.ok
  unfold DeleteState.lookupStep
  split
  · rename_i before entry after hlookup
    rw [hlookup] at happend
    have hend : call.start < entry.vmeEnd := lt_vmeEnd_of_lookup (by rw [hlookup])
    have hok : EntriesOk (before ++ entry :: after) := by
      rw [show before ++ entry :: after = s.entries from happend]
      exact h.ok
    have hclip := clipStart hok hend
    refine ⟨⟨hclip.ok, hinv, howes⟩, ?_, by simp, hunlocked, by simp⟩
    rw [hheld, ← happend]
    exact hclip
  · rename_i found before after _ hlookup
    rw [hlookup] at happend
    have hentries : before ++ after = s.entries := happend
    rw [← hentries] at hrefl
    refine ⟨⟨hrefl.ok, hinv, howes⟩, ?_, by simp, hunlocked, by simp⟩
    rw [hheld, ← hentries]
    exact hrefl

/-- The test of the loop. -/
theorem loopStep (hpc : s.pc = .loop) :
    DeleteTransit (s.loopStep call) pending ∧ StepOk DeletePc.held s (s.loopStep call) [] := by
  have hinv := h.pc
  have howes := h.owes
  rw [hpc] at hinv howes
  have hheld : s.pc.held = none := by rw [hpc]; rfl
  have hunlocked : ∀ {P : Prop}, s.locked = false → P := fun hl =>
    absurd (hl.symm.trans hinv) (by simp)
  have hrefl := refl none h.ok
  have hfinish : DeleteTransit { s with pc := .finish } pending ∧
      StepOk DeletePc.held s { s with pc := .finish } [] := by
    refine ⟨⟨h.ok, hinv, howes⟩, ?_, by simp, hunlocked, by simp⟩
    rw [hheld]
    exact hrefl
  unfold DeleteState.loopStep
  split
  · exact hfinish
  · rename_i entry after heq
    split
    · rename_i hlt
      have hok := h.ok
      rw [entries, heq] at hok
      have hclip := clipEnd hok hlt
      refine ⟨⟨hclip.ok, hinv, howes⟩, ?_, by simp, hunlocked, by simp⟩
      rw [hheld, entries, heq]
      exact hclip
    · exact hfinish

/-- Work on an entry, from `retry_entry` on. -/
theorem retryStep (hpc : s.pc = .retryEntry)
    (hproper : s.Proper call action s.pc) (hstep : s.retryStep call = some (s', events)) :
    DeleteTransit s' (pendingAfter pending events) ∧ StepOk DeletePc.held s s' events := by
  have hinv := h.pc
  have howes := h.owes
  rw [hpc] at hinv howes
  have hheld : s.pc.held = none := by rw [hpc]; rfl
  have hunlocked : ∀ {P : Prop}, s.locked = false → P := fun hl =>
    absurd (hl.symm.trans hinv) (by simp)
  unfold DeleteState.retryStep at hstep
  split at hstep
  · cases hstep
  rename_i entry after heq
  have hok := h.ok
  rw [entries, heq] at hok
  have hself : entry.Contains entry.vmeStart :=
    ⟨BitVec.le_refl _, hok.sorted.nonempty entry (by simp)⟩
  split at hstep
  · rename_i htransition
    cases hstep
    have hwait := update { entry with needsWakeup := true } none hok rfl
      (fun _ => Or.inl htransition) (fun _ => rfl) Or.inl
    refine ⟨⟨hwait.ok, rfl, ?_⟩, ?_, ?_, hunlocked, ?_⟩
    · rw [pendingAfter_wakeupIf howes]
      simp [pendingAfter, MapEvent.pending]
    · rw [hheld, flatMap_append, flatMap_wakeupIf, entries, heq]
      exact hwait
    · simp only [mem_append, mem_wakeupIf, reduceCtorEq, and_false, mem_singleton,
        MapEvent.waits.injEq, false_or, forall_eq]
      exact ⟨{ entry with needsWakeup := true }, by simp [entries], hself, rfl⟩
    · simp
  rename_i htransition
  split at hstep
  · rename_i hwired
    dsimp only at hstep
    split at hstep
    · rename_i hstill
      split at hstep
      · cases hstep
        have hwait := update { DeleteState.unwire call entry with
          needsWakeup := true } none hok rfl (fun _ => Or.inr hstill) (fun _ => rfl) Or.inl
        refine ⟨⟨hwait.ok, rfl, howes⟩, ?_, ?_, hunlocked, by simp⟩
        · rw [hheld, entries, heq]
          exact hwait
        · simp only [mem_cons, reduceCtorEq, MapEvent.waits.injEq, not_mem_nil, or_false,
            false_or, forall_eq]
          exact ⟨_, mem_append_right _ (mem_cons_self ..), hself, rfl⟩
      · rename_i hnowait
        cases hstep
        have hpending : pending = false := by
          rw [← Bool.not_eq_true]
          intro hp
          rw [hpc] at hproper
          exact hproper (howes hp) entry (by simp [heq])
            ⟨by simpa using htransition, hwired, hstill, by simpa using hnowait⟩
        have hlocked : s.locked = true := hinv
        have hcount := update (DeleteState.unwire call entry) none hok rfl
          (fun _ => Or.inr hstill) id Or.inl
        refine ⟨⟨hcount.ok, hinv, by simp [pendingAfter, MapEvent.pending, hpending]⟩, ?_, by simp,
          hunlocked, by simp [MapRoutine.returnsLocked, hlocked]⟩
        rw [hheld, entries, heq]
        exact hcount
    · cases hstep
      have hmark := update { DeleteState.unwire call entry with
        inTransition := true } (some { DeleteState.unwire call entry with inTransition := true })
        hok rfl (fun _ => Or.inl rfl) id fun _ => Or.inr rfl
      refine ⟨⟨hmark.ok, ⟨rfl, ?_⟩, howes⟩, ?_, by simp, hunlocked, by simp⟩
      · exact fun _ e he => (pairwise_append.mp hmark.ok.sorted.pairwise).2.2 e he _ (by simp)
      · rw [hheld, entries, heq]
        exact hmark
  · rename_i hwired
    cases hstep
    have hnone : entry.needsWakeup = false := by
      rw [← Bool.not_eq_true]
      intro hneed
      rcases hok.needs entry (by simp) hneed with ht | hw
      · exact htransition ht
      · exact hwired hw
    have hdelete := edit s.before [entry] [] after [] none (by simpa using hok)
      (hok.sorted.sublist (by simp)) (by simp) (by simp [NeedsAt, hnone]) (by simp)
    simp only [append_assoc, singleton_append, append_nil] at hdelete
    refine ⟨⟨hdelete.ok, hinv, howes⟩, ?_, by simp, hunlocked, by simp⟩
    rw [hheld, entries, heq]
    exact hdelete

/-- What follows `vm_fault_unwire`. -/
theorem unwiredStep (hpc : s.pc = .faultUnwire tmpEntry) (hversion : s.moved = true → s.Stale)
    (hstep : s.unwiredStep tmpEntry = (s', events)) :
    DeleteTransit s' (pendingAfter pending events) ∧ StepOk DeletePc.held s s' events := by
  have hinv := h.pc
  have howes := h.owes
  rw [hpc] at hinv howes
  have hheld : s.pc.held = some tmpEntry := by rw [hpc]; rfl
  have hok : EntriesOk (s.relock tmpEntry.vmeStart).entries := by simpa using h.ok
  have hclear := (s.relock tmpEntry.vmeStart).transitionStep_clearPast id hok
    (s.before_relock hinv.2 hversion) (fun _ => rfl) fun _ => ⟨rfl, rfl⟩
  have hentries : (s.relock tmpEntry.vmeStart).before ++
      (clearTransition tmpEntry.vmeEnd (s.relock tmpEntry.vmeStart).after).1 =
        ((s.relock tmpEntry.vmeStart).clearPast tmpEntry.vmeEnd id).entries := by
    simp [clearTransition_fst, clearPast, entries, constituents]
  rw [s.entries_relock, ← hentries] at hclear
  cases hstep
  refine ⟨⟨hclear.ok, s.locked_relock _, fun hpending => ?_⟩, ?_, by simp, ?_, by simp⟩
  · have hneed := (s.relock tmpEntry.vmeStart).pending_clearPast tmpEntry.vmeEnd id
      (fun hp => (s.needWakeup_relock _).trans (howes hp)) hpending
    simpa [DeleteState.Owes, clearTransition_snd, clearPast, constituents] using hneed
  · rw [hheld, flatMap_singleton]
    exact hclear
  · exact fun _ ht => absurd ht (by simp)

/-- One step. -/
theorem step (hproper : s.Proper call action s.pc)
    (haction : action.entries = none) (hstep : s.step call action = some (s', events)) :
    DeleteTransit s' (pendingAfter pending events) ∧ StepOk DeletePc.held s s' events := by
  have hinv := h.pc
  have howes := h.owes
  have hrefl := refl none h.ok
  cases action with
  | run oracle =>
    cases hpc : s.pc with
    | lookup =>
      simp only [DeleteState.step, hpc, some.injEq, Prod.mk.injEq] at hstep
      obtain ⟨rfl, rfl⟩ := hstep
      exact h.lookupStep hpc
    | loop =>
      simp only [DeleteState.step, hpc, some.injEq, Prod.mk.injEq] at hstep
      obtain ⟨rfl, rfl⟩ := hstep
      exact h.loopStep hpc
    | retryEntry =>
      simp only [DeleteState.step, hpc] at hstep
      exact h.retryStep hpc hproper hstep
    | waitTransition address | waitKwire address =>
      simp only [DeleteState.step, hpc, some.injEq, Prod.mk.injEq] at hstep
      obtain ⟨rfl, rfl⟩ := hstep
      rw [hpc] at howes
      have hheld : s.pc.held = none := by rw [hpc]; rfl
      have hentries : (s.wokenStep address).entries = s.entries :=
        vmMapLookupEntry_append s.entries address
      rw [← hentries] at hrefl
      refine ⟨⟨hrefl.ok, rfl, howes⟩, ?_, by simp, ?_, by simp⟩
      · rw [hheld, ← hentries]
        exact hrefl
      · exact fun _ ht => absurd ht (by simp [DeleteState.wokenStep, lockLookup,
          MapState.lookup, MapState.lock])
    | faultUnwire tmpEntry =>
      simp only [DeleteState.step, hpc, some.injEq] at hstep
      rw [hpc] at hproper
      exact h.unwiredStep hpc hproper hstep
    | finish =>
      simp only [DeleteState.step, hpc, some.injEq, Prod.mk.injEq] at hstep
      obtain ⟨rfl, rfl⟩ := hstep
      rw [hpc] at hinv howes
      have hheld : s.pc.held = none := by rw [hpc]; rfl
      have hlocked : s.locked = true := hinv
      refine ⟨⟨h.ok, hinv, ?_⟩, ?_, by simp, ?_, ?_⟩
      · rw [pendingAfter_wakeupIf howes]
        simp [pendingAfter, MapEvent.pending]
      · rw [hheld, flatMap_append, flatMap_wakeupIf]
        exact hrefl
      · exact fun hl => absurd (hl.symm.trans hlocked) (by simp)
      · simp [MapRoutine.returnsLocked, hlocked]
    | returned kr =>
      simp only [DeleteState.step, hpc, reduceCtorEq] at hstep
  | interrupt =>
    simp only [DeleteState.step] at hstep
    split at hstep
    · rename_i hpc
      rw [hpc] at hproper
      exact absurd rfl hproper
    · rename_i hpc
      rw [hpc] at hproper
      exact absurd rfl hproper
    · cases hstep
  | others before after =>
    cases haction

end DeleteTransit

/-- Sorted entries end where the last one ends. -/
theorem EntriesSorted.le_getLast {minOffset : VmOffset} (hs : EntriesSorted entries) :
    ∀ e ∈ entries, e.vmeEnd ≤ (entries.getLast?.map (·.vmeEnd)).getD minOffset := by
  intro e he
  rcases eq_nil_or_concat entries with rfl | ⟨before, last, rfl⟩
  · cases he
  · rw [concat_eq_append] at hs he ⊢
    rw [getLast?_concat]
    change e.vmeEnd ≤ last.vmeEnd
    rcases mem_append.mp he with he | he
    · have hle := (pairwise_append.mp hs.pairwise).2.2 e he last (by simp)
      have hlt := hs.nonempty last (by simp)
      bv_omega
    · obtain rfl := mem_singleton.mp he
      exact BitVec.le_refl _

namespace CopyoutState

/-- The space found: the range fits between the entries before it and those after it. -/
structure Fits (maxOffset size start : VmOffset) (before after : List VmMapEntry) : Prop where
  le_end : start ≤ start + size
  before_le : ∀ e ∈ before, e.vmeEnd ≤ start
  le_after : ∀ e ∈ after, start + size ≤ e.vmeStart

/-- The search finds space at a place in the map. -/
theorem findSpace_spec {maxOffset size start' : VmOffset} {before' after' : List VmMapEntry}
    (hs : EntriesSorted (before ++ after)) (hbefore : ∀ e ∈ before, e.vmeEnd ≤ start)
    (h : findSpace maxOffset size start before after = some (start', before', after')) :
    before' ++ after' = before ++ after ∧ Fits maxOffset size start' before' after' := by
  induction after generalizing start before with
  | nil =>
    unfold findSpace at h
    split at h
    · cases h
    · rename_i hfits
      cases h
      rw [not_or, BitVec.not_lt, BitVec.not_lt] at hfits
      exact ⟨rfl, hfits.2, hbefore, by simp⟩
  | cons next after ih =>
    unfold findSpace at h
    split at h
    · cases h
    · rename_i hfits
      rw [not_or, BitVec.not_lt, BitVec.not_lt] at hfits
      split at h
      · rename_i hge
        cases h
        refine ⟨rfl, hfits.2, hbefore, fun e he => ?_⟩
        rcases mem_cons.mp he with rfl | he
        · exact hge
        · have hle := hs.le_of_append he
          have hlt := hs.nonempty next (by simp)
          have hge : start' + size ≤ next.vmeStart := hge
          bv_omega
      · rw [append_cons] at hs ⊢
        refine ih hs (fun e he => ?_) h
        rcases mem_append.mp he with he | he
        · have hle := (pairwise_append.mp hs.pairwise).1
          have hle := (pairwise_append.mp hle).2.2 e he next (by simp)
          have hlt := hs.nonempty next (by simp)
          bv_omega
        · obtain rfl := mem_singleton.mp he
          exact BitVec.le_refl _

/-- An entry that is extended starts where it did, and was not in transition. -/
theorem extend_eq {oracle : MapOracle} {last' : VmMapEntry} {«end» : VmOffset}
    (h : extend oracle last start «end» = some last') :
    last.vmeEnd = start ∧ ∃ object offset,
      last' = { last with object, offset, vmeEnd := «end» } := by
  unfold extend at h
  split at h
  · rename_i hext
    split at h
    · cases h
      exact ⟨hext.1, _, _, rfl⟩
    · split at h
      · cases h
        exact ⟨hext.1, _, _, rfl⟩
      · cases h
  · cases h

end CopyoutState

/-- An entry takes the place of neighbouring ones, between those before and after them. -/
theorem EntriesSorted.place (mid : List VmMapEntry) (hs : EntriesSorted (before ++ mid ++ after))
    (hbefore : ∀ e ∈ before, e.vmeEnd ≤ entry.vmeStart)
    (hafter : ∀ e ∈ after, entry.vmeEnd ≤ e.vmeStart) (hlt : entry.vmeStart < entry.vmeEnd) :
    EntriesSorted (before ++ [entry] ++ after) := by
  have hpairwise := hs.pairwise
  simp only [append_assoc, pairwise_append, mem_append] at hpairwise
  obtain ⟨hfirst, ⟨-, hlast, -⟩, hcross⟩ := hpairwise
  refine ⟨?_, fun e he => ?_⟩
  · simp only [append_assoc, singleton_append, pairwise_append, pairwise_cons, mem_cons]
    refine ⟨hfirst, ⟨hafter, hlast⟩, fun a ha b hb => ?_⟩
    rcases hb with rfl | hb
    · exact hbefore a ha
    · exact hcross a ha b (Or.inr hb)
  · simp only [mem_append, mem_singleton] at he
    rcases he with (he | rfl) | he
    · exact hs.nonempty e (by simp [he])
    · exact hlt
    · exact hs.nonempty e (by simp [he])

namespace CopyoutState

/-- The entry for the pages is put into transition where space was found. -/
theorem transitionStep_enter {maxOffset size : VmOffset} (oracle : MapOracle)
    (h : EntriesOk (before ++ after)) (hfits : Fits maxOffset size start before after)
    (hsize : size ≠ 0) :
    TransitionStep none (some (enter oracle before start (start + size)).2) (before ++ after)
      ((enter oracle before start (start + size)).1 ++
        (enter oracle before start (start + size)).2 :: after) [] ∧
    (enter oracle before start (start + size)).2.vmeEnd = start + size := by
  have hlt : start < start + size := by
    have hle := hfits.le_end
    bv_omega
  unfold enter
  split
  · rename_i last' hbind
    obtain ⟨last, hlast, hextend⟩ := bind_eq_some_iff.mp hbind
    obtain ⟨hend, object, offset, rfl⟩ := extend_eq hextend
    obtain ⟨before₁, rfl⟩ := getLast?_eq_some_iff.mp hlast
    have hmem := h.sorted.nonempty last (by simp)
    refine ⟨?_, rfl⟩
    have hedit := edit before₁ [last] [{ last with
      object
      offset
      vmeEnd := start + size
      inTransition := true }] after [] (some { last with
      object
      offset
      vmeEnd := start + size
      inTransition := true }) h (.place [last] h.sorted ?_ hfits.le_after ?_) ?_ ?_ ?_
    · rw [dropLast_concat]
      simpa using hedit
    · exact fun e he => (pairwise_append.mp (pairwise_append.mp h.sorted.pairwise).1).2.2
        e he last (by simp)
    · change last.vmeStart < start + size
      bv_omega
    · simp [VmMapEntry.NeedsOk]
    · rintro a ⟨e, he, ⟨hstart, hstop⟩, hneed⟩
      obtain rfl := mem_singleton.mp he
      refine Or.inl ⟨_, mem_singleton_self _, ⟨hstart, ?_⟩, hneed⟩
      change a < start + size
      bv_omega
    · intro e he _
      exact Or.inl ⟨_, rfl, by rw [mem_singleton.mp he]; exact .refl _⟩
  · refine ⟨?_, rfl⟩
    have hedit := edit before [] [newEntry oracle start (start + size)] after []
      (some (newEntry oracle start (start + size))) (by simpa using h)
      (.place [] (by simpa using h.sorted) hfits.before_le hfits.le_after hlt)
      ?_ ?_ ?_
    · simpa using hedit
    · simp [VmMapEntry.NeedsOk, newEntry]
    · rintro a ⟨e, he, -⟩
      cases he
    · intro e he _
      exact Or.inl ⟨_, rfl, by rw [mem_singleton.mp he]; exact .refl _⟩

variable (s : CopyoutState)

/-- The entry with the pages is where a call has put it, until the call has unlocked the map. -/
def Inserting (x : CopyoutLocals) : Prop :=
  x.last.vmeEnd = x.end ∧ (x.contInvoked = false → ∃ after, s.after = x.last :: after)

/-- What holds of a call at each place. -/
def TransitInv : CopyoutPc → Prop
  | .startAgain _ | .waitSpace _ | .finish _ | .returned _ => s.locked = false
  | .insertPages x | .error x _ => s.locked = true ∧ Inserting s x
  | .continuation x => s.locked = false ∧ x.contInvoked = true ∧ x.last.vmeEnd = x.end
  | .delete _ _ _ pc => DeleteState.TransitInv (s.goto pc) pc

/-- A call remembers that it has to wake somebody up. -/
def Owes : CopyoutPc → Prop
  | .delete _ needsWakeup _ pc => needsWakeup = true ∨ DeleteState.Owes (s.goto pc) pc
  | .finish _ => s.needWakeup = true
  | _ => False

/-- Nobody waits for the entry with the pages if the map was not unlocked, and otherwise nobody
has clipped it before the pages; and what is asked of the call of `vm_map_delete`. -/
def Proper (action : MapAction) : CopyoutPc → Prop
  | .error x _ =>
    (x.contInvoked = false → x.last.needsWakeup = false) ∧
      (x.contInvoked = true → ∀ e ∈ s.entries, e.inTransition = true → e.Within x.last →
        x.start < e.vmeEnd)
  | .delete _ _ call pc => DeleteState.Proper (s.goto pc) call action pc
  | _ => True

instance (entry outer : VmMapEntry) : Decidable (entry.Within outer) :=
  inferInstanceAs (Decidable (_ ∧ _))

instance (s : CopyoutState) (action : MapAction) (pc : CopyoutPc) :
    Decidable (s.Proper action pc) :=
  match pc with
  | .error x _ =>
    inferInstanceAs (Decidable ((x.contInvoked = false → x.last.needsWakeup = false) ∧
      (x.contInvoked = true → ∀ e ∈ s.entries, e.inTransition = true → e.Within x.last →
        x.start < e.vmeEnd)))
  | .delete _ _ call pc => inferInstanceAs (Decidable (DeleteState.Proper (s.goto pc) call action pc))
  | .startAgain _ | .waitSpace _ | .insertPages _ | .continuation _ | .finish _ | .returned _ =>
    inferInstanceAs (Decidable True)

end CopyoutState

/-- The invariant of a call of `vm_map_copyout_page_list`. -/
structure CopyoutTransit (s : CopyoutState) (pending : Bool) : Prop where
  ok : EntriesOk s.entries
  pc : s.TransitInv s.pc
  owes : pending = true → s.Owes s.pc

namespace CopyoutTransit

variable {s s' : CopyoutState}

/-- The search for space, and the entry for the pages. -/
theorem startStep {call : CopyoutCall} {oracle : MapOracle} (h : CopyoutTransit s pending)
    (hpc : s.pc = .startAgain call) (hstep : s.startStep call oracle = (s', events)) :
    CopyoutTransit s' (pendingAfter pending events) ∧ StepOk held s s' events := by
  have howes := h.owes
  rw [hpc] at howes
  have hpending : pending = false := by simpa [CopyoutState.Owes] using howes
  have hheld : s.pc.held = none := by rw [hpc]; rfl
  have hrefl := refl none h.ok
  have happend := firstFree_append s.minOffset s.entries
  unfold CopyoutState.startStep at hstep
  dsimp only at hstep
  split at hstep
  · split at hstep
    · cases hstep
      refine ⟨⟨h.ok, rfl, by simp [pendingAfter, hpending]⟩, ?_, by simp, ?_, by simp⟩
      · rw [hheld]
        exact hrefl
      · exact fun _ ht => absurd ht (by simp [MapState.lock, unlock])
    · cases hstep
      refine ⟨⟨h.ok, rfl, by simp [pendingAfter, MapEvent.pending, hpending]⟩, ?_, by simp,
        ?_, by simp [MapRoutine.returnsLocked]⟩
      · rw [hheld]
        exact hrefl
      · exact fun _ ht => absurd ht (by simp [MapState.lock, unlock])
  · rename_i start before after hfind
    cases hstep
    have hsorted : EntriesSorted
        ((firstFree s.minOffset s.entries).1 ++ (firstFree s.minOffset s.entries).2) := by
      rw [happend]
      exact h.ok.sorted
    obtain ⟨hentries, hfits⟩ := findSpace_spec hsorted
      (hsorted.sublist (sublist_append_left _ _)).le_getLast hfind
    rw [happend] at hentries
    obtain ⟨henter, hend⟩ := transitionStep_enter oracle
      (by rw [hentries]; exact h.ok) hfits call.size_ne
    rw [hentries] at henter
    refine ⟨⟨henter.ok, ⟨rfl, hend, fun _ => ⟨after, rfl⟩⟩, by simp [pendingAfter, hpending]⟩,
      ?_, by simp, ?_, by simp⟩
    · rw [hheld]
      exact henter
    · exact fun _ ht => absurd ht (by simp [MapState.lock])

variable {x : CopyoutLocals}

/-- The loop through the pages, for one page. -/
theorem insertStep (h : CopyoutTransit s pending)
    (hpc : s.pc = .insertPages x) (hstep : s.insertStep x = some (s', events)) :
    CopyoutTransit s' (pendingAfter pending events) ∧ StepOk held s s' events := by
  have hinv := h.pc
  have howes := h.owes
  rw [hpc] at hinv howes
  obtain ⟨hlocked, hend, hlast⟩ := hinv
  have hheld : s.pc.held = some x.last := by rw [hpc]; rfl
  have hunlocked : ∀ {P : Prop}, s.locked = false → P := fun hl =>
    absurd (hl.symm.trans hlocked) (by simp)
  have hrefl := refl (some x.last) h.ok
  unfold CopyoutState.insertStep at hstep
  split at hstep
  · split at hstep
    · cases hstep
    · split at hstep
      · cases hstep
        refine ⟨⟨h.ok, ⟨rfl, rfl, hend⟩, howes⟩, ?_, by simp, hunlocked, by simp⟩
        rw [hheld]
        exact hrefl
      · cases hstep
        refine ⟨⟨h.ok, ⟨hlocked, hend, hlast⟩, howes⟩, ?_, by simp, hunlocked,
          by simp⟩
        rw [hheld]
        exact hrefl
  · cases hstep
    refine ⟨⟨h.ok, ⟨hlocked, hend, hlast⟩, howes⟩, ?_, by simp, hunlocked, by simp⟩
    rw [hheld]
    exact hrefl

/-- The continuation has returned. -/
theorem continueStep {oracle : MapOracle} (h : CopyoutTransit s pending)
    (hpc : s.pc = .continuation x) :
    CopyoutTransit (s.continueStep x oracle) pending ∧
      StepOk held s (s.continueStep x oracle) [] := by
  have hinv := h.pc
  have howes := h.owes
  rw [hpc] at hinv howes
  obtain ⟨-, hcont, hend⟩ := hinv
  have hheld : s.pc.held = some x.last := by rw [hpc]; rfl
  have hrefl := refl (some x.last) h.ok
  have hinserting : x.contInvoked = false → ∃ after, s.after = x.last :: after := fun hc =>
    absurd (hc.symm.trans hcont) (by simp)
  unfold CopyoutState.continueStep
  dsimp only
  split
  · refine ⟨⟨h.ok, ⟨rfl, hend, hinserting⟩, howes⟩, ?_, by simp, ?_, by simp⟩
    · rw [hheld]
      exact hrefl
    · exact fun _ ht => absurd ht (by simp [MapState.lock])
  · refine ⟨⟨h.ok, ⟨rfl, hend, hinserting⟩, howes⟩, ?_, by simp, ?_, by simp⟩
    · rw [hheld]
      exact hrefl
    · exact fun _ ht => absurd ht (by simp [MapState.lock])

/-- The call goes on when the transition bits are cleared. -/
theorem clearedStep (x : CopyoutLocals) (result : KernReturn) {needsWakeup : Bool}
    (hok : EntriesOk s.entries) (hlocked : s.locked = true)
    (hneeds : pending = true → needsWakeup = true) :
    CopyoutTransit (s.clearedStep x result needsWakeup) pending ∧
      (s.clearedStep x result needsWakeup).entries = s.entries ∧
      (s.clearedStep x result needsWakeup).pc.held = none := by
  unfold CopyoutState.clearedStep
  split
  · exact ⟨⟨hok, hlocked, fun hp => Or.inl (hneeds hp)⟩, rfl, rfl⟩
  · exact ⟨⟨hok, rfl, hneeds⟩, rfl, rfl⟩

/-- The transition bits are cleared. -/
theorem errorStep {result : KernReturn} (h : CopyoutTransit s pending)
    (hpc : s.pc = .error x result) (hproper : s.Proper action s.pc)
    (hstep : s.errorStep x result = some (s', events)) :
    CopyoutTransit s' (pendingAfter pending events) ∧ StepOk held s s' events := by
  have hinv := h.pc
  have howes := h.owes
  rw [hpc] at hinv howes
  obtain ⟨hlocked, hend, hlast⟩ := hinv
  rw [hpc] at hproper
  obtain ⟨hnobody, hunclipped⟩ := hproper
  have hpending : pending = false := by simpa [CopyoutState.Owes] using howes
  have hheld : s.pc.held = some x.last := by rw [hpc]; rfl
  have hunlocked : ∀ {P : Prop}, s.locked = false → P := fun hl =>
    absurd (hl.symm.trans hlocked) (by simp)
  unfold CopyoutState.errorStep at hstep
  split at hstep
  · rename_i hcont
    split at hstep
    · rename_i before after hlookup
      have happend := vmMapLookupEntry_append s.entries x.start
      rw [hlookup] at happend
      have hentries : before ++ after = s.entries := happend
      have hbefore : ∀ e ∈ before, e.inTransition = true → ¬e.Within x.last := by
        intro e he htrans hwithin
        have hlt := hunclipped hcont e (by simp [← hentries, he]) htrans hwithin
        have hle : e.vmeEnd ≤ x.start := vmeEnd_le_of_lookup (by rw [hlookup]; exact he)
        bv_omega
      have hclear := clear id (by rw [hentries]; exact h.ok) hbefore
        (fun _ => rfl) fun _ => ⟨rfl, rfl⟩
      rw [hentries, hend] at hclear
      let s₁ : CopyoutState := { s with
        before
        after
        needWakeup := false }
      have hneeds : pendingAfter pending [.cleared (s₁.constituents x.end)] = true →
          (s₁.clearPast x.end id).needWakeup = true :=
        s₁.pending_clearPast x.end id (by simp [hpending])
      obtain ⟨htransit, hsame, hnone⟩ :=
        clearedStep (s := s₁.clearPast x.end id) x result hclear.ok hlocked hneeds
      cases hstep
      refine ⟨htransit, ?_, by simp, hunlocked, by simp⟩
      rw [hheld, hsame, hnone, flatMap_singleton]
      exact hclear
    · cases hstep
  · rename_i hcont
    have hcont : x.contInvoked = false := by simpa using hcont
    obtain ⟨after, heq⟩ := hlast hcont
    rw [heq] at hstep
    have hok := h.ok
    rw [entries, heq] at hok
    have hbefore : ∀ e ∈ s.before, e.inTransition = true → ¬e.Within x.last :=
      not_within hok.sorted hok.sorted.le_vmeStart (subset_append_left _ _)
    have hclear := clear id hok hbefore (fun _ => rfl) fun _ => ⟨rfl, rfl⟩
    have hneed := hnobody hcont
    have hunmark : x.last.unmark = { x.last with inTransition := false } := by
      simp [VmMapEntry.unmark, hneed]
    rw [hok.sorted.takeWhile_self.1, hok.sorted.takeWhile_self.2, map_singleton, id, hunmark,
      append_assoc, singleton_append] at hclear
    obtain ⟨htransit, hsame, hnone⟩ := clearedStep (s := { s with
      after := { x.last with inTransition := false } :: after }) x result hclear.ok hlocked
      (id : false = true → false = true)
    cases hstep
    have hafter : pendingAfter pending [.cleared [x.last]] = false := by
      simp [pendingAfter, MapEvent.pending, hpending, hneed]
    rw [hafter]
    refine ⟨htransit, ?_, by simp, hunlocked, by simp⟩
    rw [hheld, hsame, hnone, flatMap_singleton, entries, heq]
    exact hclear

/-- The call of `vm_map_delete` goes on, or its caller unlocks the map after it. -/
theorem deleteStep {result : KernReturn} {needsWakeup : Bool} {call : DeleteCall} {pc : DeletePc}
    (h : CopyoutTransit s pending) (hpc : s.pc = .delete result needsWakeup call pc)
    (hproper : s.Proper action s.pc) (haction : action.entries = none)
    (hstep : s.deleteStep result needsWakeup call pc action = some (s', events)) :
    CopyoutTransit s' (pendingAfter pending events) ∧ StepOk held s s' events := by
  have hinv := h.pc
  have howes := h.owes
  rw [hpc] at hinv howes
  unfold CopyoutState.deleteStep at hstep
  split at hstep
  · split at hstep
    · rename_i hlocked
      cases hstep
      have hheld : s.pc.held = none := by rw [hpc]; rfl
      have hneeds : pending = true → needsWakeup = true := fun hp =>
        (howes hp).resolve_right id
      refine ⟨⟨h.ok, rfl, hneeds⟩, ?_, by simp, ?_, by simp⟩
      · rw [hheld]
        exact refl none h.ok
      · exact fun hl => absurd (hl.symm.trans hlocked) (by simp)
    · cases hstep
  · obtain ⟨⟨s₁, events₁⟩, hinner, heq⟩ := map_eq_some_iff.mp hstep
    cases heq
    rw [hpc] at hproper
    cases needsWakeup with
    | true =>
      have hdelete : DeleteTransit (s.goto pc) false := ⟨h.ok, hinv, by simp⟩
      obtain ⟨hinv', hok⟩ := hdelete.step hproper haction hinner
      refine ⟨⟨hinv'.ok, hinv'.pc, fun _ => Or.inl rfl⟩, ?_⟩
      exact hok.lift hpc fun _ => rfl
    | false =>
      have hdelete : DeleteTransit (s.goto pc) pending :=
        ⟨h.ok, hinv, fun hp => (howes hp).resolve_left (by simp)⟩
      obtain ⟨hinv', hok⟩ := hdelete.step hproper haction hinner
      refine ⟨⟨hinv'.ok, hinv'.pc, fun hp => Or.inr (hinv'.owes hp)⟩, ?_⟩
      exact hok.lift hpc fun _ => rfl

/-- One step. -/
theorem step (h : CopyoutTransit s pending) (hproper : s.Proper action s.pc)
    (haction : action.entries = none) (hstep : s.step action = some (s', events)) :
    CopyoutTransit s' (pendingAfter pending events) ∧ StepOk held s s' events := by
  have hinv := h.pc
  have howes := h.owes
  have hrefl := refl none h.ok
  cases action with
  | run oracle =>
    cases hpc : s.pc with
    | startAgain call =>
      simp only [step, hpc, some.injEq] at hstep
      exact h.startStep hpc hstep
    | waitSpace call =>
      simp only [step, hpc, some.injEq, Prod.mk.injEq] at hstep
      obtain ⟨rfl, rfl⟩ := hstep
      rw [hpc] at hinv howes
      have hheld : s.pc.held = none := by rw [hpc]; rfl
      refine ⟨⟨h.ok, hinv, howes⟩, ?_, by simp, fun _ _ => ⟨rfl, hinv⟩, by simp⟩
      rw [hheld]
      exact hrefl
    | insertPages x =>
      simp only [step, hpc] at hstep
      exact h.insertStep hpc hstep
    | continuation x =>
      simp only [step, hpc, some.injEq, Prod.mk.injEq] at hstep
      obtain ⟨rfl, rfl⟩ := hstep
      exact h.continueStep hpc
    | error x result =>
      simp only [step, hpc] at hstep
      exact h.errorStep hpc hproper hstep
    | delete result needsWakeup call pc =>
      simp only [step, hpc] at hstep
      exact h.deleteStep hpc hproper haction hstep
    | finish result =>
      simp only [step, hpc, some.injEq, Prod.mk.injEq] at hstep
      obtain ⟨rfl, rfl⟩ := hstep
      rw [hpc] at hinv howes
      have hheld : s.pc.held = none := by rw [hpc]; rfl
      refine ⟨⟨h.ok, hinv, ?_⟩, ?_, by simp, fun _ _ => ⟨rfl, hinv⟩, ?_⟩
      · rw [pendingAfter_wakeupIf howes]
        simp [pendingAfter, MapEvent.pending]
      · rw [hheld, flatMap_append, flatMap_wakeupIf]
        exact hrefl
      · simp [MapRoutine.returnsLocked]
    | returned kr =>
      simp only [step, hpc, reduceCtorEq] at hstep
  | interrupt =>
    simp only [step] at hstep
    split at hstep
    · rename_i hpc
      exact h.deleteStep hpc hproper haction hstep
    · cases hstep
  | others before after =>
    cases haction

end CopyoutTransit

end MachVirtuTerm
