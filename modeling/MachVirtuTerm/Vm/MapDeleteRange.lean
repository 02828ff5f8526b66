import MachVirtuTerm.Vm.MapState

/-!
# Deletion removes the requested range

While a call has the map locked, all entries from its place on start in the region, and
the one it works on ends there. An entry in transition keeps others away from its range.
After a wait the call takes whatever entry it finds at the address it waited for, without
the tests of the loop: the results hold in the runs in which that entry is in the region.
-/

open List Option

namespace MachVirtuTerm

open MapEvent

variable {call : DeleteCall} {s s' : DeleteState} {entries entries' before after : List VmMapEntry}
  {entry tmpEntry : VmMapEntry} {address : VmOffset}

/-- An entry in the region of a call. -/
def DeleteCall.InRegion (call : DeleteCall) (entry : VmMapEntry) : Prop :=
  call.start ≤ entry.vmeStart ∧ entry.vmeEnd ≤ call.end

instance (call : DeleteCall) (entry : VmMapEntry) : Decidable (call.InRegion entry) :=
  inferInstanceAs (Decidable (_ ∧ _))

/-- Nobody but the call changes the entries in the range of one in transition. -/
structure Window (tmpEntry : VmMapEntry) (entries : List VmMapEntry) : Prop where
  inside : ∀ e ∈ entries, ∀ a, e.Contains a → tmpEntry.Contains a →
    e.Within tmpEntry ∧ e.wiredCount = 0
  cover : ∀ a, tmpEntry.Contains a → ∃ e ∈ entries, e.Contains a

/-- An address is in one entry of sorted ones. -/
theorem EntriesSorted.not_contains (hs : EntriesSorted (before ++ entry :: after))
    {other : VmMapEntry} (ho : other ∈ before ++ after) (hc : entry.Contains address) :
    ¬other.Contains address := by
  intro hoc
  obtain ⟨hstart, hend⟩ := hc
  obtain ⟨hostart, hoend⟩ := hoc
  rcases mem_append.mp ho with ho | ho
  · have hle := (pairwise_append.mp hs.pairwise).2.2 other ho entry (by simp)
    bv_omega
  · have hle := hs.le_of_append ho
    bv_omega

/-- What others do keeps the window. -/
theorem Window.others (h : Window tmpEntry entries) (hs : EntriesSorted entries)
    (hstep : OthersStep (some tmpEntry) entries entries') : Window tmpEntry entries' := by
  have hs' := hstep.sorted hs
  cases hstep with
  | @replace before mid mid' after hheld hsorted =>
    have hkeep : ∀ a, tmpEntry.Contains a → ∃ e ∈ before ++ after, e.Contains a := by
      intro a ha
      obtain ⟨e, he, hea⟩ := h.cover a ha
      have hwithin := (h.inside e he a hea ha).1
      have hmid : e ∉ mid := fun hmem => hheld e hmem tmpEntry rfl hwithin
      refine ⟨e, ?_, hea⟩
      simpa [hmid] using he
    refine ⟨fun e he a hea ha => ?_, fun a ha => ?_⟩
    · by_cases hmem : e ∈ before ++ after
      · refine h.inside e ?_ a hea ha
        rcases mem_append.mp hmem with hmem | hmem <;> simp [hmem]
      · have hmid : e ∈ mid' := by
          simp only [mem_append, not_or] at he hmem
          exact (he.resolve_right hmem.2).resolve_left hmem.1
        obtain ⟨x, y, rfl⟩ := append_of_mem hmid
        obtain ⟨other, ho, hoa⟩ := hkeep a ha
        have hsplit : EntriesSorted ((before ++ x) ++ e :: (y ++ after)) := by
          simpa using hs'
        refine absurd hoa (hsplit.not_contains ?_ hea)
        rcases mem_append.mp ho with ho | ho <;> simp [ho]
    · obtain ⟨e, he, hea⟩ := hkeep a ha
      refine ⟨e, ?_, hea⟩
      rcases mem_append.mp he with he | he <;> simp [he]
  | @clip before after entry address hstart hend =>
    refine ⟨fun e he a hea ha => ?_, fun a ha => ?_⟩
    · simp only [mem_append, mem_cons] at he
      rcases he with he | rfl | rfl | he
      · exact h.inside e (by simp [he]) a hea ha
      · have hin := h.inside entry (by simp) a ⟨hea.1, ?_⟩ ha
        · refine ⟨⟨hin.1.1, ?_⟩, hin.2⟩
          have hle := hin.1.2
          change address ≤ tmpEntry.vmeEnd
          bv_omega
        · have hlt : a < address := hea.2
          bv_omega
      · have hin := h.inside entry (by simp) a ⟨?_, hea.2⟩ ha
        · refine ⟨⟨?_, hin.1.2⟩, hin.2⟩
          have hle := hin.1.1
          change tmpEntry.vmeStart ≤ address
          bv_omega
        · have hle : address ≤ a := hea.1
          bv_omega
      · exact h.inside e (by simp [he]) a hea ha
    · obtain ⟨e, he, hea⟩ := h.cover a ha
      simp only [mem_append, mem_cons] at he
      rcases he with he | rfl | he
      · exact ⟨e, by simp [he], hea⟩
      · by_cases hlt : a < address
        · exact ⟨e.front address, by simp, hea.1, hlt⟩
        · exact ⟨e.back address, by simp, BitVec.not_lt.mp hlt, hea.2⟩
      · exact ⟨e, by simp [he], hea⟩
  | @wait before after entry =>
    refine ⟨fun e he a hea ha => ?_, fun a ha => ?_⟩
    · simp only [mem_append, mem_cons] at he
      rcases he with he | rfl | he
      · exact h.inside e (by simp [he]) a hea ha
      · exact h.inside entry (by simp) a hea ha
      · exact h.inside e (by simp [he]) a hea ha
    · obtain ⟨e, he, hea⟩ := h.cover a ha
      simp only [mem_append, mem_cons] at he
      rcases he with he | rfl | he
      · exact ⟨e, by simp [he], hea⟩
      · exact ⟨{ e with needsWakeup := true }, by simp, hea⟩
      · exact ⟨e, by simp [he], hea⟩

/-- The addresses from which a call has removed a kernel wiring do not come again: an
entry that still starts before one of them is neither wired nor in transition. -/
def Past (removed : VmOffset → Prop) (after : List VmMapEntry) : Prop :=
  ∀ a, removed a → ∀ e ∈ after, e.vmeStart ≤ a → e.wiredCount = 0 ∧ e.inTransition = false

/-- From the place of a call on there is nothing before its region, and nothing from which
it has removed a kernel wiring. -/
structure Ahead (call : DeleteCall) (removed : VmOffset → Prop) (after : List VmMapEntry) :
    Prop where
  start_le : ∀ e ∈ after, call.start ≤ e.vmeStart
  past : Past removed after

/-- What holds of a call at each place. -/
def DeleteState.PcInv (call : DeleteCall) (removed : VmOffset → Prop) (s : DeleteState) :
    DeletePc → Prop
  | .lookup => s.locked = true ∧ ∀ a, ¬removed a
  | .loop => s.locked = true ∧ Ahead call removed s.after
  | .retryEntry =>
    s.locked = true ∧ Ahead call removed s.after ∧
      ∃ entry after, s.after = entry :: after ∧ entry.vmeEnd ≤ call.end
  | .waitTransition address | .waitKwire address =>
    call.start ≤ address ∧ ∀ a, removed a → a < address
  | .faultUnwire tmpEntry =>
    (call.InRegion tmpEntry ∧ tmpEntry.vmeStart < tmpEntry.vmeEnd) ∧
      (∀ a, removed a → a < tmpEntry.vmeEnd) ∧ Window tmpEntry s.entries ∧
      ∃ entry ∈ s.after.head?, entry.Within tmpEntry
  | .finish | .returned _ => True

/-- The invariant. -/
structure DeleteInv (call : DeleteCall) (removed : VmOffset → Prop) (s : DeleteState) : Prop where
  sorted : EntriesSorted s.entries
  pc : s.PcInv call removed s.pc

/-- A step that takes a kernel wiring away from the address. -/
def MapEvent.kernelUnwires (address : VmOffset) : MapEvent → Bool
  | .unwired entry true => decide (entry.Contains address)
  | _ => false

/-- What a step removes is in the region, and no kernel wiring from an address from which
there was one removed before. -/
structure StepRemoves (call : DeleteCall) (removed : VmOffset → Prop) (events : List MapEvent) :
    Prop where
  deleted : ∀ e, .deleted e ∈ events → call.InRegion e
  unwired : ∀ e kernel, .unwired e kernel ∈ events → call.InRegion e
  once : ∀ a, events.countP (kernelUnwires a) ≤ 1
  again : ∀ a, removed a → events.countP (kernelUnwires a) = 0

/-- The addresses from which a kernel wiring was removed, after a step. -/
def RemovedAfter (removed : VmOffset → Prop) (events : List MapEvent) (a : VmOffset) : Prop :=
  removed a ∨ 0 < events.countP (kernelUnwires a)

variable {removed : VmOffset → Prop} {events : List MapEvent}

/-- An event that takes an entry or wirings away. -/
def MapEvent.removes : MapEvent → Bool
  | .deleted _ | .unwired _ _ => true
  | _ => false

section

variable (h : ∀ event ∈ events, event.removes = false)

include h

/-- Events of other kinds take no kernel wiring away. -/
theorem countP_kernelUnwires (a : VmOffset) : events.countP (kernelUnwires a) = 0 := by
  refine countP_eq_zero.mpr fun event hevent => ?_
  have hremoves := h event hevent
  cases event with
  | deleted e => cases hremoves
  | unwired e kernel => cases hremoves
  | _ => simp [kernelUnwires]

/-- Events of other kinds remove nothing. -/
theorem stepRemoves_of_not : StepRemoves call removed events := by
  refine ⟨fun e he => ?_, fun e kernel he => ?_, fun a => ?_, fun a _ => ?_⟩
  · exact absurd (h _ he) (by simp [removes])
  · exact absurd (h _ he) (by simp [removes])
  · rw [countP_kernelUnwires h]
    exact Nat.zero_le 1
  · exact countP_kernelUnwires h a

/-- Events of other kinds leave the addresses from which a kernel wiring was removed. -/
theorem removedAfter_of_not : RemovedAfter removed events = removed := by
  funext a
  simp [RemovedAfter, countP_kernelUnwires h]

end

/-- Removing less, there is still nothing to come again. -/
theorem Ahead.sublist {l : List VmMapEntry} (h : Ahead call removed after) (hl : l ⊆ after) :
    Ahead call removed l :=
  ⟨fun e he => h.start_le e (hl he), fun a ha e he => h.past a ha e (hl he)⟩

/-- Clipping the first entry keeps what is ahead. -/
theorem Ahead.clipEnd (h : Ahead call removed (entry :: after)) (hs : entry.vmeStart < call.end) :
    Ahead call removed ((vmMapClipEnd entry after call.end).1 ::
      (vmMapClipEnd entry after call.end).2) := by
  unfold vmMapClipEnd
  split
  · have hstart := h.start_le entry (by simp)
    refine ⟨fun e he => ?_, fun a ha e he hle => ?_⟩
    · rcases mem_cons.mp he with rfl | he
      · exact hstart
      rcases mem_cons.mp he with rfl | he
      · change call.start ≤ call.end
        bv_omega
      · exact h.start_le e (by simp [he])
    · rcases mem_cons.mp he with rfl | he
      · exact h.past a ha entry (by simp) hle
      rcases mem_cons.mp he with rfl | he
      · have hle' : call.end ≤ a := hle
        exact h.past a ha entry (by simp) (by bv_omega)
      · exact h.past a ha e (by simp [he]) hle
  · exact h

/-- The clip at the end leaves an entry that ends there. -/
theorem vmMapClipEnd_le (entry : VmMapEntry) (after : List VmMapEntry) (address : VmOffset) :
    (vmMapClipEnd entry after address).1.vmeEnd ≤ address := by
  unfold vmMapClipEnd
  split
  · exact BitVec.le_refl address
  · rename_i h
    exact BitVec.not_lt.mp h

/-- After a wait a call finds an entry of its region, and not from before the address it
waited at if it takes kernel wirings away. -/
def DeleteState.FindsRegion (s : DeleteState) (call : DeleteCall) (address : VmOffset) : Prop :=
  ∃ entry, entry ∈ (vmMapLookupEntry s.entries address).2.2.head? ∧
    call.InRegion entry ∧ (call.flags.kunwire = true → address ≤ entry.vmeStart)

/-- A call that takes kernel wirings away waits for others to go away only when it has
taken the user's from the entry. -/
def DeleteState.WaitsOnce (s : DeleteState) (call : DeleteCall) : Prop :=
  ∀ entry, entry ∈ s.after.head? → entry.inTransition = false ∧ entry.wiredCount ≠ 0 ∧
    (DeleteState.unwire call entry).wiredCount ≠ 0 ∧ call.flags.waitForKwire = true ∧
      call.flags.kunwire = true → 0 < entry.userWiredCount

/-- The condition on a step. -/
def DeleteEvent.InBounds (call : DeleteCall) (e : DeleteEvent) : Prop :=
  e.action.runs = true →
    (∀ address, address ∈ e.state.pc.waitsAt → DeleteState.FindsRegion e.state call address) ∧
    (e.state.pc = .retryEntry → DeleteState.WaitsOnce e.state call)

instance (s : DeleteState) (call : DeleteCall) (address : VmOffset) :
    Decidable (s.FindsRegion call address) :=
  inferInstanceAs (Decidable (∃ _, _ ∧ _))

instance (s : DeleteState) (call : DeleteCall) : Decidable (s.WaitsOnce call) :=
  inferInstanceAs (Decidable (∀ _, _ → _))

instance (call : DeleteCall) (e : DeleteEvent) : Decidable (DeleteEvent.InBounds call e) :=
  -- Not by trying all addresses.
  have := @Option.decidableForallMem _ (DeleteState.FindsRegion e.state call) _ e.state.pc.waitsAt
  inferInstanceAs (Decidable (_ → _ ∧ _))

namespace DeleteInv

/-- The test of the loop. -/
theorem loopStep (h : DeleteInv call removed s) (hpc : s.pc = .loop) :
    DeleteInv call removed (s.loopStep call) := by
  have hinv := h.pc
  rw [hpc] at hinv
  obtain ⟨hlocked, hahead⟩ := hinv
  have hsorted := h.sorted
  unfold MapState.entries at hsorted
  unfold DeleteState.loopStep
  split
  · exact ⟨h.sorted, trivial⟩
  · rename_i entry after hafter
    rw [hafter] at hahead hsorted
    split
    · rename_i hlt
      refine ⟨hsorted.clipEnd hlt, hlocked, hahead.clipEnd hlt, ?_⟩
      exact ⟨_, _, rfl, vmMapClipEnd_le entry after call.end⟩
    · exact ⟨h.sorted, trivial⟩

/-- The lookup of the start of the region. -/
theorem lookupStep (h : DeleteInv call removed s) (hpc : s.pc = .lookup) :
    DeleteInv call removed (s.lookupStep call) := by
  have hinv := h.pc
  rw [hpc] at hinv
  obtain ⟨hlocked, hnone⟩ := hinv
  have hpast : ∀ l, Past removed l := fun l a ha => absurd ha (hnone a)
  have happend := vmMapLookupEntry_append s.entries call.start
  rcases hlook : vmMapLookupEntry s.entries call.start with ⟨found, before, after⟩
  rw [hlook] at happend
  have hsorted : EntriesSorted (before ++ after) := happend ▸ h.sorted
  unfold DeleteState.lookupStep
  rw [hlook]
  cases after with
  | nil => cases found <;> exact ⟨hsorted, hlocked, by simp, hpast _⟩
  | cons entry after =>
    have hlt : call.start < entry.vmeEnd := lt_vmeEnd_of_lookup (by rw [hlook])
    have hfound := lookup_found hlook
    have hafter : ∀ e ∈ after, call.start ≤ e.vmeStart := by
      intro e he
      have hle := hsorted.le_of_append he
      bv_omega
    cases found with
    | false =>
      have hentry : ¬entry.vmeStart ≤ call.start := by simpa using hfound
      refine ⟨hsorted, hlocked, fun e he => ?_, hpast _⟩
      rcases mem_cons.mp he with rfl | he
      · bv_omega
      · exact hafter e he
    | true =>
      have hentry : entry.vmeStart ≤ call.start := by simpa using hfound
      simp only [vmMapClipStart]
      split
      · rename_i hgt
        refine ⟨?_, hlocked, fun e he => ?_, hpast _⟩
        · have hstart : entry.vmeStart < call.start := hgt
          have hsplit := hsorted.split hstart hlt
          simpa [MapState.entries] using hsplit
        · rcases mem_cons.mp he with rfl | he
          · exact BitVec.le_refl call.start
          · exact hafter e he
      · rename_i hgt
        refine ⟨hsorted, hlocked, fun e he => ?_, hpast _⟩
        rcases mem_cons.mp he with rfl | he
        · have hle : ¬e.vmeStart < call.start := by simpa using hgt
          bv_omega
        · exact hafter e he

/-- Removing wirings of an entry from which no kernel wiring was removed before. -/
theorem stepRemoves_unwired {kernel : Bool} (hin : call.InRegion entry)
    (hpast : ∀ a, removed a → a < entry.vmeStart) (hends : ∀ event ∈ events, event.removes = false) :
    StepRemoves call removed (.unwired entry kernel :: events) := by
  have hcount : ∀ a, (unwired entry kernel :: events).countP (kernelUnwires a) =
      if kernelUnwires a (.unwired entry kernel) then 1 else 0 := by
    intro a
    rw [countP_cons, countP_kernelUnwires hends, Nat.zero_add]
  refine ⟨fun e he => ?_, fun e k he => ?_, fun a => ?_, fun a ha => ?_⟩
  · rcases mem_cons.mp he with heq | he
    · cases heq
    · exact absurd (hends _ he) (by simp [removes])
  · rcases mem_cons.mp he with heq | he
    · cases heq
      exact hin
    · exact absurd (hends _ he) (by simp [removes])
  · rw [hcount]
    split <;> omega
  · rw [hcount]
    have hlt := hpast a ha
    have hnot : ¬entry.Contains a := fun hc => absurd hlt (BitVec.not_lt.mpr hc.1)
    cases kernel <;> simp [kernelUnwires, hnot]

/-- The addresses from which a kernel wiring was removed when wirings of an entry were. -/
theorem removedAfter_unwired {kernel : Bool} {a : VmOffset}
    (hends : ∀ event ∈ events, event.removes = false)
    (h : RemovedAfter removed (.unwired entry kernel :: events) a) :
    removed a ∨ kernel = true ∧ entry.Contains a := by
  refine h.imp_right fun hcount => ?_
  rw [countP_cons, countP_kernelUnwires hends, Nat.zero_add] at hcount
  cases kernel with
  | false => simp [kernelUnwires] at hcount
  | true =>
    refine ⟨rfl, ?_⟩
    by_contra hnot
    simp [kernelUnwires, hnot] at hcount

/-- Work on an entry in the region, from `retry_entry` on. -/
theorem retryStep (h : DeleteInv call removed s) (hpc : s.pc = .retryEntry)
    (hstep : s.retryStep call = some (s', events))
    (hsafe : s.WaitsOnce call) :
    DeleteInv call (RemovedAfter removed events) s' ∧ StepRemoves call removed events := by
  have hinv := h.pc
  rw [hpc] at hinv
  obtain ⟨hlocked, hahead, entry, after, hafter, hend⟩ := hinv
  have hsorted := h.sorted
  rw [MapState.entries, hafter] at hsorted
  rw [hafter] at hahead
  have hstart := hahead.start_le entry (by simp)
  have hin : call.InRegion entry := ⟨hstart, hend⟩
  have hnone : ∀ event ∈ ([] : List MapEvent), event.removes = false := by simp
  simp only [DeleteState.retryStep, hafter] at hstep
  split at hstep
  · rename_i htransition
    have hwake : ∀ event ∈ wakeupIf s.needWakeup ++ [.waits entry.vmeStart],
        event.removes = false := by
      intro event hevent
      rcases mem_append.mp hevent with hevent | hevent
      · obtain rfl := eq_wakeup_of_mem hevent
        rfl
      · obtain rfl := mem_singleton.mp hevent
        rfl
    cases hstep
    rw [removedAfter_of_not hwake]
    refine ⟨⟨hsorted.congr (by simp [VmMapEntry.range, MapState.entries]), hstart,
      fun a ha => ?_⟩, stepRemoves_of_not hwake⟩
    by_contra hge
    have hpast := (hahead.past a ha entry (by simp) (BitVec.not_lt.mp hge)).2
    rw [htransition] at hpast
    cases hpast
  rename_i htransition
  split at hstep
  · rename_i hwired
    have hpast : ∀ a, removed a → a < entry.vmeStart := by
      intro a ha
      by_contra hge
      exact hwired (hahead.past a ha entry (by simp) (BitVec.not_lt.mp hge)).1
    split at hstep
    · rename_i hstill
      split at hstep
      · rename_i hwait
        cases hstep
        have hkernel : DeleteState.unwiresKernel call entry = false := by
          have huser : call.flags.kunwire = true → 0 < entry.userWiredCount := fun hk =>
            hsafe entry (by simp [hafter]) ⟨by simpa using htransition, hwired, hstill, hwait, hk⟩
          simpa [DeleteState.unwiresKernel] using huser
        refine ⟨⟨hsorted.congr (by simp [VmMapEntry.range, MapState.entries,
          DeleteState.unwire]), hstart, fun a ha => ?_⟩,
          stepRemoves_unwired hin hpast (by simp [removes])⟩
        rcases removedAfter_unwired (by simp [removes]) ha with ha | ⟨htrue, -⟩
        · exact hpast a ha
        · rw [hkernel] at htrue
          cases htrue
      · cases hstep
        refine ⟨⟨hsorted.congr (by simp [VmMapEntry.range, MapState.entries,
          DeleteState.unwire]), trivial⟩, ?_⟩
        exact stepRemoves_unwired hin hpast (by simp [removes])
    · rename_i hgone
      cases hstep
      have hsorted' : EntriesSorted (s.before ++ { DeleteState.unwire call entry with
          inTransition := true } :: after) :=
        hsorted.congr (by simp [VmMapEntry.range, DeleteState.unwire])
      refine ⟨⟨hsorted', ⟨hin, hsorted.nonempty entry (by simp)⟩, fun a ha => ?_,
        ⟨fun e he a hea ha => ?_, fun a ha => ⟨_, by simp [MapState.entries], ha⟩⟩,
        _, rfl, BitVec.le_refl _, BitVec.le_refl _⟩, stepRemoves_unwired hin hpast hnone⟩
      · rcases removedAfter_unwired hnone ha with ha | ⟨-, ha⟩
        · have hlt := hpast a ha
          have hne := hsorted.nonempty entry (by simp)
          change a < entry.vmeEnd
          bv_omega
        · exact ha.2
      · by_cases hmem : e ∈ s.before ++ after
        · exact absurd hea (hsorted'.not_contains hmem ha)
        · have heq : e = { DeleteState.unwire call entry with inTransition := true } := by
            simp only [MapState.entries, mem_append, mem_cons] at he hmem
            rcases he with he | he | he
            · exact absurd (Or.inl he) hmem
            · exact he
            · exact absurd (Or.inr he) hmem
          obtain rfl := heq
          exact ⟨⟨BitVec.le_refl _, BitVec.le_refl _⟩, by simpa using hgone⟩
  · rename_i hwired
    cases hstep
    have hnot : ∀ a, [deleted entry].countP (kernelUnwires a) = 0 := by
      simp [kernelUnwires]
    have hsame : RemovedAfter removed [deleted entry] = removed := by
      funext a
      simp [RemovedAfter, hnot]
    rw [hsame]
    refine ⟨⟨hsorted.sublist ?_, hlocked, hahead.sublist (by simp)⟩, fun e he => ?_,
      by simp, fun a => ?_, fun a _ => hnot a⟩
    · exact List.Sublist.append_left (sublist_cons_self entry after) s.before
    · obtain heq := mem_singleton.mp he
      cases heq
      exact hin
    · rw [hnot]
      exact Nat.zero_le 1

/-- Taking the lock and looking up leaves the entries. -/
theorem lockLookup_entries (s : DeleteState) (address : VmOffset) :
    (s.lockLookup address).entries = s.entries :=
  vmMapLookupEntry_append s.entries address

variable (h : DeleteInv call removed s)

include h

/-- The lookup after a wait, when it finds an entry of the region. -/
theorem wokenStep (hremoved : ∀ a, removed a → a < address)
    (hkunwire : ∀ a, removed a → call.flags.kunwire = true)
    (hfinds : s.FindsRegion call address) : DeleteInv call removed (s.wokenStep address) := by
  obtain ⟨entry, hhead, hin, hfrom⟩ := hfinds
  obtain ⟨after, hlook⟩ := head?_eq_some_iff.mp hhead
  have hsorted : EntriesSorted ((s.lockLookup address).before ++ entry :: after) := by
    have happend := lockLookup_entries s address
    rw [MapState.entries, show (s.lockLookup address).after = entry :: after from hlook] at happend
    rw [happend]
    exact h.sorted
  have hle : ∀ e ∈ entry :: after, entry.vmeStart ≤ e.vmeStart := by
    intro e he
    rcases mem_cons.mp he with rfl | he
    · exact BitVec.le_refl _
    · have hle := hsorted.le_of_append he
      have hne := hsorted.nonempty entry (by simp)
      bv_omega
  have hafter : (s.wokenStep address).after = entry :: after := hlook
  refine ⟨?_, rfl, ⟨?_, ?_⟩, entry, after, hafter, hin.2⟩
  · rw [MapState.entries, hafter]
    exact hsorted
  · rw [hafter]
    intro e he
    have h1 := hle e he
    have h2 := hin.1
    bv_omega
  · rw [hafter]
    intro a ha e he hea
    have h1 := hle e he
    have h2 := hfrom (hkunwire a ha)
    have h3 := hremoved a ha
    bv_omega

/-- After `vm_fault_unwire` a call finds the entry, or what it was clipped to, again: by a lookup,
or where its place is. The version need not tell whether others have had the lock. -/
theorem unwiredStep (hpc : s.pc = .faultUnwire tmpEntry) :
    DeleteInv call removed (s.unwiredStep tmpEntry).1 := by
  have hinv := h.pc
  rw [hpc] at hinv
  obtain ⟨⟨hin, hne⟩, hremoved, hwindow, hplace⟩ := hinv
  have hfirst : tmpEntry.Contains tmpEntry.vmeStart := ⟨BitVec.le_refl _, hne⟩
  -- The place after taking the lock, by either way of finding it.
  obtain ⟨s₁, hs₁, hentries, hlocked, entry, after, hafter, hwithin⟩ : ∃ s₁ : DeleteState,
      s₁ = s.relock tmpEntry.vmeStart ∧ s₁.entries = s.entries ∧ s₁.locked = true ∧
      ∃ entry after, s₁.after = entry :: after ∧ entry.Within tmpEntry := by
    refine ⟨_, rfl, ?_⟩
    unfold MapState.relock
    split
    · refine ⟨lockLookup_entries s _, rfl, ?_⟩
      obtain ⟨entry, hmem, hcontains⟩ := hwindow.cover _ hfirst
      obtain ⟨after, hafter⟩ := h.sorted.lookup_of_contains hmem hcontains
      exact ⟨entry, after, hafter, (hwindow.inside entry hmem _ hcontains hfirst).1⟩
    · obtain ⟨entry, hhead, hwithin⟩ := hplace
      obtain ⟨after, hafter⟩ := head?_eq_some_iff.mp hhead
      exact ⟨rfl, rfl, entry, after, hafter, hwithin⟩
  have hsorted : EntriesSorted (s₁.before ++ entry :: after) := by
    have hs := h.sorted
    rw [← hentries, MapState.entries, hafter] at hs
    exact hs
  have hnonempty : entry.vmeStart < entry.vmeEnd := hsorted.nonempty entry (by simp)
  have hmem : ∀ e ∈ entry :: after, e ∈ s.entries := by
    intro e he
    rw [← hentries, MapState.entries, hafter]
    exact mem_append_right _ he
  have hle : ∀ e ∈ entry :: after, tmpEntry.vmeStart ≤ e.vmeStart := by
    intro e he
    rcases mem_cons.mp he with rfl | he
    · exact hwithin.1
    · have h1 := hsorted.le_of_append he
      have h2 := hwithin.1
      bv_omega
  have hafterSorted : EntriesSorted (entry :: after) :=
    hsorted.sublist (sublist_append_right _ _)
  have hres : (s.unwiredStep tmpEntry).1 = { s₁ with
      after := (clearTransition tmpEntry.vmeEnd (entry :: after)).1
      lastTimestamp := s₁.timestamp
      needWakeup := s₁.needWakeup || (clearTransition tmpEntry.vmeEnd (entry :: after)).2
      pc := .retryEntry } := by
    rw [← hafter, hs₁]
    rfl
  rw [hres]
  refine ⟨?_, hlocked, ⟨fun e he => ?_, fun a ha e he hea => ?_⟩, entry.unmark,
    (clearTransition tmpEntry.vmeEnd after).1, ?_, ?_⟩
  · refine hsorted.congr ?_
    simp only [MapState.entries, map_append, map_range_clearTransition]
  · obtain ⟨e', he', heq⟩ := mem_clearTransition hafterSorted he
    have hstart : e.vmeStart = e'.vmeStart := by
      rcases heq with rfl | ⟨rfl, -⟩ <;> rfl
    have h1 := hle e' he'
    have h2 := hin.1
    bv_omega
  · obtain ⟨e', he', heq⟩ := mem_clearTransition hafterSorted he
    have hlt := hremoved a ha
    rcases heq with rfl | ⟨rfl, hge⟩
    · have hstart : e'.vmeStart ≤ a := hea
      have hself : e'.Contains e'.vmeStart :=
        ⟨BitVec.le_refl _, hafterSorted.nonempty e' he'⟩
      refine ⟨(hwindow.inside e' (hmem e' he') _ hself ⟨hle e' he', ?_⟩).2, rfl⟩
      bv_omega
    · bv_omega
  · have hlt : entry.vmeStart < tmpEntry.vmeEnd := by
      have h1 := hwithin.2
      bv_omega
    simp [clearTransition, hlt]
  · have h1 := hwithin.2
    have h2 := hin.2
    change entry.vmeEnd ≤ call.end
    bv_omega

/-- What others do while the map is unlocked. -/
theorem others (hlocked : s.locked = false)
    (hothers : OthersLeave s.pc.held s.entries before after) :
    DeleteInv call removed { s with
      before
      after
      moved := true
      timestamp := s.timestamp + 1 } := by
  refine ⟨hothers.step.sorted h.sorted, ?_⟩
  have hinv := h.pc
  cases hpc : s.pc with
  | lookup | loop | retryEntry =>
    rw [hpc] at hinv
    exact absurd (hlocked.symm.trans hinv.1) (by simp)
  | waitTransition _ | waitKwire _ | finish | returned =>
    rw [hpc] at hinv
    exact hinv
  | faultUnwire tmpEntry =>
    rw [hpc] at hinv
    obtain ⟨hin, hremoved, hwindow, -⟩ := hinv
    have hheld : s.pc.held = some tmpEntry := by rw [hpc]; rfl
    rw [hheld] at hothers
    exact ⟨hin, hremoved, hwindow.others h.sorted hothers.step, hothers.place tmpEntry rfl⟩

end DeleteInv

/-- A kernel wiring is taken away by calls that are told to. -/
theorem kunwire_of_retryStep (h : s.retryStep call = some (s', events))
    (he : .unwired entry true ∈ events) : call.flags.kunwire = true := by
  have hkernel : ∀ e, DeleteState.unwiresKernel call e = true → call.flags.kunwire = true := by
    intro e he
    simp only [DeleteState.unwiresKernel, Bool.and_eq_true] at he
    exact he.1
  unfold DeleteState.retryStep at h
  split at h
  · cases h
  split at h
  · cases h
    rcases mem_append.mp he with he | he
    · cases eq_wakeup_of_mem he
    · simp at he
  split at h
  · dsimp only at h
    split at h
    · split at h
      all_goals
        cases h
        simp only [mem_cons, unwired.injEq, reduceCtorEq, not_mem_nil, or_false] at he
        exact hkernel _ he.2.symm
    · cases h
      simp only [mem_cons, unwired.injEq, not_mem_nil, or_false] at he
      exact hkernel _ he.2.symm
  · cases h
    simp at he

/-- A step within the condition keeps the invariant and removes what it may. -/
theorem DeleteInv.step {action : MapAction} (h : DeleteInv call removed s)
    (hkunwire : ∀ a, removed a → call.flags.kunwire = true)
    (hstep : s.step call action = some (s', events))
    (hothers : ∀ before after, action = .others before after →
      OthersLeave s.pc.held s.entries before after)
    (hbounds : DeleteEvent.InBounds call ⟨s, action, events⟩) :
    (DeleteInv call (RemovedAfter removed events) s' ∧ StepRemoves call removed events) ∧
      ∀ e, .unwired e true ∈ events → call.flags.kunwire = true := by
  have hquiet : ∀ {events : List MapEvent}, DeleteInv call removed s' →
      (∀ event ∈ events, event.removes = false) →
      (DeleteInv call (RemovedAfter removed events) s' ∧ StepRemoves call removed events) ∧
        ∀ e, .unwired e true ∈ events → call.flags.kunwire = true := by
    intro events hinv hevents
    rw [removedAfter_of_not hevents]
    exact ⟨⟨hinv, stepRemoves_of_not hevents⟩, fun e he => absurd (hevents _ he)
      (by simp [removes])⟩
  cases action with
  | run =>
    obtain ⟨hfinds, hwaits⟩ := hbounds rfl
    cases hpc : s.pc with
    | lookup =>
      simp only [DeleteState.step, hpc] at hstep
      cases hstep
      exact hquiet (h.lookupStep hpc) (by simp)
    | loop =>
      simp only [DeleteState.step, hpc] at hstep
      cases hstep
      exact hquiet (h.loopStep hpc) (by simp)
    | retryEntry =>
      simp only [DeleteState.step, hpc] at hstep
      exact ⟨h.retryStep hpc hstep (hwaits hpc), fun e he => kunwire_of_retryStep hstep he⟩
    | waitTransition address | waitKwire address =>
      simp only [DeleteState.step, hpc] at hstep
      cases hstep
      have hinv := h.pc
      rw [hpc] at hinv
      have hfinds := hfinds address (by simp [hpc, DeletePc.waitsAt])
      exact hquiet (h.wokenStep hinv.2 hkunwire hfinds) (by simp)
    | faultUnwire tmpEntry =>
      simp only [DeleteState.step, hpc, Option.some.injEq] at hstep
      have hinv := h.unwiredStep hpc
      have hevents : events = (s.unwiredStep tmpEntry).2 := (congrArg Prod.snd hstep).symm
      rw [hstep] at hinv
      refine hquiet hinv ?_
      rw [hevents]
      simp [DeleteState.unwiredStep, removes]
    | finish =>
      simp only [DeleteState.step, hpc] at hstep
      cases hstep
      refine hquiet ⟨h.sorted, trivial⟩ fun event hevent => ?_
      rcases mem_append.mp hevent with hevent | hevent
      · obtain rfl := eq_wakeup_of_mem hevent
        rfl
      · obtain rfl := mem_singleton.mp hevent
        rfl
    | returned =>
      simp only [DeleteState.step, hpc, reduceCtorEq] at hstep
  | interrupt =>
    simp only [DeleteState.step] at hstep
    split at hstep
    · split at hstep
      · cases hstep
        exact hquiet ⟨h.sorted, trivial⟩ (by simp [removes])
      · cases hstep
    · split at hstep
      · cases hstep
        exact hquiet ⟨h.sorted, trivial⟩ (by simp [removes])
      · cases hstep
    · cases hstep
  | others before after =>
    simp only [DeleteState.step, MapState.others] at hstep
    split at hstep
    · cases hstep
    · rename_i hlocked
      cases hstep
      exact hquiet (h.others (by simpa using hlocked) (hothers before after rfl)) (by simp)

/-- What a run of a call removes. -/
def removedEvents (trace : List DeleteEvent) : List MapEvent := trace.flatMap MapStep.events

/-- The kernel wirings a run takes away from an address. -/
def kernelUnwirings (trace : List DeleteEvent) (address : VmOffset) : ℕ :=
  (removedEvents trace).countP (kernelUnwires address)

variable {init : DeleteState} {trace : List DeleteEvent}

/-- A run within the condition keeps the invariant. -/
theorem DeleteRun.inv (hinit : init.Initial) (h : DeleteRun call init trace s)
    (hbounds : ∀ e ∈ trace, DeleteEvent.InBounds call e) :
    DeleteInv call (fun a => 0 < kernelUnwirings trace a) s ∧
      ((∀ e, .deleted e ∈ removedEvents trace → call.InRegion e) ∧
        ∀ e kernel, .unwired e kernel ∈ removedEvents trace → call.InRegion e) ∧
      (∀ a, kernelUnwirings trace a ≤ 1) ∧
      ∀ a, 0 < kernelUnwirings trace a → call.flags.kunwire = true := by
  induction h with
  | nil =>
    refine ⟨⟨hinit.sorted, ?_⟩, by simp [removedEvents],
      by simp [kernelUnwirings, removedEvents], by simp [kernelUnwirings, removedEvents]⟩
    rw [hinit.pc]
    exact ⟨hinit.locked, by simp [kernelUnwirings, removedEvents]⟩
  | @cons trace s s' action events _ hstep hothers ih =>
    obtain ⟨hinv, ⟨hdeleted, hunwired⟩, honce, hkunwire⟩ := ih fun e he => hbounds e (by simp [he])
    obtain ⟨⟨hinv', hremoves⟩, hkernel⟩ :=
      hinv.step hkunwire hstep hothers (hbounds _ (by simp))
    have hcount : ∀ a, kernelUnwirings (⟨s, action, events⟩ :: trace) a =
        events.countP (kernelUnwires a) + kernelUnwirings trace a := by
      intro a
      simp [kernelUnwirings, removedEvents]
    have hafter : RemovedAfter (fun a => 0 < kernelUnwirings trace a) events =
        fun a => 0 < kernelUnwirings (⟨s, action, events⟩ :: trace) a := by
      funext a
      simp only [RemovedAfter, hcount, eq_iff_iff]
      omega
    have hmem : ∀ event, event ∈ removedEvents (⟨s, action, events⟩ :: trace) →
        event ∈ events ∨ event ∈ removedEvents trace := by
      simp [removedEvents]
    refine ⟨hafter ▸ hinv', ⟨fun e he => ?_, fun e kernel he => ?_⟩, fun a => ?_, fun a ha => ?_⟩
    · exact (hmem _ he).elim (hremoves.deleted e) (hdeleted e)
    · exact (hmem _ he).elim (hremoves.unwired e kernel) (hunwired e kernel)
    · rw [hcount]
      have h1 := hremoves.once a
      have h2 := hremoves.again a
      have h3 := honce a
      omega
    · rw [hcount] at ha
      by_cases hbefore : 0 < kernelUnwirings trace a
      · exact hkunwire a hbefore
      · obtain ⟨event, hevent, hk⟩ := countP_pos_iff.mp
          (show 0 < events.countP (kernelUnwires a) by omega)
        cases event with
        | unwired e kernel =>
          cases kernel with
          | true => exact hkernel e hevent
          | false => simp [kernelUnwires] at hk
        | _ => simp [kernelUnwires] at hk

/-- A deletion within the condition removes and unwires entries inside its region only, and
at most one kernel wiring from each address. -/
theorem deletion_in_region (hinit : init.Initial) (h : DeleteRun call init trace s)
    (hbounds : ∀ e ∈ trace, DeleteEvent.InBounds call e) :
    (∀ e, .deleted e ∈ removedEvents trace → call.InRegion e) ∧
      (∀ e kernel, .unwired e kernel ∈ removedEvents trace → call.InRegion e) ∧
      ∀ a, kernelUnwirings trace a ≤ 1 := by
  obtain ⟨-, ⟨hdeleted, hunwired⟩, honce, -⟩ := h.inv hinit hbounds
  exact ⟨hdeleted, hunwired, honce⟩

/-- Let a call and others act. -/
def DeleteState.follow (call : DeleteCall) (s : DeleteState) (actions : List MapAction) :
    Option (List DeleteEvent × DeleteState) :=
  MachVirtuTerm.follow (fun s action => DeleteState.step s call action) DeletePc.held s actions

/-- An entry of one page that another thread has in transition. -/
def pageInTransition : VmMapEntry where
  vmeStart := 0x1000
  vmeEnd := 0x2000
  object := none
  offset := 0
  isShared := false
  isSubMap := false
  inTransition := true
  needsWakeup := false
  behavior := 0
  needsCopy := false
  protection := 3
  maxProtection := 7
  inheritance := 1
  wiredCount := 0
  userWiredCount := 0

/-- The page after it. -/
def nextPage : VmMapEntry :=
  { pageInTransition with vmeStart := 0x2000, vmeEnd := 0x3000, inTransition := false }

/-- A call on a map of the two pages. -/
def deleteFirstPage : DeleteState where
  before := []
  after := [pageInTransition, nextPage]
  minOffset := 0
  maxOffset := 0xFFFFF000
  timestamp := 1
  locked := true
  moved := false
  needWakeup := false
  lastTimestamp := ~~~0
  pc := .lookup

/-- Such a call, to delete the first page. -/
def firstPage : DeleteCall := ⟨0x1000, 0x2000, ⟨true, false, false⟩⟩

/-- It begins as calls do. -/
theorem deleteFirstPage_initial : deleteFirstPage.Initial :=
  ⟨by decide, rfl, rfl, rfl, rfl⟩

/-- The page is wired when the transition is over: the call removes the wiring and the page. -/
theorem deletion_in_region_page :
    ∃ trace s, DeleteRun firstPage deleteFirstPage trace s ∧ s.pc = .returned .success ∧
      (∀ e, .deleted e ∈ removedEvents trace → firstPage.InRegion e) ∧
      (∀ e kernel, .unwired e kernel ∈ removedEvents trace → firstPage.InRegion e) ∧
      (∀ a, kernelUnwirings trace a ≤ 1) ∧ kernelUnwirings trace 0x1000 = 1 := by
  have hfollow : (deleteFirstPage.follow firstPage (replicate 6 (.run .quiet) ++
      .others [] [{ pageInTransition.unmark with wiredCount := 1 }, nextPage] ::
        replicate 3 (.run .quiet))).map
      (fun r => (decide (∀ e ∈ r.1, DeleteEvent.InBounds firstPage e), r.2.pc, kernelUnwirings r.1 0x1000)) =
        some (true, .returned .success, 1) := by decide +kernel
  obtain ⟨⟨trace, s⟩, hfollow, hres⟩ := map_eq_some_iff.mp hfollow
  obtain ⟨hbounds, hres⟩ := Prod.mk.inj hres
  obtain ⟨hpc, honce⟩ := Prod.mk.inj hres
  have hrun := mapRun_of_follow hfollow
  obtain ⟨hdeleted, hunwired, hcount⟩ :=
    deletion_in_region deleteFirstPage_initial hrun (of_decide_eq_true hbounds)
  exact ⟨trace, s, hrun, hpc, hdeleted, hunwired, hcount, honce⟩

/-- When another thread has deleted the page that was in transition, the next page is
deleted, outside of the region. -/
theorem deletion_after_wait_strays :
    ∃ trace s, DeleteRun firstPage deleteFirstPage trace s ∧
      .deleted nextPage ∈ removedEvents trace ∧ ¬firstPage.InRegion nextPage := by
  have hfollow : (deleteFirstPage.follow firstPage (.run .quiet :: .run .quiet :: .others [] [nextPage] ::
      replicate 3 (.run .quiet))).map (fun r => decide (.deleted nextPage ∈ removedEvents r.1)) =
        some true := by decide +kernel
  obtain ⟨⟨trace, s⟩, hfollow, hres⟩ := map_eq_some_iff.mp hfollow
  exact ⟨trace, s, mapRun_of_follow hfollow, of_decide_eq_true hres, by decide⟩

end MachVirtuTerm
