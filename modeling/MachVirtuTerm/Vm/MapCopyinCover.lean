import MachVirtuTerm.Vm.MapCopyinProtection

/-!
# The entries that are copied in

While a call of `vm_map_copyin_common` works, the entries it has made tile the region from its
start to where the call is, and each address in them was mapped. The call leaves the map denoting
what it did, and gets nearer to the end of the region, unless others change the map or a copy is
to be made again.
-/

namespace MachVirtuTerm

open SameMap MapState

namespace CopyinState

/-- All that the entries map has a property. -/
def MapHolds (Q : VmOffset → VmMapEntry → Prop) (entries : List VmMapEntry) : Prop :=
  ∀ address view, Maps entries address view → Q address view

/-- Each address in the entries was mapped. -/
def Seen (Q : VmOffset → VmMapEntry → Prop) (entries : List VmMapEntry) : Prop :=
  ∀ e ∈ entries, ∀ address, e.Contains address → ∃ view, Q address view

/-- What holds of all that is mapped: the map starts at its `min_offset`, and wired memory has an
object. -/
structure Mappable (minOffset : VmOffset) (Q : VmOffset → VmMapEntry → Prop) : Prop where
  min_le : ∀ address view, Q address view → minOffset ≤ address
  wired : ∀ address view, Q address view → view.wiredCount ≠ 0 → view.object ≠ none

variable (call : CopyinCall) (Q : VmOffset → VmMapEntry → Prop) (F : KernReturn → Prop)

/-- The map, whoever has the lock. -/
structure MapInv (entries : List VmMapEntry) (minOffset : VmOffset) : Prop where
  sorted : EntriesSorted entries
  holds : MapHolds Q entries
  mappable : Mappable minOffset Q

/-- What was copied up to an address before the end. -/
structure CopiedTo (copyEntries : List VmMapEntry) (srcStart : VmOffset) : Prop where
  tiles : EntriesTile call.srcStart copyEntries srcStart
  seen : Seen Q copyEntries
  lt : srcStart < call.srcEnd

/-- The whole region was copied. -/
structure Covered (copyEntries : List VmMapEntry) : Prop where
  tiles : EntriesTile call.srcStart copyEntries call.srcEnd
  seen : Seen Q copyEntries
  lt : call.srcStart < call.srcEnd

/-- What is being copied. -/
structure CopyOk (c : Copying) : Prop where
  copied : CopiedTo call Q c.copyEntries c.srcStart
  start : c.newEntry.vmeStart = c.srcStart
  nonempty : c.srcStart < c.newEntry.vmeEnd
  le : c.newEntry.vmeEnd ≤ call.srcEnd
  seen : ∀ address, c.newEntry.Contains address → ∃ view, Q address view

/-- The copy can be made again. -/
structure Restartable (c : Copying) : Prop where
  object : c.newEntry.object = c.srcObject
  wired : c.wasWired = true → c.srcObject ≠ none

/-- The entry at the place starts there. -/
def AtStart (srcStart : VmOffset) (s : CopyinState) : Prop :=
  ∃ entry after, s.after = entry :: after ∧ entry.vmeStart = srcStart

/-- Why a call fails: there is a gap, an entry cannot be read, or an object cannot be copied. -/
inductive Explained : KernReturn → Prop
  | gap : Explained .invalidAddress
  | unreadable {copyEntries : List VmMapEntry} {srcStart : VmOffset} {view : VmMapEntry}
    (hcopied : CopiedTo call Q copyEntries srcStart) (hmapped : Q srcStart view)
    (hread : ¬view.Readable call.useMaxprot) : Explained .protectionFailure
  | object {kr : KernReturn} (hlt : call.srcStart < call.srcEnd) (hkr : F kr) : Explained kr

/-- What holds at each place of the call. -/
def CoverInv (s : CopyinState) : Prop :=
  match s.pc with
  | .enter => MapInv Q s.entries s.minOffset ∧ s.locked = false
  | .newEntry srcStart copyEntries version =>
    MapInv Q s.entries s.minOffset ∧ CopiedTo call Q copyEntries srcStart ∧
      (version = s.timestamp → AtStart srcStart s)
  | .loop srcStart copyEntries =>
    MapInv Q s.entries s.minOffset ∧ CopiedTo call Q copyEntries srcStart ∧ s.locked = true ∧
      AtStart srcStart s
  | .restartCopy c =>
    MapInv Q s.entries s.minOffset ∧ CopyOk call Q c ∧ Restartable c ∧ s.locked = true ∧
      AtStart c.srcStart s
  | .copying c version =>
    MapInv Q s.entries s.minOffset ∧ CopyOk call Q c ∧ Restartable c ∧
      (version = s.timestamp → AtStart c.srcStart s)
  | .destroy copyEntries _ => call.srcDestroy = true ∧ Covered call Q copyEntries
  | .returned kr copyEntries =>
    s.locked = false ∧ (kr = .success ∧ Covered call Q copyEntries ∨ Explained call Q F kr)

/-- How far a call is from its end. -/
def rank (s : CopyinState) : ℕ :=
  match s.pc with
  | .enter => 4 * (call.srcEnd.toNat - call.srcStart.toNat) + 3
  | .newEntry srcStart _ _ => 4 * (call.srcEnd.toNat - srcStart.toNat) + 3
  | .loop srcStart _ => 4 * (call.srcEnd.toNat - srcStart.toNat) + 2
  | .restartCopy c => 4 * (call.srcEnd.toNat - c.srcStart.toNat) + 1
  | .copying c version =>
    4 * (call.srcEnd.toNat - c.srcStart.toNat) + if version = s.timestamp then 0 else 3
  | _ => 0

/-- What a step from a map comes to. -/
structure Outcome (entries : List VmMapEntry) (minOffset : VmOffset) (bound : ℕ)
    (s : CopyinState) : Prop where
  inv : CoverInv call Q F s
  same : SameMap entries s.entries
  minOffset : s.minOffset = minOffset
  rank : rank call s ≤ bound

variable {call Q F} {s s' : CopyinState} {c : Copying} {entry : VmMapEntry}
  {after copyEntries entries : List VmMapEntry} {srcStart : VmOffset} {bound : ℕ}
  {events : List CopyEvent} {oracle : CopyinOracle}

/-- What maps the same has the same properties. -/
theorem MapHolds.same (h : MapHolds Q entries) {entries' : List VmMapEntry}
    (hsame : SameMap entries entries') : MapHolds Q entries' := fun address view hmaps =>
  h address view ((hsame address view).mp hmaps)

/-- An address of an entry is mapped. -/
theorem maps_of_mem {address : VmOffset} (he : entry ∈ entries) (hc : entry.Contains address) :
    Maps entries address (entry.view address) := ⟨entry, he, hc, rfl⟩

/-- The region is not empty. -/
theorem CopiedTo.region (h : CopiedTo call Q copyEntries srcStart) :
    call.srcStart < call.srcEnd := by
  have hle := h.tiles.le
  have hlt := h.lt
  bv_omega

/-! ## Failure -/

/-- A call that fails. -/
theorem ret_outcome {kr : KernReturn} {minOffset : VmOffset} (hkr : Explained call Q F kr)
    (hentries : s.entries = entries) (hmin : s.minOffset = minOffset) :
    Outcome call Q F entries minOffset bound (s.ret kr) := by
  subst hentries hmin
  exact ⟨⟨rfl, .inr hkr⟩, refl _, rfl, Nat.zero_le _⟩

/-! ## Success -/

/-- The copy of an entry succeeds. -/
theorem successStep_outcome (hmap : MapInv Q (s.before ++ entry :: after) s.minOffset)
    (hc : CopyOk call Q c) :
    ∃ s', s.successStep call c entry after = some s' ∧
      Outcome call Q F (s.before ++ entry :: after) s.minOffset
        (4 * (call.srcEnd.toNat - c.srcStart.toNat) - 1) s' := by
  have htiles := hc.copied.tiles.concat hc.start hc.nonempty
  have hseen : Seen Q (c.copyEntries ++ [c.newEntry]) := by
    intro e he
    rcases List.mem_append.mp he with he | he
    · exact hc.copied.seen e he
    · rw [List.mem_singleton.mp he]
      exact hc.seen
  have hlt := hc.nonempty
  have hle := hc.le
  have hregion : call.srcStart < call.srcEnd := hc.copied.region
  unfold successStep
  dsimp only
  by_cases hend : c.newEntry.vmeEnd ≥ call.srcEnd ∧ call.srcEnd ≠ 0
  · have heq : c.newEntry.vmeEnd = call.srcEnd := BitVec.le_antisymm hle hend.1
    rw [heq] at htiles
    rw [if_pos hend]
    by_cases hdestroy : call.srcDestroy = true
    · rw [if_pos hdestroy]
      exact ⟨_, rfl, ⟨hdestroy, htiles, hseen, hregion⟩, refl _, rfl, Nat.zero_le _⟩
    · rw [if_neg hdestroy]
      exact ⟨_, rfl, ⟨rfl, .inl ⟨rfl, htiles, hseen, hregion⟩⟩, refl _, rfl, Nat.zero_le _⟩
  · have hne : call.srcEnd ≠ 0 := by
      have := hc.copied.lt
      bv_omega
    have hnext : c.newEntry.vmeEnd < call.srcEnd :=
      BitVec.not_le.mp fun hge => hend ⟨hge, hne⟩
    have hcopied : CopiedTo call Q (c.copyEntries ++ [c.newEntry]) c.newEntry.vmeEnd :=
      ⟨htiles, hseen, hnext⟩
    rw [if_neg hend]
    cases after with
    | nil =>
      have hmin : s.minOffset ≠ c.newEntry.vmeEnd := by
        obtain ⟨view, hview⟩ := hc.seen c.srcStart ⟨BitVec.le_of_eq hc.start, hlt⟩
        have := hmap.mappable.min_le _ _ hview
        bv_omega
      exact ⟨_, if_pos hmin, ret_outcome .gap rfl rfl⟩
    | cons next rest =>
      by_cases hgap : next.vmeStart ≠ c.newEntry.vmeEnd
      · exact ⟨_, if_pos hgap, ret_outcome .gap rfl rfl⟩
      · have hentries : s.before ++ [entry] ++ next :: rest =
            s.before ++ entry :: next :: rest := by simp
        have hsame : SameMap (s.before ++ entry :: next :: rest)
            (s.before ++ [entry] ++ next :: rest) := by
          rw [hentries]
          exact refl _
        rw [← hentries] at hmap
        refine ⟨_, if_neg hgap, ⟨hmap, hcopied, fun _ => ⟨next, rest, rfl, not_not.mp hgap⟩⟩,
          hsame, rfl, ?_⟩
        rw [BitVec.lt_def] at hlt hnext
        simp only [rank]
        omega

/-! ## Lookups -/

variable {minOffset : VmOffset}

/-- A map that denotes the same. -/
theorem MapInv.same (h : MapInv Q entries minOffset)
    {entries' : List VmMapEntry} (hsorted : EntriesSorted entries')
    (hsame : SameMap entries entries') : MapInv Q entries' minOffset :=
  ⟨hsorted, h.holds.same hsame, h.mappable⟩

/-- An entry that is found, with its start clipped. -/
theorem clipStart_found {before : List VmMapEntry} {minOffset : VmOffset}
    (hmap : MapInv Q entries minOffset)
    (hlookup : vmMapLookupEntry entries srcStart = (true, before, entry :: after)) :
    MapInv Q ((vmMapClipStart before entry srcStart).1 ++
        (vmMapClipStart before entry srcStart).2 :: after) minOffset ∧
      SameMap entries ((vmMapClipStart before entry srcStart).1 ++
        (vmMapClipStart before entry srcStart).2 :: after) ∧
      (vmMapClipStart before entry srcStart).2.vmeStart = srcStart := by
  obtain ⟨-, hcontains, hclip⟩ := clipStart_of_found hlookup
  have happend := vmMapLookupEntry_append entries srcStart
  rw [hlookup] at happend
  dsimp only at happend
  rw [← happend] at hmap ⊢
  have hsame := @sameMap_clipStart before after entry srcStart hcontains.2
  exact ⟨hmap.same (hmap.sorted.clipStart hcontains.2) hsame, hsame, by rw [hclip]⟩

/-- A lookup, to go on from there. -/
theorem lookupClip_outcome (hmap : MapInv Q s.entries s.minOffset)
    (hcopied : CopiedTo call Q copyEntries srcStart) (hlocked : s.locked = true) :
    Outcome call Q F s.entries s.minOffset
      (4 * (call.srcEnd.toNat - srcStart.toNat) + 2) (lookupClip s srcStart copyEntries) := by
  unfold lookupClip
  split
  · rename_i before entry after hlookup
    obtain ⟨hmap', hsame, hstart⟩ := clipStart_found hmap hlookup
    exact ⟨⟨hmap', hcopied, hlocked, _, _, rfl, hstart⟩, hsame, rfl, Nat.le_refl _⟩
  · exact ret_outcome .gap rfl rfl

/-- The beginning of a call. -/
theorem enterStep_outcome (hlen : call.len ≠ 0)
    (hround : call.srcStart < call.srcEnd ∨ call.srcEnd ≤ call.srcStart ∧ call.srcStart ≠ 0)
    (hmap : MapInv Q s.entries s.minOffset) (hlocked : s.locked = false) :
    Outcome call Q F s.entries s.minOffset
      (4 * (call.srcEnd.toNat - call.srcStart.toNat) + 2) (s.enterStep call) := by
  unfold enterStep
  rw [if_neg hlen]
  by_cases hwrong : call.srcEnd ≤ call.srcStart ∧
      (call.srcEnd < call.srcStart ∨ call.srcStart ≠ 0)
  · rw [if_pos hwrong]
    exact ⟨⟨hlocked, .inr .gap⟩, refl _, rfl, Nat.zero_le _⟩
  · rw [if_neg hwrong]
    have hlt : call.srcStart < call.srcEnd :=
      hround.resolve_right fun h => hwrong ⟨h.1, .inr h.2⟩
    have hcopied : CopiedTo call Q [] call.srcStart :=
      ⟨rfl, fun e he => absurd he List.not_mem_nil, hlt⟩
    exact @lookupClip_outcome call Q F (lock s) [] call.srcStart hmap hcopied rfl

/-- A new entry was created. -/
theorem newEntryStep_outcome {version : BitVec 32} (hmap : MapInv Q s.entries s.minOffset)
    (hcopied : CopiedTo call Q copyEntries srcStart)
    (hat : version = s.timestamp → AtStart srcStart s) :
    Outcome call Q F s.entries s.minOffset
      (4 * (call.srcEnd.toNat - srcStart.toNat) + 2)
      (s.newEntryStep srcStart copyEntries version) := by
  unfold newEntryStep
  dsimp only
  by_cases hversion : version + 1 ≠ s.lock.timestamp
  · rw [if_pos hversion]
    exact @lookupClip_outcome call Q F (lock s) copyEntries srcStart hmap hcopied rfl
  · rw [if_neg hversion]
    have hsame : version = s.timestamp := (BitVec.add_left_inj 1).mp (not_not.mp hversion)
    exact ⟨⟨hmap, hcopied, rfl, hat hsame⟩, refl _, rfl, Nat.le_refl _⟩

/-! ## An entry -/

/-- A wired entry has an object. -/
theorem object_ne_none (hmap : MapInv Q entries minOffset)
    (he : entry ∈ entries) (hwired : entry.wiredCount ≠ 0) : entry.object ≠ none := by
  have hcontains : entry.Contains entry.vmeStart :=
    ⟨BitVec.le_refl _, hmap.sorted.nonempty entry he⟩
  have hmapped := hmap.holds _ _ (maps_of_mem he hcontains)
  exact hmap.mappable.wired _ (entry.view entry.vmeStart) hmapped hwired

/-- What a clip of its end makes of an entry. -/
theorem clipEnd_eq {address : VmOffset} (hnonempty : entry.vmeStart < entry.vmeEnd)
    (hstart : entry.vmeStart < address) (after : List VmMapEntry) :
    ∃ vmeEnd, (vmMapClipEnd entry after address).1 = { entry with vmeEnd } ∧ vmeEnd ≤ address ∧
      vmeEnd ≤ entry.vmeEnd ∧ entry.vmeStart < vmeEnd := by
  unfold vmMapClipEnd
  split_ifs with hlt
  · exact ⟨address, rfl, BitVec.le_refl _, BitVec.le_of_lt hlt, hstart⟩
  · exact ⟨entry.vmeEnd, rfl, BitVec.not_lt.mp hlt, BitVec.le_refl _, hnonempty⟩

/-- A step that accepts a copy. -/
theorem accepted_outcome {o : Option CopyinState}
    (h : ∃ s', o = some s' ∧ Outcome call Q F entries minOffset bound s') :
    ∃ s' events', o.map (·, events) = some (s', events') ∧
      Outcome call Q F entries minOffset bound s' := by
  obtain ⟨s', rfl, houtcome⟩ := h
  exact ⟨s', events, rfl, houtcome⟩

/-- The entry at the place is looked at. -/
theorem loopStep_outcome (hmap : MapInv Q s.entries s.minOffset)
    (hcopied : CopiedTo call Q copyEntries srcStart) (hlocked : s.locked = true)
    (hat : AtStart srcStart s) :
    ∃ s' events, s.loopStep call oracle srcStart copyEntries = some (s', events) ∧
      Outcome call Q F s.entries s.minOffset (4 * (call.srcEnd.toNat - srcStart.toNat) + 1) s' := by
  obtain ⟨entry, after, hafter, hstart⟩ := hat
  have hentries : s.entries = s.before ++ entry :: after := by rw [entries, hafter]
  have hmem : entry ∈ s.entries := by rw [hentries]; simp
  have hlt := hcopied.lt
  have hnonempty := hmap.sorted.nonempty entry hmem
  have hcontains : entry.Contains srcStart := ⟨BitVec.le_of_eq hstart, hstart ▸ hnonempty⟩
  have hmapped := hmap.holds _ _ (maps_of_mem hmem hcontains)
  unfold loopStep
  rw [hafter]
  dsimp only
  by_cases hread : entry.Readable call.useMaxprot
  · rw [if_neg (not_not_intro hread)]
    obtain ⟨vmeEnd, hclip, hle, hle', hlt'⟩ := clipEnd_eq hnonempty (hstart ▸ hlt) after
    have hsame : SameMap (s.before ++ entry :: after) _ :=
      (@sameMap_clipEnd after entry call.srcEnd (hstart ▸ hlt)).place
    rw [hentries] at hmap ⊢
    have hmap' := hmap.same (hmap.sorted.clipEnd (hstart ▸ hlt)) hsame
    have hwired : entry.wiredCount ≠ 0 → entry.object ≠ none :=
      object_ne_none hmap (by simp)
    have hseen : ∀ address, entry.Contains address → ∃ view, Q address view := fun address hc =>
      ⟨_, hmap.holds _ _ (maps_of_mem (by simp) hc)⟩
    rw [hclip] at hsame hmap' ⊢
    generalize (vmMapClipEnd entry after call.srcEnd).2 = after' at hsame hmap' ⊢
    have hc : CopyOk call Q
        { srcStart
          srcSize := vmeEnd - srcStart
          srcObject := entry.object
          srcOffset := entry.offset
          wasWired := entry.wiredCount ≠ 0
          newEntry := { entry with vmeEnd }.copy
          copyEntries } :=
      ⟨hcopied, hstart, hstart ▸ hlt', hle, fun address hc => hseen address ⟨hc.1, by
        have hlt : address < vmeEnd := hc.2
        bv_omega⟩⟩
    by_cases hmove : call.srcDestroy = true ∧ entry.object.all oracle.internal = true
    · obtain ⟨s', hsuccess, houtcome⟩ := @successStep_outcome call Q F s _ _ _ hmap' hc
      have hrank := houtcome.rank
      dsimp only at hrank
      dsimp only
      rw [if_pos hmove]
      exact accepted_outcome ⟨s', hsuccess, houtcome.inv, hsame.trans houtcome.same,
        houtcome.minOffset, by omega⟩
    · refine ⟨_, _, if_neg hmove, ⟨hmap', hc, ⟨rfl, fun h => hwired (of_decide_eq_true h)⟩,
        hlocked, _, _, rfl, hstart⟩, hsame, rfl, Nat.le_refl _⟩
  · rw [if_pos hread]
    exact ⟨_, _, rfl, ret_outcome (.unreadable hcopied hmapped hread) rfl rfl⟩

/-- `RestartCopy`. -/
theorem restartCopyStep_outcome (hmap : MapInv Q s.entries s.minOffset) (hc : CopyOk call Q c)
    (hrestart : Restartable c) (hat : AtStart c.srcStart s) :
    ∃ s' events, s.restartCopyStep call oracle c = some (s', events) ∧
      Outcome call Q F s.entries s.minOffset (4 * (call.srcEnd.toNat - c.srcStart.toNat)) s' := by
  obtain ⟨entry, after, hafter, hstart⟩ := hat
  have hentries : s.entries = s.before ++ entry :: after := by rw [entries, hafter]
  unfold restartCopyStep
  rw [hafter]
  dsimp only
  cases hquick : (if c.wasWired then none else copyQuickly oracle c.newEntry.object) with
  | some answer =>
    obtain ⟨srcNeedsCopy, newEntryNeedsCopy⟩ := answer
    have hsame : SameMap (s.before ++ entry :: after) (s.before ++
        { entry with needsCopy := entry.needsCopy || srcNeedsCopy } :: after) :=
      (sameMap_needsCopy _).place
    rw [hentries] at hmap ⊢
    have hmap' := hmap.same (hmap.sorted.congr (by simp [VmMapEntry.range])) hsame
    have hc' : CopyOk call Q
        { c with newEntry := { c.newEntry with needsCopy := newEntryNeedsCopy } } :=
      ⟨hc.copied, hc.start, hc.nonempty, hc.le, hc.seen⟩
    obtain ⟨s', hsuccess, houtcome⟩ := @successStep_outcome call Q F s _ _ _ hmap' hc'
    have hrank := houtcome.rank
    dsimp only at hrank
    exact accepted_outcome ⟨s', hsuccess, houtcome.inv, hsame.trans houtcome.same,
      houtcome.minOffset, by omega⟩
  | none =>
    have hobject : c.srcObject ≠ none := by
      by_cases hwired : c.wasWired = true
      · exact hrestart.wired hwired
      · rw [if_neg hwired] at hquick
        intro hnone
        rw [hrestart.object, hnone] at hquick
        cases hquick
    obtain ⟨object, hobject⟩ := Option.ne_none_iff_exists'.mp hobject
    have hunlocked : Outcome call Q F s.entries s.minOffset
        (4 * (call.srcEnd.toNat - c.srcStart.toNat))
        { s.unlock with
          pc := .copying ({ c with newEntry := { c.newEntry with needsCopy := false } })
            s.timestamp } := by
      refine ⟨⟨hmap, ⟨hc.copied, hc.start, hc.nonempty, hc.le, hc.seen⟩,
        ⟨hrestart.object, hrestart.wired⟩, fun _ => ⟨entry, after, hafter, hstart⟩⟩,
        refl _, rfl, ?_⟩
      simp [rank, unlock]
    rw [← hafter] at *
    exact ⟨_, _, congrArg (Option.map _) hobject, hunlocked⟩

/-! ## The copy of an object -/

/-- The map is as it was, or has been verified. -/
theorem verifiedStep_outcome {restart : Bool} (hmap : MapInv Q s.entries s.minOffset)
    (hc : CopyOk call Q c) (hrestart : restart = true → Restartable c) (hlocked : s.locked = true)
    (hat : AtStart c.srcStart s) :
    ∃ s' events, s.verifiedStep call c restart = some (s', events) ∧
      Outcome call Q F s.entries s.minOffset
        (if restart then 4 * (call.srcEnd.toNat - c.srcStart.toNat) + 1
          else 4 * (call.srcEnd.toNat - c.srcStart.toNat) - 1) s' := by
  obtain ⟨entry, after, hafter, hstart⟩ := hat
  have hentries : s.entries = s.before ++ entry :: after := by rw [entries, hafter]
  unfold verifiedStep
  rw [hafter]
  dsimp only
  cases restart with
  | true =>
    rw [hentries] at hmap ⊢
    exact ⟨_, _, rfl, ⟨hmap, hc, hrestart rfl, hlocked, entry, after, rfl, hstart⟩,
      refl _, rfl, Nat.le_refl _⟩
  | false =>
    rw [hentries] at hmap ⊢
    exact accepted_outcome (successStep_outcome hmap hc)

/-- A copy that ends where the entry it is of ends now. -/
theorem CopyOk.shrink (hc : CopyOk call Q c) (hentry : c.srcStart < entry.vmeEnd) :
    CopyOk call Q (c.shrink entry) := by
  unfold Copying.shrink
  split_ifs with hlt
  · refine ⟨hc.copied, hc.start, hentry, ?_, fun address hcontains =>
      hc.seen address ⟨hcontains.1, ?_⟩⟩
    · have := hc.le
      dsimp only
      bv_omega
    · have hend : address < entry.vmeEnd := hcontains.2
      bv_omega
  · exact hc

theorem Restartable.shrink (hc : Restartable c) : Restartable (c.shrink entry) := by
  unfold Copying.shrink
  split_ifs
  · exact ⟨hc.object, hc.wired⟩
  · exact hc

@[simp] theorem srcStart_shrink (c : Copying) (entry : VmMapEntry) :
    (c.shrink entry).srcStart = c.srcStart := by
  unfold Copying.shrink
  split <;> rfl

/-- The verification that the map has not changed. -/
theorem copiedStep_outcome {version : BitVec 32} {restart : Bool} (hmap : MapInv Q s.entries s.minOffset)
    (hc : CopyOk call Q c) (hrestart : restart = true → Restartable c)
    (hat : version = s.timestamp → AtStart c.srcStart s) :
    ∃ s' events, s.copiedStep call c version restart = some (s', events) ∧
      Outcome call Q F s.entries s.minOffset
        (if version = s.timestamp then
          (if restart then 4 * (call.srcEnd.toNat - c.srcStart.toNat) + 1
            else 4 * (call.srcEnd.toNat - c.srcStart.toNat) - 1)
          else 4 * (call.srcEnd.toNat - c.srcStart.toNat) + 2) s' := by
  unfold copiedStep
  dsimp only
  by_cases hversion : version = s.timestamp
  · have heq : version + 1 = s.lock.timestamp := congrArg (· + 1) hversion
    rw [if_pos hversion, if_pos heq]
    exact @verifiedStep_outcome call Q F (lock s) c restart hmap hc hrestart rfl (hat hversion)
  · have hne : ¬version + 1 = s.lock.timestamp := fun h => hversion ((BitVec.add_left_inj 1).mp h)
    rw [if_neg hversion, if_neg hne]
    split
    · rename_i before entry after hlookup
      obtain ⟨hmap', hsame, hstart⟩ := clipStart_found hmap hlookup
      generalize (vmMapClipStart before entry c.srcStart).1 = before' at hmap' hsame ⊢
      generalize (vmMapClipStart before entry c.srcStart).2 = entry' at hmap' hsame hstart ⊢
      have hend : c.srcStart < entry'.vmeEnd :=
        hstart ▸ hmap'.sorted.nonempty entry' (by simp)
      have hfailed : Outcome call Q F s.entries s.minOffset
          (4 * (call.srcEnd.toNat - c.srcStart.toNat) + 2)
          { s.lock with
            before := before'
            after := entry' :: after
            pc := CopyinPc.loop c.srcStart c.copyEntries } :=
        ⟨⟨hmap', hc.copied, rfl, entry', after, rfl, hstart⟩, hsame, rfl, Nat.le_refl _⟩
      rw [recheckFails_eq_false, if_neg Bool.false_ne_true]
      by_cases hother : entry'.object ≠ (c.shrink entry').srcObject ∨
          entry'.offset ≠ (c.shrink entry').srcOffset
      · rw [if_pos hother]
        exact ⟨_, _, rfl, hfailed⟩
      · rw [if_neg hother]
        obtain ⟨s', events, hverified, houtcome⟩ := @verifiedStep_outcome call Q F
          { s.lock with
            before := before'
            after := entry' :: after } (c.shrink entry') restart hmap' (hc.shrink hend)
          (fun h => (hrestart h).shrink) rfl
          ⟨entry', after, rfl, by rw [srcStart_shrink, hstart]⟩
        refine ⟨s', events, hverified, houtcome.inv, hsame.trans houtcome.same,
          houtcome.minOffset, Nat.le_trans houtcome.rank ?_⟩
        rw [srcStart_shrink]
        split <;> omega
    · exact ⟨_, _, rfl, ret_outcome .gap rfl rfl⟩

/-- The copy of an object returns. -/
theorem copyingStep_outcome {version : BitVec 32} {answer : ObjectCopy}
    (hmap : MapInv Q s.entries s.minOffset) (hc : CopyOk call Q c) (hrestart : Restartable c)
    (hat : version = s.timestamp → AtStart c.srcStart s)
    (hfails : ∀ kr, answer = .failed kr → F kr) :
    ∃ s' events, s.copyingStep call c version answer = some (s', events) ∧
      Outcome call Q F s.entries s.minOffset
        (if version = s.timestamp then
          (if answer = .restart then 4 * (call.srcEnd.toNat - c.srcStart.toNat) + 1
            else 4 * (call.srcEnd.toNat - c.srcStart.toNat) - 1)
          else 4 * (call.srcEnd.toNat - c.srcStart.toNat) + 2) s' := by
  cases answer with
  | copied object offset needsCopy =>
    have hc' : CopyOk call Q (Copied c object offset needsCopy) :=
      ⟨hc.copied, hc.start, hc.nonempty, hc.le, hc.seen⟩
    exact copiedStep_outcome hmap hc' (fun h => nomatch h) hat
  | restart => exact copiedStep_outcome hmap hc (fun _ => hrestart) hat
  | failed kr => exact ⟨_, _, rfl, ret_outcome (.object hc.copied.region (hfails kr rfl)) rfl rfl⟩

end CopyinState

end MachVirtuTerm
