import MachVirtuTerm.Lib.Run
import MachVirtuTerm.Vm.MapCopyin
import Mathlib.Algebra.BigOperators.Group.List.Basic
import Mathlib.Data.Nat.Find
import Mathlib.Algebra.GroupWithZero.Nat

/-!
# Forking a map

`vm_map_fork` goes over the entries of a map and shares them with a new map, copies them or
leaves them out. Where an entry cannot be copied quickly, the map is unlocked for a call of
`vm_map_copyin_maxprot`, and the traversal goes on from a new lookup.
-/

open List Function

namespace MachVirtuTerm

def vmInheritShare : BitVec 2 := 0

def vmInheritCopy : BitVec 2 := 1

/-- What `vm_map_fork_share` learns about the object of an entry: whether its copy strategy is
symmetric, whether it has a shadow, its size, and the object that is allocated for an entry
without one or, if any, as a shadow. -/
structure ShareOracle where
  symmetric : Bool
  shadowed : Bool
  size : BitVec 32
  allocated : ℕ
  shadow : Option ℕ

/-- What `vm_map_copyin_maxprot` makes of an entry that can be read: a copy with this object and
offset, whether that and the source need to be copied, or no copy. -/
inductive EntryCopyin
  | copied (object : Option ℕ) (offset : VmOffset) (needsCopy srcNeedsCopy : Bool)
  | failed
  deriving DecidableEq

/-- What the calls of the routine to others return, for the entry at an address, and there for
each visit: whether `vm_object_copy_quickly` copies an object, and whether then the source and
the copy need to be copied; and what `vm_map_copyin_maxprot` does. -/
structure ForkOracle where
  share : VmOffset → ShareOracle
  quickly : VmOffset → ℕ → Option (Bool × Bool)
  copyin : VmOffset → ℕ → EntryCopyin

/-- Where a call is. -/
inductive ForkPc
  | traversal
  | panicked
  | returned
  deriving DecidableEq

/-- A call of `vm_map_fork`: the place in the entries of the old map, whether that is locked,
the entries of the new map, its `size`, and how often the entry at the place was visited
before. -/
structure ForkState where
  before : List VmMapEntry
  after : List VmMapEntry
  locked : Bool
  newEntries : List VmMapEntry
  newSize : BitVec 32
  visits : ℕ
  pc : ForkPc

/-- `vm_map_fork_share`: the old entry and the new one. -/
def vmMapForkShare (oracle : ShareOracle) (oldEntry : VmMapEntry) : VmMapEntry × VmMapEntry :=
  let oldEntry :=
    match oldEntry.object with
    | none =>
      { oldEntry with
        object := some oracle.allocated
        offset := 0 }
    | some _ =>
      if oracle.symmetric = false then oldEntry
      else if oldEntry.needsCopy ∨ oracle.shadowed ∨
          (oldEntry.isShared = false ∧ oracle.size > oldEntry.vmeEnd - oldEntry.vmeStart) then
        match oracle.shadow with
        | some object =>
          { oldEntry with
            object := some object
            offset := 0
            needsCopy := false }
        | none => { oldEntry with needsCopy := false }
      else oldEntry
  ({ oldEntry with isShared := true }, { oldEntry.copy with isShared := true })

/-- `vm_map_copyin_maxprot` of the range of an entry: the source entry after it, and the entry of
the copy. -/
def vmMapCopyinMaxprot (answer : EntryCopyin) (entry : VmMapEntry) :
    Option (VmMapEntry × VmMapEntry) :=
  if entry.maxProtection &&& vmProtRead = 0 then none
  else
    match answer with
    | .copied object offset needsCopy srcNeedsCopy =>
      some ({ entry with needsCopy := entry.needsCopy || srcNeedsCopy },
        { entry.copy with
          object
          offset
          needsCopy })
    | .failed => none

namespace ForkState

/-- The next entry, with the old one left as it is now and maybe a new one. -/
def goOn (s : ForkState) (oldEntry : VmMapEntry) (after newEntries : List VmMapEntry)
    (size : BitVec 32) : ForkState :=
  { s with
    before := s.before ++ [oldEntry]
    after
    newEntries := s.newEntries ++ newEntries
    newSize := s.newSize + size
    visits := 0 }

/-- `vm_map_fork_copy`, and what its caller does then. The test in `! lookup || max_protection &
(VM_PROT_READ == VM_PROT_NONE)` is the one of `recheckFails`. -/
def forkCopy (s : ForkState) (answer : EntryCopyin) (oldEntry : VmMapEntry)
    (after : List VmMapEntry) : ForkState :=
  let start := oldEntry.vmeStart
  let size := oldEntry.vmeEnd - oldEntry.vmeStart
  match vmMapCopyinMaxprot answer oldEntry with
  | none =>
    match vmMapLookupEntry (s.before ++ oldEntry :: after) start with
    | (true, before, last :: next) =>
      if last.maxProtection &&& comparison (vmProtRead = 0) ≠ 0 then
        { s with
          before := before ++ [last]
          after := next
          visits := 0 }
      else
        { s with
          before
          after := last :: next
          visits := s.visits + 1 }
    | (_, before, next) =>
      { s with
        before
        after := next
        visits := 0 }
  | some (oldEntry, newEntry) =>
    let s := { s with
      newEntries := s.newEntries ++ [newEntry]
      newSize := s.newSize + size
      visits := 0 }
    match vmMapLookupEntry (s.before ++ oldEntry :: after) (start + size) with
    | (true, before, last :: next) =>
      let (before, last) := vmMapClipStart before last (start + size)
      { s with
        before
        after := last :: next }
    | (_, before, next) =>
      { s with
        before
        after := next }

variable (oracle : ForkOracle)

/-- The quick copy of an entry that is not wired. -/
def quickCopy (visits : ℕ) (oldEntry : VmMapEntry) : Option (Bool × Bool) :=
  if oldEntry.wiredCount ≠ 0 then none
  else
    match oldEntry.object with
    | none => some (false, false)
    | some _ => oracle.quickly oldEntry.vmeStart visits

/-- A round of the traversal. -/
def step (s : ForkState) : ForkState :=
  if s.pc = .traversal then
    match s.after with
    | [] =>
      { s with
        locked := false
        pc := .returned }
    | oldEntry :: after =>
      let size := oldEntry.vmeEnd - oldEntry.vmeStart
      if oldEntry.isSubMap then { s with pc := .panicked }
      else if oldEntry.inheritance = vmInheritShare then
        let (oldEntry, newEntry) := vmMapForkShare (oracle.share oldEntry.vmeStart) oldEntry
        s.goOn oldEntry after [newEntry] size
      else if oldEntry.inheritance = vmInheritCopy then
        match quickCopy oracle s.visits oldEntry with
        | some (srcNeedsCopy, newEntryNeedsCopy) =>
          s.goOn { oldEntry with needsCopy := oldEntry.needsCopy || srcNeedsCopy } after
            [{ oldEntry.copy with needsCopy := newEntryNeedsCopy }] size
        | none => s.forkCopy (oracle.copyin oldEntry.vmeStart s.visits) oldEntry after
      else s.goOn oldEntry after [] 0
  else s

/-- The beginning of a call, with the old map locked. -/
def start (entries : List VmMapEntry) : ForkState where
  before := []
  after := entries
  locked := true
  newEntries := []
  newSize := 0
  visits := 0
  pc := .traversal

/-- Some rounds of the traversal. -/
def run (entries : List VmMapEntry) (rounds : ℕ) : ForkState :=
  (step oracle)^[rounds] (start entries)

end ForkState

end MachVirtuTerm

/-!
# What a fork comes to

The traversal leaves an entry once it has shared, copied or left it out, and visits an entry
that cannot be copied again and again. So a call returns exactly if each entry that is to be
copied is copied at some visit.
-/

namespace MachVirtuTerm

/-! ## Lookups at a place -/

/-- A lookup of an address between what is before a place and the end of the first entry from it
on. -/
theorem vmMapLookupEntry_place {before after : List VmMapEntry} {address : VmOffset}
    (hbefore : ∀ e ∈ before, e.vmeEnd ≤ address)
    (hafter : ∀ e, after.head? = some e → address < e.vmeEnd) :
    vmMapLookupEntry (before ++ after) address =
      (after.head?.any fun e => e.vmeStart ≤ address, before, after) := by
  have hpass : ∀ e ∈ before, decide (e.vmeEnd ≤ address) = true := by simpa using hbefore
  have hstop : after.takeWhile (fun e => decide (e.vmeEnd ≤ address)) = [] ∧
      after.dropWhile (fun e => decide (e.vmeEnd ≤ address)) = after := by
    cases after with
    | nil => exact ⟨rfl, rfl⟩
    | cons e after =>
      have hlt : ¬e.vmeEnd ≤ address := BitVec.not_le.mpr (hafter e rfl)
      simp [hlt]
  simp only [vmMapLookupEntry, takeWhile_append_of_pos hpass,
    dropWhile_append_of_pos hpass, hstop, append_nil]

/-- The start of an entry is found there. -/
theorem EntriesSorted.lookup_start {before after : List VmMapEntry} {e : VmMapEntry}
    (h : EntriesSorted (before ++ e :: after)) :
    vmMapLookupEntry (before ++ e :: after) e.vmeStart = (true, before, e :: after) := by
  rw [vmMapLookupEntry_place h.le_vmeStart (by
    rintro first ⟨⟩
    exact h.nonempty e (by simp))]
  simp

/-- A lookup of the end of an entry, with the clip if an entry starts there, leads to the place
after the entry. -/
theorem EntriesSorted.lookup_end {before after : List VmMapEntry} {e : VmMapEntry}
    (h : EntriesSorted (before ++ e :: after)) :
    vmMapLookupEntry (before ++ e :: after) e.vmeEnd =
      (after.head?.any fun next => next.vmeStart ≤ e.vmeEnd, before ++ [e], after) := by
  have hsplit : before ++ e :: after = before ++ [e] ++ after := by simp
  have hlt := h.nonempty e (by simp)
  rw [hsplit, vmMapLookupEntry_place]
  · intro first hfirst
    rcases mem_append.mp hfirst with hfirst | hfirst
    · exact BitVec.le_trans (h.le_vmeStart first hfirst) (BitVec.le_of_lt hlt)
    · obtain rfl := mem_singleton.mp hfirst
      exact BitVec.le_refl _
  · intro next hnext
    have hmem : next ∈ after := mem_of_head? hnext
    have hle := h.le_of_append hmem
    have hne := h.nonempty next (by simp [hmem])
    bv_omega

/-! ## The copy of one entry -/

namespace CopyinState

variable {before after : List VmMapEntry} {e : VmMapEntry} {s s' : CopyinState}

/-- The call of `vm_map_copyin_maxprot` for the range of an entry. -/
def entryCall (e : VmMapEntry) : CopyinCall :=
  ⟨e.vmeStart, e.vmeEnd - e.vmeStart, false, true, false⟩

/-- The local variables while the entry is copied. -/
def entryCopying (e : VmMapEntry) (needsCopy : Bool) : Copying :=
  ⟨e.vmeStart, e.vmeEnd - e.vmeStart, e.object, e.offset, e.wiredCount ≠ 0,
    { e.copy with needsCopy }, []⟩

/-- What the call for the range of an entry has come to. What it returns is what
`vmMapCopyinMaxprot` says of the entry. -/
def AtEntry (before after : List VmMapEntry) (e : VmMapEntry) (s : CopyinState) : Prop :=
  match s.pc with
  | .enter => s.entries = before ++ e :: after
  | .loop srcStart copyEntries =>
    s.before = before ∧ s.after = e :: after ∧ srcStart = e.vmeStart ∧ copyEntries = []
  | .restartCopy c => s.before = before ∧ s.after = e :: after ∧
    e.maxProtection &&& vmProtRead ≠ 0 ∧ ∃ needsCopy, c = entryCopying e needsCopy
  | .copying c version => s.before = before ∧ s.after = e :: after ∧
    e.maxProtection &&& vmProtRead ≠ 0 ∧ (∃ needsCopy, c = entryCopying e needsCopy) ∧
      version = s.timestamp
  | .returned kr copyEntries => ∃ answer, match vmMapCopyinMaxprot answer e with
    | some (old, new) =>
      kr = .success ∧ copyEntries = [new] ∧ s.entries = before ++ old :: after
    | none => kr ≠ .success ∧ s.entries = before ++ e :: after
  | _ => False

theorem srcEnd_entryCall (hend : roundPage e.vmeEnd = e.vmeEnd) :
    (entryCall e).srcEnd = e.vmeEnd := by
  rw [CopyinCall.srcEnd, entryCall, BitVec.add_comm, BitVec.sub_add_cancel, hend]

/-- The copy of the entry succeeds. -/
theorem successStep_entry (hend : roundPage e.vmeEnd = e.vmeEnd) (hpos : e.vmeEnd ≠ 0) {c : Copying}
    (hc : c.copyEntries = []) (hnew : c.newEntry.vmeEnd = e.vmeEnd) (entry : VmMapEntry) :
    s.successStep (entryCall e) c entry after =
      some { s with
        after := entry :: after
        locked := false
        pc := .returned .success [c.newEntry] } := by
  unfold successStep
  rw [hc, hnew, srcEnd_entryCall hend, if_pos ⟨BitVec.le_refl _, hpos⟩]
  rfl

/-- The call fails, and leaves the map as it was. -/
theorem failed_entry {kr : KernReturn} (hkr : kr ≠ .success) (hbefore : s.before = before)
    (hafter : s.after = e :: after) : AtEntry before after e (s.ret kr) := by
  refine ⟨.failed, ?_⟩
  have hentries : (s.ret kr).entries = before ++ e :: after := by
    rw [← hbefore, ← hafter]
    rfl
  simpa only [vmMapCopyinMaxprot, ite_self] using ⟨hkr, hentries⟩

/-- A step of the call, with nobody else at the map. -/
theorem AtEntry.step (h : s.AtEntry before after e) (hsorted : EntriesSorted (before ++ e :: after))
    (hstart : truncPage e.vmeStart = e.vmeStart) (hend : roundPage e.vmeEnd = e.vmeEnd)
    {oracle : CopyinOracle} (hcopy : oracle.copy ≠ .failed .success) {events : List CopyEvent}
    (hstep : s.step (entryCall e) (.run oracle) = some (s', events)) :
    s'.AtEntry before after e := by
  have hlt : e.vmeStart < e.vmeEnd := hsorted.nonempty e (by simp)
  have hpos : e.vmeEnd ≠ 0 := by
    rintro hzero
    rw [hzero] at hlt
    exact absurd hlt BitVec.not_lt_zero
  have hsrcEnd := srcEnd_entryCall hend
  unfold AtEntry at h
  unfold CopyinState.step at hstep
  cases hpc : s.pc with
  | enter =>
    simp only [hpc] at h hstep
    cases hstep
    have hlen : (entryCall e).len ≠ 0 := by
      change e.vmeEnd - e.vmeStart ≠ 0
      bv_omega
    have hsrcStart : (entryCall e).srcStart = e.vmeStart := hstart
    have hentries : s.lock.entries = before ++ e :: after := h
    rw [enterStep, if_neg hlen, hsrcEnd, hsrcStart, if_neg fun hle => BitVec.not_le.mpr hlt hle.1,
      lookupClip, hentries, hsorted.lookup_start]
    dsimp only
    rw [vmMapClipStart, if_neg (BitVec.lt_irrefl _)]
    exact ⟨rfl, rfl, rfl, rfl⟩
  | newEntry _ _ _ => simp only [hpc] at h
  | loop srcStart copyEntries =>
    simp only [hpc] at h hstep
    obtain ⟨hbefore, hafter, rfl, rfl⟩ := h
    rw [loopStep, hafter] at hstep
    dsimp only at hstep
    rw [vmMapClipEnd, hsrcEnd, if_neg (BitVec.lt_irrefl _)] at hstep
    by_cases hread : e.Readable (entryCall e).useMaxprot
    · rw [if_neg (not_not.mpr hread), if_neg (by simp [entryCall])] at hstep
      cases hstep
      exact ⟨hbefore, rfl, hread.2, e.needsCopy, rfl⟩
    · rw [if_pos hread] at hstep
      cases hstep
      exact failed_entry (by decide) hbefore hafter
  | restartCopy c =>
    simp only [hpc] at h hstep
    obtain ⟨hbefore, hafter, hread, needsCopy, rfl⟩ := h
    rw [restartCopyStep, hafter] at hstep
    dsimp only at hstep
    split at hstep
    next srcNeedsCopy newNeedsCopy hquick =>
      rw [successStep_entry hend hpos (by rfl) (by rfl)] at hstep
      cases hstep
      refine ⟨.copied e.object e.offset newNeedsCopy srcNeedsCopy, ?_⟩
      rw [vmMapCopyinMaxprot, if_neg hread]
      exact ⟨rfl, rfl, by rw [MapState.entries, hbefore]⟩
    next =>
      obtain ⟨_, -, hstep⟩ := Option.map_eq_some_iff.mp hstep
      cases hstep
      exact ⟨hbefore, hafter, hread, ⟨false, rfl⟩, rfl⟩
  | copying c version =>
    simp only [hpc] at h hstep
    obtain ⟨hbefore, hafter, hread, ⟨needsCopy, rfl⟩, rfl⟩ := h
    have hversion : s.timestamp + 1 = s.lock.timestamp := rfl
    have hlocked : s.lock.after = e :: after := hafter
    cases hresult : oracle.copy with
    | copied object offset new =>
      rw [hresult, copyingStep, copiedStep, if_pos hversion, verifiedStep, hlocked] at hstep
      dsimp only at hstep
      rw [if_neg (by decide), successStep_entry hend hpos (by rfl) (by rfl)] at hstep
      cases hstep
      refine ⟨.copied object (if e.wiredCount ≠ 0 then 0 else offset)
        (!decide (e.wiredCount ≠ 0) && new) false, ?_⟩
      rw [vmMapCopyinMaxprot, if_neg hread]
      refine ⟨rfl, by simp [Copied, entryCopying], ?_⟩
      rw [Bool.or_false, MapState.entries]
      exact congrArg (· ++ e :: after) hbefore
    | restart =>
      rw [hresult, copyingStep, copiedStep, if_pos hversion, verifiedStep, hlocked] at hstep
      cases hstep
      exact ⟨hbefore, rfl, hread, needsCopy, rfl⟩
    | failed kr =>
      rw [hresult] at hstep
      cases hstep
      exact failed_entry (fun hkr => hcopy (by rw [hresult, hkr])) hbefore hafter
  | destroy _ _ => simp only [hpc] at h
  | returned _ _ => simp only [hpc, reduceCtorEq] at hstep

/-- In a call for the range of an entry with nobody else at the map, what is returned is what
`vmMapCopyinMaxprot` says for some answer of the object calls. -/
theorem copyin_entry {init : CopyinState}
    {trace : List (CopyinState × CopyinOracle × List CopyEvent)}
    (hrun : Run (fun s l s' => s.step (entryCall e) (.run l.1) = some (s', l.2)) init trace s)
    (hcopy : ∀ x ∈ trace, x.2.1.copy ≠ .failed .success)
    (hsorted : EntriesSorted (before ++ e :: after)) (hstart : truncPage e.vmeStart = e.vmeStart)
    (hend : roundPage e.vmeEnd = e.vmeEnd) (hpc : init.pc = .enter)
    (hentries : init.entries = before ++ e :: after) : s.AtEntry before after e := by
  have hinit : init.AtEntry before after e := by
    unfold AtEntry
    rw [hpc]
    exact hentries
  exact @Run.invariant _ _ _ _ _ _ (fun _ l => l.1.copy ≠ .failed .success)
    (AtEntry before after e) hrun hcopy hinit
    fun _ _ _ h hok hstep => h.step hsorted hstart hend hok hstep

end CopyinState

/-! ## What becomes of an entry -/

/-- What a fork does not change of an entry of the old map. -/
def VmMapEntry.Kept (e e' : VmMapEntry) : Prop :=
  e' = { e with
    object := e'.object
    offset := e'.offset
    isShared := e'.isShared
    needsCopy := e'.needsCopy }

/-- An entry of the new map is unwired and maps the range of the old one, with the same
attributes; if the memory is shared, then it maps the same part of the same object. -/
structure VmMapEntry.InheritedAs (e new : VmMapEntry) : Prop where
  copy : new = { e.copy with
    object := new.object
    offset := new.offset
    isShared := new.isShared
    needsCopy := new.needsCopy }
  shared : e.inheritance = vmInheritShare → new.object = e.object ∧ new.offset = e.offset

/-- The entry is shared or copied, as far as it can ever be read. -/
def VmMapEntry.Inherited (e : VmMapEntry) : Prop :=
  e.inheritance = vmInheritShare ∨
    e.inheritance = vmInheritCopy ∧ e.maxProtection &&& vmProtRead ≠ 0

instance (e : VmMapEntry) : Decidable e.Inherited := inferInstanceAs (Decidable (_ ∨ _))

/-- The entry is shared or copied. -/
def VmMapEntry.Taken (e : VmMapEntry) : Prop :=
  e.inheritance = vmInheritShare ∨ e.inheritance = vmInheritCopy

instance (e : VmMapEntry) : Decidable e.Taken := inferInstanceAs (Decidable (_ ∨ _))

/-- The length of an entry. -/
def VmMapEntry.length (e : VmMapEntry) : ℕ := (e.vmeEnd - e.vmeStart).toNat

theorem VmMapEntry.Kept.range {e e' : VmMapEntry} (h : e.Kept e') : e'.range = e.range := by
  rw [h]
  rfl

theorem VmMapEntry.InheritedAs.range {e new : VmMapEntry} (h : e.InheritedAs new) :
    new.range = e.range := by
  rw [h.copy]
  rfl

theorem vmMapForkShare_kept (oracle : ShareOracle) (e : VmMapEntry) :
    e.Kept (vmMapForkShare oracle e).1 := by
  unfold vmMapForkShare VmMapEntry.Kept
  dsimp only
  split
  · rfl
  · split_ifs
    · rfl
    · split <;> rfl
    · rfl

theorem vmMapForkShare_inheritedAs (oracle : ShareOracle) (e : VmMapEntry) :
    (vmMapForkShare oracle e).1.InheritedAs (vmMapForkShare oracle e).2 :=
  ⟨rfl, fun _ => ⟨rfl, rfl⟩⟩

/-! ## The traversal -/

namespace ForkState

variable {oracle : ForkOracle} {entries done rest : List VmMapEntry} {e : VmMapEntry}
  {s : ForkState}

/-- The entry is copied at a visit. -/
def CopiedAt (oracle : ForkOracle) (e : VmMapEntry) (visit : ℕ) : Prop :=
  quickCopy oracle visit e ≠ none ∨
    vmMapCopyinMaxprot (oracle.copyin e.vmeStart visit) e ≠ none

/-- The traversal gets past the entry. -/
def Passes (oracle : ForkOracle) (e : VmMapEntry) : Prop :=
  e.isSubMap = false ∧ (e.inheritance = vmInheritCopy → ∃ visit, CopiedAt oracle e visit)

/-- The state when some entries are done and the others have not been looked at. -/
structure Traversed (done rest : List VmMapEntry) (s : ForkState) : Prop where
  pc : s.pc = .traversal
  visits : s.visits = 0
  old : List.Forall₂ VmMapEntry.Kept done s.before
  after : s.after = rest
  new : List.Forall₂ VmMapEntry.InheritedAs (s.before.filter (·.Taken)) s.newEntries
  size : s.newSize = BitVec.ofNat 32 (s.newEntries.map VmMapEntry.length).sum

/-- The old map stays sorted. -/
theorem sorted_of_kept {before after : List VmMapEntry} (h : EntriesSorted (done ++ after))
    (hold : List.Forall₂ VmMapEntry.Kept done before) : EntriesSorted (before ++ after) := by
  refine h.congr ?_
  have hranges : before.map VmMapEntry.range = done.map VmMapEntry.range := by
    induction hold with
    | nil => rfl
    | cons hhead _ ih =>
      rw [map_cons, map_cons, hhead.range, ih (h.sublist (sublist_cons_self _ _))]
  rw [map_append, map_append, hranges]

/-- An entry that is taken is done. -/
theorem Traversed.taken (h : Traversed done (e :: rest) s) {old new : VmMapEntry}
    (hkept : e.Kept old) (htaken : e.Taken) (hnew : old.InheritedAs new)
    {s' : ForkState} (hpc : s'.pc = .traversal) (hvisits : s'.visits = 0)
    (hbefore : s'.before = s.before ++ [old]) (hafter : s'.after = rest)
    (hentries : s'.newEntries = s.newEntries ++ [new])
    (hsize : s'.newSize = s.newSize + (e.vmeEnd - e.vmeStart)) :
    Traversed (done ++ [e]) rest s' := by
  have htaken' : old.Taken := by
    rw [hkept]
    exact htaken
  refine ⟨hpc, hvisits, ?_, hafter, ?_, ?_⟩
  · rw [hbefore]
    exact rel_append h.old (.cons hkept .nil)
  · rw [hbefore, hentries, filter_append, filter_cons_of_pos (by simpa using htaken')]
    exact rel_append h.new (.cons hnew .nil)
  · have hlength : new.length = (e.vmeEnd - e.vmeStart).toNat := by
      rw [VmMapEntry.length]
      have hrange := hnew.range.trans hkept.range
      rw [VmMapEntry.range, VmMapEntry.range, Prod.mk.injEq] at hrange
      rw [hrange.1, hrange.2]
    rw [hsize, hentries, h.size, map_append, sum_append, map_singleton,
      sum_singleton, BitVec.ofNat_add, hlength, BitVec.ofNat_toNat, BitVec.setWidth_eq]

/-- An entry that is neither shared nor copied is done. -/
theorem Traversed.leftOut (h : Traversed done (e :: rest) s) (hnot : ¬e.Taken) :
    Traversed (done ++ [e]) rest (s.goOn e rest [] 0) where
  pc := h.pc
  visits := rfl
  old := rel_append h.old (.cons rfl .nil)
  after := rfl
  new := by
    rw [goOn, filter_append, filter_cons_of_neg (by simpa using hnot), filter_nil,
      append_nil, append_nil]
    exact h.new
  size := by
    have hsize : s.newSize + 0 = s.newSize := BitVec.add_zero _
    rw [goOn, hsize, append_nil]
    exact h.size

/-- A visit of an entry that is copied quickly. -/
theorem step_quick {srcNeedsCopy newEntryNeedsCopy : Bool} (hpc : s.pc = .traversal)
    (hafter : s.after = e :: rest) (hsub : e.isSubMap = false)
    (hcopy : e.inheritance = vmInheritCopy)
    (hquick : quickCopy oracle s.visits e = some (srcNeedsCopy, newEntryNeedsCopy)) :
    step oracle s = s.goOn { e with needsCopy := e.needsCopy || srcNeedsCopy } rest
      [{ e.copy with needsCopy := newEntryNeedsCopy }] (e.vmeEnd - e.vmeStart) := by
  have hshare : ¬vmInheritCopy = vmInheritShare := by decide
  rw [step, if_pos hpc, hafter]
  simp only [hsub, Bool.false_eq_true, if_false, hcopy, hshare, if_true, hquick]

/-- A visit of an entry that is to be copied, but not quickly. -/
theorem step_slow (hpc : s.pc = .traversal) (hafter : s.after = e :: rest)
    (hsub : e.isSubMap = false) (hcopy : e.inheritance = vmInheritCopy)
    (hquick : quickCopy oracle s.visits e = none) :
    step oracle s = s.forkCopy (oracle.copyin e.vmeStart s.visits) e rest := by
  have hshare : ¬vmInheritCopy = vmInheritShare := by decide
  rw [step, if_pos hpc, hafter]
  simp only [hsub, Bool.false_eq_true, if_false, hcopy, hshare, if_true, hquick]

/-- A visit that copies nothing leads to the next one. -/
theorem step_of_not_copied (hsorted : EntriesSorted (s.before ++ e :: rest))
    (hpc : s.pc = .traversal) (hafter : s.after = e :: rest) (hsub : e.isSubMap = false)
    (hcopy : e.inheritance = vmInheritCopy) (hnot : ¬CopiedAt oracle e s.visits) :
    step oracle s = { s with visits := s.visits + 1 } := by
  rw [CopiedAt, not_or, not_not, not_not] at hnot
  have hcompare : e.maxProtection &&& comparison (vmProtRead = 0) = 0 := by
    simp [comparison, vmProtRead]
  rw [step_slow hpc hafter hsub hcopy hnot.1, forkCopy, hnot.2]
  dsimp only
  rw [hsorted.lookup_start]
  dsimp only
  rw [if_neg (not_not_intro hcompare), ← hafter]

/-- What `vm_map_copyin_maxprot` makes of an entry. -/
theorem kept_of_copyin {answer : EntryCopyin} {old new : VmMapEntry}
    (h : vmMapCopyinMaxprot answer e = some (old, new)) :
    e.Kept old ∧ (e.inheritance = vmInheritCopy → old.InheritedAs new) := by
  unfold vmMapCopyinMaxprot at h
  split_ifs at h
  cases answer with
  | failed => cases h
  | copied object offset needsCopy srcNeedsCopy =>
    obtain ⟨rfl, rfl⟩ := Prod.mk.inj (Option.some.inj h)
    refine ⟨rfl, fun hcopy => ⟨rfl, fun hshare => ?_⟩⟩
    have hne : vmInheritCopy ≠ vmInheritShare := by decide
    exact absurd (hcopy.symm.trans hshare) hne

/-- After a copy the traversal is behind the entry. -/
theorem forkCopy_of_copied {answer : EntryCopyin} {old new : VmMapEntry}
    (hsorted : EntriesSorted (s.before ++ e :: rest))
    (h : vmMapCopyinMaxprot answer e = some (old, new)) :
    s.forkCopy answer e rest = s.goOn old rest [new] (e.vmeEnd - e.vmeStart) := by
  have hrange := (kept_of_copyin h).1.range
  rw [VmMapEntry.range, VmMapEntry.range, Prod.mk.injEq] at hrange
  have hsorted' : EntriesSorted (s.before ++ old :: rest) :=
    hsorted.congr (by simp [VmMapEntry.range, hrange])
  have hsum : e.vmeStart + (e.vmeEnd - e.vmeStart) = old.vmeEnd := by
    rw [BitVec.add_comm, BitVec.sub_add_cancel, hrange.2]
  rw [forkCopy, h]
  dsimp only
  rw [hsum, hsorted'.lookup_end]
  cases hrest : rest with
  | nil => rfl
  | cons next after =>
    subst hrest
    have hle := hsorted'.le_of_append (mem_cons_self ..)
    cases hfound : (next :: after).head?.any fun x => decide (x.vmeStart ≤ old.vmeEnd) with
    | false => rfl
    | true =>
      dsimp only
      rw [vmMapClipStart, if_neg (BitVec.not_lt.mpr hle)]
      rfl

/-- A visit that copies an entry leads past it. -/
theorem Traversed.copied {s₀ : ForkState} (h : Traversed done (e :: rest) s₀) {visits : ℕ}
    (hsorted : EntriesSorted (done ++ e :: rest)) (hsub : e.isSubMap = false)
    (hcopy : e.inheritance = vmInheritCopy) (hcopied : CopiedAt oracle e visits) :
    Traversed (done ++ [e]) rest (step oracle { s₀ with visits }) := by
  have hne : vmInheritCopy ≠ vmInheritShare := by decide
  have hsorted' := sorted_of_kept hsorted h.old
  cases hquick : quickCopy oracle visits e with
  | some answer =>
    rw [@step_quick oracle rest e { s₀ with visits } _ _ h.pc h.after hsub hcopy hquick]
    have hkept : e.Kept { e with needsCopy := e.needsCopy || answer.1 } := rfl
    refine h.taken hkept (.inr hcopy) ⟨rfl, fun hshare => ?_⟩ h.pc rfl rfl rfl rfl rfl
    exact absurd (hcopy.symm.trans hshare) hne
  | none =>
    have hcopyin := hcopied.resolve_left (not_not_intro hquick)
    obtain ⟨⟨old, new⟩, hanswer⟩ := Option.ne_none_iff_exists'.mp hcopyin
    obtain ⟨hkept, hnew⟩ := kept_of_copyin hanswer
    rw [@step_slow oracle rest e { s₀ with visits } h.pc h.after hsub hcopy hquick,
      @forkCopy_of_copied rest e { s₀ with visits } _ _ _ hsorted' hanswer]
    exact h.taken hkept (.inr hcopy) (hnew hcopy) h.pc rfl rfl rfl rfl rfl

/-- Visits that copy nothing. -/
theorem iterate_of_not_copied (hsorted : EntriesSorted (s.before ++ e :: rest))
    (hpc : s.pc = .traversal) (hafter : s.after = e :: rest) (hsub : e.isSubMap = false)
    (hcopy : e.inheritance = vmInheritCopy) (hvisits : s.visits = 0) {n : ℕ}
    (hnot : ∀ visit < n, ¬CopiedAt oracle e visit) :
    (step oracle)^[n] s = { s with visits := n } := by
  induction n with
  | zero =>
    rw [iterate_zero, id_eq, ← hvisits]
  | succ n ih =>
    have hbefore := ih fun visit hvisit => hnot visit (Nat.lt_succ_of_lt hvisit)
    rw [iterate_succ_apply', hbefore]
    exact step_of_not_copied hsorted hpc hafter hsub hcopy (hnot n (Nat.lt_succ_self n))

/-- The traversal gets past an entry. -/
theorem Traversed.next (h : Traversed done (e :: rest) s)
    (hsorted : EntriesSorted (done ++ e :: rest)) (hpasses : Passes oracle e) :
    ∃ n, Traversed (done ++ [e]) rest ((step oracle)^[n] s) := by
  classical
  obtain ⟨hsub, hcopies⟩ := hpasses
  by_cases hcopy : e.inheritance = vmInheritCopy
  · have hfirst := hcopies hcopy
    refine ⟨Nat.find hfirst + 1, ?_⟩
    rw [iterate_succ_apply', iterate_of_not_copied (sorted_of_kept hsorted h.old) h.pc
      h.after hsub hcopy h.visits fun visit hvisit => Nat.find_min hfirst hvisit]
    exact h.copied hsorted hsub hcopy (Nat.find_spec hfirst)
  · refine ⟨1, ?_⟩
    rw [iterate_one, step, if_pos h.pc, h.after]
    dsimp only
    rw [if_neg (by simp [hsub])]
    by_cases hshare : e.inheritance = vmInheritShare
    · rw [if_pos hshare]
      exact h.taken (vmMapForkShare_kept _ e) (.inl hshare) (vmMapForkShare_inheritedAs _ e) h.pc
        rfl rfl rfl rfl rfl
    · rw [if_neg hshare, if_neg hcopy]
      exact h.leftOut fun htaken => htaken.elim hshare hcopy

/-- The traversal gets past entries. -/
theorem Traversed.through {pass : List VmMapEntry} (h : Traversed done (pass ++ rest) s)
    (hsorted : EntriesSorted (done ++ (pass ++ rest))) (hpasses : ∀ e ∈ pass, Passes oracle e) :
    ∃ n, Traversed (done ++ pass) rest ((step oracle)^[n] s) := by
  induction pass generalizing done s with
  | nil => exact ⟨0, by simpa using h⟩
  | cons e pass ih =>
    have hassoc : done ++ (e :: pass ++ rest) = done ++ [e] ++ (pass ++ rest) := by simp
    obtain ⟨n, hn⟩ := h.next hsorted (hpasses e (.head _))
    obtain ⟨m, hm⟩ := ih hn (hassoc ▸ hsorted) fun e he => hpasses e (.tail _ he)
    refine ⟨m + n, ?_⟩
    rw [iterate_add_apply]
    simpa using hm

/-- The traversal does not get past an entry that is never copied. -/
theorem Traversed.stuck (h : Traversed done (e :: rest) s)
    (hsorted : EntriesSorted (done ++ e :: rest)) (hnot : ¬Passes oracle e) (n : ℕ) :
    ((step oracle)^[n] s).pc ≠ .returned := by
  rw [Passes, not_and_or] at hnot
  rcases Bool.eq_false_or_eq_true e.isSubMap with hsub | hsub
  · have hpanics : step oracle s = { s with pc := .panicked } := by
      rw [step, if_pos h.pc, h.after]
      simp [hsub]
    have hstays : ∀ m, (step oracle)^[m] { s with pc := .panicked } = { s with pc := .panicked } :=
      fun m => iterate_fixed (by rw [step, if_neg (by simp)]) m
    cases n with
    | zero =>
      rw [iterate_zero, id_eq, h.pc]
      decide
    | succ n =>
      rw [iterate_succ_apply, hpanics, hstays]
      exact fun hpc => nomatch hpc
  · have hcopy := hnot.resolve_left (not_not_intro hsub)
    push Not at hcopy
    rw [iterate_of_not_copied (sorted_of_kept hsorted h.old) h.pc h.after hsub hcopy.1 h.visits
      fun visit _ => hcopy.2 visit]
    dsimp only
    rw [h.pc]
    decide

/-- Behind the last entry the call returns. -/
theorem step_nil (hpc : s.pc = .traversal) (hafter : s.after = []) :
    step oracle s =
      { s with
        locked := false
        pc := .returned } := by
  unfold step
  simp [hpc, hafter]

/-- A call that has returned stays so. -/
theorem iterate_of_returned {n : ℕ} (h : ((step oracle)^[n] s).pc = .returned) (m : ℕ) :
    (step oracle)^[m + n] s = (step oracle)^[n] s := by
  rw [iterate_add_apply]
  exact iterate_fixed (by rw [step, if_neg (by rw [h]; decide)]) m

/-! ## The call -/

theorem traversed_start (entries : List VmMapEntry) : Traversed [] entries (start entries) :=
  ⟨rfl, rfl, .nil, rfl, .nil, rfl⟩

/-- The first entry that is in the way. -/
theorem exists_first_stuck (h : ¬∀ e ∈ entries, Passes oracle e) :
    ∃ pass e rest, entries = pass ++ e :: rest ∧ (∀ x ∈ pass, Passes oracle x) ∧
      ¬Passes oracle e := by
  induction entries with
  | nil => exact absurd (fun e he => absurd he not_mem_nil) h
  | cons first entries ih =>
    by_cases hfirst : Passes oracle first
    · obtain ⟨pass, e, rest, rfl, hpass, hstuck⟩ :=
        ih fun hall => h (forall_mem_cons.mpr ⟨hfirst, hall⟩)
      exact ⟨first :: pass, e, rest, rfl, forall_mem_cons.mpr ⟨hfirst, hpass⟩, hstuck⟩
    · exact ⟨[], first, entries, rfl, fun x hx => absurd hx not_mem_nil, hfirst⟩

/-- A call returns only if the traversal gets past each entry. -/
theorem passes_of_returned (hsorted : EntriesSorted entries) {n : ℕ}
    (h : (run oracle entries n).pc = .returned) : ∀ e ∈ entries, Passes oracle e := by
  by_contra hnot
  obtain ⟨pass, e, rest, rfl, hpass, hstuck⟩ := exists_first_stuck hnot
  obtain ⟨k, hk⟩ := (traversed_start (pass ++ e :: rest)).through hsorted hpass
  refine hk.stuck (by simpa using hsorted) hstuck n ?_
  rw [← iterate_add_apply, Nat.add_comm, iterate_of_returned h]
  exact h

/-- The state in which a call returns, if it does. -/
structure Returned (entries : List VmMapEntry) (s : ForkState) : Prop where
  pc : s.pc = .returned
  unlocked : s.locked = false
  old : List.Forall₂ VmMapEntry.Kept entries (s.before ++ s.after)
  new : List.Forall₂ VmMapEntry.InheritedAs ((s.before ++ s.after).filter (·.Taken)) s.newEntries
  size : s.newSize = BitVec.ofNat 32 (s.newEntries.map VmMapEntry.length).sum

/-- If the traversal gets past each entry, then the call returns. -/
theorem exists_returned (hsorted : EntriesSorted entries)
    (hpasses : ∀ e ∈ entries, Passes oracle e) : ∃ n, Returned entries (run oracle entries n) := by
  have hstart : Traversed [] (entries ++ []) (start entries) := by
    rw [append_nil]
    exact traversed_start entries
  obtain ⟨n, hn⟩ := hstart.through (by simpa using hsorted) hpasses
  have hlast : run oracle entries (n + 1) =
      { (step oracle)^[n] (start entries) with
        locked := false
        pc := .returned } := by
    rw [run, iterate_succ_apply', step_nil hn.pc hn.after]
  refine ⟨n + 1, ?_⟩
  rw [hlast]
  refine ⟨rfl, rfl, ?_, ?_, hn.size⟩
  · simpa [hn.after] using hn.old
  · simpa [hn.after] using hn.new

/-- Two states in which a call returns are one. -/
theorem run_eq_of_returned {m n : ℕ} (hm : (run oracle entries m).pc = .returned)
    (hn : (run oracle entries n).pc = .returned) :
    run oracle entries m = run oracle entries n := by
  have h := iterate_of_returned hm n
  rw [Nat.add_comm, iterate_of_returned hn m] at h
  exact h.symm

/-! ## What is expected of a fork -/

/-- The call has returned with the map unlocked; the old map has its entries, and the new one
has an unwired entry for each of them that is shared, or copied and can ever be read, and for no
other; and its size is their total length. -/
structure Forked (entries : List VmMapEntry) (s : ForkState) : Prop where
  returned : s.pc = .returned
  unlocked : s.locked = false
  old : List.Forall₂ VmMapEntry.Kept entries (s.before ++ s.after)
  new : List.Forall₂ VmMapEntry.InheritedAs ((s.before ++ s.after).filter (·.Inherited))
    s.newEntries
  size : s.newSize.toNat = (s.newEntries.map VmMapEntry.length).sum

/-- The entry is no submap and, if it is to be copied, it can ever be read and is copied at some
visit: quickly, if it is not wired, or else by `vm_map_copyin_maxprot`. -/
def ForksWell (oracle : ForkOracle) (e : VmMapEntry) : Prop :=
  e.isSubMap = false ∧ (e.inheritance = vmInheritCopy → e.maxProtection &&& vmProtRead ≠ 0 ∧
    ∃ visit, quickCopy oracle visit e ≠ none ∨ oracle.copyin e.vmeStart visit ≠ .failed)

theorem forksWell_iff (e : VmMapEntry) :
    ForksWell oracle e ↔ Passes oracle e ∧
      (e.inheritance = vmInheritCopy → e.maxProtection &&& vmProtRead ≠ 0) := by
  have hcopied : e.maxProtection &&& vmProtRead ≠ 0 → ∀ visit,
      (quickCopy oracle visit e ≠ none ∨ oracle.copyin e.vmeStart visit ≠ .failed ↔
        CopiedAt oracle e visit) := by
    intro hread visit
    unfold CopiedAt vmMapCopyinMaxprot
    rw [if_neg hread]
    cases oracle.copyin e.vmeStart visit <;> simp
  refine ⟨fun h => ⟨⟨h.1, fun hcopy => ?_⟩, fun hcopy => (h.2 hcopy).1⟩, fun h =>
    ⟨h.1.1, fun hcopy => ⟨h.2 hcopy, ?_⟩⟩⟩
  · obtain ⟨hread, visit, hvisit⟩ := h.2 hcopy
    exact ⟨visit, (hcopied hread visit).mp hvisit⟩
  · obtain ⟨visit, hvisit⟩ := h.1.2 hcopy
    exact ⟨visit, (hcopied (h.2 hcopy) visit).mpr hvisit⟩

/-- The lengths of sorted entries from an address on. -/
theorem sum_length_lt {l : List VmMapEntry} (h : EntriesSorted l) {a : ℕ} (ha : a < 2 ^ 32)
    (hl : ∀ e ∈ l, a ≤ e.vmeStart.toNat) : a + (l.map VmMapEntry.length).sum < 2 ^ 32 := by
  induction l generalizing a with
  | nil => simpa using ha
  | cons e l ih =>
    have hlt := h.nonempty e (.head _)
    rw [BitVec.lt_def] at hlt
    have hstart := hl e (.head _)
    have hlength : e.length = e.vmeEnd.toNat - e.vmeStart.toNat := by
      rw [VmMapEntry.length, BitVec.toNat_sub_of_le (BitVec.le_def.mpr (Nat.le_of_lt hlt))]
    have hrest := ih (h.sublist (sublist_cons_self _ _)) e.vmeEnd.isLt fun x hx =>
      BitVec.le_def.mp (@EntriesSorted.le_of_append [] _ _ h _ hx)
    rw [map_cons, sum_cons, hlength]
    omega

/-- The size does not wrap around. -/
theorem toNat_size {l : List VmMapEntry} (h : EntriesSorted l) :
    (BitVec.ofNat 32 (l.map VmMapEntry.length).sum).toNat = (l.map VmMapEntry.length).sum := by
  have hlt := sum_length_lt h (Nat.two_pow_pos 32) fun e _ => Nat.zero_le _
  rw [BitVec.toNat_ofNat, Nat.mod_eq_of_lt (by rwa [Nat.zero_add] at hlt)]

/-- The new map has the entries in their order. -/
theorem sorted_new {old new : List VmMapEntry} (p : VmMapEntry → Bool)
    (hsorted : EntriesSorted entries) (hold : List.Forall₂ VmMapEntry.Kept entries old)
    (hnew : List.Forall₂ VmMapEntry.InheritedAs (old.filter p) new) : EntriesSorted new := by
  have hold' : EntriesSorted (old ++ []) := sorted_of_kept (by simpa using hsorted) hold
  rw [append_nil] at hold'
  have hfilter : EntriesSorted (old.filter p) := hold'.sublist filter_sublist
  generalize old.filter p = kept at hnew hfilter
  refine hfilter.congr ?_
  induction hnew with
  | nil => rfl
  | cons hhead _ ih =>
    rw [map_cons, map_cons, hhead.range, ih (hfilter.sublist (sublist_cons_self _ _))]

/-- Each entry is still there. -/
theorem exists_kept {old : List VmMapEntry} (h : List.Forall₂ VmMapEntry.Kept entries old)
    (he : e ∈ entries) : ∃ e' ∈ old, e.Kept e' := by
  induction h with
  | nil => cases he
  | cons hhead _ ih =>
    rcases mem_cons.mp he with rfl | he
    · exact ⟨_, .head _, hhead⟩
    · obtain ⟨e', he', hkept⟩ := ih he
      exact ⟨e', .tail _ he', hkept⟩

/-- There are no others. -/
theorem exists_of_kept {old : List VmMapEntry} {e' : VmMapEntry}
    (h : List.Forall₂ VmMapEntry.Kept entries old) (he : e' ∈ old) :
    ∃ e ∈ entries, e.Kept e' := by
  induction h with
  | nil => cases he
  | cons hhead _ ih =>
    rcases mem_cons.mp he with rfl | he
    · exact ⟨_, .head _, hhead⟩
    · obtain ⟨e, he, hkept⟩ := ih he
      exact ⟨e, .tail _ he, hkept⟩

/-- What is inherited is the same before and after. -/
theorem kept_inherited_iff {e' : VmMapEntry} (h : e.Kept e') :
    (e'.Inherited ↔ e.Inherited) ∧ (e'.Taken ↔ e.Taken) := by
  rw [h]
  exact ⟨Iff.rfl, Iff.rfl⟩

theorem inherited_taken {e : VmMapEntry} (h : e.Inherited) : e.Taken := h.imp_right And.left

/-- A fork comes to its end and does what is expected exactly if each entry is one that it can
deal with. -/
theorem forked_iff (hsorted : EntriesSorted entries) :
    (∃ n, Forked entries (run oracle entries n)) ↔ ∀ e ∈ entries, ForksWell oracle e := by
  refine ⟨?_, fun hwell => ?_⟩
  · rintro ⟨n, hforked⟩
    have hpasses := passes_of_returned hsorted hforked.returned
    obtain ⟨m, hm⟩ := exists_returned hsorted hpasses
    rw [run_eq_of_returned hm.pc hforked.returned] at hm
    -- The new map has an entry for all that are taken, and only for those that are inherited.
    have hfilter : ((run oracle entries n).before ++ (run oracle entries n).after).filter
        (·.Inherited) = ((run oracle entries n).before ++ (run oracle entries n).after).filter
          (·.Taken) := by
      refine (monotone_filter_right _ fun x hx => ?_).eq_of_length ?_
      · simp only [decide_eq_true_eq] at hx ⊢
        exact inherited_taken hx
      · rw [hforked.new.length_eq, hm.new.length_eq]
    intro e he
    refine (forksWell_iff e).mpr ⟨hpasses e he, fun hcopy => ?_⟩
    obtain ⟨e', he', hkept⟩ := exists_kept hm.old he
    have htaken : e'.Taken := (kept_inherited_iff hkept).2.mpr (.inr hcopy)
    have hmem : e' ∈ ((run oracle entries n).before ++ (run oracle entries n).after).filter
        (·.Taken) := mem_filter.mpr ⟨he', by simpa using htaken⟩
    rw [← hfilter, mem_filter, decide_eq_true_eq, (kept_inherited_iff hkept).1] at hmem
    rcases hmem.2 with hshare | hread
    · rw [hcopy] at hshare
      exact absurd hshare (by decide)
    · exact hread.2
  · obtain ⟨n, hn⟩ := exists_returned hsorted fun e he => ((forksWell_iff e).mp (hwell e he)).1
    refine ⟨n, hn.pc, hn.unlocked, hn.old, ?_, ?_⟩
    · have hfilter : ((run oracle entries n).before ++ (run oracle entries n).after).filter
          (·.Inherited) = ((run oracle entries n).before ++ (run oracle entries n).after).filter
            (·.Taken) := by
        refine filter_congr fun e' he' => ?_
        obtain ⟨e, he, hkept⟩ := exists_of_kept hn.old he'
        refine decide_eq_decide.mpr ⟨inherited_taken, fun htaken => ?_⟩
        rw [(kept_inherited_iff hkept).2] at htaken
        rw [(kept_inherited_iff hkept).1]
        exact htaken.imp_right fun hcopy => ⟨hcopy, ((hwell e he).2 hcopy).1⟩
      rw [hfilter]
      exact hn.new
    · rw [hn.size, toNat_size (sorted_new _ hsorted hn.old hn.new)]

/-- An entry of a page. -/
def pageEntry (inheritance : BitVec 2) (maxProtection : VmProt) (wiredCount : BitVec 16) :
    VmMapEntry where
  vmeStart := 0x1000
  vmeEnd := 0x2000
  object := some 0
  offset := 0
  isShared := false
  isSubMap := false
  inTransition := false
  needsWakeup := false
  behavior := 0
  needsCopy := false
  protection := 0
  maxProtection
  inheritance
  wiredCount
  userWiredCount := 0

/-- Every copy succeeds at the second visit. -/
def secondVisit : ForkOracle where
  share _ := ⟨false, false, 0, 1, none⟩
  quickly _ _ := none
  copyin _ visit := if visit = 0 then .failed else .copied (some 1) 0 false false

/-- A wired entry is copied when it is visited again. -/
theorem forked_iff_wired :
    ∃ n, Forked [pageEntry vmInheritCopy 1 1] (run secondVisit [pageEntry vmInheritCopy 1 1] n) :=
  (forked_iff (by decide)).mpr fun e he => by
    obtain rfl := mem_singleton.mp he
    exact ⟨rfl, fun _ => ⟨by decide, 1, .inr (by decide)⟩⟩

/-- A wired entry that can never be read is visited for ever. -/
theorem unreadable_wired_entry :
    ¬∃ n, Forked [pageEntry vmInheritCopy 0 1]
      (run secondVisit [pageEntry vmInheritCopy 0 1] n) := by
  rintro ⟨n, hforked⟩
  obtain ⟨-, hcopy⟩ := passes_of_returned (by decide) hforked.returned _ (mem_singleton.mpr rfl)
  obtain ⟨visit, hvisit⟩ := hcopy rfl
  exact hvisit.elim (fun h => h rfl) fun h => h rfl

end ForkState

end MachVirtuTerm
