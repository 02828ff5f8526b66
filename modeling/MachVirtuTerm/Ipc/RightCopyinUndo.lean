import MachVirtuTerm.Ipc.DnRequestsInv
import MachVirtuTerm.Ipc.RightCopyin

/-!
# Undoing a copyin

A copyin takes from an entry what `ipc_right_copyin_undo` can put back once the port is dead:
the entry then is what `ipc_right_check` would have made of it, had there been no copyin.
-/

open Option
open BitVec hiding not_not

namespace MachVirtuTerm

namespace DnTable

variable {sizes : IpcDnTableSizes} {table : DnTable} {index : ℕ}

/-- A cancelled request is the only one that the table loses. -/
theorem dncancel_changed (hindex : index ≠ 0) :
    table.Changed (table.dncancel index) index ∧ (table.dncancel index).request index = none := by
  refine ⟨⟨rfl, fun i h0 hi => ?_⟩, request_eq_none.mpr ?_⟩
  · simp only [dncancel]
    rw [Function.update_of_ne h0, Function.update_of_ne hi]
  · simp only [dncancel]
    rw [Function.update_of_ne hindex, Function.update_self]

end DnTable

section Bits

variable {x y m : BitVec 32}

/-- The fields outside the user references are those of the high half of a word. -/
theorem and_eq_of_high (h : x.toNat / 65536 = y.toNat / 65536) (hm : m &&& ieBitsUrefsMask = 0) :
    x &&& m = y &&& m := by
  have hlow : ∀ i < 16, ieBitsUrefsMask.getLsbD i = true := by decide
  have hhigh : x >>> 16 = y >>> 16 := eq_of_toNat_eq (by
    rw [toNat_ushiftRight, toNat_ushiftRight, Nat.shiftRight_eq_div_pow, Nat.shiftRight_eq_div_pow]
    exact h)
  refine eq_of_getLsbD_eq fun i _ => ?_
  rw [getLsbD_and, getLsbD_and]
  rcases Nat.lt_or_ge i 16 with hi | hi
  · have hbit := congrArg (·.getLsbD i) hm
    simp only [getLsbD_and, hlow i hi, Bool.and_true] at hbit
    have hzero : m.getLsbD i = false := by simpa using hbit
    rw [hzero, Bool.and_false, Bool.and_false]
  · have hbit := congrArg (·.getLsbD (i - 16)) hhigh
    simp only [getLsbD_ushiftRight, Nat.add_sub_cancel' hi] at hbit
    rw [hbit]

/-- The number of user references. -/
theorem ieBitsUrefs_toNat (x : BitVec 32) : (ieBitsUrefs x).toNat = x.toNat % 65536 := by
  rw [ieBitsUrefs, BitVec.toNat_and]
  exact Nat.and_two_pow_sub_one_eq_mod x.toNat 16

/-- One more user reference, as long as there are less than the most. -/
theorem ieBitsUrefs_succ (h : ieBitsUrefs x < machPortUrefsMax) :
    ieBitsUrefs (x + 1) = ieBitsUrefs x + 1 := by
  have hlt : x.toNat % 65536 < 65535 := by rwa [lt_def, ieBitsUrefs_toNat] at h
  have hx := x.isLt
  refine eq_of_toNat_eq ?_
  rw [ieBitsUrefs_toNat, toNat_add, toNat_add, ieBitsUrefs_toNat]
  change (x.toNat + 1) % 2 ^ 32 % 65536 = (x.toNat % 65536 + 1) % 2 ^ 32
  omega

/-- One more user reference changes no other field. -/
theorem and_succ (h : ieBitsUrefs x < machPortUrefsMax) (hm : m &&& ieBitsUrefsMask = 0) :
    (x + 1) &&& m = x &&& m := by
  have hlt : x.toNat % 65536 < 65535 := by rwa [lt_def, ieBitsUrefs_toNat] at h
  have hx := x.isLt
  refine and_eq_of_high ?_ hm
  rw [toNat_add]
  change (x.toNat + 1) % 2 ^ 32 / 65536 = x.toNat / 65536
  omega

/-- Taking one of several user references leaves less than the most. -/
theorem ieBitsUrefs_pred (h0 : ieBitsUrefs x ≠ 0) :
    (ieBitsUrefs (x - 1)).toNat + 1 = (ieBitsUrefs x).toNat := by
  have hpos : x.toNat % 65536 ≠ 0 := fun h => h0 (eq_of_toNat_eq (by
    rw [ieBitsUrefs_toNat]
    exact h))
  have hx := x.isLt
  rw [ieBitsUrefs_toNat, ieBitsUrefs_toNat, toNat_sub]
  change (2 ^ 32 - 1 + x.toNat) % 2 ^ 32 % 65536 + 1 = x.toNat % 65536
  omega

/-- There is one left of several user references, and room for one. -/
theorem ieBitsUrefs_pred_bounds (h0 : ieBitsUrefs x ≠ 0) (h1 : ieBitsUrefs x ≠ 1) :
    ieBitsUrefs (x - 1) ≠ 0 ∧ ieBitsUrefs (x - 1) < machPortUrefsMax := by
  have hpred := ieBitsUrefs_pred h0
  have hmax : (ieBitsUrefs x).toNat < 65536 := by
    rw [ieBitsUrefs_toNat]
    exact Nat.mod_lt _ (by decide)
  refine ⟨fun h => h1 (eq_of_toNat_eq ?_), ?_⟩
  · rw [← hpred, h]
    rfl
  · rw [lt_def]
    change _ < 65535
    omega

/-- Taking one of several user references changes no other field. -/
theorem and_pred (h0 : ieBitsUrefs x ≠ 0) (hm : m &&& ieBitsUrefsMask = 0) :
    (x - 1) &&& m = x &&& m := by
  have hpos : x.toNat % 65536 ≠ 0 := fun h => h0 (eq_of_toNat_eq (by
    rw [ieBitsUrefs_toNat]
    exact h))
  have hx := x.isLt
  refine and_eq_of_high ?_ hm
  rw [toNat_sub]
  change (2 ^ 32 - 1 + x.toNat) % 2 ^ 32 / 65536 = x.toNat / 65536
  omega

/-- A test of a type is a test of the type field. -/
theorem and_type (hm : ieBitsTypeMask &&& m = m) : x &&& m = ieBitsType x &&& m :=
  (and_and_of_le hm).symm

/-- The type of a masked word. -/
theorem ieBitsType_and (x y : BitVec 32) : ieBitsType (x &&& y) = ieBitsType x &&& y := by
  rw [ieBitsType, ieBitsType, BitVec.and_assoc, BitVec.and_comm y, ← BitVec.and_assoc]

end Bits

/-- Two entries with the same right: the bits that no right uses may differ. -/
structure IpcEntry.SameRight (e e' : IpcEntry) : Prop where
  type : ieBitsType e.ieBits = ieBitsType e'.ieBits
  urefs : ieBitsUrefs e.ieBits = ieBitsUrefs e'.ieBits
  gen : ieBitsGen e.ieBits = ieBitsGen e'.ieBits
  collision : e.ieBits &&& ieBitsCollision = e'.ieBits &&& ieBitsCollision
  object : e.ieObject = e'.ieObject
  request : e.ieRequest = e'.ieRequest

namespace RightState

variable {sizes : IpcDnTableSizes} {s s₁ s' : RightState} {name : MachPort} {port : ℕ}
  {entry entry₁ : IpcEntry}

/-- The dead name that `ipc_right_check` makes of an entry. -/
def deadEntry (entry : IpcEntry) : IpcEntry where
  ieBits :=
    let dead := (entry.ieBits &&& ~~~ieBitsTypeMask) ||| machPortTypeDeadName
    if entry.ieRequest ≠ 0 then dead + 1 else dead
  ieObject := none
  index := 0

/-- `ipc_right_check` of a send right. -/
theorem ipcRightCheck_send (hobject : entry.ieObject = some port)
    (hdead : (s.ports port).ipActive = false) (htype : ieBitsType entry.ieBits = machPortTypeSend)
    (hpos : ieBitsUrefs entry.ieBits ≠ 0) (hlt : ieBitsUrefs entry.ieBits < machPortUrefsMax) :
    s.ipcRightCheck port name entry =
      some (true, (s.ipcHashDelete port name).ipcPortRelease port, deadEntry entry) := by
  have hreceive : entry.ieBits &&& machPortTypeReceive = 0 := by
    rw [and_type (by decide), htype]
    decide
  have hsend : entry.ieBits &&& machPortTypeSend ≠ 0 := by
    rw [and_type (by decide), htype]
    decide
  unfold ipcRightCheck
  rw [if_neg (not_not.mpr hobject), if_neg (by rw [hdead]; decide)]
  dsimp only
  rw [if_neg fun h => h.elim (· hreceive) hpos, if_neg fun h => h.2 htype,
    if_neg fun h => hsend h.1, if_neg fun h => h.2 hlt, if_pos hsend]
  rfl

/-- `ipc_right_check` of a send-once right. -/
theorem ipcRightCheck_sendOnce (hobject : entry.ieObject = some port)
    (hdead : (s.ports port).ipActive = false)
    (htype : ieBitsType entry.ieBits = machPortTypeSendOnce)
    (hurefs : ieBitsUrefs entry.ieBits = 1) :
    s.ipcRightCheck port name entry = some (true, s.ipcPortRelease port, deadEntry entry) := by
  have hreceive : entry.ieBits &&& machPortTypeReceive = 0 := by
    rw [and_type (by decide), htype]
    decide
  have hsend : entry.ieBits &&& machPortTypeSend = 0 := by
    rw [and_type (by decide), htype]
    decide
  have hlt : ieBitsUrefs entry.ieBits < machPortUrefsMax := by
    rw [hurefs]
    decide
  have hpos : ieBitsUrefs entry.ieBits ≠ 0 := by
    rw [hurefs]
    decide
  unfold ipcRightCheck
  rw [if_neg (not_not.mpr hobject), if_neg (by rw [hdead]; decide)]
  dsimp only
  rw [if_neg fun h => h.elim (· hreceive) hpos, if_neg fun h => h.1 hsend,
    if_neg fun h => h.2 ⟨htype, hurefs⟩, if_neg fun h => h.2 hlt, if_neg (not_not.mpr hsend)]
  rfl

/-- `ipc_right_check` finds the port active. -/
theorem ipcRightCheck_active (h : s.ipcRightCheck port name entry = some (false, s₁, entry₁)) :
    (s.ports port).ipActive = true ∧ s₁ = s ∧ entry₁ = entry := by
  unfold ipcRightCheck at h
  split at h
  · cases h
  split at h
  · rename_i hactive
    cases h
    exact ⟨hactive, rfl, rfl⟩
  · dsimp only at h
    repeat' (split at h; · cases h)
    cases h

section

variable (hlt : ieBitsUrefs entry.ieBits < machPortUrefsMax)

include hlt

/-- The fields of the dead name that `ipc_right_check` makes. -/
theorem deadEntry_and {m : BitVec 32} (hm : m &&& ieBitsUrefsMask = 0) :
    (deadEntry entry).ieBits &&& m =
      ((entry.ieBits &&& ~~~ieBitsTypeMask) ||| machPortTypeDeadName) &&& m := by
  have hurefs : ieBitsUrefs ((entry.ieBits &&& ~~~ieBitsTypeMask) ||| machPortTypeDeadName) =
      ieBitsUrefs entry.ieBits := by
    rw [ieBitsUrefs, or_and_of_disjoint (by decide), and_and_of_le (by decide)]
    rfl
  unfold deadEntry
  dsimp only
  split
  · exact and_succ (hurefs ▸ hlt) hm
  · rfl

/-- What `ipc_right_check` makes is a dead name, in the generation of the entry. -/
theorem deadEntry_fields : ieBitsType (deadEntry entry).ieBits = machPortTypeDeadName ∧
      ieBitsGen (deadEntry entry).ieBits = ieBitsGen entry.ieBits ∧
      (deadEntry entry).ieBits &&& ieBitsCollision = entry.ieBits &&& ieBitsCollision := by
  refine ⟨?_, ?_, ?_⟩
  · rw [ieBitsType, deadEntry_and hlt (by decide), and_or_distrib_right,
      and_and_of_disjoint (by decide)]
    decide
  · rw [ieBitsGen, deadEntry_and hlt (by decide), or_and_of_disjoint (by decide),
      and_and_of_le (by decide)]
    rfl
  · rw [deadEntry_and hlt (by decide), or_and_of_disjoint (by decide), and_and_of_le (by decide)]

/-- The user references of what `ipc_right_check` makes: a dead-name request counts as one. -/
theorem deadEntry_urefs : ieBitsUrefs (deadEntry entry).ieBits =
      if entry.ieRequest ≠ 0 then ieBitsUrefs entry.ieBits + 1 else ieBitsUrefs entry.ieBits := by
  have hurefs : ieBitsUrefs ((entry.ieBits &&& ~~~ieBitsTypeMask) ||| machPortTypeDeadName) =
      ieBitsUrefs entry.ieBits := by
    rw [ieBitsUrefs, or_and_of_disjoint (by decide), and_and_of_le (by decide)]
    rfl
  unfold deadEntry
  dsimp only
  split
  · rw [ieBitsUrefs_succ (hurefs ▸ hlt), hurefs]
  · exact hurefs

end

/-- The fields of an entry that `ipc_right_copyin_undo` fills again. -/
theorem undoEntry_fields (entry : IpcEntry) {urefs : BitVec 32}
    (hurefs : ieBitsUrefs urefs = urefs) :
    ieBitsType (undoEntry entry urefs).ieBits = machPortTypeDeadName ∧
      ieBitsUrefs (undoEntry entry urefs).ieBits = urefs ∧
      ieBitsGen (undoEntry entry urefs).ieBits = ieBitsGen entry.ieBits ∧
      (undoEntry entry urefs).ieBits &&& ieBitsCollision = entry.ieBits &&& ieBitsCollision := by
  have hdisjoint : ∀ {m : BitVec 32}, ieBitsUrefsMask &&& m = 0 → urefs &&& m = 0 := fun hm => by
    rw [← hurefs]
    exact and_and_of_disjoint hm
  refine ⟨?_, ?_, ?_, ?_⟩
  · rw [ieBitsType, undoEntry, or_and_of_disjoint (hdisjoint (by decide)),
      and_or_distrib_right, and_and_of_disjoint (by decide)]
    decide
  · rw [ieBitsUrefs, undoEntry, and_or_distrib_right, and_or_distrib_right,
      and_and_of_disjoint (by decide)]
    change 0 ||| machPortTypeDeadName &&& ieBitsUrefsMask ||| ieBitsUrefs urefs = urefs
    rw [hurefs, show machPortTypeDeadName &&& ieBitsUrefsMask = 0 by decide]
    exact zero_or
  · rw [ieBitsGen, undoEntry, or_and_of_disjoint (hdisjoint (by decide)),
      or_and_of_disjoint (by decide), and_and_of_le (by decide)]
    rfl
  · rw [undoEntry, or_and_of_disjoint (hdisjoint (by decide)), or_and_of_disjoint (by decide),
      and_and_of_le (by decide)]

/-- The right of an entry that the undoing filled again with the references of a dead name. -/
theorem undoEntry_sameRight {e : IpcEntry} {urefs : BitVec 32}
    (hurefs : ieBitsUrefs urefs = urefs) (htype : ieBitsType e.ieBits = machPortTypeDeadName)
    (heq : ieBitsUrefs e.ieBits = urefs) (hgen : ieBitsGen entry.ieBits = ieBitsGen e.ieBits)
    (hcollision : entry.ieBits &&& ieBitsCollision = e.ieBits &&& ieBitsCollision)
    (hobject : entry.ieObject = e.ieObject) (hrequest : entry.ieRequest = e.ieRequest) :
    (undoEntry entry urefs).SameRight e := by
  obtain ⟨h1, h2, h3, h4⟩ := undoEntry_fields entry hurefs
  exact ⟨h1.trans htype.symm, h2.trans heq.symm, h3.trans hgen, h4.trans hcollision, hobject,
    hrequest⟩

section Undo

variable {msgtName : AnySend} {object : CopiedObject}

/-- The undoing of a copyin that emptied the entry: with a send-once right there was a
dead-name request. -/
theorem ipcRightCopyinUndo_none (hmoved : msgtName = .moveSend ∨ msgtName = .moveSendOnce)
    (htype : ieBitsType entry.ieBits = machPortTypeNone) (hobject : entry.ieObject = none)
    {soright : Option ℕ} (hdead : soright ≠ none → object ≠ .ioDead) :
    s.ipcRightCopyinUndo name msgtName object soright entry =
      some (s.undoRelease object, undoEntry entry (if soright ≠ none then 2 else 1)) := by
  unfold ipcRightCopyinUndo
  dsimp only
  rw [if_neg (not_not.mpr (Or.inl hmoved))]
  by_cases hso : soright ≠ none
  · rw [if_pos hso, if_pos ⟨hmoved, htype, hobject, hdead hso⟩, if_pos hso]
  · rw [if_neg hso, if_pos htype, if_pos ⟨hmoved, hobject⟩, if_neg hso]

/-- The undoing of the copyin of a dead name that is still there. -/
theorem ipcRightCopyinUndo_dead
    (hheld : msgtName = .moveSend ∨ msgtName = .copySend ∨ msgtName = .moveSendOnce)
    (htype : ieBitsType entry.ieBits = machPortTypeDeadName) (hobject : entry.ieObject = none)
    (hpos : ieBitsUrefs entry.ieBits ≠ 0)
    (hlt : msgtName ≠ .copySend → ieBitsUrefs entry.ieBits < machPortUrefsMax) :
    s.ipcRightCopyinUndo name msgtName .ioDead none entry =
      some (s, { entry with
        ieBits := if msgtName ≠ .copySend then entry.ieBits + 1 else entry.ieBits }) := by
  have hnone : ieBitsType entry.ieBits ≠ machPortTypeNone := by
    rw [htype]
    decide
  unfold ipcRightCopyinUndo
  dsimp only
  rw [if_neg (by tauto), if_neg (not_not.mpr rfl), if_neg hnone, if_pos htype,
    if_pos ⟨hobject, rfl, hpos, hlt⟩]
  rfl

/-- The undoing of a copyin of one of several send rights goes through `ipc_right_check`. -/
theorem ipcRightCopyinUndo_send (hheld : msgtName = .moveSend ∨ msgtName = .copySend)
    (htype : ieBitsType entry.ieBits = machPortTypeSend) (hobject : entry.ieObject = some port)
    (hpos : ieBitsUrefs entry.ieBits ≠ 0)
    (hlt : msgtName ≠ .copySend → ieBitsUrefs entry.ieBits < machPortUrefsMax - 1) :
    s.ipcRightCopyinUndo name msgtName (.port port) none entry =
      (s.ipcRightCheck port name
          { entry with
            ieBits := if msgtName ≠ .copySend then entry.ieBits + 1 else entry.ieBits }).map
        fun r => (r.2.1.ipcPortRelease port, r.2.2) := by
  have hnone : ieBitsType entry.ieBits ≠ machPortTypeNone := by
    rw [htype]
    decide
  have hdead : ieBitsType entry.ieBits ≠ machPortTypeDeadName := by
    rw [htype]
    decide
  unfold ipcRightCopyinUndo
  dsimp only
  rw [if_neg (by tauto), if_neg (not_not.mpr rfl), if_neg hnone, if_neg hdead,
    if_pos ⟨hheld, htype, hobject, hpos, hlt⟩]
  rfl

end Undo

/-- A copied or moved dead name is put back. -/
theorem copyinDead_undo {msgtName : AnySend} {deadok : Bool} {object : CopiedObject}
    {soright : Option ℕ}
    (hheld : msgtName = .moveSend ∨ msgtName = .copySend ∨ msgtName = .moveSendOnce)
    (h : s.copyinDead (decide (msgtName ≠ .copySend)) deadok entry =
      some (.ok (object, soright), s₁, entry₁)) (t : RightState) :
    s₁ = s ∧ soright = none ∧
      ∃ e, t.ipcRightCopyinUndo name msgtName object soright entry₁ = some (t, e) ∧
        e.SameRight entry := by
  unfold copyinDead at h
  dsimp only at h
  split at h
  · cases h
  rename_i hassert
  push Not at hassert
  obtain ⟨htype, hurefs, hrequest, hobject⟩ := hassert
  split at h
  · cases h
  split at h
  · rename_i _ hcopy
    cases h
    have hcopy : msgtName = .copySend := by simpa using hcopy
    exact ⟨rfl, rfl, _, ipcRightCopyinUndo_dead hheld htype hobject hurefs (absurd hcopy),
      ⟨by simp [hcopy], by simp [hcopy], by simp [hcopy], by simp [hcopy], rfl, rfl⟩⟩
  rename_i _ hmove
  have hmove : msgtName ≠ .copySend := by simpa using hmove
  have hmoved : msgtName = .moveSend ∨ msgtName = .moveSendOnce := by tauto
  cases h
  refine ⟨rfl, rfl, ?_⟩
  by_cases hone : ieBitsUrefs entry.ieBits = 1
  · -- The last reference: the entry was emptied.
    rw [if_pos hone]
    have hnone : ieBitsType (entry.ieBits &&& ~~~machPortTypeDeadName) = machPortTypeNone := by
      rw [ieBitsType_and, htype]
      decide
    refine ⟨_, ipcRightCopyinUndo_none hmoved hnone (by exact hobject) (absurd rfl), ?_⟩
    rw [if_neg (not_not.mpr rfl)]
    exact undoEntry_sameRight (by decide) htype hone (and_and_of_le (by decide))
      (and_and_of_le (by decide)) rfl rfl
  · -- A reference was taken and is given back.
    rw [if_neg hone]
    obtain ⟨hpos, hlt⟩ := ieBitsUrefs_pred_bounds hurefs hone
    refine ⟨_, ipcRightCopyinUndo_dead hheld ((and_pred hurefs (by decide)).trans htype) hobject
      hpos fun _ => hlt, ?_⟩
    rw [if_pos hmove, BitVec.sub_add_cancel]
    exact ⟨rfl, rfl, rfl, rfl, rfl, rfl⟩

/-- What is the same in two outcomes: the right of the entry, the reverse hash, and which ports
live with how many references. -/
structure SameOutcome (s : RightState) (e : IpcEntry) (s' : RightState) (e' : IpcEntry) : Prop where
  right : e.SameRight e'
  hash : s.hash = s'.hash
  active : ∀ p, (s.ports p).ipActive = (s'.ports p).ipActive
  references : ∀ p, (s.ports p).ipReferences = (s'.ports p).ipReferences

/-- What the cancelling of a dead-name request leaves: all but the request, which the caller
can notify in place of the port. -/
structure Cancelled (sizes : IpcDnTableSizes) (s : RightState) (port : ℕ) (name : MachPort)
    (entry : IpcEntry) (soright : Option ℕ) (s₁ : RightState) (entry₁ : IpcEntry) : Prop where
  entryEq : entry₁ = { entry with index := 0 }
  soright_eq_none : soright = none ↔ entry.ieRequest = 0
  hash : s₁.hash = s.hash
  active : ∀ p, (s₁.ports p).ipActive = (s.ports p).ipActive
  references : ∀ p, (s₁.ports p).ipReferences = (s.ports p).ipReferences
  notifies : (s.ports port).ipActive = true → ∀ released,
    ((s₁.portDies sizes port released).2 ++ callerNotifies name soright).Perm
      (s.portDies sizes port released).2

/-- A port that is active gives its requests to notification when it dies. -/
theorem portDies_snd (hactive : (s.ports port).ipActive = true) (released : ℕ) :
    (s.portDies sizes port released).2 =
      (s.ports port).ipDnrequests.elim [] fun table =>
        (table.ipcPortDnnotify sizes).map fun r => (r.name, r.soright) := by
  unfold portDies
  dsimp only
  rw [if_pos hactive]

/-- `ipc_right_dncancel_macro`. -/
theorem ipcRightDncancel_spec {soright : Option ℕ}
    (h : s.ipcRightDncancel sizes port name entry = some (soright, s₁, entry₁)) :
    Cancelled sizes s port name entry soright s₁ entry₁ := by
  unfold ipcRightDncancel at h
  split at h
  · rename_i hzero
    cases h
    have hentry : entry = { entry with index := 0 } := by
      cases entry
      cases hzero
      rfl
    refine ⟨hentry, iff_of_true rfl hzero, rfl, fun _ => rfl, fun _ => rfl, fun _ _ => ?_⟩
    rw [callerNotifies, toList_none, List.map_nil, List.append_nil]
  rename_i hindex
  split at h
  · cases h
  rename_i table htable
  split at h
  swap
  · cases h
  rename_i hslot
  cases h
  obtain ⟨hname, hlt, hslot⟩ := hslot
  let left : RightState := s.setPort port
    { s.ports port with ipDnrequests := some (table.dncancel entry.ieRequest) }
  have hports : ∀ p, (left.ports p).ipActive = (s.ports p).ipActive ∧
      (left.ports p).ipReferences = (s.ports p).ipReferences := fun p => by
    by_cases hp : p = port
    · subst hp
      simp [left, setPort]
    · simp [left, setPort, hp]
  refine ⟨rfl, iff_of_false (by simp) hindex, rfl, fun p => (hports p).1, fun p => (hports p).2,
    fun hactive released => ?_⟩
  rw [portDies_snd hactive, portDies_snd ((hports port).1.trans hactive), htable]
  obtain ⟨hchanged, hnone⟩ := @DnTable.dncancel_changed table entry.ieRequest hindex
  have hsome : table.request entry.ieRequest =
      some ⟨entry.ieRequest, name, (table.slots entry.ieRequest).notify⟩ :=
    DnTable.request_eq_some.mpr ⟨by rwa [hslot], by rw [hslot]⟩
  have hperm := (hchanged.symm.perm (Nat.pos_of_ne_zero hindex) hlt hnone hsome).map
    fun r => (r.name, r.soright)
  simp only [left, setPort, Function.update_self, elim_some]
  refine List.Perm.trans ?_ hperm.symm
  exact List.perm_append_comm

section Ports

variable (p : ℕ) (released : ℕ)

@[simp] theorem ipcPortRelease_hash : (s.ipcPortRelease port).hash = s.hash := rfl

@[simp] theorem ipcPortRelease_active :
    ((s.ipcPortRelease port).ports p).ipActive = (s.ports p).ipActive := by
  by_cases hp : p = port
  · subst hp
    simp [ipcPortRelease, setPort]
  · simp [ipcPortRelease, setPort, hp]

@[simp] theorem ipcPortRelease_references :
    ((s.ipcPortRelease port).ports p).ipReferences =
      (s.ports p).ipReferences - if p = port then 1 else 0 := by
  by_cases hp : p = port
  · subst hp
    simp [ipcPortRelease, setPort]
  · simp [ipcPortRelease, setPort, hp]

@[simp] theorem ipcHashDelete_ports : (s.ipcHashDelete port name).ports = s.ports := rfl

@[simp] theorem ipcHashDelete_hash :
    (s.ipcHashDelete port name).hash = s.hash.erase (port, name) := rfl

@[simp] theorem portDies_hash : (s.portDies sizes port released).1.hash = s.hash := by
  unfold portDies
  dsimp only
  split <;> rfl

@[simp] theorem portDies_active :
    ((s.portDies sizes port released).1.ports p).ipActive =
      if p = port then false else (s.ports p).ipActive := by
  unfold portDies
  by_cases hp : p = port
  · subst hp
    by_cases ha : (s.ports p).ipActive <;> simp [setPort, ha]
  · by_cases ha : (s.ports port).ipActive <;> simp [setPort, ha, hp]

@[simp] theorem portDies_references (hactive : (s.ports port).ipActive = true) :
    ((s.portDies sizes port released).1.ports p).ipReferences =
      (s.ports p).ipReferences - if p = port then released else 0 := by
  unfold portDies
  by_cases hp : p = port
  · subst hp
    simp [setPort, hactive]
  · simp [setPort, hactive, hp]

/-- A port that is dead does not die again. -/
theorem portDies_of_dead (hdead : (s.ports port).ipActive = false) :
    s.portDies sizes port released = (s, []) := by
  unfold portDies
  dsimp only
  rw [if_neg (by rw [hdead]; decide)]

end Ports

/-- `ipc_right_check` finds the port dead. -/
theorem ipcRightCheck_dead (h : s.ipcRightCheck port name entry = some (true, s₁, entry₁)) :
    (s.ports port).ipActive = false ∧ (s₁.ports port).ipActive = false := by
  unfold ipcRightCheck at h
  split at h
  · cases h
  split at h
  · cases h
  rename_i hactive
  have hdead : (s.ports port).ipActive = false := by simpa using hactive
  dsimp only at h
  iterate 4
    split at h
    · cases h
  cases h
  refine ⟨hdead, ?_⟩
  rw [ipcPortRelease_active]
  split <;> exact hdead

/-- What is copied in of a dead name is no port. -/
theorem copyinDead_object {move deadok : Bool}
    {result : Except KernReturn (CopiedObject × Option ℕ)}
    (h : s.copyinDead move deadok entry = some (result, s₁, entry₁)) : entry.ieObject = none := by
  unfold copyinDead at h
  dsimp only at h
  split at h
  · cases h
  rename_i hassert
  push Not at hassert
  exact hassert.2.2.2

/-- A copyin that took another reference and send right for the port. -/
structure Duplicated (s : RightState) (port : ℕ) (s₁ : RightState) : Prop where
  hash : s₁.hash = s.hash
  active : ∀ p, (s₁.ports p).ipActive = (s.ports p).ipActive
  references : ∀ p, (s₁.ports p).ipReferences = (s.ports p).ipReferences + if p = port then 1 else 0
  requests : ∀ p, (s₁.ports p).ipDnrequests = (s.ports p).ipDnrequests

/-- `ip_srights++` and `ip_reference`. -/
theorem duplicated (s : RightState) (port : ℕ) :
    Duplicated s port ((s.setPort port
      { s.ports port with ipSrights := (s.ports port).ipSrights + 1 }).ipReference port) := by
  refine ⟨rfl, fun p => ?_, fun p => ?_, fun p => ?_⟩ <;>
  · by_cases hp : p = port
    · subst hp
      simp [setPort, ipReference]
    · simp [setPort, ipReference, hp]

/-- The release by the undoing of a duplicated right leaves what `ipc_right_check` leaves. -/
theorem Duplicated.sameOutcome (h : Duplicated s port s₁) (hactive : (s.ports port).ipActive = true)
    (released : ℕ) (e : IpcEntry) :
    SameOutcome
      ((((s₁.portDies sizes port released).1.ipcHashDelete port name).ipcPortRelease
        port).ipcPortRelease port) e
      (((s.portDies sizes port released).1.ipcHashDelete port name).ipcPortRelease port) e := by
  have hactive₁ : (s₁.ports port).ipActive = true := (h.active port).trans hactive
  refine ⟨⟨rfl, rfl, rfl, rfl, rfl, rfl⟩, ?_, fun p => ?_, fun p => ?_⟩
  · simp [h.hash]
  · simp [h.active]
  · by_cases hp : p = port
    · subst hp
      simp [portDies_references, hactive, hactive₁, h.references]
      omega
    · simp [portDies_references, hactive, hactive₁, h.references, hp]

/-- The undoing after the port died leaves what `ipc_right_check` alone would have left, and the
same notifications were sent. -/
def Undoes (sizes : IpcDnTableSizes) (s : RightState) (name : MachPort) (entry : IpcEntry)
    (msgtName : AnySend) (object : CopiedObject) (soright : Option ℕ) (s₁ : RightState)
    (entry₁ : IpcEntry) (released : ℕ) : Prop :=
  let dead₁ := s₁.objectDies sizes entry.ieObject released
  let dead := s.objectDies sizes entry.ieObject released
  ∃ s₂ entry₂ s' entry',
    dead₁.1.ipcRightCopyinUndo name msgtName object soright entry₁ = some (s₂, entry₂) ∧
      dead.1.checkEntry name entry = some (s', entry') ∧ SameOutcome s₂ entry₂ s' entry' ∧
      (dead₁.2 ++ callerNotifies name soright).Perm dead.2

section Alive

variable {released : ℕ}

/-- One of several send rights was copied or moved: the copyin duplicated a right. -/
theorem Duplicated.undoes {msgtName : AnySend} (h : Duplicated s port s₁)
    (hheld : msgtName = .moveSend ∨ msgtName = .copySend)
    (hobject : entry.ieObject = some port) (hactive : (s.ports port).ipActive = true)
    (htype : ieBitsType entry.ieBits = machPortTypeSend) (hpos : ieBitsUrefs entry.ieBits ≠ 0)
    (hlt : ieBitsUrefs entry.ieBits < machPortUrefsMax)
    (hentry₁ : entry₁ =
      { entry with ieBits := if msgtName ≠ .copySend then entry.ieBits - 1 else entry.ieBits })
    (hmany : msgtName ≠ .copySend → ieBitsUrefs entry.ieBits ≠ 1) :
    Undoes sizes s name entry msgtName (.port port) none s₁ entry₁ released := by
  have hactive₁ : (s₁.ports port).ipActive = true := (h.active port).trans hactive
  have hundo : (s₁.portDies sizes port released).1.ipcRightCopyinUndo name msgtName (.port port)
      none entry₁ = some ((((s₁.portDies sizes port released).1.ipcHashDelete port
        name).ipcPortRelease port).ipcPortRelease port, deadEntry entry) := by
    have hback : { entry₁ with
        ieBits := if msgtName ≠ .copySend then entry₁.ieBits + 1 else entry₁.ieBits } = entry := by
      subst hentry₁
      by_cases hcopy : msgtName = .copySend
      · simp [hcopy]
      · simp [hcopy]
    have htype₁ : ieBitsType entry₁.ieBits = machPortTypeSend := by
      rw [hentry₁, ← htype]
      dsimp only
      split
      · exact and_pred hpos (by decide)
      · rfl
    have hpos₁ : ieBitsUrefs entry₁.ieBits ≠ 0 := by
      rw [hentry₁]
      dsimp only
      split
      · exact (ieBitsUrefs_pred_bounds hpos (hmany ‹_›)).1
      · exact hpos
    have hlt₁ : msgtName ≠ .copySend → ieBitsUrefs entry₁.ieBits < machPortUrefsMax - 1 := by
      intro hmove
      rw [hentry₁]
      dsimp only
      rw [if_pos hmove, lt_def]
      have hpred := ieBitsUrefs_pred hpos
      have hlt' : (ieBitsUrefs entry.ieBits).toNat < 65535 := hlt
      change _ < 65534
      omega
    rw [ipcRightCopyinUndo_send hheld htype₁ (by rw [hentry₁]; exact hobject) hpos₁ hlt₁, hback,
      ipcRightCheck_send hobject (by simp) htype hpos hlt]
    rfl
  have hcheck : (s.portDies sizes port released).1.checkEntry name entry =
      some (((s.portDies sizes port released).1.ipcHashDelete port name).ipcPortRelease port,
        deadEntry entry) := by
    unfold checkEntry
    rw [hobject, elim_some, ipcRightCheck_send hobject (by simp) htype hpos hlt]
    rfl
  simp only [Undoes, hobject, objectDies, elim_some]
  refine ⟨_, _, _, _, hundo, hcheck, h.sameOutcome hactive released (deadEntry entry), ?_⟩
  rw [callerNotifies, toList_none, List.map_nil, List.append_nil, portDies_snd hactive₁,
    portDies_snd hactive, h.requests]

/-- The last send right, or a send-once right, was moved: the copyin emptied the entry. -/
theorem Cancelled.undoes {msgtName : AnySend} {soright : Option ℕ} {t : RightState}
    {entryT : IpcEntry} (h : Cancelled sizes s port name entry soright t entryT)
    (hmoved : msgtName = .moveSend ∨ msgtName = .moveSendOnce)
    (hobject : entry.ieObject = some port) (hactive : (s.ports port).ipActive = true)
    (hurefs : ieBitsUrefs entry.ieBits = 1) {left : BitVec 32}
    (hnone : ieBitsType left = machPortTypeNone) (hgen : ieBitsGen left = ieBitsGen entry.ieBits)
    (hcollision : left &&& ieBitsCollision = entry.ieBits &&& ieBitsCollision)
    (hkind : ieBitsType entry.ieBits = machPortTypeSend ∧ s₁ = t.ipcHashDelete port name ∨
      ieBitsType entry.ieBits = machPortTypeSendOnce ∧ s₁ = t)
    (hentry₁ : entry₁ = { entryT with ieBits := left, ieObject := none }) :
    Undoes sizes s name entry msgtName (.port port) soright s₁ entry₁ released := by
  have hlt : ieBitsUrefs entry.ieBits < machPortUrefsMax := by
    rw [hurefs]
    decide
  have hpos : ieBitsUrefs entry.ieBits ≠ 0 := by
    rw [hurefs]
    decide
  have hundo := @ipcRightCopyinUndo_none (s₁.portDies sizes port released).1 name entry₁ msgtName
    (.port port) hmoved (by rw [hentry₁]; exact hnone) (by rw [hentry₁]) soright
    fun _ => CopiedObject.noConfusion
  obtain ⟨htypeDead, hgenDead, hcollisionDead⟩ := deadEntry_fields hlt
  have hright : (undoEntry entry₁ (if soright ≠ none then 2 else 1)).SameRight
      (deadEntry entry) := by
    refine undoEntry_sameRight (by split <;> decide) htypeDead ?_ ?_ ?_ (by rw [hentry₁]; rfl)
      (by rw [hentry₁, h.entryEq]; rfl)
    · rw [deadEntry_urefs hlt, hurefs]
      by_cases hrequest : entry.ieRequest = 0
      · rw [if_neg (not_not.mpr hrequest), if_neg (not_not.mpr (h.soright_eq_none.mpr hrequest))]
      · rw [if_pos hrequest, if_pos (mt h.soright_eq_none.mp hrequest)]
        decide
    · rw [hgenDead, ← hgen, hentry₁]
    · rw [hcollisionDead, ← hcollision, hentry₁]
  have hactiveT : (t.ports port).ipActive = true := (h.active port).trans hactive
  have hnotifies := h.notifies hactive released
  simp only [Undoes, hobject, objectDies, elim_some]
  obtain ⟨htype, rfl⟩ | ⟨htype, rfl⟩ := hkind
  · have hcheck : (s.portDies sizes port released).1.checkEntry name entry =
        some (((s.portDies sizes port released).1.ipcHashDelete port name).ipcPortRelease port,
          deadEntry entry) := by
      unfold checkEntry
      rw [hobject, elim_some, ipcRightCheck_send hobject (by simp) htype hpos hlt]
      rfl
    refine ⟨_, _, _, _, hundo, hcheck, ⟨hright, ?_, fun p => ?_, fun p => ?_⟩, ?_⟩
    · simp [undoRelease, h.hash]
    · simp [undoRelease, h.active]
    · simp [undoRelease, h.references, portDies_references, hactive, hactiveT]
    · rw [portDies_snd (s := t.ipcHashDelete port name) hactiveT, ipcHashDelete_ports,
        ← portDies_snd hactiveT released]
      exact hnotifies
  · have hcheck : (s.portDies sizes port released).1.checkEntry name entry =
        some ((s.portDies sizes port released).1.ipcPortRelease port, deadEntry entry) := by
      unfold checkEntry
      rw [hobject, elim_some, ipcRightCheck_sendOnce hobject (by simp) htype hurefs]
      rfl
    refine ⟨_, _, _, _, hundo, hcheck, ⟨hright, ?_, fun p => ?_, fun p => ?_⟩, hnotifies⟩
    · simp [undoRelease, h.hash]
    · simp [undoRelease, h.active]
    · simp [undoRelease, h.references, portDies_references, hactive, hactiveT]

variable {object : CopiedObject} {soright : Option ℕ}

/-- A word with the bit of a type has no other type of a right that can be moved. -/
theorem type_of_and {bits m : BitVec 32} (hm : ieBitsTypeMask &&& m = m) (h : bits &&& m ≠ 0)
    {type : BitVec 32} (htype : type &&& m = 0) : ieBitsType bits ≠ type := by
  rintro rfl
  exact h ((and_type hm).trans htype)

variable (hobject : entry.ieObject = some port)

include hobject

variable (hactive : (s.ports port).ipActive = true)

include hactive

/-- `MACH_MSG_TYPE_COPY_SEND` of an active port. -/
theorem copyinCopySend_undoes (htype : ieBitsType entry.ieBits = machPortTypeSend ∨
      ieBitsType entry.ieBits = machPortTypeSendOnce)
    (hpos : ieBitsUrefs entry.ieBits ≠ 0)
    (hurefs : ieBitsType entry.ieBits = machPortTypeSend →
      ieBitsUrefs entry.ieBits < machPortUrefsMax)
    (h : s.copyinCopySend port entry = some (.ok (object, soright), s₁, entry₁)) :
    Undoes sizes s name entry .copySend object soright s₁ entry₁ released := by
  unfold copyinCopySend at h
  dsimp only at h
  split at h
  · split at h <;> cases h
  rename_i hsend
  split at h
  · cases h
  have htype := htype.resolve_right (type_of_and (by decide) hsend (by decide))
  cases h
  exact (duplicated s port).undoes (.inr rfl) hobject hactive htype hpos (hurefs htype) rfl
    (absurd rfl)

/-- `MACH_MSG_TYPE_MOVE_SEND` of an active port. -/
theorem copyinMoveSend_undoes (htype : ieBitsType entry.ieBits = machPortTypeSend ∨
      ieBitsType entry.ieBits = machPortTypeSendOnce)
    (hpos : ieBitsUrefs entry.ieBits ≠ 0)
    (hurefs : ieBitsType entry.ieBits = machPortTypeSend →
      ieBitsUrefs entry.ieBits < machPortUrefsMax)
    (h : s.copyinMoveSend sizes port name entry = some (.ok (object, soright), s₁, entry₁)) :
    Undoes sizes s name entry .moveSend object soright s₁ entry₁ released := by
  unfold copyinMoveSend at h
  dsimp only at h
  split at h
  · split at h <;> cases h
  rename_i hsend
  split at h
  · cases h
  have htype := htype.resolve_right (type_of_and (by decide) hsend (by decide))
  split at h
  · rename_i hone
    split at h
    · rename_i hreceive
      exact absurd htype (type_of_and (by decide) hreceive (by decide))
    split at h
    · cases h
    obtain ⟨⟨dnrequest, t, entryT⟩, hcancel, hresult⟩ := map_eq_some_iff.mp h
    cases hresult
    refine (ipcRightDncancel_spec hcancel).undoes (.inl rfl) hobject hactive hone ?_
      (and_and_of_le (by decide)) (and_and_of_le (by decide)) (.inl ⟨htype, rfl⟩) rfl
    rw [ieBitsType_and, htype]
    decide
  · rename_i hmany
    cases h
    exact (duplicated s port).undoes (.inl rfl) hobject hactive htype hpos (hurefs htype) rfl
      fun _ => hmany

/-- `MACH_MSG_TYPE_MOVE_SEND_ONCE` of an active port. -/
theorem copyinMoveSendOnce_undoes
    (h : s.copyinMoveSendOnce sizes port name entry = some (.ok (object, soright), s₁, entry₁)) :
    Undoes sizes s name entry .moveSendOnce object soright s₁ entry₁ released := by
  unfold copyinMoveSendOnce at h
  dsimp only at h
  split at h
  · split at h <;> cases h
  split at h
  · rename_i hassert
    obtain ⟨htype, hone, -⟩ := hassert
    obtain ⟨⟨dnrequest, t, entryT⟩, hcancel, hresult⟩ := map_eq_some_iff.mp h
    cases hresult
    refine (ipcRightDncancel_spec hcancel).undoes (.inr rfl) hobject hactive hone ?_
      (and_and_of_le (by decide)) (and_and_of_le (by decide)) (.inr ⟨htype, rfl⟩) rfl
    rw [ieBitsType_and, htype]
    decide
  · cases h

end Alive

/-- **A copyin is undone up to the death of the port.** For every entry that holds a send, a
send-once or a dead-name right and every copyin that copies or moves it: if the port dies and
`ipc_right_copyin_undo` is then applied, the entry, the reverse hash and the references of the
ports are what `ipc_right_check` alone would have made of the entry. The notification that the
caller sends for a send-once right stands for the one that the port then did not send. -/
theorem ipcRightCopyinUndo_eq_check {msgtName : AnySend} {deadok : Bool} {object : CopiedObject}
    {soright : Option ℕ} (released : ℕ)
    (htype : ieBitsType entry.ieBits = machPortTypeSend ∨
      ieBitsType entry.ieBits = machPortTypeSendOnce ∨
      ieBitsType entry.ieBits = machPortTypeDeadName)
    (hurefs : ieBitsType entry.ieBits = machPortTypeSend →
      ieBitsUrefs entry.ieBits < machPortUrefsMax)
    (hheld : msgtName = .moveSend ∨ msgtName = .copySend ∨ msgtName = .moveSendOnce)
    (hcopyin : s.ipcRightCopyin sizes name msgtName deadok entry =
      some (.ok (object, soright), s₁, entry₁)) :
    Undoes sizes s name entry msgtName object soright s₁ entry₁ released := by
  have hin : s.copyinHeld sizes name msgtName deadok entry =
      some (.ok (object, soright), s₁, entry₁) := by
    rcases hheld with rfl | rfl | rfl <;> exact hcopyin
  unfold copyinHeld at hin
  dsimp only at hin
  split at hin
  · -- A dead name: no port dies, and there is nothing to check.
    have hnone := copyinDead_object hin
    obtain ⟨rfl, rfl, e, hundo, hright⟩ := @copyinDead_undo s s₁ name entry entry₁ msgtName deadok
      object soright hheld hin s
    simp only [Undoes, hnone, objectDies, elim_none, checkEntry]
    exact ⟨_, _, _, _, hundo, rfl, ⟨hright, rfl, fun _ => rfl, fun _ => rfl⟩, .refl _⟩
  rename_i hdead
  split at hin
  · cases hin
  split at hin
  · cases hin
  rename_i hpos
  split at hin
  · cases hin
  rename_i port hobject
  have htype' : ieBitsType entry.ieBits = machPortTypeSend ∨
      ieBitsType entry.ieBits = machPortTypeSendOnce := by
    refine htype.imp_right fun h => h.resolve_right fun hd => hdead ?_
    rw [and_type (by decide), hd]
    decide
  split at hin
  · cases hin
  · -- The port was dead already: the copyin was of the dead name that the check made.
    rename_i t entryT hcheck
    obtain ⟨hinactive, hinactive'⟩ := ipcRightCheck_dead hcheck
    obtain ⟨rfl, rfl, e, hundo, hright⟩ := @copyinDead_undo t s₁ name entryT entry₁ msgtName deadok
      object soright hheld hin s₁
    simp only [Undoes, hobject, objectDies, elim_some, portDies_of_dead released hinactive,
      portDies_of_dead released hinactive']
    refine ⟨_, _, _, _, hundo, ?_, ⟨hright, rfl, fun _ => rfl, fun _ => rfl⟩, .refl _⟩
    rw [checkEntry, hobject, elim_some, hcheck]
    rfl
  · -- The port was active.
    rename_i t entryT hcheck
    obtain ⟨hactive, rfl, rfl⟩ := ipcRightCheck_active hcheck
    rcases hheld with rfl | rfl | rfl
    · exact copyinMoveSend_undoes hobject hactive htype' hpos hurefs hin
    · exact copyinCopySend_undoes hobject hactive htype' hpos hurefs hin
    · exact copyinMoveSendOnce_undoes hobject hactive hin

/-- A port with one send right, whose holder has requested a dead-name notification. -/
def requested : RightState where
  ports _ := ⟨true, 2, 0, 1, 1, 0, some ⟨0, fun _ => ⟨256, 9⟩⟩⟩
  hash := {(5, 256)}

theorem requested_undone : ∃ s₁ entry₁,
    requested.ipcRightCopyin ipcTableDnrequests 256 .moveSend false ⟨0x00010001, some 5, 1⟩ =
        some (.ok (.port 5, some 9), s₁, entry₁) ∧
      Undoes ipcTableDnrequests requested 256 ⟨0x00010001, some 5, 1⟩ .moveSend (.port 5) (some 9)
        s₁ entry₁ 1 := by
  obtain ⟨t, e, hcancel⟩ : ∃ t e, requested.ipcRightDncancel ipcTableDnrequests 5 256
      ⟨0x00010001, some 5, 1⟩ = some (some 9, t, e) := by
    unfold ipcRightDncancel
    rw [if_neg (by decide)]
    exact ⟨_, _, if_pos ⟨by decide, ipcTableDnrequests.one_lt, rfl⟩⟩
  obtain ⟨s₁, entry₁, hcopyin⟩ : ∃ s₁ entry₁, requested.ipcRightCopyin ipcTableDnrequests 256
      .moveSend false ⟨0x00010001, some 5, 1⟩ = some (.ok (.port 5, some 9), s₁, entry₁) := by
    have hmap : requested.ipcRightCopyin ipcTableDnrequests 256 .moveSend false
        ⟨0x00010001, some 5, 1⟩ =
        (requested.ipcRightDncancel ipcTableDnrequests 5 256 ⟨0x00010001, some 5, 1⟩).map
          fun r => (.ok (.port 5, r.1), r.2.1.ipcHashDelete 5 256,
            { r.2.2 with ieBits := 0, ieObject := none }) := rfl
    exact ⟨_, _, hmap.trans (congrArg (Option.map _) hcancel)⟩
  exact ⟨_, _, hcopyin, ipcRightCopyinUndo_eq_check 1 (.inl (by decide)) (fun _ => by decide)
    (.inl rfl) hcopyin⟩

end RightState

end MachVirtuTerm
