import MachVirtuTerm.Ipc.KmsgCopyin
import MachVirtuTerm.Ipc.KmsgCopyout

/-!
# Receiving into a scatter list

`mach_msg_receive` copies a scatter list in from the user, `ipc_mqueue_finish_receive` checks
the size of the message and the list, and `ipc_kmsg_copyout_body` overwrites the regions that
the list names.
-/

open List

namespace MachVirtuTerm

namespace Kmsg

def machMsgSuccess : MachMsgReturn := 0

def machRcvTooLarge : MachMsgReturn := 0x10004004

def machRcvInvalidData : MachMsgReturn := 0x10004008

def machRcvInvalidType : MachMsgReturn := 0x1000400d

def machRcvScatterSmall : MachMsgReturn := 0x1000400e

def machRcvNotify : BitVec 32 := 0x200

def machRcvOverwrite : BitVec 32 := 0x1000

/-! ## Descriptors in memory -/

/-- A port descriptor, which both loops ignore. -/
def UserDescriptor.isPort (d : UserDescriptor) : Bool :=
  d.type == machMsgPortDescriptor

/-- A descriptor of the gather list, with its number. -/
abbrev Gathered := UserDescriptor × ℕ

/-- A descriptor of the scatter list, with its offset from the start of the list. -/
structure Placed where
  offset : ℕ
  descriptor : UserDescriptor
  deriving DecidableEq

/-- A port descriptor of the scatter list. -/
def Placed.isPort (s : Placed) : Bool := s.descriptor.isPort

/-- The offset of `send` from the start of the list: `sizeof(mach_msg_size_t)` and
`sizeof(mach_msg_descriptor_t)` for each descriptor, in 32 bits. -/
def listEnd (count : BitVec 32) : BitVec 32 := count * 12 + 4

/-- The descriptors at `sstart`, while it is below `send`. -/
def scatterList (memory : ℕ → UserDescriptor) (count : BitVec 32) : List Placed :=
  (List.range (((listEnd count).toNat - 4 + 11) / 12)).map
    fun i => ⟨4 + 12 * i, memory (4 + 12 * i)⟩

/-! ## The two loops -/

/-- What a loop over the scatter list did: the descriptors that it read, and those that it
took, each for a descriptor of the message. -/
structure Walk where
  read : List Placed
  pairs : List (Gathered × Placed)
  deriving DecidableEq

/-- The loop over port descriptors that both loops have. -/
def skipPorts (scatter : List Placed) : List Placed :=
  scatter.dropWhile Placed.isPort

/-- The descriptors that the loop over port descriptors reads. -/
def seen (scatter : List Placed) : List Placed :=
  scatter.takeWhile Placed.isPort ++ (skipPorts scatter).take 1

/-- What was done for a descriptor, before the rest of a loop. -/
def Walk.after (read : List Placed) (pairs : List (Gathered × Placed)) (w : Walk) : Walk :=
  ⟨read ++ w.read, pairs ++ w.pairs⟩

/-- The check of the type, copy and size fields. -/
def checkFields (g s : UserDescriptor) : MachMsgReturn :=
  if g.IsOutOfLine then
    if ¬s.IsOutOfLine then machRcvInvalidType
    else if s.copy = machMsgOverwrite ∧ g.size > s.size then machRcvScatterSmall
    else machMsgSuccess
  else
    if s.type ≠ machMsgOolPortsDescriptor then machRcvInvalidType
    else if s.copy = machMsgOverwrite ∧ g.size > s.size then machRcvScatterSmall
    else machMsgSuccess

/-- The loop of `ipc_kmsg_check_scatter`. -/
def checkScatterFrom (count : BitVec 32) : List Gathered → List Placed → MachMsgReturn × Walk
  | [], _ => (machMsgSuccess, ⟨[], []⟩)
  | g :: gather, scatter =>
    if g.1.isPort then checkScatterFrom count gather scatter
    -- a list without descriptors counts as too small
    else if count = 0 then (machRcvScatterSmall, ⟨[], []⟩)
    else
      match skipPorts scatter with
      | [] => (machMsgSuccess, ⟨seen scatter, []⟩)
      | s :: rest =>
        let mr := checkFields g.1 s.descriptor
        if mr ≠ machMsgSuccess then (mr, ⟨seen scatter, []⟩)
        else
          let next := checkScatterFrom count gather rest
          (next.1, next.2.after (seen scatter) [(g, s)])

def ipcKmsgCheckScatter (gather : List UserDescriptor) (memory : ℕ → UserDescriptor)
    (count : BitVec 32) : MachMsgReturn × Walk :=
  checkScatterFrom count gather.zipIdx (scatterList memory count)

/-- The loop of `ipc_kmsg_copyout_body`, as far as the scatter list goes; a descriptor of
another type is a panic. -/
def copyoutScatterFrom : List Gathered → List Placed → Walk
  | [], _ => ⟨[], []⟩
  | g :: gather, scatter =>
    if g.1.isPort then copyoutScatterFrom gather scatter
    else if g.1.IsOutOfLine ∨ g.1.type = machMsgOolPortsDescriptor then
      match skipPorts scatter with
      | [] => (copyoutScatterFrom gather []).after (seen scatter) []
      | s :: rest => (copyoutScatterFrom gather rest).after (seen scatter) [(g, s)]
    else ⟨[], []⟩

/-- The region of a pair is overwritten: the scatter descriptor says so, and the message has
something to write. -/
def Overwrites (p : Gathered × Placed) : Prop :=
  p.2.descriptor.copy = machMsgOverwrite ∧
    if p.1.1.IsOutOfLine then p.1.1.word ≠ 0 else p.1.1.size * 4 ≠ 0

instance (p : Gathered × Placed) : Decidable (Overwrites p) :=
  inferInstanceAs (Decidable (_ ∧ _))

/-! ## The receiver -/

/-- A call to `mach_msg_receive` and the message that it gets. -/
structure ReceiveCall where
  option : BitVec 32
  rcvSize : BitVec 32
  notify : MachPort
  slistSize : BitVec 32
  /-- There is no memory for the list, or it cannot be read. -/
  copyinFails : Bool
  /-- `msgh_descriptor_count` of the list. -/
  count : BitVec 32
  /-- What is in the memory at an offset from the start of the list when it is checked. -/
  slist : ℕ → UserDescriptor
  /-- What is there when the body is copied out. -/
  laterSlist : ℕ → UserDescriptor
  /-- What was copied in stays as it is. -/
  slist_kept : ∀ offset, offset + 12 ≤ (slistSize - 24).toNat →
    laterSlist offset = slist offset
  msghSize : BitVec 32
  /-- `MACH_MSGH_BITS_COMPLEX`. -/
  complex : Bool
  /-- The descriptors that follow the header, or what is read as such. -/
  gather : List UserDescriptor
  /-- What `ipc_kmsg_copyout_header` returns. -/
  headerCopyout : MachMsgReturn

def getRcvElements (option : BitVec 32) : ℕ := ((option >>> 24) &&& 0xf).toNat

/-- `REQUESTED_TRAILER_SIZE`. The table ends with the security trailer; for other elements the
words behind it are read. -/
def requestedTrailerSize (behind : ℕ → BitVec 32) (option : BitVec 32) : BitVec 32 :=
  match getRcvElements option with
  | 0 => 8
  | 1 => 12
  | 2 => 20
  | element => behind element

/-- `MACH_RCV_OVERWRITE` was specified. -/
def ReceiveCall.Overwrite (c : ReceiveCall) : Prop := c.option &&& machRcvOverwrite ≠ 0

instance (c : ReceiveCall) : Decidable c.Overwrite := inferInstanceAs (Decidable (_ ≠ _))

/-- `slist_size` without the header: the bytes that are copied in. -/
def ReceiveCall.listSize (c : ReceiveCall) : BitVec 32 := c.slistSize - 24

/-- How the scatter list is copied in: an error, no list, or a list. -/
def ReceiveCall.copyinScatter (c : ReceiveCall) : Except MachMsgReturn Bool :=
  if c.Overwrite then
    if c.slistSize < 28 then .error machRcvScatterSmall
    else if c.copyinFails then .error machRcvInvalidData
    else if listEnd c.count > c.listSize then .error machRcvInvalidType
    else .ok true
  else .ok false

/-- The checks of `ipc_mqueue_finish_receive`. -/
def ReceiveCall.finishReceive (behind : ℕ → BitVec 32) (c : ReceiveCall) (slist : Bool) :
    MachMsgReturn × Walk :=
  if c.msghSize > c.rcvSize - requestedTrailerSize behind c.option then
    (machRcvTooLarge, ⟨[], []⟩)
  else if slist then ipcKmsgCheckScatter c.gather c.slist c.count
  else (machMsgSuccess, ⟨[], []⟩)

/-- The list as `ipc_kmsg_copyout_body` finds it. -/
def ReceiveCall.laterList (c : ReceiveCall) (slist : Bool) : List Placed :=
  if slist then scatterList c.laterSlist c.count else []

/-- What `ipc_kmsg_copyout` does with the scatter list. -/
def ReceiveCall.copyout (c : ReceiveCall) (slist : Bool) : Walk :=
  if c.option &&& machRcvNotify ≠ 0 ∧ c.notify = machPortNull then ⟨[], []⟩
  else if c.headerCopyout ≠ machMsgSuccess then ⟨[], []⟩
  else if c.complex then copyoutScatterFrom c.gather.zipIdx (c.laterList slist)
  else ⟨[], []⟩

/-- What came of a call: what `ipc_mqueue_finish_receive` returned, if it was called, what it
did with the scatter list and what `ipc_kmsg_copyout_body` did with it. -/
structure Received where
  finish : Option MachMsgReturn
  checked : Walk
  copiedOut : Walk
  deriving DecidableEq

/-- `mach_msg_receive`, for a message. -/
def ReceiveCall.machMsgReceive (behind : ℕ → BitVec 32) (c : ReceiveCall) : Received :=
  match c.copyinScatter with
  | .error _ => ⟨none, ⟨[], []⟩, ⟨[], []⟩⟩
  | .ok slist =>
    let (mr, checked) := c.finishReceive behind slist
    if mr ≠ machMsgSuccess then ⟨some mr, checked, ⟨[], []⟩⟩
    else ⟨some mr, checked, c.copyout slist⟩

end Kmsg

end MachVirtuTerm

/-!
# Which scatter descriptors are read

Both loops pair the regions of the message with the regions of the scatter list in order. They
stay in the bytes that were copied in as long as the descriptors there are enough for the
message.
-/

namespace MachVirtuTerm

namespace Kmsg

/-! ## Pairing in order -/

/-- The descriptors of a message that are not ports. -/
def regionsOf (gather : List Gathered) : List Gathered := gather.filter fun g => !g.1.isPort

/-- The scatter descriptors that are not ports. -/
def targetsOf (scatter : List Placed) : List Placed := scatter.filter fun s => !s.isPort

/-- The fields of a pair pass the check. -/
def Consistent (p : Gathered × Placed) : Prop :=
  checkFields p.1.1 p.2.descriptor = machMsgSuccess

instance (p : Gathered × Placed) : Decidable (Consistent p) :=
  inferInstanceAs (Decidable (_ = _))

/-- A list has another region, which the loop over port descriptors finds. -/
theorem skipPorts_append_region {within : List Placed} (cut : List Placed) {s : Placed}
    {rest : List Placed} (hskip : skipPorts within = s :: rest) :
    skipPorts (within ++ cut) = s :: (rest ++ cut) ∧
      targetsOf within = s :: targetsOf rest ∧
      (∀ t ∈ seen (within ++ cut), t ∈ within) ∧ ∀ t ∈ rest, t ∈ within := by
  have hsplit : within.takeWhile Placed.isPort ++ s :: rest = within := by
    rw [← hskip]
    exact takeWhile_append_dropWhile
  have hs : s.isPort = false := by
    have hne : within.dropWhile Placed.isPort ≠ [] := by
      rw [show within.dropWhile Placed.isPort = s :: rest from hskip]
      exact cons_ne_nil s rest
    have := head_dropWhile_not Placed.isPort hne
    simpa [show within.dropWhile Placed.isPort = s :: rest from hskip] using this
  have hports : ∀ t ∈ within.takeWhile Placed.isPort, t.isPort = true :=
    fun t ht => mem_takeWhile_imp ht
  generalize hp : within.takeWhile Placed.isPort = ports at hsplit hports
  subst hsplit
  have hdrop : skipPorts (ports ++ s :: rest ++ cut) = s :: (rest ++ cut) := by
    rw [skipPorts, append_assoc, dropWhile_append_of_pos hports]
    simp [hs]
  have htake : (ports ++ s :: rest ++ cut).takeWhile Placed.isPort = ports := by
    rw [append_assoc, takeWhile_append_of_pos hports]
    simp [hs]
  refine ⟨hdrop, ?_, ?_, ?_⟩
  · have hnone : ports.filter (fun t => !t.isPort) = [] := by
      rw [filter_eq_nil_iff]
      intro t ht
      simp [hports t ht]
    rw [targetsOf, filter_append, hnone]
    simp [hs, targetsOf]
  · intro t ht
    rw [seen, htake, hdrop] at ht
    simp only [mem_append, take_succ_cons, take_zero, mem_singleton] at ht
    rcases ht with ht | rfl
    · exact mem_append_left _ ht
    · simp
  · intro t ht
    exact mem_append_right _ (mem_cons_of_mem s ht)

/-- A list without another region is read to its end, and on. -/
theorem skipPorts_append_none {within : List Placed} (cut : List Placed)
    (hskip : skipPorts within = []) :
    skipPorts (within ++ cut) = skipPorts cut ∧ targetsOf within = [] ∧
      seen (within ++ cut) = within ++ seen cut := by
  have hports : ∀ t ∈ within, t.isPort = true := dropWhile_eq_nil_iff.mp hskip
  have hdrop : skipPorts (within ++ cut) = skipPorts cut := dropWhile_append_of_pos hports
  refine ⟨hdrop, ?_, ?_⟩
  · rw [targetsOf, filter_eq_nil_iff]
    intro t ht
    simp [hports t ht]
  · rw [seen, seen, hdrop, takeWhile_append_of_pos hports, append_assoc]

/-- The loop over port descriptors reads the first descriptor there is. -/
theorem mem_seen (s : Placed) (rest : List Placed) : s ∈ seen (s :: rest) := by
  by_cases hs : s.isPort = true
  · simp [seen, hs]
  · simp [seen, skipPorts, hs]

/-- Nothing is read of an empty list. -/
theorem seen_nil : seen [] = [] := rfl

/-! ## The check -/

section Check

variable {count : BitVec 32} {g : Gathered} {gather : List Gathered} {scatter : List Placed}

theorem checkScatterFrom_port (hg : g.1.isPort = true) :
    checkScatterFrom count (g :: gather) scatter = checkScatterFrom count gather scatter := by
  simp [checkScatterFrom, hg]

theorem checkScatterFrom_none (hg : ¬g.1.isPort = true) :
    checkScatterFrom 0 (g :: gather) scatter = (machRcvScatterSmall, ⟨[], []⟩) := by
  simp [checkScatterFrom, hg]

theorem checkScatterFrom_end (hcount : count ≠ 0) (hg : ¬g.1.isPort = true)
    (hskip : skipPorts scatter = []) :
    checkScatterFrom count (g :: gather) scatter = (machMsgSuccess, ⟨seen scatter, []⟩) := by
  rw [checkScatterFrom, if_neg hg, if_neg hcount, hskip]

theorem checkScatterFrom_error {s : Placed} {rest : List Placed} (hcount : count ≠ 0)
    (hg : ¬g.1.isPort = true) (hskip : skipPorts scatter = s :: rest)
    (hpair : ¬Consistent (g, s)) :
    checkScatterFrom count (g :: gather) scatter =
      (checkFields g.1 s.descriptor, ⟨seen scatter, []⟩) := by
  rw [checkScatterFrom, if_neg hg, if_neg hcount, hskip]
  exact if_pos hpair

theorem checkScatterFrom_pair {s : Placed} {rest : List Placed} (hcount : count ≠ 0)
    (hg : ¬g.1.isPort = true) (hskip : skipPorts scatter = s :: rest)
    (hpair : Consistent (g, s)) :
    checkScatterFrom count (g :: gather) scatter =
      ((checkScatterFrom count gather rest).1,
        (checkScatterFrom count gather rest).2.after (seen scatter) [(g, s)]) := by
  rw [checkScatterFrom, if_neg hg, if_neg hcount, hskip]
  exact if_neg (not_not_intro hpair)

end Check

theorem regionsOf_port {g : Gathered} {gather : List Gathered} (hg : g.1.isPort = true) :
    regionsOf (g :: gather) = regionsOf gather := by
  simp [regionsOf, hg]

theorem regionsOf_region {g : Gathered} {gather : List Gathered} (hg : ¬g.1.isPort = true) :
    regionsOf (g :: gather) = g :: regionsOf gather := by
  simp [regionsOf, hg]

variable {count : BitVec 32}

/-- A pair with an error stops the check before it leaves the descriptors with the pair. -/
theorem checkScatterFrom_inconsistent (hcount : count ≠ 0)
    (cut : List Placed) (gather : List Gathered) :
    ∀ within, (∃ p ∈ (regionsOf gather).zip (targetsOf within), ¬Consistent p) →
      (checkScatterFrom count gather (within ++ cut)).1 ≠ machMsgSuccess ∧
        ∀ s ∈ (checkScatterFrom count gather (within ++ cut)).2.read, s ∈ within := by
  induction gather with
  | nil =>
    rintro within ⟨p, hp, -⟩
    simp [regionsOf] at hp
  | cons g gather ih =>
    rintro within ⟨p, hp, hbad⟩
    by_cases hg : g.1.isPort = true
    · rw [checkScatterFrom_port hg]
      rw [regionsOf_port hg] at hp
      exact ih within ⟨p, hp, hbad⟩
    rw [regionsOf_region hg] at hp
    cases hskip : skipPorts within with
    | nil =>
      have htargets := (skipPorts_append_none cut hskip).2.1
      simp [htargets] at hp
    | cons s rest =>
      obtain ⟨hskip', htargets, hseen, hrest⟩ := skipPorts_append_region cut hskip
      rw [htargets, zip_cons_cons, mem_cons] at hp
      by_cases hpair : Consistent (g, s)
      · rw [checkScatterFrom_pair hcount hg hskip' hpair]
        have hp' : p ∈ (regionsOf gather).zip (targetsOf rest) := by
          rcases hp with rfl | hp
          · exact absurd hpair hbad
          · exact hp
        obtain ⟨hmr, hread⟩ := ih rest ⟨p, hp', hbad⟩
        refine ⟨hmr, fun t ht => ?_⟩
        rcases mem_append.mp ht with ht | ht
        · exact hseen t ht
        · exact hrest t (hread t ht)
      · rw [checkScatterFrom_error hcount hg hskip' hpair]
        exact ⟨hpair, hseen⟩

/-- Without an error, the check pairs in order and reads no more, when the descriptors are
enough. -/
theorem checkScatterFrom_enough (hcount : count ≠ 0) (cut : List Placed) (gather : List Gathered) :
    ∀ within, (∀ p ∈ (regionsOf gather).zip (targetsOf within), Consistent p) →
      (cut = [] ∨ (regionsOf gather).length ≤ (targetsOf within).length) →
      (checkScatterFrom count gather (within ++ cut)).1 = machMsgSuccess ∧
        (checkScatterFrom count gather (within ++ cut)).2.pairs =
          (regionsOf gather).zip (targetsOf within) ∧
        ∀ s ∈ (checkScatterFrom count gather (within ++ cut)).2.read, s ∈ within := by
  induction gather with
  | nil =>
    intro within _ _
    simp [checkScatterFrom, regionsOf]
  | cons g gather ih =>
    intro within hgood henough
    by_cases hg : g.1.isPort = true
    · rw [checkScatterFrom_port hg, regionsOf_port hg]
      rw [regionsOf_port hg] at hgood henough
      exact ih within hgood henough
    rw [regionsOf_region hg] at hgood henough ⊢
    cases hskip : skipPorts within with
    | nil =>
      obtain ⟨hskip', htargets, hseen⟩ := skipPorts_append_none cut hskip
      have hcut : cut = [] := by
        rcases henough with hcut | hlength
        · exact hcut
        · rw [htargets] at hlength
          simp at hlength
      subst hcut
      rw [checkScatterFrom_end hcount hg hskip', htargets, hseen, seen_nil, append_nil]
      simp
    | cons s rest =>
      obtain ⟨hskip', htargets, hseen, hrest⟩ := skipPorts_append_region cut hskip
      rw [htargets] at hgood henough ⊢
      simp only [zip_cons_cons, mem_cons, forall_eq_or_imp] at hgood
      simp only [length_cons, Nat.add_le_add_iff_right] at henough
      rw [checkScatterFrom_pair hcount hg hskip' hgood.1]
      obtain ⟨hmr, hpairs, hread⟩ := ih rest hgood.2 henough
      refine ⟨hmr, ?_, fun t ht => ?_⟩
      · rw [zip_cons_cons, ← hpairs]
        rfl
      · rcases mem_append.mp ht with ht | ht
        · exact hseen t ht
        · exact hrest t (hread t ht)

/-- Without an error and without enough descriptors, the check reads the next. -/
theorem checkScatterFrom_beyond (hcount : count ≠ 0) (s : Placed)
    (cut : List Placed) (gather : List Gathered) :
    ∀ within, (∀ p ∈ (regionsOf gather).zip (targetsOf within), Consistent p) →
      (targetsOf within).length < (regionsOf gather).length →
      s ∈ (checkScatterFrom count gather (within ++ s :: cut)).2.read := by
  induction gather with
  | nil =>
    intro within _ hlength
    simp [regionsOf] at hlength
  | cons g gather ih =>
    intro within hgood hlength
    by_cases hg : g.1.isPort = true
    · rw [checkScatterFrom_port hg]
      rw [regionsOf_port hg] at hgood hlength
      exact ih within hgood hlength
    rw [regionsOf_region hg] at hgood hlength
    cases hskip : skipPorts within with
    | nil =>
      obtain ⟨hskip', htargets, hseen⟩ := skipPorts_append_none (s :: cut) hskip
      have hs : s ∈ seen (within ++ s :: cut) := by
        rw [hseen]
        exact mem_append_right _ (mem_seen s cut)
      cases hnext : skipPorts (s :: cut) with
      | nil =>
        rw [checkScatterFrom_end hcount hg (hskip'.trans hnext)]
        exact hs
      | cons t rest =>
        by_cases hpair : Consistent (g, t)
        · rw [checkScatterFrom_pair hcount hg (hskip'.trans hnext) hpair]
          exact mem_append_left _ hs
        · rw [checkScatterFrom_error hcount hg (hskip'.trans hnext) hpair]
          exact hs
    | cons t rest =>
      obtain ⟨hskip', htargets, -, -⟩ := skipPorts_append_region (s :: cut) hskip
      rw [htargets] at hgood hlength
      simp only [zip_cons_cons, mem_cons, forall_eq_or_imp] at hgood
      simp only [length_cons, Nat.add_lt_add_iff_right] at hlength
      rw [checkScatterFrom_pair hcount hg hskip' hgood.1]
      exact mem_append_right _ (ih rest hgood.2 hlength)

/-- A list without descriptors is too small for a message with a region. -/
theorem checkScatterFrom_zero (gather : List Gathered) (scatter : List Placed) :
    checkScatterFrom 0 gather scatter =
      (if regionsOf gather = [] then machMsgSuccess else machRcvScatterSmall, ⟨[], []⟩) := by
  induction gather with
  | nil => rfl
  | cons g gather ih =>
    by_cases hg : g.1.isPort = true
    · rw [checkScatterFrom_port hg, regionsOf_port hg, ih]
    · rw [checkScatterFrom_none hg, regionsOf_region hg]
      simp

/-! ## The use -/

/-- With enough descriptors, the body is copied out with pairs of the lists in order and no
other descriptor is read. -/
theorem copyoutScatterFrom_enough (cut : List Placed) (gather : List Gathered) :
    ∀ within, (cut = [] ∨ (regionsOf gather).length ≤ (targetsOf within).length) →
      (∀ s ∈ (copyoutScatterFrom gather (within ++ cut)).read, s ∈ within) ∧
        ∀ p ∈ (copyoutScatterFrom gather (within ++ cut)).pairs,
          p ∈ (regionsOf gather).zip (targetsOf within) ∧
            (p.1.1.IsOutOfLine ∨ p.1.1.type = machMsgOolPortsDescriptor) := by
  induction gather with
  | nil =>
    intro within _
    simp [copyoutScatterFrom]
  | cons g gather ih =>
    intro within henough
    by_cases hg : g.1.isPort = true
    · have hnext : copyoutScatterFrom (g :: gather) (within ++ cut) =
          copyoutScatterFrom gather (within ++ cut) := by
        simp [copyoutScatterFrom, hg]
      rw [hnext, regionsOf_port hg]
      rw [regionsOf_port hg] at henough
      exact ih within henough
    by_cases htype : g.1.IsOutOfLine ∨ g.1.type = machMsgOolPortsDescriptor
    case neg =>
      have hnext : copyoutScatterFrom (g :: gather) (within ++ cut) = ⟨[], []⟩ := by
        simp [copyoutScatterFrom, hg, htype]
      simp [hnext]
    rw [regionsOf_region hg] at henough ⊢
    cases hskip : skipPorts within with
    | nil =>
      obtain ⟨hskip', htargets, hseen⟩ := skipPorts_append_none cut hskip
      have hcut : cut = [] := by
        rcases henough with hcut | hlength
        · exact hcut
        · rw [htargets] at hlength
          simp at hlength
      subst hcut
      have hnext : copyoutScatterFrom (g :: gather) (within ++ []) =
          (copyoutScatterFrom gather []).after (seen (within ++ [])) [] := by
        simp [copyoutScatterFrom, hg, htype, hskip]
      obtain ⟨hread, hpairs⟩ := ih [] (.inl rfl)
      rw [hnext, htargets]
      refine ⟨fun t ht => ?_, fun p hp => ?_⟩
      · rcases mem_append.mp ht with ht | ht
        · rw [hseen, seen_nil, append_nil] at ht
          exact ht
        · exact absurd (hread t ht) not_mem_nil
      · have hp' := (hpairs p hp).1
        simp [targetsOf] at hp'
    | cons s rest =>
      obtain ⟨hskip', htargets, hseen, hrest⟩ := skipPorts_append_region cut hskip
      have hnext : copyoutScatterFrom (g :: gather) (within ++ cut) =
          (copyoutScatterFrom gather (rest ++ cut)).after (seen (within ++ cut)) [(g, s)] := by
        simp [copyoutScatterFrom, hg, htype, hskip']
      rw [htargets] at henough ⊢
      simp only [length_cons, Nat.add_le_add_iff_right] at henough
      obtain ⟨hread, hpairs⟩ := ih rest henough
      rw [hnext]
      refine ⟨fun t ht => ?_, fun p hp => ?_⟩
      · rcases mem_append.mp ht with ht | ht
        · exact hseen t ht
        · exact hrest t (hread t ht)
      · rw [zip_cons_cons, mem_cons]
        rcases mem_append.mp hp with hp | hp
        · rw [mem_singleton] at hp
          subst hp
          exact ⟨.inl rfl, htype⟩
        · exact ⟨.inr (hpairs p hp).1, (hpairs p hp).2⟩

end Kmsg

end MachVirtuTerm
