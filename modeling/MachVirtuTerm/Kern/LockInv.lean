import Mathlib.Algebra.BigOperators.Group.Finset.Piecewise
import MachVirtuTerm.Kern.Lock

/-!
# Who holds a read/write lock

`read_count` is the number of threads that hold the lock for reading, `want_write` and
`want_upgrade` are each owned by at most one thread, and a sleeping thread waits for what is
not the case yet or is about to be woken up. A field of 16 bits counts no more readers than
it can, so all this is for runs in which no reader too many is admitted.
-/

open Function BitVec Option

namespace MachVirtuTerm

open LockPc LockData Finset Or

namespace LockPc

/-- The thread owns `want_write`. -/
def ownsWrite : LockPc → Bool
  | .waits loop _ => decide (loop = .readers)
  | .returned hold => decide (hold = .write)
  | .wakeup hold => decide (hold = .write)

/-- The thread owns `want_upgrade`. -/
def ownsUpgrade : LockPc → Bool
  | .waits loop _ => decide (loop = .upgrade)
  | .returned hold => decide (hold = .upgrade)
  | .wakeup hold => decide (hold = .upgrade)

variable (pc : LockPc)

/-- The thread holds the lock for reading. -/
def reads : Bool := decide (pc.hold = .read)

/-- The thread holds the lock for writing. -/
def writes : Bool := decide (pc.hold = .write) || decide (pc.hold = .upgrade)

@[simp] theorem hold_wake : pc.wake.hold = pc.hold := by
  unfold wake
  split <;> rfl

theorem ownsWrite_of_hold {pc : LockPc} (h : pc.hold = .write) : pc.ownsWrite = true := by
  cases pc with
  | waits => cases h
  | returned hold => exact decide_eq_true h
  | wakeup hold => exact decide_eq_true h

theorem ownsUpgrade_of_hold {pc : LockPc} (h : pc.hold = .upgrade) : pc.ownsUpgrade = true := by
  cases pc with
  | waits => cases h
  | returned hold => exact decide_eq_true h
  | wakeup hold => exact decide_eq_true h

@[simp] theorem reads_wake : pc.wake.reads = pc.reads := by simp [reads]

@[simp] theorem ownsWrite_wake : pc.wake.ownsWrite = pc.ownsWrite := by
  unfold wake
  split <;> rfl

@[simp] theorem ownsUpgrade_wake : pc.wake.ownsUpgrade = pc.ownsUpgrade := by
  unfold wake
  split <;> rfl

theorem wake_ne_asleep (loop : LockLoop) : pc.wake ≠ .waits loop .asleep := by
  unfold wake
  split
  · simp
  · rename_i h
    exact h loop

end LockPc

namespace LockSystem

variable {Thread : Type*} {s s' : LockSystem Thread} {lockWaitTime : ℕ} {t : Thread}

/-- The fields change with what one thread holds and owns. -/
structure Counts (s : LockSystem Thread) (t : Thread) (l : LockData) (p : LockPc) : Prop where
  reads : l.readCount.toNat + (s.pc t).reads.toNat = s.lock.readCount.toNat + p.reads.toNat
  ownsWrite : l.wantWrite.toNat + (s.pc t).ownsWrite.toNat =
    s.lock.wantWrite.toNat + p.ownsWrite.toNat
  ownsUpgrade : l.wantUpgrade.toNat + (s.pc t).ownsUpgrade.toNat =
    s.lock.wantUpgrade.toNat + p.ownsUpgrade.toNat
  write : p.hold = .write ∨ (∃ u, u ≠ t ∧ (s.pc u).hold = .write) →
    l.readCount = 0 ∧ l.wantUpgrade = false
  upgrade : p.hold = .upgrade ∨ (∃ u, u ≠ t ∧ (s.pc u).hold = .upgrade) → l.readCount = 0
  notWakeup : ∀ hold, s.pc t ≠ .wakeup hold

/-- What a section that moves one thread has to keep. -/
structure Moves (s : LockSystem Thread) (t : Thread) (l : LockData) (p : LockPc) : Prop
    extends Counts s t l p where
  asleep : (∃ hold, p = .wakeup hold) ∨
    (∀ loop, p = .waits loop .asleep → l.busy loop = true ∧ l.waiting = true) ∧
      ∀ u loop, u ≠ t → s.pc u = .waits loop .asleep → s.lock.busy loop = true →
        s.lock.waiting = true → l.busy loop = true ∧ l.waiting = true

/-- A loop: the thread goes on waiting, or leaves the loop. -/
theorem moves_runLoop {l : LockData} {loop : LockLoop} {spun : Bool} {exit : LockData × LockPc}
    (hcounts : s.Counts t l (.waits loop .spinning))
    (hothers : ∀ u loop, u ≠ t → s.pc u = .waits loop .asleep → s.lock.busy loop = true →
      s.lock.waiting = true → l.busy loop = true ∧ l.waiting = true)
    (hexit : l.busy loop = false → s.Moves t exit.1 exit.2) :
    s.Moves t (l.runLoop lockWaitTime loop spun exit).1
      (l.runLoop lockWaitTime loop spun exit).2 := by
  unfold runLoop
  split
  · rename_i hbusy
    split
    · exact ⟨hcounts, inr ⟨fun _ h => (by cases h), hothers⟩⟩
    · refine ⟨⟨hcounts.reads, hcounts.ownsWrite, hcounts.ownsUpgrade, hcounts.write, hcounts.upgrade,
        hcounts.notWakeup⟩, inr ⟨?_, fun u loop hut hu hb hw => ⟨(hothers u loop hut hu hb hw).1, rfl⟩⟩⟩
      rintro _ ⟨⟩
      exact ⟨hbusy, rfl⟩
  · rename_i hbusy
    exact hexit (by simpa using hbusy)

/-- A routine that wakes the waiters up, if there are any. -/
theorem moves_clearWaiting {l : LockData} {hold : LockHold} (hcounts : s.Counts t l (.returned hold))
    (hwaiting : l.waiting = s.lock.waiting) :
    s.Moves t (l.clearWaiting hold).1 (l.clearWaiting hold).2 := by
  unfold clearWaiting
  split
  · exact ⟨⟨hcounts.reads, hcounts.ownsWrite, hcounts.ownsUpgrade, hcounts.write, hcounts.upgrade,
      hcounts.notWakeup⟩, inl ⟨hold, rfl⟩⟩
  · rename_i hnot
    refine ⟨hcounts, inr ⟨fun _ h => (by cases h), fun u loop _ _ _ hw => ?_⟩⟩
    exact absurd (hwaiting.trans hw) hnot

/-- A routine that wakes the waiters up if it leaves no reader. -/
theorem moves_clearWaitingReaders {l : LockData} (hcounts : s.Counts t l (.returned .nothing))
    (hwaiting : l.waiting = s.lock.waiting)
    (hbusy : l.readCount ≠ 0 → ∀ loop, s.lock.busy loop = true → l.busy loop = true) :
    s.Moves t l.clearWaitingReaders.1 l.clearWaitingReaders.2 := by
  unfold clearWaitingReaders
  split
  · exact moves_clearWaiting hcounts hwaiting
  · rename_i hne
    exact ⟨hcounts, inr ⟨fun _ h => (by cases h), fun u loop _ _ hb hw =>
      ⟨hbusy hne loop hb, hwaiting.trans hw⟩⟩⟩

/-- A `lock_read_to_write` that fails gives the read lock up and takes nothing. -/
theorem lockReadToWrite_fails [DecidableEq Thread]
    (hstep : s.step lockWaitTime t .lockReadToWrite = some s') (hfails : s.lock.upgradeFails = true) :
    (s'.pc t = .returned .nothing ∨ s'.pc t = .wakeup .nothing) ∧
      s'.lock.readCount = s.lock.readCount - 1 ∧ s'.lock.wantUpgrade = s.lock.wantUpgrade ∧
      s'.lock.wantWrite = s.lock.wantWrite := by
  obtain ⟨r, hsection, heq⟩ := map_eq_some_iff.mp hstep
  cases heq
  obtain ⟨hpc, heq⟩ := ite_none_right_eq_some.mp hsection
  cases heq
  have hif : s.lock.lockReadToWrite lockWaitTime =
      { s.lock with readCount := s.lock.readCount - 1 }.clearWaitingReaders := if_pos hfails
  dsimp only
  rw [update_self, hif]
  unfold clearWaitingReaders clearWaiting
  split
  · split
    · exact ⟨inr rfl, rfl, rfl, rfl⟩
    · exact ⟨inl rfl, rfl, rfl, rfl⟩
  · exact ⟨inl rfl, rfl, rfl, rfl⟩

/-- A thread that gets the lock without waiting. -/
theorem step_lockRead [DecidableEq Thread] (hpc : s.pc t = .returned .nothing) :
    Step lockWaitTime s (t, .lockRead) ⟨(s.lock.lockRead lockWaitTime false).1,
      update s.pc t (s.lock.lockRead lockWaitTime false).2⟩ := by
  change ((s.pc t).runSection s.lock lockWaitTime .lockRead).map _ = _
  rw [LockPc.runSection, if_pos hpc]
  rfl

theorem step_lockWrite [DecidableEq Thread] (hpc : s.pc t = .returned .nothing) :
    Step lockWaitTime s (t, .lockWrite) ⟨(s.lock.lockWrite lockWaitTime false).1,
      update s.pc t (s.lock.lockWrite lockWaitTime false).2⟩ := by
  change ((s.pc t).runSection s.lock lockWaitTime .lockWrite).map _ = _
  rw [LockPc.runSection, if_pos hpc]
  rfl

/-- A step that puts nothing out. -/
def quietStep [DecidableEq Thread] (lockWaitTime : ℕ) (s : LockSystem Thread) (l : Thread × LockAction) :
    Option (LockSystem Thread × Unit) := (s.step lockWaitTime l.1 l.2).map fun s => (s, ())

/-- What was replayed is a run. -/
theorem run_of_replay [DecidableEq Thread] {actions : List (Thread × LockAction)}
    {trace : List (LockSystem Thread × (Thread × LockAction) × Unit)}
    (h : replay (quietStep lockWaitTime) s actions = some (trace, s')) :
    Run (Step lockWaitTime) s (trace.map fun x => (x.1, x.2.1)) s' := by
  refine (Run.of_replay_step h).relabel fun s l s' hstep => ?_
  obtain ⟨s₁, hstep, heq⟩ := map_eq_some_iff.mp hstep
  cases heq
  exact hstep

variable [Fintype Thread]

/-- The number of threads with a property. -/
def count (P : LockPc → Bool) (pc : Thread → LockPc) : ℕ := ∑ t, (P (pc t)).toNat

/-- One thread moves. -/
theorem count_update [DecidableEq Thread] (P : LockPc → Bool) (pc : Thread → LockPc) (t : Thread) (p : LockPc) :
    count P (update pc t p) + (P (pc t)).toNat = count P pc + (P p).toNat := by
  unfold count
  rw [← add_sum_erase _ _ (mem_univ t),
    ← add_sum_erase (a := t) _ (fun u => (P (pc u)).toNat) (mem_univ t),
    update_self]
  have hsame : ∑ u ∈ univ.erase t, (P (update pc t p u)).toNat =
      ∑ u ∈ univ.erase t, (P (pc u)).toNat :=
    sum_congr rfl fun u hu => by rw [update_of_ne (ne_of_mem_erase hu)]
  rw [hsame]
  omega

/-- A thread with the property is counted. -/
theorem count_pos {P : LockPc → Bool} {pc : Thread → LockPc} (h : P (pc t) = true) :
    0 < count P pc := by
  classical
  unfold count
  rw [← add_sum_erase _ _ (mem_univ t), h]
  exact Nat.lt_add_right _ Nat.one_pos

/-- Two threads with the property are counted twice. -/
theorem eq_of_count_le_one {P : LockPc → Bool} {pc : Thread → LockPc} {u : Thread}
    (hcount : count P pc ≤ 1) (ht : P (pc t) = true) (hu : P (pc u) = true) : t = u := by
  classical
  by_contra hne
  unfold count at hcount
  rw [← add_sum_erase _ _ (mem_univ t), ht,
    ← add_sum_erase _ _ (mem_erase.mpr ⟨Ne.symm hne, mem_univ u⟩), hu] at hcount
  simp only [Bool.toNat_true] at hcount
  omega

/-- A `thread_wakeup` of the lock is still to come. -/
def WakeupPending (s : LockSystem Thread) : Prop := ∃ u hold, s.pc u = .wakeup hold

/-- What holds of a lock and its threads between two sections. -/
structure Inv (s : LockSystem Thread) : Prop where
  reads : s.lock.readCount.toNat = count LockPc.reads s.pc
  ownsWrite : count LockPc.ownsWrite s.pc = s.lock.wantWrite.toNat
  ownsUpgrade : count LockPc.ownsUpgrade s.pc = s.lock.wantUpgrade.toNat
  write : ∀ t, (s.pc t).hold = .write → s.lock.readCount = 0 ∧ s.lock.wantUpgrade = false
  upgrade : ∀ t, (s.pc t).hold = .upgrade → s.lock.readCount = 0
  asleep : ∀ t loop, s.pc t = .waits loop .asleep →
    s.lock.busy loop = true ∧ s.lock.waiting = true ∨ s.WakeupPending

/-- Such a section keeps everything. -/
theorem Inv.moves [DecidableEq Thread] (h : s.Inv) {l : LockData} {p : LockPc} (hm : s.Moves t l p) :
    Inv ⟨l, update s.pc t p⟩ := by
  have hhold : ∀ u hold, (update s.pc t p u).hold = hold →
      p.hold = hold ∨ ∃ u, u ≠ t ∧ (s.pc u).hold = hold := fun u hold hu => by
    by_cases hut : u = t
    · subst hut
      rw [update_self] at hu
      exact inl hu
    · rw [update_of_ne hut] at hu
      exact inr ⟨u, hut, hu⟩
  have hreads := count_update LockPc.reads s.pc t p
  have hwrite := count_update LockPc.ownsWrite s.pc t p
  have hupgrade := count_update LockPc.ownsUpgrade s.pc t p
  have h₁ := h.reads
  have h₂ := h.ownsWrite
  have h₃ := h.ownsUpgrade
  have m₁ := hm.reads
  have m₂ := hm.ownsWrite
  have m₃ := hm.ownsUpgrade
  refine ⟨?_, ?_, ?_, fun u hu => hm.write (hhold u _ hu), fun u hu => hm.upgrade (hhold u _ hu), ?_⟩
  · dsimp only
    omega
  · dsimp only
    omega
  · dsimp only
    omega
  · intro u loop hu
    rcases hm.asleep with ⟨hold, hp⟩ | ⟨hself, hothers⟩
    · exact inr ⟨t, hold, by simp [hp]⟩
    · by_cases hut : u = t
      · subst hut
        dsimp only at hu
        rw [update_self] at hu
        exact inl (hself loop hu)
      · dsimp only at hu
        rw [update_of_ne hut] at hu
        rcases h.asleep u loop hu with ⟨hbusy, hwaiting⟩ | ⟨v, hold, hv⟩
        · exact inl (hothers u loop hut hu hbusy hwaiting)
        · have hvt : v ≠ t := by
            rintro rfl
            exact hm.notWakeup hold hv
          exact inr ⟨v, hold, by simpa [update_of_ne hvt] using hv⟩

section

variable (h : s.Inv)

include h

/-- A thread that holds the lock for writing owns one of the two flags alone. -/
theorem Inv.held_write {u : Thread} (hu : (s.pc u).hold = .write) : s.lock.wantWrite = true := by
  have hpos : 0 < count LockPc.ownsWrite s.pc := count_pos (ownsWrite_of_hold hu)
  rw [h.ownsWrite] at hpos
  cases hw : s.lock.wantWrite
  · simp [hw] at hpos
  · rfl

theorem Inv.held_upgrade {u : Thread} (hu : (s.pc u).hold = .upgrade) :
    s.lock.wantUpgrade = true := by
  have hpos : 0 < count LockPc.ownsUpgrade s.pc := count_pos (ownsUpgrade_of_hold hu)
  rw [h.ownsUpgrade] at hpos
  cases hw : s.lock.wantUpgrade
  · simp [hw] at hpos
  · rfl

/-- One flag has one owner. -/
theorem Inv.owner_unique {t u : Thread} (ht : (s.pc t).hold = .write)
    (hu : (s.pc u).hold = .write) : t = u :=
  eq_of_count_le_one (h.ownsWrite.trans_le (Bool.toNat_le _)) (ownsWrite_of_hold ht)
    (ownsWrite_of_hold hu)

theorem Inv.upgrader_unique {t u : Thread} (ht : (s.pc t).hold = .upgrade)
    (hu : (s.pc u).hold = .upgrade) : t = u :=
  eq_of_count_le_one (h.ownsUpgrade.trans_le (Bool.toNat_le _)) (ownsUpgrade_of_hold ht)
    (ownsUpgrade_of_hold hu)

/-- While a thread reads, the count is not 0 and nobody writes. -/
theorem Inv.held_read (ht : (s.pc t).hold = .read) :
    0 < s.lock.readCount.toNat ∧ ∀ u, (s.pc u).hold ≠ .write ∧ (s.pc u).hold ≠ .upgrade := by
  have hpos : 0 < s.lock.readCount.toNat := by
    rw [h.reads]
    exact count_pos (t := t) (decide_eq_true ht)
  have hne : s.lock.readCount ≠ 0 := by
    rintro h0
    simp [h0] at hpos
  exact ⟨hpos, fun u => ⟨fun hu => hne (h.write u hu).1, fun hu => hne (h.upgrade u hu)⟩⟩

/-- A thread that comes to a loop, or was there, changes no field. -/
theorem Inv.counts_waits {loop : LockLoop}
    (hpc : s.pc t = .returned .nothing ∧ loop ≠ .readers ∧ loop ≠ .upgrade ∨
      ∃ wait, s.pc t = .waits loop wait) : s.Counts t s.lock (.waits loop .spinning) := by
  refine ⟨?_, ?_, ?_, ?_, ?_, ?_⟩
  · rcases hpc with ⟨h, -⟩ | ⟨wait, h⟩ <;> rw [h] <;> rfl
  · rcases hpc with ⟨h, hne, -⟩ | ⟨wait, h⟩
    · simp [h, LockPc.ownsWrite, hne]
    · rw [h]
      rfl
  · rcases hpc with ⟨h, -, hne⟩ | ⟨wait, h⟩
    · simp [h, LockPc.ownsUpgrade, hne]
    · rw [h]
      rfl
  · rintro (hp | ⟨u, -, hu⟩)
    · cases hp
    · exact h.write u hu
  · rintro (hp | ⟨u, -, hu⟩)
    · cases hp
    · exact h.upgrade u hu
  · rcases hpc with ⟨h, -⟩ | ⟨wait, h⟩ <;> simp [h]

/-- The second loop of `lock_write`, by the owner of `want_write`. -/
theorem Inv.lockWriteReaders {l : LockData} {spun : Bool}
    (hpc : s.pc t = .returned .nothing ∨ ∃ loop wait, s.pc t = .waits loop wait ∧ loop ≠ .upgrade)
    (hfields : l = { s.lock with wantWrite := true })
    (hown : 1 + (s.pc t).ownsWrite.toNat = s.lock.wantWrite.toNat + 1) :
    s.Moves t (l.lockWriteReaders lockWaitTime spun).1 (l.lockWriteReaders lockWaitTime spun).2 := by
  have hreads : (s.pc t).reads = false := by
    rcases hpc with h | ⟨loop, wait, h, -⟩ <;> simp [h, LockPc.reads, hold]
  have hupgrade : (s.pc t).ownsUpgrade = false := by
    rcases hpc with h | ⟨loop, wait, h, hne⟩
    · simp [h, LockPc.ownsUpgrade]
    · simp [h, LockPc.ownsUpgrade, hne]
  have hwakeup : ∀ hold, s.pc t ≠ .wakeup hold := by
    rcases hpc with h | ⟨loop, wait, h, -⟩ <;> simp [h]
  have hothers : ∀ u loop, u ≠ t → s.pc u = .waits loop .asleep → s.lock.busy loop = true →
      s.lock.waiting = true → l.busy loop = true ∧ l.waiting = true := by
    intro u loop _ _ hb hw
    refine ⟨?_, by rw [hfields]; exact hw⟩
    subst hfields
    cases loop <;> simp_all [busy]
  refine moves_runLoop ⟨?_, ?_, ?_, ?_, ?_, hwakeup⟩ hothers fun hidle => ?_
  · subst hfields
    rw [hreads]
    rfl
  · subst hfields
    exact hown
  · subst hfields
    rw [hupgrade]
    rfl
  · rintro (hp | ⟨u, -, hu⟩)
    · cases hp
    · subst hfields
      exact h.write u hu
  · rintro (hp | ⟨u, -, hu⟩)
    · cases hp
    · subst hfields
      exact h.upgrade u hu
  · have hfree : l.readCount = 0 ∧ l.wantUpgrade = false := by
      simpa [busy] using hidle
    refine ⟨⟨?_, ?_, ?_, fun _ => hfree, fun _ => hfree.1, hwakeup⟩,
      inr ⟨fun _ h => (by cases h), hothers⟩⟩
    · subst hfields
      rw [hreads]
      rfl
    · subst hfields
      exact hown
    · subst hfields
      rw [hupgrade]
      rfl

/-- `lock_write`. -/
theorem Inv.lockWrite {spun : Bool}
    (hpc : s.pc t = .returned .nothing ∨ ∃ wait, s.pc t = .waits .wantWrite wait) :
    s.Moves t (s.lock.lockWrite lockWaitTime spun).1 (s.lock.lockWrite lockWaitTime spun).2 := by
  have hpc' : s.pc t = .returned .nothing ∨ ∃ loop wait, s.pc t = .waits loop wait ∧ loop ≠ .upgrade :=
    hpc.imp_right fun ⟨wait, h⟩ => ⟨_, wait, h, by decide⟩
  have hsame := h.counts_waits (hpc.imp_left fun h => ⟨h, by decide, by decide⟩)
  refine moves_runLoop hsame (fun _ _ _ _ hb hw => ⟨hb, hw⟩) fun hidle => ?_
  refine h.lockWriteReaders hpc' rfl ?_
  have hfree : s.lock.wantWrite = false := hidle
  rw [hfree]
  rcases hpc with h | ⟨wait, h⟩ <;> rw [h] <;> rfl

/-- `lock_read`. -/
theorem Inv.lockRead {spun : Bool}
    (hpc : s.pc t = .returned .nothing ∨ ∃ wait, s.pc t = .waits .lockRead wait)
    (hroom : s.lock.busy .lockRead = false → s.lock.readCount ≠ BitVec.allOnes 16) :
    s.Moves t (s.lock.lockRead lockWaitTime spun).1 (s.lock.lockRead lockWaitTime spun).2 := by
  have hsame := h.counts_waits (hpc.imp_left fun h => ⟨h, by decide, by decide⟩)
  refine moves_runLoop hsame (fun _ _ _ _ hb hw => ⟨hb, hw⟩) fun hidle => ?_
  obtain ⟨hwrite, hupgrade⟩ : s.lock.wantWrite = false ∧ s.lock.wantUpgrade = false := by
    simpa [busy] using hidle
  have hcount : (s.lock.readCount + 1).toNat = s.lock.readCount.toNat + 1 := by
    have hne := hroom hidle
    have hlt := s.lock.readCount.isLt
    have hne' : s.lock.readCount.toNat ≠ 2 ^ 16 - 1 := fun heq =>
      hne (eq_of_toNat_eq (heq.trans toNat_allOnes.symm))
    rw [toNat_add]
    change (s.lock.readCount.toNat + 1) % 2 ^ 16 = _
    omega
  refine ⟨⟨?_, ?_, ?_, ?_, ?_, hsame.notWakeup⟩, inr ⟨fun _ h => (by cases h), ?_⟩⟩
  · dsimp only
    rw [hcount]
    rcases hpc with h | ⟨wait, h⟩ <;> rw [h] <;> rfl
  · rcases hpc with h | ⟨wait, h⟩ <;> rw [h] <;> rfl
  · rcases hpc with h | ⟨wait, h⟩ <;> rw [h] <;> rfl
  · rintro (hp | ⟨u, -, hu⟩)
    · cases hp
    · exact absurd ((h.held_write hu).symm.trans hwrite) (by decide)
  · rintro (hp | ⟨u, -, hu⟩)
    · cases hp
    · exact absurd ((h.held_upgrade hu).symm.trans hupgrade) (by decide)
  · intro u loop _ _ hb hw
    refine ⟨?_, hw⟩
    have hne : s.lock.readCount + 1 ≠ 0 := fun h0 => by
      rw [h0] at hcount
      exact absurd hcount (by simp)
    cases loop with
    | wantWrite => exact hb
    | readers =>
      dsimp only [busy]
      rw [decide_eq_true hne]
      rfl
    | lockRead => exact hb
    | upgrade => exact decide_eq_true hne

/-- The loop of `lock_read_to_write`, by the owner of `want_upgrade`. -/
theorem Inv.lockUpgrade {spun : Bool} {wait : LockWait} (hpc : s.pc t = .waits .upgrade wait) :
    s.Moves t (s.lock.lockUpgrade lockWaitTime spun).1 (s.lock.lockUpgrade lockWaitTime spun).2 := by
  have hsame := h.counts_waits (inr ⟨wait, hpc⟩)
  refine moves_runLoop hsame (fun _ _ _ _ hb hw => ⟨hb, hw⟩) fun hidle => ?_
  have hfree : s.lock.readCount = 0 := by
    simpa [busy] using hidle
  refine ⟨⟨by rw [hpc]; rfl, by rw [hpc]; rfl, by rw [hpc]; rfl, ?_, fun _ => hfree, by simp [hpc]⟩,
    inr ⟨fun _ h => (by cases h), fun _ _ _ _ hb hw => ⟨hb, hw⟩⟩⟩
  rintro (hp | ⟨u, -, hu⟩)
  · cases hp
  · exact h.write u hu

end

/-- One reader less. -/
theorem readCount_sub_one {n : BitVec 16} (hpos : 0 < n.toNat) : (n - 1).toNat + 1 = n.toNat := by
  have hlt := n.isLt
  rw [toNat_sub]
  change (2 ^ 16 - 1 + n.toNat) % 2 ^ 16 + 1 = n.toNat
  omega

/-- A reader gives its read lock up. -/
theorem Inv.dropRead (h : s.Inv) (hpc : s.pc t = .returned .read) :
    s.Moves t { s.lock with readCount := s.lock.readCount - 1 }.clearWaitingReaders.1
      { s.lock with readCount := s.lock.readCount - 1 }.clearWaitingReaders.2 := by
  have hhold : (s.pc t).hold = .read := by rw [hpc]; rfl
  obtain ⟨hpos, hnone⟩ := h.held_read hhold
  have hcount := readCount_sub_one hpos
  refine moves_clearWaitingReaders ⟨?_, ?_, ?_, ?_, ?_, by simp [hpc]⟩ rfl ?_
  · rw [hpc]
    exact hcount
  · rw [hpc]
    rfl
  · rw [hpc]
    rfl
  · rintro (hp | ⟨u, -, hu⟩)
    · cases hp
    · exact absurd hu (hnone u).1
  · rintro (hp | ⟨u, -, hu⟩)
    · cases hp
    · exact absurd hu (hnone u).2
  · intro hne loop hb
    dsimp only at hne
    cases loop with
    | wantWrite => exact hb
    | readers =>
      dsimp only [busy]
      rw [decide_eq_true hne]
      rfl
    | lockRead => exact hb
    | upgrade => exact decide_eq_true hne

/-- `lock_read_to_write`. -/
theorem Inv.lockReadToWrite (h : s.Inv) (hpc : s.pc t = .returned .read) :
    s.Moves t (s.lock.lockReadToWrite lockWaitTime).1 (s.lock.lockReadToWrite lockWaitTime).2 := by
  unfold LockData.lockReadToWrite
  dsimp only
  split
  · exact h.dropRead hpc
  rename_i hfree
  have hfree : s.lock.wantUpgrade = false := by simpa [upgradeFails] using hfree
  have hhold : (s.pc t).hold = .read := by rw [hpc]; rfl
  obtain ⟨hpos, hnone⟩ := h.held_read hhold
  have hcount := readCount_sub_one hpos
  have hothers : ∀ u loop, u ≠ t → s.pc u = .waits loop .asleep → s.lock.busy loop = true →
      s.lock.waiting = true →
      { s.lock with readCount := s.lock.readCount - 1, wantUpgrade := true }.busy loop = true ∧
        s.lock.waiting = true := by
    intro u loop _ hu hb hw
    refine ⟨?_, hw⟩
    cases loop with
    | wantWrite => exact hb
    | readers => exact Bool.or_true _
    | lockRead => exact Bool.or_true _
    | upgrade =>
      -- its owner has set `want_upgrade`
      have hpos : 0 < count LockPc.ownsUpgrade s.pc := count_pos (t := u) (by rw [hu]; rfl)
      rw [h.ownsUpgrade, hfree] at hpos
      exact absurd hpos (Nat.lt_irrefl 0)
  have hcounts : ∀ p : LockPc, p.reads = false → p.ownsWrite = false → p.ownsUpgrade = true →
      p.hold ≠ .write → (p.hold = .upgrade → s.lock.readCount - 1 = 0) → s.Counts t
        { s.lock with readCount := s.lock.readCount - 1, wantUpgrade := true } p := by
    intro p hreads hwrite hupgrade hnotWrite hdone
    refine ⟨?_, ?_, ?_, ?_, ?_, by simp [hpc]⟩
    · rw [hpc, hreads]
      exact hcount
    · rw [hpc, hwrite]
      rfl
    · rw [hpc, hupgrade, hfree]
      rfl
    · rintro (hp | ⟨u, -, hu⟩)
      · exact absurd hp hnotWrite
      · exact absurd hu (hnone u).1
    · rintro (hp | ⟨u, -, hu⟩)
      · exact hdone hp
      · exact absurd hu (hnone u).2
  refine moves_runLoop (hcounts _ rfl rfl rfl (by decide) fun hp => (by cases hp)) hothers fun hidle => ?_
  have hzero : s.lock.readCount - 1 = 0 := by
    simpa [busy] using hidle
  exact ⟨hcounts _ rfl rfl rfl (fun hp => (by cases hp)) fun _ => hzero, inr ⟨fun _ h => (by cases h), hothers⟩⟩

/-- A writer's flag is the one that `lock_done` and `lock_write_to_read` clear. -/
theorem Inv.writer (h : s.Inv) (hpc : s.pc t = .returned .write ∨ s.pc t = .returned .upgrade) :
    s.lock.readCount = 0 ∧ (s.pc t).reads = false ∧
      (∀ u, u ≠ t → (s.pc u).hold ≠ .write ∧ (s.pc u).hold ≠ .upgrade) ∧
      (s.lock.wantUpgrade = true → (s.pc t).ownsUpgrade = true ∧ (s.pc t).ownsWrite = false) ∧
      (s.lock.wantUpgrade = false → s.lock.wantWrite = true ∧
        (s.pc t).ownsUpgrade = false ∧ (s.pc t).ownsWrite = true) := by
  rcases hpc with hpc | hpc
  · have hhold : (s.pc t).hold = .write := by rw [hpc]; rfl
    obtain ⟨hzero, hfree⟩ := h.write t hhold
    refine ⟨hzero, by rw [hpc]; rfl, fun u hut => ⟨fun hu => hut (h.owner_unique hu hhold), fun hu => ?_⟩,
      fun hw => ?_, fun _ => ⟨h.held_write hhold, by rw [hpc]; rfl, by rw [hpc]; rfl⟩⟩
    · exact absurd ((h.held_upgrade hu).symm.trans hfree) (by decide)
    · exact absurd (hw.symm.trans hfree) (by decide)
  · have hhold : (s.pc t).hold = .upgrade := by rw [hpc]; rfl
    have hwant := h.held_upgrade hhold
    refine ⟨h.upgrade t hhold, by rw [hpc]; rfl, fun u hut => ⟨fun hu => ?_, fun hu =>
      hut (h.upgrader_unique hu hhold)⟩, fun _ => ⟨by rw [hpc]; rfl, by rw [hpc]; rfl⟩, fun hw => ?_⟩
    · exact absurd ((h.write u hu).2.symm.trans hwant) (by decide)
    · exact absurd (hw.symm.trans hwant) (by decide)

/-- A writer gives its write lock up, for a read lock or for nothing. -/
theorem Inv.clearWriter (h : s.Inv) (hpc : s.pc t = .returned .write ∨ s.pc t = .returned .upgrade)
    {n : BitVec 16} {hold : LockHold} (hhold : hold = .nothing ∧ n = 0 ∨ hold = .read ∧ n = 1) :
    s.Counts t { s.lock with readCount := n }.clearWriter (.returned hold) := by
  obtain ⟨hzero, hreads, hnone, hupgrade, hwrite⟩ := h.writer hpc
  have hwakeup : ∀ hold, s.pc t ≠ .wakeup hold := by
    rcases hpc with hpc | hpc <;> simp [hpc]
  have hothers : ∀ hold', hold' = .write ∨ hold' = .upgrade →
      ¬((returned hold).hold = hold' ∨ ∃ u, u ≠ t ∧ (s.pc u).hold = hold') := by
    rintro hold' hw (hp | ⟨u, hut, hu⟩)
    · obtain rfl : hold = hold' := hp
      rcases hhold with ⟨rfl, -⟩ | ⟨rfl, -⟩ <;> simp at hw
    · rcases hw with rfl | rfl
      · exact (hnone u hut).1 hu
      · exact (hnone u hut).2 hu
  have hcount : n.toNat + (s.pc t).reads.toNat =
      s.lock.readCount.toNat + (returned hold).reads.toNat := by
    rw [hreads, hzero]
    rcases hhold with ⟨rfl, rfl⟩ | ⟨rfl, rfl⟩ <;> rfl
  have hflags : (returned hold).ownsWrite = false ∧ (returned hold).ownsUpgrade = false := by
    rcases hhold with ⟨rfl, -⟩ | ⟨rfl, -⟩ <;> exact ⟨rfl, rfl⟩
  unfold LockData.clearWriter
  dsimp only
  split
  · rename_i hwant
    obtain ⟨hu, hw⟩ := hupgrade hwant
    refine ⟨hcount, ?_, ?_, fun hp => absurd hp (hothers _ (inl rfl)),
      fun hp => absurd hp (hothers _ (inr rfl)), hwakeup⟩
    · rw [hw, hflags.1]
    · rw [hu, hflags.2, hwant]
      rfl
  · rename_i hwant
    obtain ⟨hww, hu, hw⟩ := hwrite (by simpa using hwant)
    refine ⟨hcount, ?_, ?_, fun hp => absurd hp (hothers _ (inl rfl)),
      fun hp => absurd hp (hothers _ (inr rfl)), hwakeup⟩
    · rw [hw, hflags.1, hww]
      rfl
    · rw [hu, hflags.2]

/-- Which flag is cleared does not change what else is in the lock. -/
theorem clearWriter_readCount (l : LockData) : l.clearWriter.readCount = l.readCount ∧
    l.clearWriter.waiting = l.waiting := by
  unfold LockData.clearWriter
  split <;> exact ⟨rfl, rfl⟩

/-- `lock_done`. -/
theorem Inv.lockDone (h : s.Inv) (hpc : s.pc t = .returned .read ∨ s.pc t = .returned .write ∨
    s.pc t = .returned .upgrade) : s.Moves t s.lock.lockDone.1 s.lock.lockDone.2 := by
  unfold LockData.lockDone drop
  rcases hpc with hpc | hpc
  · have hpos := (h.held_read (t := t) (by rw [hpc]; rfl)).1
    have hne : s.lock.readCount ≠ 0 := by
      intro h0
      simp [h0] at hpos
    rw [if_pos hne]
    exact h.dropRead hpc
  · have hzero := (h.writer hpc).1
    rw [if_neg fun hne => hne hzero]
    have hcounts := h.clearWriter hpc (n := 0) (inl ⟨rfl, rfl⟩)
    rw [← hzero] at hcounts
    refine moves_clearWaitingReaders hcounts (clearWriter_readCount s.lock).2 fun hne => ?_
    exact absurd ((clearWriter_readCount s.lock).1.trans hzero) hne

/-- `lock_write_to_read`. -/
theorem Inv.lockWriteToRead (h : s.Inv)
    (hpc : s.pc t = .returned .write ∨ s.pc t = .returned .upgrade) :
    s.Moves t s.lock.lockWriteToRead.1 s.lock.lockWriteToRead.2 := by
  have hzero := (h.writer hpc).1
  have hone : s.lock.readCount + 1 = 1 := by rw [hzero]; rfl
  refine moves_clearWaiting ?_ (clearWriter_readCount _).2
  rw [hone]
  exact h.clearWriter hpc (inr ⟨rfl, rfl⟩)

/-- `thread_wakeup` of the lock. -/
theorem Inv.threadWakeup [DecidableEq Thread] (h : s.Inv) {hold : LockHold}
    (hpc : s.pc t = .wakeup hold) : (s.threadWakeup t hold).Inv := by
  have hself : (s.threadWakeup t hold).pc t = .returned hold := by
    simp [LockSystem.threadWakeup]
  have hother : ∀ u, u ≠ t → (s.threadWakeup t hold).pc u = (s.pc u).wake := by
    intro u hut
    simp [LockSystem.threadWakeup, hut]
  have hcount : ∀ P : LockPc → Bool, (∀ pc, P pc.wake = P pc) → P (.returned hold) = P (.wakeup hold) →
      count P (s.threadWakeup t hold).pc = count P s.pc := by
    intro P hwake hsame
    refine sum_congr rfl fun u _ => ?_
    by_cases hut : u = t
    · rw [hut, hself, hpc, hsame]
    · rw [hother u hut, hwake]
  have hhold : ∀ u, ((s.threadWakeup t hold).pc u).hold = (s.pc u).hold := by
    intro u
    by_cases hut : u = t
    · rw [hut, hself, hpc]
      rfl
    · rw [hother u hut, hold_wake]
  refine ⟨?_, ?_, ?_, fun u hu => h.write u ((hhold u).symm.trans hu),
    fun u hu => h.upgrade u ((hhold u).symm.trans hu), fun u loop hu => ?_⟩
  · rw [hcount _ reads_wake rfl]
    exact h.reads
  · rw [hcount _ ownsWrite_wake rfl]
    exact h.ownsWrite
  · rw [hcount _ ownsUpgrade_wake rfl]
    exact h.ownsUpgrade
  · by_cases hut : u = t
    · rw [hut, hself] at hu
      cases hu
    · rw [hother u hut] at hu
      exact absurd hu (wake_ne_asleep _ _)

/-- A section that ends with one more reader finds the count below its largest value. -/
def Room (s : LockSystem Thread) (l : Thread × LockAction) : Prop :=
  s.lock.busy .lockRead = false →
    l.2 = .lockRead ∨ l.2 = .resume ∧ (∃ wait, s.pc l.1 = .waits .lockRead wait) →
      s.lock.readCount ≠ BitVec.allOnes 16

/-- A loop that is gone on with. -/
theorem Inv.resume (h : s.Inv) {loop : LockLoop} {wait : LockWait} {spun : Bool}
    (hpc : s.pc t = .waits loop wait)
    (hroom : loop = .lockRead → s.lock.busy .lockRead = false →
      s.lock.readCount ≠ BitVec.allOnes 16) :
    s.Moves t (s.lock.resume lockWaitTime loop spun).1 (s.lock.resume lockWaitTime loop spun).2 := by
  cases loop with
  | wantWrite => exact h.lockWrite (inr ⟨wait, hpc⟩)
  | readers =>
    have hwant : s.lock.wantWrite = true := by
      have hpos : 0 < count LockPc.ownsWrite s.pc := count_pos (t := t) (by rw [hpc]; rfl)
      rw [h.ownsWrite] at hpos
      cases hw : s.lock.wantWrite
      · simp [hw] at hpos
      · rfl
    refine h.lockWriteReaders (inr ⟨_, wait, hpc, by decide⟩) ?_ ?_
    · rw [← hwant]
    · rw [hwant, hpc]
      rfl
  | lockRead => exact h.lockRead (inr ⟨wait, hpc⟩) (hroom rfl)
  | upgrade => exact h.lockUpgrade hpc

/-- One section of a thread. -/
theorem Inv.runSection (h : s.Inv) {action : LockAction} {r : LockData × LockPc}
    (hroom : s.Room (t, action))
    (hsection : (s.pc t).runSection s.lock lockWaitTime action = some r) : s.Moves t r.1 r.2 := by
  cases action with
  | lockWrite =>
    obtain ⟨hpc, heq⟩ := ite_none_right_eq_some.mp hsection
    cases heq
    exact h.lockWrite (inl hpc)
  | lockRead =>
    obtain ⟨hpc, heq⟩ := ite_none_right_eq_some.mp hsection
    cases heq
    exact h.lockRead (inl hpc) fun hidle => hroom hidle (inl rfl)
  | lockReadToWrite =>
    obtain ⟨hpc, heq⟩ := ite_none_right_eq_some.mp hsection
    cases heq
    exact h.lockReadToWrite hpc
  | lockDone =>
    obtain ⟨hpc, heq⟩ := ite_none_right_eq_some.mp hsection
    cases heq
    exact h.lockDone hpc
  | lockWriteToRead =>
    obtain ⟨hpc, heq⟩ := ite_none_right_eq_some.mp hsection
    cases heq
    exact h.lockWriteToRead hpc
  | resume =>
    unfold LockPc.runSection at hsection
    dsimp only at hsection
    split at hsection
    · rename_i loop hpc
      cases hsection
      refine h.resume hpc fun hloop hidle => hroom hidle (inr ⟨rfl, _, hloop ▸ hpc⟩)
    · rename_i loop hpc
      cases hsection
      refine h.resume hpc fun hloop hidle => hroom hidle (inr ⟨rfl, _, hloop ▸ hpc⟩)
    · cases hsection
  | threadWakeup => cases hsection

/-- One section or one `thread_wakeup`. -/
theorem Inv.step [DecidableEq Thread] (h : s.Inv) {action : LockAction} (hroom : s.Room (t, action))
    (hstep : s.step lockWaitTime t action = some s') : s'.Inv := by
  unfold LockSystem.step at hstep
  split at hstep
  · split at hstep
    · rename_i hold hpc
      cases hstep
      exact h.threadWakeup hpc
    · cases hstep
  · obtain ⟨r, hsection, heq⟩ := map_eq_some_iff.mp hstep
    cases heq
    exact h.moves (h.runSection hroom hsection)

/-- What holds of a new lock. -/
theorem inv_new : (new : LockSystem Thread).Inv :=
  ⟨by simp [new, count, LockPc.reads, hold], by simp [new, count, LockPc.ownsWrite],
    by simp [new, count, LockPc.ownsUpgrade], fun _ h => (by cases h), fun _ h => (by cases h),
    fun _ _ h => (by cases h)⟩

/-- The count is the number of threads. -/
theorem count_eq_card (P : LockPc → Bool) (pc : Thread → LockPc) :
    count P pc = (univ.filter fun t => P (pc t) = true).card := by
  rw [card_filter]
  refine sum_congr rfl fun t _ => ?_
  cases P (pc t) <;> rfl

/-- Nobody else holds the lock with a writer. -/
theorem Inv.exclusive (h : s.Inv) {u : Thread} (ht : (s.pc t).writes = true) :
    ((s.pc u).writes = true → t = u) ∧ (s.pc u).reads = false := by
  have hnotRead : (s.pc u).reads = false := by
    by_contra hr
    have hr : (s.pc u).reads = true := by simpa using hr
    have hnone := (h.held_read (t := u) (of_decide_eq_true hr)).2 t
    simp [writes, hnone.1, hnone.2] at ht
  refine ⟨fun hu => ?_, hnotRead⟩
  have hcases : ∀ v, (s.pc v).writes = true → (s.pc v).hold = .write ∨ (s.pc v).hold = .upgrade :=
    fun v hv => by simpa [writes] using hv
  rcases hcases t ht with ht | ht <;> rcases hcases u hu with hu | hu
  · exact h.owner_unique ht hu
  · exact absurd ((h.write t ht).2.symm.trans (h.held_upgrade hu)) (by decide)
  · exact absurd ((h.write u hu).2.symm.trans (h.held_upgrade ht)) (by decide)
  · exact h.upgrader_unique ht hu

variable [DecidableEq Thread]

/-- In every run that admits no reader with `read_count` at its largest value, one thread
holds the lock for writing or some for reading, `read_count` is their number, a failed
`lock_read_to_write` leaves nothing held, and a thread that sleeps waits for what is not the
case or is about to be woken up. -/
theorem lock_excludes (lockWaitTime : ℕ) {trace : List (LockSystem Thread × Thread × LockAction)}
    (hrun : Run (Step lockWaitTime) new trace s)
    (hroom : ∀ x ∈ trace, Room x.1 x.2) :
    (∀ t u, (s.pc t).writes = true → (s.pc u).writes = true → t = u) ∧
      (∀ t u, (s.pc t).writes = true → (s.pc u).reads = false) ∧
      (∀ t s', s.step lockWaitTime t .lockReadToWrite = some s' → s.lock.upgradeFails = true →
        (s'.pc t = .returned .nothing ∨ s'.pc t = .wakeup .nothing) ∧
          s'.lock.readCount = s.lock.readCount - 1 ∧ s'.lock.wantUpgrade = s.lock.wantUpgrade ∧
          s'.lock.wantWrite = s.lock.wantWrite) ∧
      s.lock.readCount.toNat = (univ.filter fun t => (s.pc t).reads = true).card ∧
      ∀ t loop, s.pc t = .waits loop .asleep → s.lock.busy loop = true ∨ s.WakeupPending := by
  have h : s.Inv := hrun.invariant Inv hroom inv_new fun _ _ _ h hroom hstep => h.step hroom hstep
  refine ⟨fun t u ht hu => (h.exclusive ht).1 hu, fun t u ht => (h.exclusive ht).2,
    fun t s' hstep hfails => lockReadToWrite_fails hstep hfails, ?_, fun t loop hsleep => ?_⟩
  · rw [h.reads, count_eq_card]
  · exact (h.asleep t loop hsleep).imp_left And.left

/-- Two readers, of which one upgrades and sleeps while the other one fails to. -/
def upgradeRace : List (Fin 2 × LockAction) :=
  [(1, .lockReadToWrite), (0, .lockReadToWrite), (1, .lockRead), (0, .lockRead)]

/-- The first of two readers that ask to upgrade is about to be woken up. -/
theorem upgradeRace_excludes : ∃ trace s,
    Run (Step 0) (new : LockSystem (Fin 2)) trace s ∧
      s.pc 0 = .waits .upgrade .asleep ∧ s.pc 1 = .wakeup .nothing ∧
      s.lock.readCount.toNat = (univ.filter fun t => (s.pc t).reads = true).card := by
  have h : (replay (quietStep 0) (new : LockSystem (Fin 2)) upgradeRace).map (fun r =>
        decide (r.2.pc 0 = .waits .upgrade .asleep ∧ r.2.pc 1 = .wakeup .nothing ∧
          ∀ x ∈ r.1, x.1.lock.readCount ≠ BitVec.allOnes 16)) = some true := by
    decide +kernel
  obtain ⟨⟨trace, s⟩, hreplay, hres⟩ := map_eq_some_iff.mp h
  obtain ⟨h₀, h₁, hroom⟩ := of_decide_eq_true hres
  have hrun := run_of_replay hreplay
  have hroom' : ∀ x ∈ trace.map fun x => (x.1, x.2.1), Room x.1 x.2 := by
    intro x hx
    obtain ⟨y, hy, rfl⟩ := List.mem_map.mp hx
    exact fun _ _ => hroom y hy
  exact ⟨_, s, hrun, h₀, h₁, (lock_excludes 0 hrun hroom').2.2.2.1⟩

/-- Threads that read, one after the other, and one that does not. -/
def manyReaders (n : ℕ) : LockSystem (Fin (2 ^ 16 + 1)) :=
  ⟨⟨BitVec.ofNat 16 n, false, false, false⟩,
    fun t => if t.val < n then .returned .read else .returned .nothing⟩

/-- Any number of threads get the lock for reading. -/
theorem run_manyReaders {n : ℕ} (hn : n ≤ 2 ^ 16) : ∃ trace,
    Run (Step 0) (new : LockSystem (Fin (2 ^ 16 + 1))) trace (manyReaders n) := by
  induction n with
  | zero => exact ⟨[], .nil⟩
  | succ n ih =>
    obtain ⟨trace, hrun⟩ := ih (by omega)
    have hidle : (manyReaders n).pc ⟨n, by omega⟩ = .returned .nothing := if_neg (Nat.lt_irrefl n)
    have hstep := @step_lockRead _ _ 0 _ _ hidle
    have hnext : manyReaders (n + 1) = ⟨((manyReaders n).lock.lockRead 0 false).1,
        update (manyReaders n).pc ⟨n, by omega⟩ (.returned .read)⟩ := by
      unfold manyReaders
      congr 1
      · rw [ofNat_add]
        rfl
      · funext t
        by_cases ht : t = ⟨n, by omega⟩
        · rw [ht, update_self, if_pos (Nat.lt_succ_self n)]
        · rw [update_of_ne ht]
          dsimp only
          have hne : t.val ≠ n := fun heq => ht (Fin.ext heq)
          by_cases hlt : t.val < n
          · rw [if_pos hlt, if_pos (by omega)]
          · rw [if_neg hlt, if_neg (by omega)]
    rw [hnext]
    exact ⟨_, hrun.cons hstep⟩

/-- After 2^16 readers the count is 0 again, and a writer gets the lock. -/
theorem lock_admits_writer : ∃ trace, ∃ s : LockSystem (Fin (2 ^ 16 + 1)),
    Run (Step 0) new trace s ∧ ∃ t u, (s.pc t).writes = true ∧ (s.pc u).reads = true := by
  obtain ⟨trace, hrun⟩ := run_manyReaders (Nat.le_refl (2 ^ 16))
  have hidle : (manyReaders (2 ^ 16)).pc (Fin.last _) = .returned .nothing := by simp [manyReaders]
  have hreads : (manyReaders (2 ^ 16)).pc 0 = .returned .read := by simp [manyReaders]
  have hstep := @step_lockWrite _ _ 0 _ _ hidle
  refine ⟨_, _, hrun.cons hstep, Fin.last _, 0, ?_, ?_⟩
  · dsimp only
    rw [update_self]
    rfl
  · dsimp only
    rw [update_of_ne (by simp [Fin.ext_iff]), hreads]
    rfl

end LockSystem

end MachVirtuTerm
