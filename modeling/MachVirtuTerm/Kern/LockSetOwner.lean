import MachVirtuTerm.Kern.LockSetRun

/-!
# Runs of a lock set

What the ends of waits keep, and what holds over every run that is orderly.
-/

open Function List Option

namespace MachVirtuTerm

open UlockThread Or

variable {Thread Id : Type*}

/-- The end of a wait does not change where a thread is, nor what it was promised. -/
@[simp] theorem UlockThread.endWait_pc (x : UlockThread Thread Id) (result : ℕ) :
    (x.endWait result).pc = x.pc := by
  unfold endWait
  split
  · rfl
  · rfl

@[simp] theorem UlockThread.endWait_promised (x : UlockThread Thread Id) (result : ℕ) :
    (x.endWait result).promised = x.promised := by
  unfold endWait
  split
  · rfl
  · rfl

/-- What a thread is to a ulock is told by where it is and what it was promised. -/
theorem UlockThread.role_congr [DecidableEq Id] {x y : UlockThread Thread Id} (hpc : x.pc = y.pc)
    (hpromised : x.promised = y.promised) (id : Id) : x.role id = y.role id := by
  unfold role
  rw [hpc, hpromised]

namespace LockSetState

variable [DecidableEq Thread] [DecidableEq Id] {s s' : LockSetState Thread Id} {t u v : Thread}
  {id id' : Id} {fixedPriority : Bool} {priority : Thread → ℕ}

section

variable (h : s.Inv)

include h

/-- A thread returns from a wait whose operation is complete. -/
theorem Inv.completed {wait : UlockWait} (ht : (s.thread t).pc = .woken wait id)
    (hlinked : (s.thread t).linked = false) :
    (s.completed t wait id).1.Inv ∧
      ∀ r ∈ (s.completed t wait id).2, Returns s r (s.completed t wait id).1 := by
  obtain ⟨hwaiting, htarget, hdone⟩ := h.woken ht
  have hengaged : (s.thread t).Engaged wait id := inr (inr (inl ht))
  obtain ⟨hthreads, hroles, hidle, hnone, hother⟩ := h.leave_threads hengaged hwaiting htarget
  have hu := h.ulock id
  -- a thread that was promised nothing was interrupted while it was in a hand-off
  have hrole : (s.thread t).role id ≠ .waits .acquire ∧
      ((s.thread t).role id = .granted (wait = .accept) ∧ wait ≠ .handoff ∧
          obtainedCode (s.thread t).waitResult = true ∨
        (∀ accepts, (s.thread t).role id ≠ .granted accepts) ∧
          (wait = .handoff ∨ obtainedCode (s.thread t).waitResult = false)) := by
    cases hp : (s.thread t).promised with
    | none =>
      have hr := hengaged.role_waits hp
      have hne : wait ≠ .acquire := by
        rintro rfl
        have htrue := (h.threads.ok t).linked hp id (inr (inr ht))
        exact absurd (hlinked.symm.trans htrue) Bool.noConfusion
      rw [hr]
      refine ⟨fun heq => hne (UlockRole.waits.inj heq), inr ⟨(fun _ hfalse => nomatch hfalse), ?_⟩⟩
      right
      rw [(h.threads.ok t).interrupted hp hwaiting wait id (inr ht)]
      decide
    | some c =>
      have hresult := (hdone c hp).2
      rw [hengaged.role, if_pos rfl, hp]
      by_cases hgranted : wait ≠ .handoff ∧ obtainedCode c = true
      · rw [UlockWait.role_granted hgranted.1 hgranted.2, hresult]
        exact ⟨(fun hfalse => nomatch hfalse), inl ⟨rfl, hgranted⟩⟩
      · rw [UlockWait.role_finished hgranted, hresult]
        refine ⟨(fun hfalse => nomatch hfalse), inr ⟨(fun _ hfalse => nomatch hfalse), ?_⟩⟩
        by_cases hhandoff : wait = .handoff
        · exact inl hhandoff
        · exact inr (Bool.not_eq_true _ ▸ fun hc => hgranted ⟨hhandoff, hc⟩)
  have hleave : (∀ accepts, (s.thread t).role id ≠ .granted accepts) → (s.leave t).Inv := by
    intro hgranted
    refine ⟨?_, h.heldNodup, h.handoffNodup, hthreads⟩
    exact h.ulock_of id rfl (hu.leave hrole.1 hgranted hnone hother) (fun _ _ => rfl)
      (fun _ _ => Iff.rfl) (fun _ _ => Iff.rfl) hroles fun _ _ _ => rfl
  rcases hrole.2 with ⟨hgranted, hwait, hcode⟩ | ⟨hgranted, hcode⟩
  · unfold LockSetState.completed
    dsimp only
    rw [if_neg hwait, if_pos hcode]
    have hobtained : ((s.leave t).obtain t id).obtained t id = (s.obtained t id || s.active) :=
      setObtained_self _ t id _
    refine ⟨⟨?_, h.heldNodup, h.handoffNodup, hthreads⟩, fun r hr => ?_⟩
    · refine h.ulock_of id rfl ?_ (fun _ _ => rfl) (fun _ _ => Iff.rfl) (fun _ _ => Iff.rfl) hroles
        fun id' hid v => setObtained_other _ t _ hid v
      refine hu.obtain hgranted hnone hother hobtained fun v hvt => ?_
      exact setObtained_of_ne _ id _ hvt id
    · cases hr
      refine ⟨fun _ _ hactive => ?_, fun _ hfalse => ?_⟩
      · have hactive' : s.active = true := hactive
        have howner := (hu.thread t).role
        rw [hgranted] at howner
        refine ⟨(howner hactive').1, ?_⟩
        rw [hobtained, hactive', Bool.or_true]
      · exact absurd (hcode.symm.trans hfalse) Bool.noConfusion
  · have hinv := hleave hgranted
    unfold LockSetState.completed
    dsimp only
    split
    · refine ⟨hinv, fun r hr => ?_⟩
      cases hr
      exact returns_of_not rfl
    · rename_i hwait
      have hfalse := hcode.resolve_left hwait
      rw [if_neg (by rw [hfalse]; exact Bool.false_ne_true)]
      refine ⟨hinv, fun r hr => ?_⟩
      cases hr
      refine ⟨fun _ htrue => ?_, fun _ _ => ⟨rfl, fun howner => ?_⟩⟩
      · exact absurd (hfalse.symm.trans htrue) Bool.noConfusion
      · exact hinv.obtained_of_idle hidle howner

/-- A thread whose operation was aborted leaves. -/
theorem Inv.abort {wait : UlockWait} (ht : (s.thread t).pc = .aborting wait id)
    (hstep : s.abort t wait id = some s') :
    s'.Inv ∧ (s'.thread t).pc = .idle ∧ ∀ id', s'.obtained t id' = s.obtained t id' := by
  have hengaged : (s.thread t).Engaged wait id := inr (inr (inr ht))
  have hpromised := (h.threads.ok t).aborting wait id ht
  have hwaiting := (h.threads.ok t).waiting_of_idle (by simp [ht])
  have hrole := hengaged.role_waits hpromised
  obtain ⟨hthreads, hroles, hidle, hnone, hother⟩ :=
    h.leave_threads hengaged hwaiting (h.not_target hpromised)
  have hu := h.ulock id
  unfold LockSetState.abort at hstep
  split at hstep
  · rename_i hwait
    subst hwait
    split at hstep
    · cases hstep
      refine ⟨⟨?_, h.heldNodup, h.handoffNodup, hthreads⟩, hidle, fun _ => rfl⟩
      refine h.ulock_of id rfl ?_ (fun id' hid => update_of_ne hid ..) (fun _ _ => Iff.rfl)
        (fun _ _ => Iff.rfl) hroles fun _ _ _ => rfl
      dsimp only [leave, setThread, setUlock]
      rw [update_self]
      exact hu.abortAcquire hrole hnone hother
    · cases hstep
  · rename_i hwait
    split at hstep
    · split at hstep
      · rename_i hlocked
        cases hstep
        refine ⟨⟨?_, h.heldNodup, h.handoffNodup.erase id, hthreads⟩, hidle, fun _ => rfl⟩
        refine h.ulock_of id rfl ?_ (fun id' hid => update_of_ne hid ..) (fun _ _ => Iff.rfl)
          (fun id' hid => (mem_erase_of_ne hid).symm) hroles fun _ _ _ => rfl
        dsimp only [leave, setThread, setUlock]
        rw [update_self]
        refine hu.abortHandoff hrole hwait hlocked.1 hnone hother fun hmem => ?_
        exact (h.handoffNodup.mem_erase_iff.mp hmem).1 rfl
      · cases hstep
    · rename_i hactive
      have hr := (hu.thread t).role
      rw [hrole] at hr
      cases wait with
      | acquire => exact absurd rfl hwait
      | handoff => exact absurd hr.1 hactive
      | accept => exact absurd hr.1 hactive

/-- The operation of the thread that gets the ulock is marked complete. -/
theorem Inv.complete {pass : UlockPass} {a : Thread} {result : ℕ}
    (ht : (s.thread t).pc = .complete pass id a result) :
    ((s.setThread a { s.thread a with linked := false }).goTo t (.clearWait pass id a result)).Inv := by
  have hpasses : (s.thread t).passes = some (a, result) := by
    unfold passes
    rw [ht]
  obtain ⟨hne, -⟩ := h.threads.target_ne hpasses
  have hthread : ((s.setThread a { s.thread a with linked := false }).goTo t
      (.clearWait pass id a result)).thread = update (update s.thread a
        { s.thread a with linked := false }) t
          { s.thread t with pc := .clearWait pass id a result } := by
    unfold goTo setThread
    dsimp only
    rw [update_of_ne (Ne.symm hne)]
  have hthreads : PromisesOk ((s.setThread a { s.thread a with linked := false }).goTo t
      (.clearWait pass id a result)).thread := by
    rw [hthread]
    exact h.threads.complete ht
  refine h.with_threads hthreads fun id' v => ?_
  change (((s.setThread a { s.thread a with linked := false }).goTo t
    (.clearWait pass id a result)).thread v).role id' = _
  rw [hthread]
  by_cases hvt : v = t
  · rw [hvt, update_self, role_of_passes (inl ht)]
    exact role_of_passes (inr rfl) id'
  · rw [update_of_ne hvt]
    by_cases hva : v = a
    · rw [hva, update_self]
      exact role_congr rfl rfl id'
    · rw [update_of_ne hva]

/-- The wait of the thread that gets the ulock is ended, and the other returns. -/
theorem Inv.clearWait {pass : UlockPass} {a : Thread} {result : ℕ}
    (ht : (s.thread t).pc = .clearWait pass id a result) (hwaiting : (s.thread a).waiting = true) :
    (s.clearWait t pass id a result).1.Inv ∧
      ∀ r ∈ (s.clearWait t pass id a result).2, Returns s r (s.clearWait t pass id a result).1 := by
  have hpasses : (s.thread t).passes = some (a, result) := by
    unfold passes
    rw [ht]
  obtain ⟨hne, -⟩ := h.threads.target_ne hpasses
  have hpromised : (s.thread t).promised = none := by
    by_contra hsome
    rcases (h.threads.ok t).promised hsome with ⟨_, _, hpc⟩ | ⟨_, _, hpc⟩ | ⟨_, _, hpc⟩
    · exact absurd (ht.symm.trans hpc) fun hfalse => nomatch hfalse
    · exact absurd (ht.symm.trans hpc) fun hfalse => nomatch hfalse
    · exact absurd (ht.symm.trans hpc) fun hfalse => nomatch hfalse
  have hthread : ((s.setThread a ((s.thread a).endWait result)).goTo t .idle).thread =
      update (update s.thread a ((s.thread a).endWait result)) t
        { s.thread t with pc := .idle } := by
    unfold goTo setThread
    dsimp only
    rw [update_of_ne (Ne.symm hne)]
  have hthreads : PromisesOk ((s.setThread a ((s.thread a).endWait result)).goTo t .idle).thread := by
    rw [hthread]
    refine h.threads.clearWait ht hwaiting ?_ rfl hpromised
    refine ok_of_quiet (x := { s.thread t with pc := .idle }) ?_ hpromised
      (fun _ _ hfalse => nomatch hfalse) (fun _ _ hfalse => nomatch hfalse) fun _ hfalse => nomatch hfalse
    exact (h.threads.ok t).waiting_of_idle (by simp [ht])
  have hidle : ∀ id', (((s.setThread a ((s.thread a).endWait result)).goTo t .idle).thread t).role id' =
      .none := by
    intro id'
    rw [hthread, update_self]
    rfl
  have hother : ∀ id' v, v ≠ t →
      (((s.setThread a ((s.thread a).endWait result)).goTo t .idle).thread v).role id' =
        (s.thread v).role id' := by
    intro id' v hvt
    rw [hthread, update_of_ne hvt]
    by_cases hva : v = a
    · rw [hva, update_self]
      exact role_congr (endWait_pc ..) (endWait_promised ..) id'
    · rw [update_of_ne hva]
  have hrole := role_of_passes (inr ht)
  by_cases hpass : pass = .accept
  · subst hpass
    have hgranted : (s.thread t).role id = .granted false := by
      rw [hrole, if_pos ⟨rfl, rfl⟩]
    have hobtained : (s.clearWait t .accept id a result).1.obtained t id =
        (s.obtained t id || s.active) := setObtained_self _ t id _
    refine ⟨⟨?_, h.heldNodup, h.handoffNodup, hthreads⟩, fun r hr => ?_⟩
    · refine h.ulock_of id rfl ?_ (fun _ _ => rfl) (fun _ _ => Iff.rfl) (fun _ _ => Iff.rfl)
        (fun id' hid v => ?_) fun id' hid v => setObtained_other _ t _ hid v
      · refine (h.ulock id).obtain hgranted (hidle id) (hother id) hobtained fun v hvt => ?_
        exact setObtained_of_ne _ id _ hvt id
      · by_cases hvt : v = t
        · rw [hvt, hrole, if_neg fun heq => hid heq.1.symm]
          exact hidle id'
        · exact hother id' v hvt
    · cases hr
      refine ⟨fun _ _ hactive => ?_, fun _ hfalse => ?_⟩
      · have hactive' : s.active = true := hactive
        have howner := ((h.ulock id).thread t).role
        rw [hgranted] at howner
        refine ⟨(howner hactive').1, ?_⟩
        rw [hobtained, hactive', Bool.or_true]
      · exact absurd ((obtainedCode_code _).symm.trans hfalse) Bool.noConfusion
  · have hsame : s.clearWait t pass id a result =
        ((s.setThread a ((s.thread a).endWait result)).goTo t .idle,
          some ⟨t, id, false, kernSuccess⟩) := by
      cases pass with
      | release => rfl
      | handoff => rfl
      | accept => exact absurd rfl hpass
    rw [hsame]
    refine ⟨h.with_threads hthreads fun id' v => ?_, fun r hr => ?_⟩
    · by_cases hvt : v = t
      · rw [hvt, hrole, if_neg fun heq => hpass heq.2]
        exact hidle id'
      · exact hother id' v hvt
    · cases hr
      exact returns_of_not rfl

/-- A thread is aborted. -/
theorem Inv.threadAbort (hwaiting : (s.thread t).waiting = true)
    (horderly : s.Orderly (.threadAbort t)) :
    (s.setThread t ((s.thread t).endWait threadInterrupted)).Inv := by
  have hold := h.threads.ok t
  obtain ⟨wait, id, hasleep⟩ := hold.waiting hwaiting
  have htarget : ∀ u c, (s.thread u).passes ≠ some (t, c) :=
    fun u c hpasses => horderly u (t, c) hpasses rfl
  have hpromised : (s.thread t).promised = none := by
    cases hp : (s.thread t).promised with
    | none => rfl
    | some c =>
      rcases h.threads.promised t c hp with ⟨u, hu⟩ | hdone
      · exact absurd hu (htarget u c)
      · exact absurd (hwaiting.symm.trans hdone.2.1) Bool.noConfusion
  have hend : (s.thread t).endWait threadInterrupted = { s.thread t with
      waiting := false
      waitResult := threadInterrupted } := by
    unfold endWait
    rw [if_pos hwaiting]
  rw [hend]
  apply h.with_thread
  · refine h.threads.update ?_ (passes_of_engaged (inr (inl hasleep))) ?_ htarget hpromised
    · exact ⟨(fun hfalse => nomatch hfalse), hold.linked, fun _ _ _ _ _ => rfl, hold.aborting,
        hold.promised⟩
    · exact passes_of_engaged (x := { s.thread t with
        waiting := false
        waitResult := threadInterrupted }) (inr (inl hasleep))
  · intro id'
    exact role_congr rfl rfl id'

/-- `lock_set_destroy`. -/
theorem Inv.destroy (horderly : s.Orderly .destroy) (hstep : s.destroy = some s') : s'.Inv := by
  unfold LockSetState.destroy at hstep
  split at hstep
  · cases hstep
    exact h
  rename_i hactive
  have hactive' : s.active = true := Bool.not_eq_false _ ▸ hactive
  obtain ⟨hblocked, hho⟩ := horderly hactive'
  split at hstep
  · rename_i hguard
    cases hstep
    have hdestroys : ∀ v, s.destroys v → (s.thread v).waiting = true ∧ (s.thread v).promised = none := by
      rintro v (⟨id, hid, hmem⟩ | ⟨id, hid, hmem⟩)
      · have hwaiting := hblocked id hid v hmem
        obtain ⟨wait, id', hasleep⟩ := (h.threads.ok v).waiting hwaiting
        have hrole := ((h.ulock id).thread v).blocked hmem
        rw [UlockThread.Engaged.role (inr (inl hasleep))] at hrole
        split at hrole
        · exact ⟨hwaiting, UlockWait.promised_of_waits hrole⟩
        · cases hrole
      · obtain ⟨hwaiting, hasleep⟩ := hho id hid v hmem
        refine ⟨hwaiting, ?_⟩
        rcases hasleep with hasleep | hasleep
        · exact h.promised_of_ho hactive' (inr (inl hasleep)) (fun hfalse => nomatch hfalse) hmem
        · exact h.promised_of_ho hactive' (inr (inl hasleep)) (fun hfalse => nomatch hfalse) hmem
    have hself : ∀ v, s.destroys v → (if s.destroys v then
        { (s.thread v).endWait kernLockSetDestroyed with
          linked := false
          promised := some kernLockSetDestroyed }
        else s.thread v) = { s.thread v with
          waiting := false
          waitResult := kernLockSetDestroyed
          linked := false
          promised := some kernLockSetDestroyed } := by
      intro v hv
      rw [if_pos hv]
      unfold endWait
      rw [if_pos (hdestroys v hv).1]
    refine ⟨fun id => ?_, nodup_nil, nodup_nil, ?_⟩
    · have hu := h.ulock id
      have hheld := (hu.held hactive').1
      apply ulockOk_destroyed
      · dsimp only
        split
        · rfl
        · rename_i hnot
          by_contra hne
          exact hnot (hheld.mpr (hu.blocked hactive' hne))
      · dsimp only
        split
        · rw [hu.count]
          exact sub_self _
        · rename_i hnot
          rw [hu.count]
          by_contra hne
          refine hnot (hheld.mpr (hu.blocked hactive' fun hempty => hne ?_))
          rw [hempty]
          rfl
      · dsimp only
        split
        · rfl
        · rename_i hnot
          by_contra hne
          exact hnot (hheld.mpr hne)
      · intro v wait
        dsimp only
        by_cases hv : s.destroys v
        · obtain ⟨hwaiting, -⟩ := hdestroys v hv
          obtain ⟨wait', id', hasleep⟩ := (h.threads.ok v).waiting hwaiting
          rw [hself v hv, UlockThread.Engaged.role (x := { s.thread v with
            waiting := false
            waitResult := kernLockSetDestroyed
            linked := false
            promised := some kernLockSetDestroyed }) (inr (inl hasleep))]
          split
          · rw [UlockWait.role_finished fun hboth => absurd hboth.2 (by decide)]
            exact fun hfalse => nomatch hfalse
          · exact fun hfalse => nomatch hfalse
        · rw [if_neg hv]
          exact fun hrole => hv (h.destroys_of_waits hrole)
      · intro v
        dsimp only
        by_cases hv : s.destroys v
        · obtain ⟨hwaiting, -⟩ := hdestroys v hv
          obtain ⟨wait', id', hasleep⟩ := (h.threads.ok v).waiting hwaiting
          rw [hself v hv, UlockThread.Engaged.role (x := { s.thread v with
            waiting := false
            waitResult := kernLockSetDestroyed
            linked := false
            promised := some kernLockSetDestroyed }) (inr (inl hasleep))]
          split
          · rw [UlockWait.role_finished fun hboth => absurd hboth.2 (by decide)]
            exact fun hfalse => nomatch hfalse
          · exact fun hfalse => nomatch hfalse
        · rw [if_neg hv]
          intro hacc
          have hlocked := (hu.thread v).locked hacc
          exact hguard.2 id ((hu.handoff hactive').mpr (inr hlocked.1)) hlocked.2
    · exact h.threads.destroy s.destroys (fun v hv => ⟨(hdestroys v hv).1,
        (hdestroys v hv).2, hself v hv⟩) fun v hv => if_neg hv
  · cases hstep

end

/-- What a step under the condition preserves, and what it returns. -/
theorem Inv.step {l : LockSetAction Thread Id × Option (UlockReturn Thread Id)} (h : s.Inv)
    (horderly : s.Orderly l.1) (hstep : Step fixedPriority priority s l s') :
    s'.Inv ∧ ∀ r ∈ l.2, Returns s r s' := by
  obtain ⟨action, returned⟩ := l
  cases action with
  | acquire t id =>
    simp only [Step, LockSetState.step] at hstep
    split at hstep
    · rename_i ht
      exact h.acquire ht hstep
    · cases hstep
  | «try» t id =>
    simp only [Step, LockSetState.step] at hstep
    split at hstep
    · rename_i ht
      exact h.try ht hstep
    · cases hstep
  | release t id =>
    simp only [Step, LockSetState.step] at hstep
    split at hstep
    · rename_i ht
      exact h.release ht horderly hstep
    · cases hstep
  | makeStable t id =>
    simp only [Step, LockSetState.step] at hstep
    split at hstep
    · rename_i ht
      exact h.makeStable ht hstep
    · cases hstep
  | makeUnstable t id =>
    simp only [Step, LockSetState.step] at hstep
    split at hstep
    · rename_i ht
      exact h.makeStable ht hstep
    · cases hstep
  | handoff t id =>
    simp only [Step, LockSetState.step] at hstep
    split at hstep
    · rename_i ht
      exact h.handoff ht horderly hstep
    · cases hstep
  | accept t id =>
    simp only [Step, LockSetState.step] at hstep
    split at hstep
    · rename_i ht
      exact h.accept ht horderly hstep
    · cases hstep
  | setHoThread t =>
    simp only [Step, LockSetState.step] at hstep
    split at hstep
    · rename_i id ht
      cases hstep
      exact ⟨h.setHoThread ht rfl, by rintro _ ⟨⟩⟩
    · cases hstep
  | assertWait t =>
    simp only [Step, LockSetState.step] at hstep
    split at hstep
    · rename_i wait id ht
      cases hstep
      exact ⟨h.assertWait ht, by rintro _ ⟨⟩⟩
    · cases hstep
  | wake t =>
    simp only [Step, LockSetState.step] at hstep
    split at hstep
    · rename_i wait id ht
      split at hstep
      · rename_i hwaiting
        cases hstep
        exact ⟨h.wake ht hwaiting, by rintro _ ⟨⟩⟩
      · cases hstep
    · cases hstep
  | test t =>
    simp only [Step, LockSetState.step] at hstep
    split at hstep
    · rename_i wait id ht
      split at hstep
      · rename_i hlinked
        cases hstep
        exact ⟨h.testAborted ht hlinked, by rintro _ ⟨⟩⟩
      · rename_i hlinked
        have hboth := h.completed ht (Bool.not_eq_true _ ▸ hlinked)
        rw [Option.some.inj hstep] at hboth
        exact hboth
    · cases hstep
  | abort t =>
    simp only [Step, LockSetState.step] at hstep
    split at hstep
    · rename_i wait id ht
      obtain ⟨s₁, hs₁, heq⟩ := map_eq_some_iff.mp hstep
      cases heq
      obtain ⟨hinv, hidle, hobtained⟩ := h.abort ht hs₁
      refine ⟨hinv, fun r hr => ?_⟩
      cases hr
      refine ⟨fun _ htrue => absurd htrue (show ¬obtainedCode kernAborted = true by decide), fun _ _ => ⟨hobtained id, fun howner => ?_⟩⟩
      rw [← hobtained id]
      exact hinv.obtained_of_idle hidle howner
    · cases hstep
  | complete t =>
    simp only [Step, LockSetState.step] at hstep
    split at hstep
    · rename_i pass id a result ht
      cases hstep
      exact ⟨h.complete ht, by rintro _ ⟨⟩⟩
    · cases hstep
  | clearWait t =>
    simp only [Step, LockSetState.step] at hstep
    split at hstep
    · rename_i pass id a result ht
      have hpasses : (s.thread t).passes = some (a, result) := by
        unfold passes
        rw [ht]
      have hboth := h.clearWait ht (horderly (a, result) hpasses)
      rw [Option.some.inj hstep] at hboth
      exact hboth
    · cases hstep
  | destroy =>
    simp only [Step, LockSetState.step] at hstep
    obtain ⟨s₁, hs₁, heq⟩ := map_eq_some_iff.mp hstep
    cases heq
    exact ⟨h.destroy horderly hs₁, by rintro _ ⟨⟩⟩
  | threadAbort t =>
    simp only [Step, LockSetState.step] at hstep
    split at hstep
    · rename_i hwaiting
      cases hstep
      exact ⟨h.threadAbort hwaiting horderly, by rintro _ ⟨⟩⟩
    · cases hstep

/-- The invariant holds of a new lock set. -/
theorem inv_init (Thread Id : Type*) [DecidableEq Thread] [DecidableEq Id] :
    (init Thread Id).Inv := by
  refine ⟨fun id => ⟨fun _ => ⟨?_, ?_⟩, fun _ => ?_, nodup_nil, rfl, fun _ hne => absurd rfl hne,
    fun _ => rfl, (fun _ _ hfalse => nomatch hfalse), fun t => ⟨trivial, (fun hfalse => nomatch hfalse),
      (fun hfalse => nomatch hfalse), fun hfalse => nomatch hfalse⟩⟩, nodup_nil, nodup_nil,
    ⟨fun t => ?_, (fun _ _ _ hfalse => nomatch hfalse), (fun _ _ _ _ _ hfalse => nomatch hfalse),
      (fun _ _ _ _ _ hfalse => nomatch hfalse), fun _ _ hfalse => nomatch hfalse⟩⟩
  · exact iff_of_false not_mem_nil fun hne => hne rfl
  · exact iff_of_false Bool.false_ne_true fun hne => hne rfl
  · refine iff_of_false not_mem_nil ?_
    rintro (hne | hfalse)
    · exact hne rfl
    · cases hfalse
  · exact ok_of_quiet rfl rfl (fun _ _ hfalse => nomatch hfalse)
      (fun _ _ hfalse => nomatch hfalse) fun _ hfalse => nomatch hfalse

/-- In every run whose steps are orderly, at most one thread has obtained a ulock, and it is the
owner; a thread that returns without it does not own it, unless it had obtained it before; the count
of blocked threads is the length of their queue; and who still waits was not passed the ulock, or
somebody is about to wake it. -/
theorem ulocks_owned {trace : List (LockSetState Thread Id × LockSetAction Thread Id ×
      Option (UlockReturn Thread Id))}
    (hrun : Run (Step fixedPriority priority) (init Thread Id) trace s)
    (hok : ∀ x ∈ trace, Orderly x.1 x.2.1) :
    (∀ t id, s.obtained t id = true → (s.ulock id).owner = some t) ∧
      (∀ t u id, s.obtained t id = true → s.obtained u id = true → t = u) ∧
      (∀ x ∈ trace, ∀ s', Step fixedPriority priority x.1 x.2 s' → ∀ r ∈ x.2.2, Returns x.1 r s') ∧
      (∀ id, (s.ulock id).blockedCount = (s.ulock id).blockedThreads.length) ∧
      ∀ t wait id, (s.thread t).Parked wait id →
        (∃ u c, (s.thread u).passes = some (t, c)) ∨ s.StillWaits t id wait := by
  have hinit := inv_init Thread Id
  have hsteps : ∀ (s : LockSetState Thread Id) l s', s.Inv → Orderly s l.1 →
      Step fixedPriority priority s l s' → s'.Inv := fun _ _ _ h hl hstep => (h.step hl hstep).1
  have hinv := @Run.invariant _ _ _ _ _ _ (fun s l => Orderly s l.1) Inv hrun hok hinit hsteps
  have howner : ∀ t id, s.obtained t id = true → (s.ulock id).owner = some t :=
    fun t id => ((hinv.ulock id).thread t).obtained
  refine ⟨howner, fun t u id ht hu => ?_, fun x hx s' hstep => ?_, fun id => (hinv.ulock id).count,
    fun t wait id ht => hinv.still_waits ht⟩
  · exact Option.some.inj ((howner t id ht).symm.trans (howner u id hu))
  · obtain ⟨hbefore, hl, -⟩ :=
      @Run.invariant_of_mem _ _ _ _ _ _ (fun s l => Orderly s l.1) Inv hrun hok hinit hsteps x hx
    exact (hbefore.step hl hstep).2

/-- One thread takes a ulock, and the other waits for it. -/
def takeAndWait : List (LockSetAction Bool Unit) :=
  [.assertWait true, .acquire true (), .acquire false ()]

instance (s : LockSetState Bool Unit) (action : LockSetAction Bool Unit) :
    Decidable (s.Orderly action) := by
  unfold Orderly UlockThread.Parked
  split <;> infer_instance

/-- The ulock is released, and the thread that waits obtains it, as the only one. -/
theorem releaseToWaiter_owned : ∃ trace s,
    Run (Step false fun _ => 0) (init Bool Unit) trace s ∧ s.obtained true () = true ∧
      (s.ulock ()).owner = some true ∧ s.obtained false () ≠ true ∧
      (∀ x ∈ trace, ∀ s', Step false (fun _ => 0) x.1 x.2 s' → ∀ r ∈ x.2.2, Returns x.1 r s') ∧
      (s.ulock ()).blockedCount = (s.ulock ()).blockedThreads.length := by
  have h : (replay (step false fun _ => 0) (init Bool Unit)
      (.test true :: .wake true :: .clearWait false :: .complete false :: .release false () ::
        takeAndWait)).map (fun r => decide (r.2.obtained true () = true ∧
          ∀ x ∈ r.1, Orderly x.1 x.2.1)) = some true := by
    decide +kernel
  obtain ⟨⟨trace, s⟩, hreplay, hres⟩ := map_eq_some_iff.mp h
  obtain ⟨hobtained, hok⟩ := of_decide_eq_true hres
  have hrun := Run.of_replay_step hreplay
  obtain ⟨howner, hone, hreturns, hcount, -⟩ := ulocks_owned hrun hok
  exact ⟨trace, s, hrun, hobtained, howner true () hobtained,
    fun hfalse => absurd (hone false true () hfalse hobtained) Bool.false_ne_true, hreturns,
    hcount ()⟩

/-- The thread that waits is aborted before the ulock is released to it: it returns that it was
interrupted, and owns the ulock. -/
theorem abortAndRelease_owns : ∃ trace s l s',
    Run (Step false fun _ => 0) (init Bool Unit) trace s ∧ Step false (fun _ => 0) s l s' ∧
      l.2 = some ⟨true, (), true, threadInterrupted⟩ ∧ s.obtained true () = false ∧
        s'.obtained true () = false ∧ (s'.ulock ()).owner = some true := by
  have h : (replay (step false fun _ => 0) (init Bool Unit)
      (.wake true :: .clearWait false :: .complete false :: .release false () ::
        .threadAbort true :: takeAndWait)).bind (fun r =>
          (r.2.step false (fun _ => 0) (.test true)).map fun r' =>
            decide (r'.2 = some ⟨true, (), true, threadInterrupted⟩ ∧ r.2.obtained true () = false ∧
              r'.1.obtained true () = false ∧ (r'.1.ulock ()).owner = some true)) = some true := by
    decide +kernel
  obtain ⟨⟨trace, s⟩, hreplay, hbind⟩ := bind_eq_some_iff.mp h
  obtain ⟨⟨s', returned⟩, hstep, hres⟩ := map_eq_some_iff.mp hbind
  exact ⟨trace, s, (_, returned), s', Run.of_replay_step hreplay, hstep, of_decide_eq_true hres⟩

end LockSetState

end MachVirtuTerm
