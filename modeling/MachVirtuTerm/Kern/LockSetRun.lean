import MachVirtuTerm.Kern.LockSetThreads

/-!
# Who owns a ulock

In a run in which nobody is aborted while a ulock is passed on to him, and nobody passes a ulock on
to a thread that has left or to himself, at most one thread has obtained a ulock, and it is the owner.
-/

open List Function

namespace MachVirtuTerm

open UlockThread UlockWait Or

variable {Thread Id : Type*}

/-- A thread is in a wait for a ulock. -/
def UlockThread.Engaged (x : UlockThread Thread Id) (wait : UlockWait) (id : Id) : Prop :=
  x.pc = .parked wait id ∨ x.pc = .asleep wait id ∨ x.pc = .woken wait id ∨ x.pc = .aborting wait id

/-- Who is about to wait or waits is in a wait. -/
theorem UlockThread.Parked.engaged {x : UlockThread Thread Id} {wait : UlockWait} {id : Id}
    (h : x.Parked wait id) : x.Engaged wait id :=
  h.imp (fun hpc => hpc) fun hasleep => inl hasleep.1

theorem UlockThread.Parked.sleeping {x : UlockThread Thread Id} {wait : UlockWait} {id : Id}
    (h : x.Parked wait id) : x.Sleeping :=
  h.imp (fun hpc => ⟨wait, id, hpc⟩) And.right

/-- The codes for a ulock are those of one that was obtained. -/
theorem obtainedCode_code (u : Ulock Thread) : obtainedCode u.code = true := by
  unfold Ulock.code
  split
  · decide
  · decide

namespace UlockWait

variable {wait wait' : UlockWait} {code : ℕ} {promised : Option ℕ}

theorem role_granted (hwait : wait ≠ .handoff) (hcode : obtainedCode code = true) :
    wait.role (some code) = .granted (wait = .accept) :=
  if_pos ⟨hwait, hcode⟩

theorem role_finished (h : ¬(wait ≠ .handoff ∧ obtainedCode code = true)) :
    wait.role (some code) = .finished :=
  if_neg h

/-- Who still waits was promised nothing. -/
theorem promised_of_waits (h : wait.role promised = .waits wait') : promised = none := by
  cases promised with
  | none => rfl
  | some code =>
    by_cases hgranted : wait ≠ .handoff ∧ obtainedCode code = true
    · rw [role_granted hgranted.1 hgranted.2] at h
      cases h
    · rw [role_finished hgranted] at h
      cases h

end UlockWait

section Role

variable [DecidableEq Id] {x : UlockThread Thread Id} {wait : UlockWait} {id : Id}

theorem UlockThread.role_of_idle (hpc : x.pc = .idle) (id : Id) : x.role id = .none := by
  unfold UlockThread.role
  rw [hpc]

/-- The role of a thread in a wait. -/
theorem UlockThread.Engaged.role (h : x.Engaged wait id) (id' : Id) :
    x.role id' = if id = id' then wait.role x.promised else .none := by
  unfold UlockThread.role
  rcases h with hpc | hpc | hpc | hpc
  · rw [hpc]
  · rw [hpc]
  · rw [hpc]
  · rw [hpc]

/-- A thread in a wait that was promised nothing waits as the ulock sees it. -/
theorem UlockThread.Engaged.role_waits (h : x.Engaged wait id) (hpromised : x.promised = none) :
    x.role id = .waits wait := by
  rw [h.role, if_pos rfl, hpromised]
  rfl

/-- The role of a thread that passes a ulock on. -/
theorem UlockThread.role_of_passes {pass : UlockPass} {target : Thread} {result : ℕ}
    (h : x.pc = .complete pass id target result ∨ x.pc = .clearWait pass id target result) (id' : Id) :
    x.role id' = if id = id' ∧ pass = .accept then .granted false else .none := by
  unfold UlockThread.role
  rcases h with hpc | hpc
  · rw [hpc]
  · rw [hpc]

end Role

/-- A thread that is in no wait that was asserted. -/
theorem UlockThread.ok_of_quiet {x : UlockThread Thread Id} (hwaiting : x.waiting = false)
    (hpromised : x.promised = none) (hasleep : ∀ wait id, x.pc ≠ .asleep wait id)
    (hwoken : ∀ wait id, x.pc ≠ .woken wait id)
    (hlinked : ∀ id, x.pc = .parked .acquire id → x.linked = true) : x.Ok := by
  refine ⟨fun htrue => ?_, fun _ id hpc => ?_, fun _ _ wait id hpc => ?_, fun _ _ _ => hpromised,
    fun hsome => absurd hpromised hsome⟩
  · exact absurd (hwaiting.symm.trans htrue) Bool.noConfusion
  · rcases hpc with hpc | hpc | hpc
    · exact hlinked id hpc
    · exact absurd hpc (hasleep _ _)
    · exact absurd hpc (hwoken _ _)
  · rcases hpc with hpc | hpc
    · exact absurd hpc (hasleep _ _)
    · exact absurd hpc (hwoken _ _)

/-- Who is in no call does not wait. -/
theorem UlockThread.Ok.waiting_of_idle {x : UlockThread Thread Id} (h : x.Ok)
    (hpc : ∀ wait id, x.pc ≠ .asleep wait id) : x.waiting = false := by
  by_contra hwaiting
  obtain ⟨wait, id, hasleep⟩ := h.waiting (Bool.not_eq_false _ ▸ hwaiting)
  exact hpc wait id hasleep

namespace LockSetState

/-- Steps that pass a ulock on only to threads that wait for it, and aborts only of threads that
nothing is passed on to. -/
def Orderly (s : LockSetState Thread Id) : LockSetAction Thread Id → Prop
  | .release t id => s.active = true → (s.ulock id).owner = some t →
    ∀ a ∈ (s.ulock id).blockedThreads.head?, (s.thread a).Parked .acquire id
  | .handoff t id => s.active = true → (s.ulock id).owner = some t →
    ∀ a ∈ (s.ulock id).hoThread, (s.thread a).Parked .accept id
  | .accept _ id => s.active = true → ∀ a ∈ (s.ulock id).hoThread, (s.ulock id).owner = some a →
    (s.thread a).Parked .handoff id
  | .clearWait t => ∀ a ∈ (s.thread t).passes, (s.thread a.1).waiting = true
  | .destroy => s.active = true →
    (∀ id ∈ s.heldUlocks, ∀ a ∈ (s.ulock id).blockedThreads, (s.thread a).waiting = true) ∧
      ∀ id ∈ s.handoffUlocks, ∀ a ∈ (s.ulock id).hoThread, (s.thread a).waiting = true ∧
        ((s.thread a).pc = .asleep .handoff id ∨ (s.thread a).pc = .asleep .accept id)
  | .threadAbort t => ∀ u, ∀ a ∈ (s.thread u).passes, a.1 ≠ t
  | _ => True

/-- What a return tells. -/
structure Returns (s : LockSetState Thread Id) (r : UlockReturn Thread Id)
    (s' : LockSetState Thread Id) : Prop where
  /-- A thread that has obtained a ulock is its owner. -/
  obtained : r.obtains = true → obtainedCode r.code = true → s'.active = true →
    (s'.ulock r.id).owner = some r.thread ∧ s'.obtained r.thread r.id = true
  /-- Another thread does not own the ulock, if it has not obtained it before. -/
  refused : r.obtains = true → obtainedCode r.code = false →
    s'.obtained r.thread r.id = s.obtained r.thread r.id ∧
      ((s'.ulock r.id).owner = some r.thread → s.obtained r.thread r.id = true)

/-- A call that is not to obtain a ulock. -/
theorem returns_of_not {s s' : LockSetState Thread Id} {r : UlockReturn Thread Id}
    (hr : r.obtains = false) : Returns s r s' :=
  ⟨fun htrue => absurd (hr.symm.trans htrue) Bool.noConfusion,
    fun htrue => absurd (hr.symm.trans htrue) Bool.noConfusion⟩

/-- The list of a lock set has one ulock more. -/
theorem nodup_append_singleton {id : Id} {l : List Id} (hl : l.Nodup) (hid : id ∉ l) :
    (l ++ [id]).Nodup :=
  (perm_append_singleton id l).nodup_iff.mpr (nodup_cons.mpr ⟨hid, hl⟩)

/-- The threads after one has passed a ulock on. -/
theorem promise_goTo_thread [DecidableEq Thread] (s : LockSetState Thread Id) {a t : Thread} (hne : a ≠ t) (code : ℕ)
    (pc : UlockPc Thread Id) : ((s.promise a code).goTo t pc).thread =
      update (update s.thread a { s.thread a with promised := some code }) t
        { s.thread t with pc := pc } := by
  unfold goTo promise setThread
  dsimp only
  rw [update_of_ne (Ne.symm hne)]

/-- A thread in a wait passes nothing on. -/
theorem passes_of_engaged {x : UlockThread Thread Id} {wait : UlockWait} {id : Id}
    (h : x.Engaged wait id) :
    x.passes = none := by
  unfold passes
  rcases h with hpc | hpc | hpc | hpc
  · rw [hpc]
  · rw [hpc]
  · rw [hpc]
  · rw [hpc]

section Inv

variable [DecidableEq Id]

/-- A lock set and its threads. -/
structure Inv (s : LockSetState Thread Id) : Prop where
  ulock : ∀ id, UlockOk s.active (s.ulock id) (id ∈ s.heldUlocks) (id ∈ s.handoffUlocks)
    (fun t => (s.thread t).role id) fun t => s.obtained t id
  heldNodup : s.heldUlocks.Nodup
  handoffNodup : s.handoffUlocks.Nodup
  threads : PromisesOk s.thread

variable {s s' : LockSetState Thread Id} {t u : Thread} {id : Id}

section

variable (h : s.Inv)

include h

/-- A thread in no call was promised nothing. -/
theorem Inv.promised_of_idle (ht : (s.thread t).pc = .idle) : (s.thread t).promised = none := by
  by_contra hsome
  rcases (h.threads.ok t).promised hsome with ⟨_, _, hpc⟩ | ⟨_, _, hpc⟩ | ⟨_, _, hpc⟩
  · exact absurd (ht.symm.trans hpc) fun hfalse => nomatch hfalse
  · exact absurd (ht.symm.trans hpc) fun hfalse => nomatch hfalse
  · exact absurd (ht.symm.trans hpc) fun hfalse => nomatch hfalse

/-- Nobody passes a ulock on to a thread that neither waits nor is about to. -/
theorem Inv.not_target (ht : (s.thread t).promised = none) (u : Thread) (result : ℕ) :
    (s.thread u).passes ≠ some (t, result) := by
  intro hpasses
  have hp := (h.threads.passes u t result hpasses).1
  rw [ht] at hp
  cases hp

/-- A thread in no call owns only what it has obtained. -/
theorem Inv.obtained_of_idle (ht : (s.thread t).pc = .idle)
    (howner : (s.ulock id).owner = some t) : s.obtained t id = true := by
  refine (((h.ulock id).thread t).owner howner).resolve_right ?_
  rintro ⟨accepts, hrole⟩
  rw [role_of_idle ht] at hrole
  cases hrole

/-- A thread that waits in a hand-off that the ulock knows of was promised nothing. -/
theorem Inv.promised_of_ho (hactive : s.active = true) {wait : UlockWait}
    (ht : (s.thread t).Engaged wait id) (hwait : wait ≠ .acquire)
    (hho : (s.ulock id).hoThread = some t) : (s.thread t).promised = none := by
  have hrole := ((h.ulock id).thread t).role
  rw [ht.role, if_pos rfl] at hrole
  cases hp : (s.thread t).promised with
  | none => rfl
  | some code =>
    rw [hp] at hrole
    by_cases hgranted : wait ≠ .handoff ∧ obtainedCode code = true
    · rw [role_granted hgranted.1 hgranted.2] at hrole
      refine absurd hho ((hrole hactive).2 ?_)
      cases wait with
      | acquire => exact absurd rfl hwait
      | handoff => exact absurd rfl hgranted.1
      | accept => rfl
    · rw [role_finished hgranted] at hrole
      exact absurd hho (hrole hactive)

/-- Threads change, but not what they are to the ulocks. -/
theorem Inv.with_threads {thread' : Thread → UlockThread Thread Id} (hthreads : PromisesOk thread')
    (hroles : ∀ id v, (thread' v).role id = (s.thread v).role id) :
    ({ s with thread := thread' } : LockSetState Thread Id).Inv :=
  ⟨fun id => (h.ulock id).congr Iff.rfl Iff.rfl (hroles id) fun _ => rfl, h.heldNodup,
    h.handoffNodup, hthreads⟩

/-- A thread that was woken is about to return what it was promised, or was promised nothing. -/
theorem Inv.woken {wait : UlockWait} (ht : (s.thread t).pc = .woken wait id) :
    (s.thread t).waiting = false ∧ (∀ u c, (s.thread u).passes ≠ some (t, c)) ∧
      ∀ c, (s.thread t).promised = some c →
        (s.thread t).linked = false ∧ (s.thread t).waitResult = c := by
  have hwaiting := (h.threads.ok t).waiting_of_idle (by simp [ht])
  have htarget : ∀ u c, (s.thread u).passes ≠ some (t, c) := by
    intro u c hpasses
    rcases (h.threads.passes u t c hpasses).2 with ⟨_, _, hpc⟩ | htrue
    · exact absurd (ht.symm.trans hpc) fun hfalse => nomatch hfalse
    · exact absurd (hwaiting.symm.trans htrue) Bool.noConfusion
  refine ⟨hwaiting, htarget, fun c hc => ?_⟩
  rcases h.threads.promised t c hc with ⟨u, hu⟩ | hdone
  · exact absurd hu (htarget u c)
  · exact ⟨hdone.2.2.1, hdone.2.2.2⟩

/-- Who waits, and was promised nothing, is among those whose operations are completed when the lock
set is destroyed. -/
theorem Inv.destroys_of_waits {wait : UlockWait}
    (hrole : (s.thread t).role id = .waits wait) : s.destroys t := by
  have hu := h.ulock id
  have hr := (hu.thread t).role
  rw [hrole] at hr
  cases wait with
  | acquire =>
    have howner := hu.blocked hr.1 (ne_nil_of_mem hr.2)
    exact inl ⟨id, (hu.held hr.1).1.mpr howner, hr.2⟩
  | handoff =>
    have hmem := (hu.handoff hr.1).mpr (inl (by rw [hr.2.1]; exact Option.some_ne_none t))
    exact inr ⟨id, hmem, hr.2.1⟩
  | accept =>
    have hmem := (hu.handoff hr.1).mpr (inl (by rw [hr.2]; exact Option.some_ne_none t))
    exact inr ⟨id, hmem, hr.2⟩

end

/-- A thread waits for a ulock that it was not passed, in a lock set that was not destroyed. -/
def StillWaits (s : LockSetState Thread Id) (t : Thread) (id : Id) : UlockWait → Prop
  | .acquire => s.active = true ∧ t ∈ (s.ulock id).blockedThreads
  | .handoff => s.active = true ∧ (s.ulock id).hoThread = some t ∧ (s.ulock id).owner = some t
  | .accept => s.active = true ∧ (s.ulock id).hoThread = some t

/-- Who waits, or is about to, is about to be woken or has something to wait for. -/
theorem Inv.still_waits (h : s.Inv) {wait : UlockWait} (ht : (s.thread t).Parked wait id) :
    (∃ u c, (s.thread u).passes = some (t, c)) ∨ s.StillWaits t id wait := by
  cases hp : (s.thread t).promised with
  | none =>
    have hr := ((h.ulock id).thread t).role
    rw [ht.engaged.role_waits hp] at hr
    refine inr ?_
    cases wait with
    | acquire => exact hr
    | handoff => exact hr
    | accept => exact hr
  | some c =>
    rcases h.threads.promised t c hp with ⟨u, hu⟩ | hdone
    · exact inl ⟨u, c, hu⟩
    · rcases ht with hpc | ⟨-, hwaiting⟩
      · rcases hdone.1 with ⟨_, _, hpc'⟩ | ⟨_, _, hpc'⟩
        · exact absurd (hpc.symm.trans hpc') fun hfalse => nomatch hfalse
        · exact absurd (hpc.symm.trans hpc') fun hfalse => nomatch hfalse
      · exact absurd (hwaiting.symm.trans hdone.2.1) Bool.noConfusion

/-- Only one ulock changes. -/
theorem Inv.ulock_of (h : s.Inv) (id : Id) (hactive : s'.active = s.active)
    (hid : UlockOk s'.active (s'.ulock id) (id ∈ s'.heldUlocks) (id ∈ s'.handoffUlocks)
      (fun t => (s'.thread t).role id) fun t => s'.obtained t id)
    (hulock : ∀ id', id' ≠ id → s'.ulock id' = s.ulock id')
    (hheld : ∀ id', id' ≠ id → (id' ∈ s.heldUlocks ↔ id' ∈ s'.heldUlocks))
    (hhandoff : ∀ id', id' ≠ id → (id' ∈ s.handoffUlocks ↔ id' ∈ s'.handoffUlocks))
    (hrole : ∀ id', id' ≠ id → ∀ t, (s'.thread t).role id' = (s.thread t).role id')
    (hobtained : ∀ id', id' ≠ id → ∀ t, s'.obtained t id' = s.obtained t id') (id' : Id) :
    UlockOk s'.active (s'.ulock id') (id' ∈ s'.heldUlocks) (id' ∈ s'.handoffUlocks)
      (fun t => (s'.thread t).role id') fun t => s'.obtained t id' := by
  by_cases hne : id' = id
  · subst hne
    exact hid
  · rw [hactive, hulock id' hne]
    exact (h.ulock id').congr (hheld id' hne) (hhandoff id' hne) (hrole id' hne) (hobtained id' hne)

/-- A call that changes nothing. -/
theorem Inv.refuse (h : s.Inv) (ht : (s.thread t).pc = .idle) {obtains : Bool} {code : ℕ}
    (hcode : obtainedCode code = false) :
    s.Inv ∧ ∀ r ∈ some (⟨t, id, obtains, code⟩ : UlockReturn Thread Id), Returns s r s := by
  refine ⟨h, fun r hr => ?_⟩
  cases hr
  refine ⟨fun _ htrue => ?_, fun _ _ => ⟨rfl, h.obtained_of_idle ht⟩⟩
  exact absurd (hcode.symm.trans htrue) Bool.noConfusion

end Inv

section Calls

variable [DecidableEq Thread] [DecidableEq Id] {s s' : LockSetState Thread Id} {t u v : Thread}
  {id id' : Id} {fixedPriority : Bool} {priority : Thread → ℕ}
  {result : LockSetState Thread Id × Option (UlockReturn Thread Id)}

section

variable (s : LockSetState Thread Id)

theorem setObtained_self (t : Thread) (id : Id) (value : Bool) :
    (s.setObtained t id value).obtained t id = value := by
  unfold setObtained
  dsimp only
  rw [update_self, update_self]

theorem setObtained_of_ne (id : Id) (value : Bool) (hvt : v ≠ t)
    (id' : Id) : (s.setObtained t id value).obtained v id' = s.obtained v id' := by
  unfold setObtained
  dsimp only
  rw [update_of_ne hvt]

theorem setObtained_other (t : Thread) (value : Bool) (hid : id' ≠ id)
    (v : Thread) : (s.setObtained t id value).obtained v id' = s.obtained v id' := by
  by_cases hvt : v = t
  · subst hvt
    unfold setObtained
    dsimp only
    rw [update_self, update_of_ne hid]
  · exact setObtained_of_ne s id value hvt id'

end

variable (h : s.Inv)

include h

section

variable (ht : (s.thread t).pc = .idle)

include ht

/-- A ulock that is free is taken. -/
theorem Inv.take (hactive : s.active = true) (hheld : ¬(s.ulock id).held = true) :
    (s.take t id).1.Inv ∧ ∀ r ∈ (s.take t id).2, Returns s r (s.take t id).1 := by
  have hu := h.ulock id
  rw [hactive] at hu
  have hnot : id ∉ s.heldUlocks := by
    intro hmem
    exact hheld ((hu.held rfl).2.mpr ((hu.held rfl).1.mp hmem))
  have hulock : (s.take t id).1.ulock id = { s.ulock id with
      owner := some t
      held := true } := update_self ..
  have hobtained : (s.take t id).1.obtained t id = true := by
    refine (setObtained_self _ t id _).trans ?_
    change (s.obtained t id || s.active) = true
    rw [hactive, Bool.or_true]
  refine ⟨⟨?_, ?_, h.handoffNodup, h.threads⟩, fun r hr => ?_⟩
  · refine h.ulock_of id rfl ?_ (fun id' hid => ?_) (fun id' hid => ?_) (fun _ _ => Iff.rfl)
      (fun _ _ _ => rfl) fun id' hid v => ?_
    · rw [hulock]
      change UlockOk s.active _ (id ∈ s.heldUlocks ++ [id]) (id ∈ s.handoffUlocks)
        (fun t => (s.thread t).role id) fun v => (s.take t id).1.obtained v id
      rw [hactive]
      refine hu.take hheld (role_of_idle ht id) (by simp) hobtained fun v hvt => ?_
      exact setObtained_of_ne _ id _ hvt id
    · exact update_of_ne hid ..
    · change id' ∈ s.heldUlocks ↔ id' ∈ s.heldUlocks ++ [id]
      simp [hid]
    · exact setObtained_other _ t _ hid v
  · exact nodup_append_singleton h.heldNodup hnot
  · cases hr
    refine ⟨fun _ _ _ => ⟨?_, hobtained⟩, fun _ hcode => ?_⟩
    · change ((s.take t id).1.ulock id).owner = some t
      rw [hulock]
    · unfold Ulock.code at hcode
      dsimp only at hcode
      split at hcode
      · cases hcode
      · cases hcode

/-- `lock_acquire`. -/
theorem Inv.acquire (hstep : s.acquire fixedPriority priority t id = some result) :
    result.1.Inv ∧ ∀ r ∈ result.2, Returns s r result.1 := by
  unfold LockSetState.acquire at hstep
  split at hstep
  · cases hstep
    exact h.refuse ht (by decide)
  rename_i hactive
  have hactive' : s.active = true := Bool.not_eq_false _ ▸ hactive
  split at hstep
  · cases hstep
  split at hstep
  · rename_i hheld
    cases hstep
    have hu := h.ulock id
    rw [hactive'] at hu
    have hpromised := h.promised_of_idle ht
    have hwaiting := (h.threads.ok t).waiting_of_idle (by simp [ht])
    have hpasses : (s.thread t).passes = none := by
      unfold passes
      rw [ht]
    refine ⟨⟨?_, h.heldNodup, h.handoffNodup, ?_⟩, fun r hr => nomatch hr⟩
    · have hself : ∀ x : UlockThread Thread Id, update s.thread t x t = x :=
        fun x => update_self ..
      refine h.ulock_of id rfl ?_ (fun id' hid => update_of_ne hid ..)
        (fun _ _ => Iff.rfl) (fun _ _ => Iff.rfl) (fun id' hid v => ?_) fun _ _ _ => rfl
      · dsimp only [setThread, setUlock]
        rw [update_self, hactive']
        refine hu.enqueue (perm_syncPolicyEnqueue ..) hheld (role_of_idle ht id) ?_ fun v hvt => ?_
        · rw [hself]
          exact UlockThread.Engaged.role_waits (inl rfl) hpromised
        · rw [update_of_ne hvt]
      · dsimp only [setThread, setUlock]
        by_cases hvt : v = t
        · rw [hvt, hself, role_of_idle ht, UlockThread.Engaged.role (inl rfl),
            if_neg (Ne.symm hid)]
        · rw [update_of_ne hvt]
    · refine h.threads.update ?_ hpasses rfl (h.not_target hpromised) hpromised
      refine ok_of_quiet hwaiting hpromised (fun _ _ hfalse => nomatch hfalse)
        (fun _ _ hfalse => nomatch hfalse) fun _ _ => rfl
  · rename_i hheld
    cases hstep
    exact h.take ht hactive' hheld

/-- `lock_try`. -/
theorem Inv.try (hstep : s.try t id = some result) :
    result.1.Inv ∧ ∀ r ∈ result.2, Returns s r result.1 := by
  unfold LockSetState.try at hstep
  split at hstep
  · cases hstep
    exact h.refuse ht (by decide)
  rename_i hactive
  split at hstep
  · cases hstep
  split at hstep
  · split at hstep
    · cases hstep
      exact h.refuse ht (by decide)
    · cases hstep
      exact h.refuse ht (by decide)
  · rename_i hheld
    cases hstep
    exact h.take ht (Bool.not_eq_false _ ▸ hactive) hheld

/-- `lock_make_stable` and `lock_make_unstable`. -/
theorem Inv.makeStable {stable : Bool} (hstep : s.makeStable t id stable = some result) :
    result.1.Inv ∧ ∀ r ∈ result.2, Returns s r result.1 := by
  unfold LockSetState.makeStable at hstep
  split at hstep
  · cases hstep
    exact h.refuse ht (by decide)
  split at hstep
  · cases hstep
  split at hstep
  · cases hstep
    exact h.refuse ht (by decide)
  · cases hstep
    refine ⟨⟨?_, h.heldNodup, h.handoffNodup, h.threads⟩, fun r hr => ?_⟩
    · refine h.ulock_of id rfl ?_ (fun id' hid => update_of_ne hid ..)
        (fun _ _ => Iff.rfl) (fun _ _ => Iff.rfl) (fun _ _ _ => rfl) fun _ _ _ => rfl
      dsimp only [setUlock]
      rw [update_self]
      exact (h.ulock id).setStable stable
    · cases hr
      exact returns_of_not rfl

end

/-- A thread in no call passes a ulock on to one that waits for it: what the threads are then. -/
theorem Inv.pass_threads (s₁ : LockSetState Thread Id) {a : Thread} {wait : UlockWait} {pass : UlockPass} {code : ℕ}
    (ht : (s.thread t).pc = .idle) (ha : (s.thread a).Parked wait id)
    (hpromised : (s.thread a).promised = none) (hs₁ : s₁.thread = s.thread)
    (hs' : s' = (s₁.promise a code).goTo t (.complete pass id a code)) :
    PromisesOk s'.thread ∧
      (∀ id', id' ≠ id → ∀ v, (s'.thread v).role id' = (s.thread v).role id') ∧
        (s'.thread a).role id = wait.role (some code) ∧
          (s'.thread t).role id = (if pass = .accept then .granted false else .none) ∧
            ∀ v, v ≠ a → v ≠ t → (s'.thread v).role id = (s.thread v).role id := by
  have hne : a ≠ t := by
    rintro rfl
    rcases ha with hpc | ⟨hpc, -⟩
    · exact absurd (ht.symm.trans hpc) fun hfalse => nomatch hfalse
    · exact absurd (ht.symm.trans hpc) fun hfalse => nomatch hfalse
  obtain ⟨hself, hgets, hother⟩ := @update_update Thread Id s.thread t
    { s.thread a with promised := some code } _ { s.thread t with pc := .complete pass id a code } a hne
  have hthread' := promise_goTo_thread s₁ hne code (.complete pass id a code)
  rw [hs₁] at hthread'
  rw [← hthread', ← hs'] at hself hgets hother
  have hpromisedt := h.promised_of_idle ht
  have hgetsrole : ∀ id', (s'.thread a).role id' = if id = id' then wait.role (some code) else .none := by
    intro id'
    rw [hgets]
    exact UlockThread.Engaged.role (x := { s.thread a with promised := some code }) ha.engaged id'
  have hselfrole : ∀ id', (s'.thread t).role id' =
      if id = id' ∧ pass = .accept then .granted false else .none := by
    intro id'
    rw [hself]
    exact role_of_passes (inl rfl) id'
  refine ⟨?_, fun id' hid v => ?_, ?_, ?_, fun v hva hvt => ?_⟩
  · have hpasses : (s.thread t).passes = none := by
      unfold passes
      rw [ht]
    have hwaiting := (h.threads.ok t).waiting_of_idle (by simp [ht])
    have hapasses : (s.thread a).passes = none := by
      unfold passes
      rcases ha with hpc | ⟨hpc, -⟩
      · rw [hpc]
      · rw [hpc]
    rw [hs', hthread']
    refine h.threads.promise hne hpasses (h.not_target hpromisedt) ?_ rfl
      (fun _ _ _ _ hfalse => nomatch hfalse) hpromisedt hapasses ha.sleeping hpromised
    exact ok_of_quiet hwaiting hpromisedt (fun _ _ hfalse => nomatch hfalse)
      (fun _ _ hfalse => nomatch hfalse) fun _ hfalse => nomatch hfalse
  · by_cases hvt : v = t
    · rw [hvt, hselfrole, if_neg fun heq => hid heq.1.symm, role_of_idle ht]
    by_cases hva : v = a
    · rw [hva, hgetsrole, if_neg (Ne.symm hid), ha.engaged.role, if_neg (Ne.symm hid)]
    · rw [hother v hvt hva]
  · rw [hgetsrole, if_pos rfl]
  · rw [hselfrole]
    simp only [true_and]
  · rw [hother v hvt hva]

/-- `lock_release`. -/
theorem Inv.release (ht : (s.thread t).pc = .idle) (horderly : s.Orderly (.release t id))
    (hstep : s.release t id = some result) :
    result.1.Inv ∧ ∀ r ∈ result.2, Returns s r result.1 := by
  unfold LockSetState.release at hstep
  split at hstep
  · cases hstep
    exact h.refuse ht (by decide)
  rename_i hactive
  have hactive' : s.active = true := Bool.not_eq_false _ ▸ hactive
  split at hstep
  · cases hstep
  split at hstep
  · cases hstep
    exact h.refuse ht (by decide)
  rename_i howner
  have howner' : (s.ulock id).owner = some t := not_not.mp howner
  have hu := h.ulock id
  rw [hactive'] at hu
  split at hstep
  · rename_i a rest hblocked
    cases hstep
    have hparked : (s.thread a).Parked .acquire id :=
      horderly hactive' howner' a (by rw [hblocked]; rfl)
    have hpromised : (s.thread a).promised = none := by
      have hrole := (hu.thread a).blocked (hblocked ▸ mem_cons_self ..)
      rw [hparked.engaged.role, if_pos rfl] at hrole
      exact promised_of_waits hrole
    obtain ⟨hthreads, hroles, hgets, hself, hother⟩ := h.pass_threads
      ((s.setUlock id _).setObtained t id false) ht hparked hpromised rfl rfl
    refine ⟨⟨?_, h.heldNodup, h.handoffNodup, hthreads⟩, fun r hr => nomatch hr⟩
    refine h.ulock_of id rfl ?_ (fun id' hid => update_of_ne hid ..)
      (fun _ _ => Iff.rfl) (fun _ _ => Iff.rfl) hroles fun id' hid v => setObtained_other s t false hid v
    dsimp only [goTo, promise, setThread, setUlock, setObtained]
    rw [update_self, hactive']
    refine hu.release howner' (role_of_idle ht id) hblocked ?_ (fun v hva => ?_) ?_ fun v hvt => ?_
    · exact hgets.trans (role_granted (fun hfalse => nomatch hfalse) (obtainedCode_code _))
    · by_cases hvt : v = t
      · rw [hvt, role_of_idle ht]
        exact hself
      · exact hother v hva hvt
    · exact setObtained_self s t id false
    · exact setObtained_of_ne s id false hvt id
  · rename_i hblocked
    cases hstep
    refine ⟨⟨?_, h.heldNodup.erase id, h.handoffNodup, h.threads⟩, fun r hr => ?_⟩
    · refine h.ulock_of id rfl ?_ (fun id' hid => update_of_ne hid ..)
        (fun id' hid => (mem_erase_of_ne hid).symm) (fun _ _ => Iff.rfl) (fun _ _ _ => rfl)
        fun id' hid v => setObtained_other s t false hid v
      dsimp only [setUlock, setObtained]
      rw [update_self, hactive']
      refine hu.free howner' (role_of_idle ht id) hblocked ?_ ?_ fun v hvt => ?_
      · intro hmem
        exact (h.heldNodup.mem_erase_iff.mp hmem).1 rfl
      · exact setObtained_self s t id false
      · exact setObtained_of_ne s id false hvt id
    · cases hr
      exact returns_of_not rfl

/-- A thread in no call starts to wait, and changes only what it is to one ulock. -/
theorem Inv.park_threads (s₁ : LockSetState Thread Id) {pc : UlockPc Thread Id}
    (ht : (s.thread t).pc = .idle ∨ (s.thread t).pc = .accepting id) (hs₁ : s₁.thread = s.thread)
    (hpc : pc = .accepting id ∨ pc = .parked .handoff id ∨ pc = .parked .accept id)
    (hs' : s' = s₁.goTo t pc) :
    PromisesOk s'.thread ∧
      (∀ id', id' ≠ id → ∀ v, (s'.thread v).role id' = (s.thread v).role id') ∧
        s'.thread t = { s.thread t with pc := pc } ∧ (s.thread t).promised = none ∧
          ∀ v, v ≠ t → s'.thread v = s.thread v := by
  have hpromised : (s.thread t).promised = none := by
    by_contra hsome
    have hpcs := (h.threads.ok t).promised hsome
    rcases ht with ht | ht
    · rw [ht] at hpcs
      exact absurd hpcs (by simp)
    · rw [ht] at hpcs
      exact absurd hpcs (by simp)
  have hwaiting : (s.thread t).waiting = false := by
    apply (h.threads.ok t).waiting_of_idle
    rcases ht with ht | ht
    · simp [ht]
    · simp [ht]
  have hpasses : (s.thread t).passes = none := by
    unfold passes
    rcases ht with ht | ht
    · rw [ht]
    · rw [ht]
  have hthread' : s'.thread = update s.thread t { s.thread t with pc := pc } := by
    rw [hs', goTo, setThread, hs₁]
  have hself : s'.thread t = { s.thread t with pc := pc } := by
    rw [hthread', update_self]
  have hother : ∀ v, v ≠ t → s'.thread v = s.thread v := by
    intro v hvt
    rw [hthread', update_of_ne hvt]
  refine ⟨?_, fun id' hid v => ?_, hself, hpromised, hother⟩
  · rw [hthread']
    refine h.threads.update ?_ hpasses ?_ (h.not_target hpromised) hpromised
    · refine ok_of_quiet (x := { s.thread t with pc := pc }) hwaiting hpromised ?_ ?_ ?_
      · rcases hpc with rfl | rfl | rfl
        · exact fun _ _ hfalse => nomatch hfalse
        · exact fun _ _ hfalse => nomatch hfalse
        · exact fun _ _ hfalse => nomatch hfalse
      · rcases hpc with rfl | rfl | rfl
        · exact fun _ _ hfalse => nomatch hfalse
        · exact fun _ _ hfalse => nomatch hfalse
        · exact fun _ _ hfalse => nomatch hfalse
      · rcases hpc with rfl | rfl | rfl
        · exact fun _ hfalse => nomatch hfalse
        · exact fun _ hfalse => nomatch hfalse
        · exact fun _ hfalse => nomatch hfalse
    · rcases hpc with rfl | rfl | rfl
      · rfl
      · rfl
      · rfl
  · by_cases hvt : v = t
    · have hbefore : (s.thread t).role id' = .none := by
        rcases ht with ht | ht
        · exact role_of_idle ht id'
        · unfold UlockThread.role
          rw [ht]
          exact if_neg (Ne.symm hid)
      rw [hvt, hbefore, hself]
      unfold UlockThread.role
      rcases hpc with rfl | rfl | rfl
      · exact if_neg (Ne.symm hid)
      · exact if_neg (Ne.symm hid)
      · exact if_neg (Ne.symm hid)
    · rw [hother v hvt]

/-- `lock_handoff`. -/
theorem Inv.handoff (ht : (s.thread t).pc = .idle) (horderly : s.Orderly (.handoff t id))
    (hstep : s.handoff t id = some result) :
    result.1.Inv ∧ ∀ r ∈ result.2, Returns s r result.1 := by
  unfold LockSetState.handoff at hstep
  split at hstep
  · cases hstep
    exact h.refuse ht (by decide)
  rename_i hactive
  have hactive' : s.active = true := Bool.not_eq_false _ ▸ hactive
  split at hstep
  · cases hstep
  rename_i hlocked
  have hlocked' : (s.ulock id).locked = false := Bool.not_eq_true _ ▸ hlocked
  split at hstep
  · cases hstep
    exact h.refuse ht (by decide)
  rename_i howner
  have howner' : (s.ulock id).owner = some t := not_not.mp howner
  have hu := h.ulock id
  rw [hactive'] at hu
  split at hstep
  · rename_i a hho
    cases hstep
    have hparked : (s.thread a).Parked .accept id := horderly hactive' howner' a hho
    have hpromised := h.promised_of_ho hactive' hparked.engaged (fun hfalse => nomatch hfalse) hho
    obtain ⟨hthreads, hroles, hgets, hself, hother⟩ := h.pass_threads
      (({ s with handoffUlocks := s.handoffUlocks.erase id }.setUlock id _).setObtained t id false) ht
      hparked hpromised rfl rfl
    refine ⟨⟨?_, h.heldNodup, h.handoffNodup.erase id, hthreads⟩, fun r hr => nomatch hr⟩
    refine h.ulock_of id rfl ?_ (fun id' hid => update_of_ne hid ..)
      (fun _ _ => Iff.rfl) (fun id' hid => (mem_erase_of_ne hid).symm) hroles
      fun id' hid v => setObtained_other s t false hid v
    dsimp only [goTo, promise, setThread, setUlock, setObtained]
    rw [update_self, hactive']
    refine hu.handOff howner' (role_of_idle ht id) hlocked' hho
      (hparked.engaged.role_waits hpromised) ?_ (fun v hva => ?_) ?_ (fun v hvt => ?_) fun hmem => ?_
    · exact hgets.trans (role_granted (fun hfalse => nomatch hfalse) (obtainedCode_code _))
    · by_cases hvt : v = t
      · rw [hvt, role_of_idle ht]
        exact hself
      · exact hother v hva hvt
    · exact setObtained_self s t id false
    · exact setObtained_of_ne s id false hvt id
    · exact (h.handoffNodup.mem_erase_iff.mp hmem).1 rfl
  · rename_i hho
    cases hstep
    obtain ⟨hthreads, hroles, hself, hpromised, hother⟩ := h.park_threads
      ({ s with handoffUlocks := s.handoffUlocks ++ [id] }.setUlock id _) (inl ht) rfl
      (inr (inl rfl)) rfl
    have hnot : id ∉ s.handoffUlocks := by
      intro hmem
      rcases (hu.handoff rfl).mp hmem with hne | htrue
      · exact hne hho
      · exact hlocked htrue
    refine ⟨⟨?_, h.heldNodup, nodup_append_singleton h.handoffNodup hnot, hthreads⟩,
      fun r hr => nomatch hr⟩
    refine h.ulock_of id rfl ?_ (fun id' hid => update_of_ne hid ..)
      (fun _ _ => Iff.rfl) (fun id' hid => ?_) hroles fun _ _ _ => rfl
    · dsimp only [goTo, setThread, setUlock]
      rw [update_self, hactive']
      refine hu.parkHandoff howner' (role_of_idle ht id) hlocked' hho ?_ (fun v hvt => ?_)
        (mem_append_right _ (mem_singleton_self id))
      · refine (congrArg (fun x => x.role id) hself).trans ?_
        exact UlockThread.Engaged.role_waits (inl rfl) hpromised
      · exact congrArg (fun x => x.role id) (hother v hvt)
    · change id' ∈ s.handoffUlocks ↔ id' ∈ s.handoffUlocks ++ [id]
      simp [hid]

/-- `lock_handoff_accept`. -/
theorem Inv.accept (ht : (s.thread t).pc = .idle) (horderly : s.Orderly (.accept t id))
    (hstep : s.accept t id = some result) :
    result.1.Inv ∧ ∀ r ∈ result.2, Returns s r result.1 := by
  unfold LockSetState.accept at hstep
  split at hstep
  · cases hstep
    exact h.refuse ht (by decide)
  rename_i hactive
  have hactive' : s.active = true := Bool.not_eq_false _ ▸ hactive
  split at hstep
  · cases hstep
  rename_i hlocked
  have hlocked' : (s.ulock id).locked = false := Bool.not_eq_true _ ▸ hlocked
  have hu := h.ulock id
  rw [hactive'] at hu
  split at hstep
  · rename_i a hho
    split at hstep
    · cases hstep
      exact h.refuse ht (by decide)
    rename_i howner
    have howner' : (s.ulock id).owner = some a := not_not.mp howner
    cases hstep
    have hparked : (s.thread a).Parked .handoff id := horderly hactive' a hho howner'
    have hpromised := h.promised_of_ho hactive' hparked.engaged (fun hfalse => nomatch hfalse) hho
    obtain ⟨hthreads, hroles, hgets, hself, hother⟩ := h.pass_threads
      (({ s with handoffUlocks := s.handoffUlocks.erase id }.setUlock id _).setObtained a id false) ht
      hparked hpromised rfl rfl
    refine ⟨⟨?_, h.heldNodup, h.handoffNodup.erase id, hthreads⟩, fun r hr => nomatch hr⟩
    refine h.ulock_of id rfl ?_ (fun id' hid => update_of_ne hid ..)
      (fun _ _ => Iff.rfl) (fun id' hid => (mem_erase_of_ne hid).symm) hroles
      fun id' hid v => setObtained_other s a false hid v
    dsimp only [goTo, promise, setThread, setUlock, setObtained]
    rw [update_self, hactive']
    refine hu.accept howner' (role_of_idle ht id) hlocked' hho
      (hparked.engaged.role_waits hpromised) ?_ ?_ (fun v hva hvt => hother v hva hvt) ?_
      (fun v hva => ?_) fun hmem => ?_
    · exact hgets.trans (role_finished fun hboth => hboth.1 rfl)
    · exact hself
    · exact setObtained_self s a id false
    · exact setObtained_of_ne s id false hva id
    · exact (h.handoffNodup.mem_erase_iff.mp hmem).1 rfl
  · rename_i hho
    cases hstep
    obtain ⟨hthreads, hroles, hself, hpromised, hother⟩ := h.park_threads
      ({ s with handoffUlocks := s.handoffUlocks ++ [id] }.setUlock id _) (inl ht) rfl
      (inl rfl) rfl
    have hnot : id ∉ s.handoffUlocks := by
      intro hmem
      rcases (hu.handoff rfl).mp hmem with hne | htrue
      · exact hne hho
      · exact hlocked htrue
    refine ⟨⟨?_, h.heldNodup, nodup_append_singleton h.handoffNodup hnot, hthreads⟩,
      fun r hr => nomatch hr⟩
    refine h.ulock_of id rfl ?_ (fun id' hid => update_of_ne hid ..)
      (fun _ _ => Iff.rfl) (fun id' hid => ?_) hroles fun _ _ _ => rfl
    · dsimp only [goTo, setThread, setUlock]
      rw [update_self, hactive']
      refine hu.startAccept (role_of_idle ht id) hlocked' hho ?_ (fun v hvt => ?_)
        (mem_append_right _ (mem_singleton_self id))
      · refine (congrArg (fun x => x.role id) hself).trans ?_
        exact if_pos rfl
      · exact congrArg (fun x => x.role id) (hother v hvt)
    · change id' ∈ s.handoffUlocks ↔ id' ∈ s.handoffUlocks ++ [id]
      simp [hid]

/-- A thread that accepts sets `ho_thread`. -/
theorem Inv.setHoThread (ht : (s.thread t).pc = .accepting id)
    (hs' : s' = (s.setUlock id { s.ulock id with
      hoThread := some t
      locked := false }).goTo t (.parked .accept id)) : s'.Inv := by
  have hu := h.ulock id
  have hrole : (s.thread t).role id = .accepting := by
    unfold UlockThread.role
    rw [ht]
    exact if_pos rfl
  obtain ⟨hthreads, hroles, hself, hpromised, hother⟩ := h.park_threads (s.setUlock id _) (inr ht) rfl
    (inr (inr rfl)) hs'
  subst hs'
  refine ⟨?_, h.heldNodup, h.handoffNodup, hthreads⟩
  refine h.ulock_of id rfl ?_ (fun id' hid => update_of_ne hid ..)
    (fun _ _ => Iff.rfl) (fun _ _ => Iff.rfl) hroles fun _ _ _ => rfl
  dsimp only [goTo, setThread, setUlock]
  rw [update_self]
  refine hu.setHoThread hrole ?_ fun v hvt => ?_
  · refine (congrArg (fun x => x.role id) hself).trans ?_
    exact UlockThread.Engaged.role_waits (inl rfl) hpromised
  · exact congrArg (fun x => x.role id) (hother v hvt)

/-- One thread changes, but not what it is to the ulocks. -/
theorem Inv.with_thread {x : UlockThread Thread Id} (hthreads : PromisesOk (update s.thread t x))
    (hrole : ∀ id, x.role id = (s.thread t).role id) : (s.setThread t x).Inv := by
  refine h.with_threads hthreads fun id v => ?_
  by_cases hvt : v = t
  · rw [hvt, update_self, hrole]
  · rw [update_of_ne hvt]

variable {wait : UlockWait}

/-- A thread asserts that it waits. -/
theorem Inv.assertWait (ht : (s.thread t).pc = .parked wait id) : (s.setThread t { s.thread t with
      pc := .asleep wait id
      waiting := true }).Inv := by
  have hold := h.threads.ok t
  have hengaged : (s.thread t).Engaged wait id := inl ht
  apply h.with_thread
  · refine h.threads.advance ?_ (passes_of_engaged hengaged) rfl rfl rfl (fun _ _ => inr rfl)
      fun result hdone => ?_
    · refine ⟨fun _ => ⟨wait, id, rfl⟩, fun hpromised id' hpc => ?_, (fun _ hfalse => nomatch hfalse),
        (fun _ _ hfalse => nomatch hfalse), fun _ => inr (inl ⟨wait, id, rfl⟩)⟩
      apply hold.linked hpromised id'
      rcases hpc with hpc | hpc | hpc
      · cases hpc
      · cases hpc
        exact inl ht
      · cases hpc
    · rcases hdone.1 with ⟨_, _, hpc⟩ | ⟨_, _, hpc⟩
      · exact absurd (ht.symm.trans hpc) fun hfalse => nomatch hfalse
      · exact absurd (ht.symm.trans hpc) fun hfalse => nomatch hfalse
  · intro id'
    rw [hengaged.role]
    exact UlockThread.Engaged.role (inr (inl rfl)) id'

/-- `thread_block` returns. -/
theorem Inv.wake (ht : (s.thread t).pc = .asleep wait id)
    (hwaiting : (s.thread t).waiting = false) : (s.goTo t (.woken wait id)).Inv := by
  have hold := h.threads.ok t
  have hengaged : (s.thread t).Engaged wait id := inr (inl ht)
  apply h.with_thread
  · refine h.threads.advance ?_ (passes_of_engaged hengaged) rfl rfl rfl (fun _ hsleeping => ?_)
      fun result hdone => ⟨inr ⟨wait, id, rfl⟩, hdone.2⟩
    · refine ⟨fun htrue => ?_, fun hpromised id' hpc => ?_, fun hpromised _ wait' id' hpc => ?_,
        (fun _ _ hfalse => nomatch hfalse), fun _ => inr (inr ⟨wait, id, rfl⟩)⟩
      · exact absurd (hwaiting.symm.trans htrue) Bool.noConfusion
      · apply hold.linked hpromised id'
        rcases hpc with hpc | hpc | hpc
        · cases hpc
        · cases hpc
        · cases hpc
          exact inr (inl ht)
      · exact hold.interrupted hpromised hwaiting wait id (inl ht)
    · rcases hsleeping with ⟨_, _, hpc⟩ | htrue
      · exact absurd (ht.symm.trans hpc) fun hfalse => nomatch hfalse
      · exact absurd (hwaiting.symm.trans htrue) Bool.noConfusion
  · intro id'
    rw [hengaged.role]
    exact UlockThread.Engaged.role (inr (inr (inl rfl))) id'

/-- A thread finds that its operation was aborted. -/
theorem Inv.testAborted (ht : (s.thread t).pc = .woken wait id)
    (hlinked : (s.thread t).linked = true) : (s.goTo t (.aborting wait id)).Inv := by
  obtain ⟨hwaiting, htarget, hdone⟩ := h.woken ht
  have hengaged : (s.thread t).Engaged wait id := inr (inr (inl ht))
  have hpromised : (s.thread t).promised = none := by
    cases hp : (s.thread t).promised with
    | none => rfl
    | some c => exact absurd ((hdone c hp).1.symm.trans hlinked) Bool.noConfusion
  apply h.with_thread
  · refine h.threads.update ?_ (passes_of_engaged hengaged) rfl htarget hpromised
    exact ok_of_quiet hwaiting hpromised (fun _ _ hfalse => nomatch hfalse)
      (fun _ _ hfalse => nomatch hfalse) fun _ hfalse => nomatch hfalse
  · intro id'
    rw [hengaged.role]
    exact UlockThread.Engaged.role (inr (inr (inr rfl))) id'

/-- A thread in a wait leaves. -/
theorem Inv.leave_threads (ht : (s.thread t).Engaged wait id)
    (hwaiting : (s.thread t).waiting = false)
    (htarget : ∀ u c, (s.thread u).passes ≠ some (t, c)) :
    PromisesOk (s.leave t).thread ∧
      (∀ id', id' ≠ id → ∀ v, ((s.leave t).thread v).role id' = (s.thread v).role id') ∧
        ((s.leave t).thread t).pc = .idle ∧ ((s.leave t).thread t).role id = .none ∧
          ∀ v, v ≠ t → ((s.leave t).thread v).role id = (s.thread v).role id := by
  have hself : (s.leave t).thread t = { s.thread t with
      pc := .idle
      promised := none } := update_self ..
  have hother : ∀ v, v ≠ t → (s.leave t).thread v = s.thread v :=
    fun v hvt => update_of_ne hvt ..
  refine ⟨?_, fun id' hid v => ?_, by rw [hself], ?_, fun v hvt => by rw [hother v hvt]⟩
  · refine h.threads.update ?_ (passes_of_engaged ht) rfl htarget rfl
    exact ok_of_quiet hwaiting rfl (fun _ _ hfalse => nomatch hfalse)
      (fun _ _ hfalse => nomatch hfalse) fun _ hfalse => nomatch hfalse
  · by_cases hvt : v = t
    · rw [hvt, hself, ht.role, if_neg (Ne.symm hid)]
      rfl
    · rw [hother v hvt]
  · rw [hself]
    rfl

end Calls

end LockSetState

end MachVirtuTerm
