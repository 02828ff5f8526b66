import MachVirtuTerm.Kern.Semaphore

/-!
# Lock sets

A ulock is handed on while it is held: by a release to the first thread in its queue, and by a
hand-off to the thread that accepts it. A thread enters the queue, or the hand-off field of the
ulock, before it asserts that it waits; who passes the ulock on to it marks the operation complete
and ends its wait after the ulock was unlocked.
-/

open Function

namespace MachVirtuTerm

def kernInvalidRight : ℕ := 17

def kernAlreadyWaiting : ℕ := 30

def kernLockSetDestroyed : ℕ := 38

def kernLockUnstable : ℕ := 39

def kernLockOwned : ℕ := 40

def kernLockOwnedSelf : ℕ := 41

/-- What a thread waits for. -/
inductive UlockWait
  /-- In `lock_acquire`. -/
  | acquire
  /-- In `lock_handoff`. -/
  | handoff
  /-- In `lock_handoff_accept`. -/
  | accept
  deriving DecidableEq

/-- What passes a ulock on. -/
inductive UlockPass
  | release
  | handoff
  | accept
  deriving DecidableEq

/-- Where a thread is in the calls. -/
inductive UlockPc (Thread Id : Type*)
  | idle
  /-- In `lock_handoff_accept`, the lock set unlocked and the ulock still locked. -/
  | accepting (id : Id)
  /-- About to assert a wait. -/
  | parked (wait : UlockWait) (id : Id)
  /-- In `thread_block`, or about to call it. -/
  | asleep (wait : UlockWait) (id : Id)
  /-- About to look whether the operation was aborted. -/
  | woken (wait : UlockWait) (id : Id)
  /-- It was. -/
  | aborting (wait : UlockWait) (id : Id)
  /-- About to mark the operation of a thread complete. -/
  | complete (pass : UlockPass) (id : Id) (target : Thread) (result : ℕ)
  /-- About to end its wait. -/
  | clearWait (pass : UlockPass) (id : Id) (target : Thread) (result : ℕ)
  deriving DecidableEq

/-- What a lock set sees of a thread. -/
structure UlockThread (Thread Id : Type*) where
  pc : UlockPc Thread Id
  /-- `wait_link.prev` is not null. -/
  linked : Bool
  /-- `TH_WAIT`. -/
  waiting : Bool
  waitResult : ℕ
  /-- What the operation that it waits in is to return, once that was decided. -/
  promised : Option ℕ
  deriving DecidableEq

/-- `struct ulock`. -/
structure Ulock (Thread : Type*) where
  owner : Option Thread
  stable : Bool
  /-- The state is `ULOCK_HELD`. -/
  held : Bool
  hoThread : Option Thread
  blockedCount : ℤ
  blockedThreads : List Thread
  /-- The ulock is kept locked after the lock set was unlocked. -/
  locked : Bool
  deriving DecidableEq

/-- `struct lock_set`, and the threads. -/
structure LockSetState (Thread Id : Type*) where
  active : Bool
  heldUlocks : List Id
  handoffUlocks : List Id
  ulock : Id → Ulock Thread
  thread : Thread → UlockThread Thread Id
  /-- The ulocks that the threads have obtained, and not released, handed off or lost. -/
  obtained : Thread → Id → Bool

/-- The calls, in sections, and aborts of threads. -/
inductive LockSetAction (Thread Id : Type*)
  /-- `lock_acquire`. -/
  | acquire (t : Thread) (id : Id)
  /-- `lock_try`. -/
  | «try» (t : Thread) (id : Id)
  /-- `lock_release`. -/
  | release (t : Thread) (id : Id)
  /-- `lock_make_stable`. -/
  | makeStable (t : Thread) (id : Id)
  /-- `lock_make_unstable`. -/
  | makeUnstable (t : Thread) (id : Id)
  /-- `lock_handoff`. -/
  | handoff (t : Thread) (id : Id)
  /-- `lock_handoff_accept`. -/
  | accept (t : Thread) (id : Id)
  /-- A thread that accepts sets `ho_thread` and unlocks the ulock. -/
  | setHoThread (t : Thread)
  | assertWait (t : Thread)
  /-- `thread_block` returns. -/
  | wake (t : Thread)
  /-- `LOCK_OPERATION_ABORTED`. -/
  | test (t : Thread)
  /-- A thread whose operation was aborted leaves. -/
  | abort (t : Thread)
  /-- `LOCK_OPERATION_COMPLETE`. -/
  | complete (t : Thread)
  | clearWait (t : Thread)
  /-- `lock_set_destroy` by the owner of the lock set. -/
  | destroy
  /-- A thread is aborted. -/
  | threadAbort (t : Thread)
  deriving DecidableEq

/-- A return from a call. -/
structure UlockReturn (Thread Id : Type*) where
  thread : Thread
  id : Id
  /-- The call is `lock_acquire`, `lock_try` or `lock_handoff_accept`. -/
  obtains : Bool
  code : ℕ
  deriving DecidableEq

/-- The codes with which a ulock was obtained. -/
def obtainedCode (code : ℕ) : Bool := code = kernSuccess ∨ code = kernLockUnstable

/-- The wait of a thread is ended. -/
def UlockThread.endWait {Thread Id : Type*} (x : UlockThread Thread Id) (result : ℕ) :
    UlockThread Thread Id :=
  if x.waiting then
    { x with
      waiting := false
      waitResult := result }
  else x

/-- The code for a ulock that was obtained. -/
def Ulock.code {Thread : Type*} (u : Ulock Thread) : ℕ :=
  if u.stable then kernSuccess else kernLockUnstable

namespace LockSetState

variable {Thread Id : Type*} [DecidableEq Thread] [DecidableEq Id]
  (fixedPriority : Bool) (priority : Thread → ℕ) (s : LockSetState Thread Id)

variable (t : Thread)

/-- A thread changes. -/
def setThread (x : UlockThread Thread Id) : LockSetState Thread Id :=
  { s with thread := update s.thread t x }

/-- A thread goes on elsewhere. -/
def goTo (pc : UlockPc Thread Id) : LockSetState Thread Id :=
  s.setThread t { s.thread t with pc := pc }

/-- A thread leaves a call. -/
def leave : LockSetState Thread Id :=
  s.setThread t { s.thread t with
    pc := .idle
    promised := none }

/-- It is decided what the operation that a thread waits in is to return. -/
def promise (result : ℕ) : LockSetState Thread Id :=
  s.setThread t { s.thread t with promised := some result }

variable (id : Id)

/-- A ulock changes. -/
def setUlock (u : Ulock Thread) : LockSetState Thread Id :=
  { s with ulock := update s.ulock id u }

/-- A thread has obtained a ulock, or has it no more. -/
def setObtained (value : Bool) : LockSetState Thread Id :=
  { s with obtained := update s.obtained t (update (s.obtained t) id value) }

/-- A thread that has obtained a ulock, unless the lock set is gone. -/
def obtain : LockSetState Thread Id :=
  s.setObtained t id (s.obtained t id || s.active)

/-- A ulock that is not held is taken. -/
def take : LockSetState Thread Id × Option (UlockReturn Thread Id) :=
  (({ s with heldUlocks := s.heldUlocks ++ [id] }.setUlock id { s.ulock id with
      owner := some t
      held := true }).obtain t id,
    some ⟨t, id, true, (s.ulock id).code⟩)

/-- `lock_acquire` up to where it unlocks the ulock. -/
def acquire : Option (LockSetState Thread Id × Option (UlockReturn Thread Id)) :=
  if s.active = false then some (s, some ⟨t, id, true, kernLockSetDestroyed⟩)
  else if (s.ulock id).locked then none
  else if (s.ulock id).held then
    some ((s.setUlock id { s.ulock id with
        blockedThreads :=
          syncPolicyEnqueue fixedPriority priority (s.ulock id).blockedThreads t
        blockedCount := (s.ulock id).blockedCount + 1 }).setThread t { s.thread t with
          pc := .parked .acquire id
          linked := true }, none)
  else some (s.take t id)

/-- `lock_try`. -/
def «try» : Option (LockSetState Thread Id × Option (UlockReturn Thread Id)) :=
  if s.active = false then some (s, some ⟨t, id, true, kernLockSetDestroyed⟩)
  else if (s.ulock id).locked then none
  else if (s.ulock id).held then
    if (s.ulock id).owner = some t then some (s, some ⟨t, id, true, kernLockOwnedSelf⟩)
    else some (s, some ⟨t, id, true, kernLockOwned⟩)
  else some (s.take t id)

/-- `lock_release_internal` up to where it unlocks the ulock. -/
def release : Option (LockSetState Thread Id × Option (UlockReturn Thread Id)) :=
  if s.active = false then some (s, some ⟨t, id, false, kernLockSetDestroyed⟩)
  else if (s.ulock id).locked then none
  else if (s.ulock id).owner ≠ some t then some (s, some ⟨t, id, false, kernInvalidRight⟩)
  else
    match (s.ulock id).blockedThreads with
    | acqThread :: blockedThreads =>
      some ((((s.setUlock id { s.ulock id with
        owner := some acqThread
        blockedThreads := blockedThreads
        blockedCount := (s.ulock id).blockedCount - 1 }).setObtained t id false).promise acqThread
          (s.ulock id).code).goTo t (.complete .release id acqThread (s.ulock id).code), none)
    | [] =>
      some (({ s with heldUlocks := s.heldUlocks.erase id }.setUlock id { s.ulock id with
        owner := none
        held := false }).setObtained t id false, some ⟨t, id, false, kernSuccess⟩)

/-- `lock_make_stable` and `lock_make_unstable`. -/
def makeStable (stable : Bool) : Option (LockSetState Thread Id × Option (UlockReturn Thread Id)) :=
  if s.active = false then some (s, some ⟨t, id, false, kernLockSetDestroyed⟩)
  else if (s.ulock id).locked then none
  else if (s.ulock id).owner ≠ some t then some (s, some ⟨t, id, false, kernInvalidRight⟩)
  else
    some (s.setUlock id { s.ulock id with stable := stable }, some ⟨t, id, false, kernSuccess⟩)

/-- `lock_handoff` up to where it unlocks the ulock. -/
def handoff : Option (LockSetState Thread Id × Option (UlockReturn Thread Id)) :=
  if s.active = false then some (s, some ⟨t, id, false, kernLockSetDestroyed⟩)
  else if (s.ulock id).locked then none
  else if (s.ulock id).owner ≠ some t then some (s, some ⟨t, id, false, kernInvalidRight⟩)
  else
    match (s.ulock id).hoThread with
    | some acThread =>
      some (((({ s with handoffUlocks := s.handoffUlocks.erase id }.setUlock id { s.ulock id with
        owner := some acThread
        hoThread := none }).setObtained t id false).promise acThread (s.ulock id).code).goTo t
          (.complete .handoff id acThread (s.ulock id).code), none)
    | none =>
      some (({ s with handoffUlocks := s.handoffUlocks ++ [id] }.setUlock id { s.ulock id with
        hoThread := some t }).goTo t (.parked .handoff id), none)

/-- `lock_handoff_accept` up to where it unlocks the lock set, or the ulock if a thread hands it
off. -/
def accept : Option (LockSetState Thread Id × Option (UlockReturn Thread Id)) :=
  if s.active = false then some (s, some ⟨t, id, true, kernLockSetDestroyed⟩)
  else if (s.ulock id).locked then none
  else
    match (s.ulock id).hoThread with
    | some hoThread =>
      if (s.ulock id).owner ≠ some hoThread then some (s, some ⟨t, id, true, kernAlreadyWaiting⟩)
      else
        some (((({ s with handoffUlocks := s.handoffUlocks.erase id }.setUlock id { s.ulock id with
          owner := some t
          hoThread := none }).setObtained hoThread id false).promise hoThread kernSuccess).goTo t
            (.complete .accept id hoThread kernSuccess), none)
    | none =>
      some (({ s with handoffUlocks := s.handoffUlocks ++ [id] }.setUlock id { s.ulock id with
        locked := true }).goTo t (.accepting id), none)

/-- A thread whose operation was aborted leaves. -/
def abort (wait : UlockWait) (id : Id) : Option (LockSetState Thread Id) :=
  if wait = .acquire then
    if (s.ulock id).locked = false ∧ t ∈ (s.ulock id).blockedThreads then
      some ((s.setUlock id { s.ulock id with
        blockedThreads := (s.ulock id).blockedThreads.erase t
        blockedCount := (s.ulock id).blockedCount - 1 }).leave t)
    else none
  else if s.active then
    if (s.ulock id).locked = false ∧ id ∈ s.handoffUlocks then
      some (({ s with handoffUlocks := s.handoffUlocks.erase id }.setUlock id { s.ulock id with
        hoThread := none }).leave t)
    else none
  else some (s.leave t)

/-- The threads whose operations `lock_set_destroy` completes: those in the queues of the ulocks
that are held, and those in a hand-off. -/
def destroys : Prop :=
  (∃ id ∈ s.heldUlocks, t ∈ (s.ulock id).blockedThreads) ∨
    ∃ id ∈ s.handoffUlocks, (s.ulock id).hoThread = some t

instance (t : Thread) : Decidable (s.destroys t) := inferInstanceAs (Decidable (_ ∨ _))

/-- `lock_set_destroy` while it has the lock set locked. -/
def destroy : Option (LockSetState Thread Id) :=
  if s.active = false then some s
  else if (∀ id ∈ s.heldUlocks, (s.ulock id).locked = false) ∧
      ∀ id ∈ s.handoffUlocks, (s.ulock id).hoThread ≠ none then
    some {
      active := false
      heldUlocks := []
      handoffUlocks := []
      ulock := fun id =>
        if id ∈ s.heldUlocks then
          { s.ulock id with
            owner := none
            blockedThreads := []
            blockedCount := (s.ulock id).blockedCount - (s.ulock id).blockedThreads.length }
        else s.ulock id
      thread := fun t =>
        if s.destroys t then
          { (s.thread t).endWait kernLockSetDestroyed with
            linked := false
            promised := some kernLockSetDestroyed }
        else s.thread t
      obtained := fun _ _ => false }
  else none

/-- A thread finds that its operation is complete. -/
def completed (wait : UlockWait) (id : Id) :
    LockSetState Thread Id × Option (UlockReturn Thread Id) :=
  let result := (s.thread t).waitResult
  if wait = .handoff then (s.leave t, some ⟨t, id, false, result⟩)
  else if obtainedCode result then ((s.leave t).obtain t id, some ⟨t, id, true, result⟩)
  else (s.leave t, some ⟨t, id, true, result⟩)

/-- A thread that passed a ulock on ends the wait of the other. -/
def clearWait (pass : UlockPass) (id : Id) (target : Thread) (result : ℕ) :
    LockSetState Thread Id × Option (UlockReturn Thread Id) :=
  let s := (s.setThread target ((s.thread target).endWait result)).goTo t .idle
  match pass with
  | .accept => (s.obtain t id, some ⟨t, id, true, (s.ulock id).code⟩)
  | _ => (s, some ⟨t, id, false, kernSuccess⟩)

/-- One section. -/
def step : LockSetAction Thread Id →
    Option (LockSetState Thread Id × Option (UlockReturn Thread Id))
  | .acquire t id => if (s.thread t).pc = .idle then s.acquire fixedPriority priority t id else none
  | .try t id => if (s.thread t).pc = .idle then s.try t id else none
  | .release t id => if (s.thread t).pc = .idle then s.release t id else none
  | .makeStable t id => if (s.thread t).pc = .idle then s.makeStable t id true else none
  | .makeUnstable t id => if (s.thread t).pc = .idle then s.makeStable t id false else none
  | .handoff t id => if (s.thread t).pc = .idle then s.handoff t id else none
  | .accept t id => if (s.thread t).pc = .idle then s.accept t id else none
  | .setHoThread t =>
    match (s.thread t).pc with
    | .accepting id =>
      some ((s.setUlock id { s.ulock id with
        hoThread := some t
        locked := false }).goTo t (.parked .accept id), none)
    | _ => none
  | .assertWait t =>
    match (s.thread t).pc with
    | .parked wait id =>
      some (s.setThread t { s.thread t with
        pc := .asleep wait id
        waiting := true }, none)
    | _ => none
  | .wake t =>
    match (s.thread t).pc with
    | .asleep wait id =>
      if (s.thread t).waiting = false then some (s.goTo t (.woken wait id), none) else none
    | _ => none
  | .test t =>
    match (s.thread t).pc with
    | .woken wait id =>
      if (s.thread t).linked then some (s.goTo t (.aborting wait id), none)
      else some (s.completed t wait id)
    | _ => none
  | .abort t =>
    match (s.thread t).pc with
    | .aborting wait id =>
      (s.abort t wait id).map (·, some ⟨t, id, wait ≠ .handoff, kernAborted⟩)
    | _ => none
  | .complete t =>
    match (s.thread t).pc with
    | .complete pass id target result =>
      some ((s.setThread target { s.thread target with linked := false }).goTo t
        (.clearWait pass id target result), none)
    | _ => none
  | .clearWait t =>
    match (s.thread t).pc with
    | .clearWait pass id target result => some (s.clearWait t pass id target result)
    | _ => none
  | .destroy => s.destroy.map (·, none)
  | .threadAbort t =>
    if (s.thread t).waiting then
      some (s.setThread t ((s.thread t).endWait threadInterrupted), none)
    else none

/-- One section, labelled with what was done and what was returned. -/
def Step (s : LockSetState Thread Id)
    (l : LockSetAction Thread Id × Option (UlockReturn Thread Id)) (s' : LockSetState Thread Id) :
    Prop := s.step fixedPriority priority l.1 = some (s', l.2)

/-- A lock set as `lock_set_create` makes it. -/
def init (Thread Id : Type*) : LockSetState Thread Id where
  active := true
  heldUlocks := []
  handoffUlocks := []
  ulock _ := ⟨none, true, false, none, 0, [], false⟩
  thread _ := ⟨.idle, false, false, 0, none⟩
  obtained _ _ := false

end LockSetState

end MachVirtuTerm
