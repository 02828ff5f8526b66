import MachVirtuTerm.Lib.Run
import MachVirtuTerm.Mach.Port
import MachVirtuTerm.Mach.Integer

/-!
# The order of blocked threads

Semaphores and ulocks keep the threads that are blocked on them in a queue, in the order of their
arrival or of their priorities.
-/

open List Function

namespace MachVirtuTerm

variable {Thread : Type*} {fixedPriority : Bool} {priority : Thread → ℕ} {q : List Thread}
  {t u : Thread}

/-- `sync_policy_enqueue`; whether the policy is `SYNC_POLICY_FIXED_PRIORITY` is told. -/
def syncPolicyEnqueue (fixedPriority : Bool) (priority : Thread → ℕ) (q : List Thread) (t : Thread) :
    List Thread :=
  if fixedPriority then
    q.takeWhile (fun u => priority u ≤ priority t) ++
      t :: q.dropWhile (fun u => priority u ≤ priority t)
  else q ++ [t]

/-- A thread is added to the queue. -/
theorem perm_syncPolicyEnqueue (fixedPriority : Bool) (priority : Thread → ℕ) (q : List Thread)
    (t : Thread) : (syncPolicyEnqueue fixedPriority priority q t).Perm (t :: q) := by
  unfold syncPolicyEnqueue
  split
  · refine perm_middle.trans (List.Perm.cons t ?_)
    rw [takeWhile_append_dropWhile]
  · exact perm_append_singleton t q

theorem mem_syncPolicyEnqueue :
    u ∈ syncPolicyEnqueue fixedPriority priority q t ↔ u = t ∨ u ∈ q := by
  rw [(perm_syncPolicyEnqueue fixedPriority priority q t).mem_iff, mem_cons]

end MachVirtuTerm

/-!
# Counting semaphores

A thread that waits enters the queue of the semaphore and asserts the wait while the semaphore is
locked, sets its timer and blocks. A signal takes a thread off the queue, marks the operation
complete in the thread's link and ends its wait, if it has not been ended by a timeout or an
abort. The thread looks at the mark, without the lock, to see whether it has to take itself off
the queue.
-/

namespace MachVirtuTerm

def kernSuccess : ℕ := 0

/-- `THREAD_TIMED_OUT`, a wait result. -/
def threadTimedOut : ℕ := 1

/-- `THREAD_INTERRUPTED`, a wait result. -/
def threadInterrupted : ℕ := 2

def kernAborted : ℕ := 14

def kernInvalidValue : ℕ := 18

def kernTerminated : ℕ := 37

def kernSemaphoreDestroyed : ℕ := 42

def kernOperationTimedOut : ℕ := 49

/-- Where a thread is in `semaphore_wait_common`. -/
inductive SemaphorePc
  | idle
  /-- The wait is asserted and the semaphore unlocked; `timed` tells whether a timer will be set. -/
  | asserted (timed : Bool)
  /-- In `thread_block`. -/
  | blocking
  /-- About to look whether the operation was aborted. -/
  | woken
  /-- It was, and the semaphore is about to be locked. -/
  | aborting
  deriving DecidableEq

/-- What a semaphore sees of a thread. -/
structure SemaphoreThread where
  pc : SemaphorePc
  /-- `wait_link.prev` is not null: the operation is not complete. -/
  linked : Bool
  /-- `TH_WAIT`. -/
  waiting : Bool
  /-- The timer is set. -/
  timer : Bool
  waitResult : ℕ
  /-- The count that the last call found. -/
  found : ℤ
  deriving DecidableEq

/-- The mark that the operation is complete, and the end of the wait, if it has not ended. -/
def SemaphoreThread.complete (x : SemaphoreThread) (result : ℕ) : SemaphoreThread :=
  if x.waiting then
    { x with
      linked := false
      waiting := false
      timer := false
      waitResult := result }
  else { x with linked := false }

/-- `struct semaphore`, and the threads with their priorities. -/
structure SemaphoreState (Thread : Type*) where
  active : Bool
  count : ℤ
  /-- `blocked_threads`. -/
  blocked : List Thread
  thread : Thread → SemaphoreThread
  priority : Thread → ℕ

/-- What does not change: the policy and the clock. -/
structure SemaphoreConfig where
  /-- The policy is `SYNC_POLICY_FIXED_PRIORITY`. -/
  fixedPriority : Bool
  hz : BitVec 32

/-- What becomes of a time to wait. -/
inductive WaitTicks
  /-- There is none, or it is too long. -/
  | forever
  /-- The call returns. -/
  | returns
  /-- As many ticks. -/
  | ticks (t : BitVec 32)
  deriving DecidableEq

/-- The calls, the rest of a wait in steps, and what ends waits. -/
inductive SemaphoreAction (Thread : Type*)
  /-- `semaphore_wait`, or `semaphore_timedwait` with a time in seconds and nanoseconds, up to
  where the semaphore is unlocked. -/
  | wait (t : Thread) (waitTime : Option (BitVec 32 × BitVec 32))
  /-- `thread_set_timeout`, if there is a time, and the call of `thread_block`. -/
  | block (t : Thread)
  /-- `thread_block` returns. -/
  | wake (t : Thread)
  /-- `SEMAPHORE_OPERATION_ABORTED`. -/
  | test (t : Thread)
  /-- The thread takes itself off the queue. -/
  | abort (t : Thread)
  /-- `semaphore_signal`. -/
  | signal
  /-- `semaphore_signal_all`. -/
  | signalAll
  /-- `semaphore_signal_thread`. -/
  | signalThread (t : Thread)
  /-- `semaphore_destroy` by the owner. -/
  | destroy
  /-- The timer of a thread expires. -/
  | threadTimeout (t : Thread)
  /-- A thread is aborted. -/
  | threadAbort (t : Thread)
  /-- A thread, in a wait or not, gets another priority. -/
  | setPriority (t : Thread) (priority : ℕ)
  deriving DecidableEq

/-- A return from `semaphore_wait_common`. -/
structure SemaphoreReturn (Thread : Type*) where
  /-- The thread. -/
  thread : Thread
  /-- What it returns. -/
  code : ℕ
  /-- It was in the queue. -/
  blocked : Bool
  /-- The count that the call found. -/
  found : ℤ
  deriving DecidableEq

/-- The threads that a section took off the queue with `KERN_SUCCESS`, and the return from a
wait. -/
structure SemaphoreOutput (Thread : Type*) where
  granted : List Thread
  returned : Option (SemaphoreReturn Thread)
  deriving DecidableEq

/-- Nobody is granted anything or returns. -/
def SemaphoreOutput.quiet {Thread : Type*} : SemaphoreOutput Thread := ⟨[], none⟩

namespace SemaphoreState

variable {Thread : Type*} [DecidableEq Thread] (cfg : SemaphoreConfig) (s : SemaphoreState Thread)

/-- How `semaphore_wait_common` takes its time, if it is a valid one. -/
def waitTicks (tvSec tvNsec : BitVec 32) : WaitTicks :=
  let ticks := tvSec * cfg.hz
  if ticks < tvSec then .forever
  else
    let t := ticks + (tvNsec.sdiv 1000000000).sdiv cfg.hz
    if t.slt ticks then .forever
    else if ticks = 0 then .returns
    else .ticks t

/-- A thread changes. -/
def setThread (t : Thread) (x : SemaphoreThread) : SemaphoreState Thread :=
  { s with thread := Function.update s.thread t x }

/-- `SEMAPHORE_OPERATION_COMPLETE` and `clear_wait`. -/
def complete (t : Thread) (result : ℕ) : SemaphoreState Thread :=
  s.setThread t ((s.thread t).complete result)

/-- The first threads are taken off the queue, as many as are asked for; there must be that
many. -/
def completeFirst (s : SemaphoreState Thread) (result : ℕ) : ℕ → Option (SemaphoreState Thread)
  | 0 => some s
  | n + 1 =>
    match s.blocked with
    | [] => none
    | t :: blocked => completeFirst ({ s with blocked := blocked }.complete t result) result n

/-- `semaphore_wait_common` from where it locks the semaphore to where it unlocks it. -/
def waitLocked (t : Thread) (ticks : WaitTicks) : SemaphoreState Thread × SemaphoreOutput Thread :=
  if s.active = false then (s, ⟨[], some ⟨t, kernTerminated, false, s.count⟩⟩)
  else if ticks = .ticks 0 ∧ s.count ≤ 0 then
    (s, ⟨[], some ⟨t, kernOperationTimedOut, false, s.count⟩⟩)
  else if wrapInt (s.count - 1) < 0 then
    ({ s.setThread t { s.thread t with
        pc := .asserted (ticks ≠ .forever)
        linked := true
        waiting := true
        found := s.count } with
      count := wrapInt (s.count - 1)
      blocked := syncPolicyEnqueue cfg.fixedPriority s.priority s.blocked t },
    .quiet)
  else ({ s with count := wrapInt (s.count - 1) }, ⟨[], some ⟨t, kernSuccess, false, s.count⟩⟩)

/-- `semaphore_wait_common` up to where the semaphore is unlocked. -/
def wait (t : Thread) (waitTime : Option (BitVec 32 × BitVec 32)) :
    SemaphoreState Thread × SemaphoreOutput Thread :=
  match waitTime with
  | none => s.waitLocked cfg t .forever
  | some (tvSec, tvNsec) =>
    if tvNsec.slt 0 ∨ ¬tvNsec.slt 1000000000 then
      (s, ⟨[], some ⟨t, kernInvalidValue, false, s.count⟩⟩)
    else
      match waitTicks cfg tvSec tvNsec with
      | .returns => (s, ⟨[], some ⟨t, kernOperationTimedOut, false, s.count⟩⟩)
      | ticks => s.waitLocked cfg t ticks

/-- A thread leaves the call. -/
def leave (t : Thread) (code : ℕ) : SemaphoreState Thread × SemaphoreOutput Thread :=
  (s.setThread t { s.thread t with pc := .idle }, ⟨[], some ⟨t, code, true, (s.thread t).found⟩⟩)

/-- The wait of a thread is ended. -/
def endWait (t : Thread) (result : ℕ) : SemaphoreState Thread :=
  s.setThread t { s.thread t with
    waiting := false
    timer := false
    waitResult := result }

/-- One section. -/
def step : SemaphoreAction Thread → Option (SemaphoreState Thread × SemaphoreOutput Thread)
  | .wait t waitTime => if (s.thread t).pc = .idle then some (s.wait cfg t waitTime) else none
  | .block t =>
    match (s.thread t).pc with
    | .asserted timed =>
      some (s.setThread t { s.thread t with
        timer := timed && (s.thread t).waiting
        pc := .blocking }, .quiet)
    | _ => none
  | .wake t =>
    if (s.thread t).pc = .blocking ∧ (s.thread t).waiting = false then
      some (s.setThread t { s.thread t with pc := .woken }, .quiet)
    else none
  | .test t =>
    if (s.thread t).pc = .woken then
      if (s.thread t).linked then some (s.setThread t { s.thread t with pc := .aborting }, .quiet)
      else some (s.leave t (s.thread t).waitResult)
    else none
  | .abort t =>
    if (s.thread t).pc = .aborting then
      let code := if (s.thread t).waitResult = threadTimedOut then kernOperationTimedOut else kernAborted
      if s.active then
        if t ∈ s.blocked then
          some ({ s with
            blocked := s.blocked.erase t
            count := wrapInt (s.count + 1) }.leave t code)
        else none
      else some (s.leave t code)
    else none
  | .signal =>
    if s.active = false then some (s, .quiet)
    else if s.count ≥ 0 then some ({ s with count := wrapInt (s.count + 1) }, .quiet)
    else (completeFirst { s with count := wrapInt (s.count + 1) } kernSuccess 1).map (·, ⟨s.blocked.take 1, none⟩)
  | .signalAll =>
    if s.active = false then some (s, .quiet)
    else if s.count ≥ 0 then some ({ s with count := 0 }, .quiet)
    else
      (completeFirst { s with count := 0 } kernSuccess (-s.count).toNat).map
        (·, ⟨s.blocked.take (-s.count).toNat, none⟩)
  | .signalThread t =>
    if s.active = false then some (s, .quiet)
    else if t ∈ s.blocked then
      some ({ s with
        blocked := s.blocked.erase t
        count := wrapInt (s.count + 1) }.complete t kernSuccess, ⟨[t], none⟩)
    else some (s, .quiet)
  | .destroy =>
    if s.active = false then some (s, .quiet)
    else if s.count ≥ 0 then some ({ s with active := false }, .quiet)
    else
      (completeFirst { s with
        active := false
        count := 1 } kernSemaphoreDestroyed (-s.count).toNat).map (·, .quiet)
  | .threadTimeout t =>
    if (s.thread t).timer = true ∧ (s.thread t).waiting = true then
      some (s.endWait t threadTimedOut, .quiet)
    else none
  | .threadAbort t =>
    if (s.thread t).waiting = true then some (s.endWait t threadInterrupted, .quiet) else none
  | .setPriority t priority => some ({ s with priority := Function.update s.priority t priority }, .quiet)

/-- One section, labelled with what was done and what came out of it. -/
def Step (s : SemaphoreState Thread) (l : SemaphoreAction Thread × SemaphoreOutput Thread)
    (s' : SemaphoreState Thread) : Prop := s.step cfg l.1 = some (s', l.2)

/-- A semaphore as `semaphore_create` makes it, of an `int` that is not negative. -/
def init (value : Fin (2 ^ 31)) : SemaphoreState Thread where
  active := true
  count := value
  blocked := []
  thread _ := ⟨.idle, false, false, false, 0, 0⟩
  priority _ := 0

end SemaphoreState

end MachVirtuTerm

/-!
# Semaphores conserve signals

The queue of a semaphore has the threads in a wait whose operation is not complete. A thread that
was taken off by a signal returns success, if its wait had not been ended before: then it has a
wait result of its own, and the signal is lost.
-/

namespace MachVirtuTerm

/-- What holds of a thread. -/
structure SemaphoreThread.Ok (x : SemaphoreThread) (active : Bool) : Prop where
  /-- A thread whose wait has not ended has not gone on. -/
  waiting : x.waiting = true → x.pc ≠ .idle ∧ x.linked = true ∧ x.pc ≠ .woken ∧ x.pc ≠ .aborting
  /-- A thread that is about to lock the semaphore is in the queue. -/
  aborting : x.pc = .aborting → x.linked = false → active = false
  code : x.pc = .aborting → x.waitResult ≠ kernSuccess
  /-- A wait that ended without completion has another result. -/
  ended : x.pc ≠ .idle → x.linked = true → x.waiting = false → x.waitResult ≠ kernSuccess
  /-- A thread waits if the count was not positive. -/
  found : x.pc ≠ .idle → x.found ≤ 0

namespace SemaphoreThread

variable {x : SemaphoreThread} {active active' : Bool} {result : ℕ}

section

variable (x : SemaphoreThread)

variable (result : ℕ)

@[simp] theorem complete_pc : (x.complete result).pc = x.pc := by
  unfold complete
  split
  · rfl
  · rfl

@[simp] theorem complete_linked : (x.complete result).linked = false := by
  unfold complete
  split
  · rfl
  · rfl

@[simp] theorem complete_waiting : (x.complete result).waiting = false := by
  unfold complete
  split
  · rfl
  · rename_i hnot
    exact Bool.not_eq_true _ ▸ hnot

@[simp] theorem complete_found : (x.complete result).found = x.found := by
  unfold complete
  split
  · rfl
  · rfl

theorem complete_waitResult :
    (x.complete result).waitResult = if x.waiting then result else x.waitResult := by
  unfold complete
  split
  · rfl
  · rfl

end

/-- An operation is completed for a thread that waits, or the semaphore is destroyed. -/
theorem Ok.complete (h : x.Ok active) (hx : x.waiting = true ∨ active' = false) :
    (x.complete result).Ok active' := by
  refine ⟨fun hw => ?_, fun hpc _ => ?_, fun hpc => ?_, fun _ hl => ?_, fun hpc => ?_⟩
  · rw [complete_waiting] at hw
    cases hw
  · rw [complete_pc] at hpc
    exact hx.resolve_left fun hw => (h.waiting hw).2.2.2 hpc
  · rw [complete_pc] at hpc
    rw [complete_waitResult, if_neg fun hw => (h.waiting hw).2.2.2 hpc]
    exact h.code hpc
  · rw [complete_linked] at hl
    cases hl
  · rw [complete_pc] at hpc
    rw [complete_found]
    exact h.found hpc

/-- A thread that is not touched while the semaphore may be destroyed. -/
theorem Ok.mono (h : x.Ok active) (hactive : active' = true → active = true) : x.Ok active' := by
  refine ⟨h.waiting, fun hpc hl => ?_, h.code, h.ended, h.found⟩
  have hfalse := h.aborting hpc hl
  cases hactive' : active' with
  | false => rfl
  | true =>
    rw [hactive hactive'] at hfalse
    cases hfalse

end SemaphoreThread

namespace SemaphoreState

variable {Thread : Type*} {s s' : SemaphoreState Thread} {t u : Thread}

/-- A semaphore and its threads. -/
structure Inv (s : SemaphoreState Thread) : Prop where
  thread : ∀ t, (s.thread t).Ok s.active
  nodup : s.blocked.Nodup
  /-- The queue has the threads in a wait that is not complete. -/
  mem_iff : ∀ t, t ∈ s.blocked ↔ (s.thread t).pc ≠ .idle ∧ (s.thread t).linked = true
  /-- It is empty if the count is not negative, and else has as many threads as the count says. -/
  count : (0 ≤ s.count → s.blocked = []) ∧ (s.count < 0 → (s.blocked.length : ℤ) = -s.count)
  /-- It is an `int`. -/
  range : -2147483648 ≤ s.count ∧ s.count < 2147483648
  inactive : s.active = false → 0 ≤ s.count

variable {cfg : SemaphoreConfig} {l : SemaphoreAction Thread × SemaphoreOutput Thread}

variable [DecidableEq Thread]

@[simp] theorem setThread_thread_self (x : SemaphoreThread) : (s.setThread t x).thread t = x :=
  update_self ..

theorem setThread_thread_of_ne (x : SemaphoreThread) (hu : u ≠ t) :
    (s.setThread t x).thread u = s.thread u :=
  update_of_ne hu ..

/-- Threads that are taken off the front of the queue. -/
theorem completeFirst_eq (result n : ℕ) (hnodup : s.blocked.Nodup) (hn : n ≤ s.blocked.length) :
    ∃ s', completeFirst s result n = some s' ∧ s'.active = s.active ∧ s'.count = s.count ∧
      s'.blocked = s.blocked.drop n ∧ ∀ t, s'.thread t =
        if t ∈ s.blocked.take n then (s.thread t).complete result else s.thread t := by
  induction n generalizing s with
  | zero => exact ⟨s, rfl, rfl, rfl, rfl, fun t => by simp⟩
  | succ n ih =>
    unfold completeFirst
    split
    · rename_i hblocked
      rw [hblocked] at hn
      simp at hn
    · rename_i first blocked hblocked
      rw [hblocked] at hnodup hn
      obtain ⟨hfirst, hrest⟩ := nodup_cons.mp hnodup
      obtain ⟨s', hs', hactive, hcount, hdrop, hthread⟩ :=
        @ih ({ s with blocked := blocked }.complete first result) hrest (Nat.le_of_succ_le_succ hn)
      refine ⟨s', hs', hactive, hcount, by rw [hdrop, hblocked]; rfl, fun t => ?_⟩
      rw [hthread, hblocked, take_succ_cons]
      change (if t ∈ blocked.take n then (Function.update s.thread first _ t).complete result
        else Function.update s.thread first _ t) = _
      by_cases ht : t = first
      · subst ht
        have hnot : t ∉ blocked.take n := fun hmem => hfirst (mem_of_mem_take hmem)
        rw [if_neg hnot, update_self, if_pos (mem_cons_self ..)]
      · rw [update_of_ne ht]
        have hiff : t ∈ first :: blocked.take n ↔ t ∈ blocked.take n := by simp [ht]
        simp only [hiff]

variable (h : s.Inv)

include h

/-- Threads are taken off the front of the queue, all of which wait, or the semaphore is
destroyed. -/
theorem Inv.completeFirst {result n : ℕ} {active : Bool} {count : ℤ}
    (hn : n ≤ s.blocked.length) (hactive : active = true → s.active = true)
    (hwaits : ∀ t ∈ s.blocked.take n, (s.thread t).waiting = true ∨ active = false)
    (hcount : (0 ≤ count → s.blocked.drop n = []) ∧
      (count < 0 → ((s.blocked.drop n).length : ℤ) = -count))
    (hrange : -2147483648 ≤ count ∧ count < 2147483648)
    (hinactive : active = false → 0 ≤ count) :
    ∃ s', SemaphoreState.completeFirst { s with
        active := active
        count := count } result n = some s' ∧ s'.Inv ∧ s'.count = count ∧ ∀ t, s'.thread t =
      if t ∈ s.blocked.take n then (s.thread t).complete result else s.thread t := by
  obtain ⟨s', hs', hactive', hcount', hdrop, hthread⟩ := @completeFirst_eq _ { s with
    active := active
    count := count } _ result n h.nodup hn
  refine ⟨s', hs', ⟨fun t => ?_, ?_, fun t => ?_, ?_, ?_, ?_⟩, hcount', hthread⟩
  · rw [hthread, hactive']
    split
    · rename_i ht
      exact (h.thread t).complete (hwaits t ht)
    · exact (h.thread t).mono hactive
  · rw [hdrop]
    exact h.nodup.sublist (drop_sublist _ _)
  · rw [hdrop, hthread]
    have happend := take_append_drop n s.blocked
    have hnodup := h.nodup
    rw [← happend] at hnodup
    have hdisjoint := disjoint_of_nodup_append hnodup
    dsimp only
    split
    · rename_i ht
      rw [SemaphoreThread.complete_linked]
      exact iff_of_false (fun hmem => hdisjoint ht hmem) fun hl => nomatch hl.2
    · rename_i ht
      rw [← h.mem_iff t]
      constructor
      · exact mem_of_mem_drop
      · intro hmem
        rw [← happend] at hmem
        exact (mem_append.mp hmem).resolve_left ht
  · rw [hcount', hdrop]
    exact hcount
  · rw [hcount']
    exact hrange
  · rw [hactive', hcount']
    exact hinactive

/-- A thread and its place in the queue change. -/
theorem Inv.update {blocked : List Thread} {count : ℤ} {x : SemaphoreThread}
    (hx : x.Ok s.active) (hnodup : blocked.Nodup) (hmem : ∀ u, u ≠ t → (u ∈ blocked ↔ u ∈ s.blocked))
    (ht : t ∈ blocked ↔ x.pc ≠ .idle ∧ x.linked = true)
    (hcount : (0 ≤ count → blocked = []) ∧ (count < 0 → (blocked.length : ℤ) = -count))
    (hrange : -2147483648 ≤ count ∧ count < 2147483648)
    (hinactive : s.active = false → 0 ≤ count) :
    ({ s with
      blocked := blocked
      count := count }.setThread t x).Inv := by
  refine ⟨fun u => ?_, hnodup, fun u => ?_, hcount, hrange, hinactive⟩
  · by_cases hu : u = t
    · subst hu
      rw [setThread_thread_self]
      exact hx
    · rw [setThread_thread_of_ne _ hu]
      exact h.thread u
  · by_cases hu : u = t
    · subst hu
      rw [setThread_thread_self]
      exact ht
    · rw [setThread_thread_of_ne _ hu]
      exact (hmem u hu).trans (h.mem_iff u)

variable {x : SemaphoreThread}

/-- A thread changes, but not whether it is in the queue. -/
theorem Inv.setThread (hx : x.Ok s.active)
    (ht : (x.pc ≠ .idle ∧ x.linked = true) ↔ ((s.thread t).pc ≠ .idle ∧ (s.thread t).linked = true)) :
    (s.setThread t x).Inv :=
  h.update hx h.nodup (fun _ _ => Iff.rfl) ((h.mem_iff t).trans ht.symm) h.count h.range h.inactive

/-- A thread is taken off the queue. -/
theorem Inv.erase (ht : t ∈ s.blocked) (hx : x.Ok s.active)
    (hnot : ¬(x.pc ≠ .idle ∧ x.linked = true)) :
    ({ s with
      blocked := s.blocked.erase t
      count := wrapInt (s.count + 1) }.setThread t x).Inv := by
  have hneg : s.count < 0 := by
    by_contra hcount
    rw [h.count.1 (by omega)] at ht
    cases ht
  have hrange := h.range
  rw [wrapInt_eq (by omega) (by omega)]
  have hlength := h.count.2 hneg
  have herase := length_erase_of_mem ht
  have hpos := length_pos_of_mem ht
  apply h.update hx (h.nodup.erase t)
  · intro u hu
    exact mem_erase_of_ne hu
  · exact iff_of_false (fun hmem => (h.nodup.mem_erase_iff.mp hmem).1 rfl) hnot
  · constructor
    · intro hcount
      exact eq_nil_of_length_eq_zero (by omega)
    · intro _
      omega
  · omega
  · intro hfalse
    have hcount := h.inactive hfalse
    omega

/-- A thread enters the queue. -/
theorem Inv.enqueue (hactive : s.active = true)
    (hcount : s.count - 1 < 0) (hmin : s.count ≠ -2147483648) (ht : t ∉ s.blocked) (hx : x.Ok s.active)
    (hin : x.pc ≠ .idle ∧ x.linked = true) :
    ({ s with
      blocked := syncPolicyEnqueue cfg.fixedPriority s.priority s.blocked t
      count := s.count - 1 }.setThread t x).Inv := by
  have hperm := perm_syncPolicyEnqueue cfg.fixedPriority s.priority s.blocked t
  have hrange := h.range
  apply h.update hx
  · exact hperm.nodup_iff.mpr (nodup_cons.mpr ⟨ht, h.nodup⟩)
  · intro u hu
    rw [mem_syncPolicyEnqueue, or_iff_right hu]
  · exact iff_of_true (mem_syncPolicyEnqueue.mpr (Or.inl rfl)) hin
  · constructor
    · intro hnonneg
      omega
    · intro _
      rw [hperm.length_eq, length_cons]
      by_cases hneg : s.count < 0
      · have hlength := h.count.2 hneg
        push_cast
        omega
      · rw [h.count.1 (by omega), length_nil]
        omega
  · omega
  · intro hfalse
    rw [hactive] at hfalse
    cases hfalse

end SemaphoreState

end MachVirtuTerm
