import Mathlib.Algebra.BigOperators.Group.Finset.Basic
import Mathlib.Data.BitVec
import MachVirtuTerm.Lib.Run

/-!
# Read/write sleep locks

A lock is for many readers or one writer, and its readers can ask to become the writer.
The fields change under the interlock only. A thread that cannot go on spins without the
interlock, or asserts that it waits and gives the interlock up to sleep; a release that
finds somebody waiting wakes all sleepers after it gave the interlock up.
-/

namespace MachVirtuTerm

/-- What a thread holds of a lock: nothing, a read lock, or a write lock that it got from
`lock_write` or from `lock_read_to_write`. -/
inductive LockHold
  | nothing
  | read
  | write
  | upgrade
  deriving DecidableEq

/-- The loops that wait for the lock. -/
inductive LockLoop
  /-- The first of `lock_write`. -/
  | wantWrite
  /-- The second of `lock_write`. -/
  | readers
  /-- The loop of `lock_read`. -/
  | lockRead
  /-- The loop of `lock_read_to_write`. -/
  | upgrade
  deriving DecidableEq

/-- How a thread in a loop waits. -/
inductive LockWait
  /-- It spins and will take the interlock to look again. -/
  | spinning
  /-- It has asserted its wait for the lock. -/
  | asleep
  /-- It was woken up and will take the interlock. -/
  | woken
  deriving DecidableEq

/-- Where a thread is between two sections of the interlock. -/
inductive LockPc
  /-- In no routine. -/
  | returned (hold : LockHold)
  /-- In front of the `thread_wakeup` of the lock, the last thing its routine does. -/
  | wakeup (hold : LockHold)
  /-- In a loop. -/
  | waits (loop : LockLoop) (wait : LockWait)
  deriving DecidableEq

/-- `lock_t`, a lock that can sleep. -/
structure LockData where
  /-- `read_count`, a field of 16 bits. -/
  readCount : BitVec 16
  wantUpgrade : Bool
  wantWrite : Bool
  waiting : Bool
  deriving DecidableEq

namespace LockData

variable (l : LockData) (lockWaitTime : ℕ)

/-- The condition that keeps a loop going. -/
def busy : LockLoop → Bool
  | .wantWrite => l.wantWrite
  | .readers => decide (l.readCount ≠ 0) || l.wantUpgrade
  | .lockRead => l.wantWrite || l.wantUpgrade
  | .upgrade => decide (l.readCount ≠ 0)

/-- A loop from where the interlock was taken: after the thread has spun the condition is
checked once more before it goes to sleep. -/
def runLoop (loop : LockLoop) (spun : Bool) (exit : LockData × LockPc) : LockData × LockPc :=
  if l.busy loop then
    if lockWaitTime ≠ 0 ∧ spun = false then (l, .waits loop .spinning)
    else ({ l with waiting := true }, .waits loop .asleep)
  else exit

variable (spun : Bool)

/-- The second loop of `lock_write`. -/
def lockWriteReaders : LockData × LockPc :=
  l.runLoop lockWaitTime .readers spun (l, .returned .write)

def lockWrite : LockData × LockPc :=
  l.runLoop lockWaitTime .wantWrite spun
    ({ l with wantWrite := true }.lockWriteReaders lockWaitTime false)

def lockRead : LockData × LockPc :=
  l.runLoop lockWaitTime .lockRead spun ({ l with readCount := l.readCount + 1 }, .returned .read)

/-- The waiters are to be woken up, if there are any. -/
def clearWaiting (hold : LockHold) : LockData × LockPc :=
  if l.waiting then ({ l with waiting := false }, .wakeup hold) else (l, .returned hold)

/-- The end of a routine that may have left no reader. -/
def clearWaitingReaders : LockData × LockPc :=
  if l.readCount = 0 then l.clearWaiting .nothing else (l, .returned .nothing)

/-- A write lock is given up. That it came from an upgrade shows in `want_upgrade`. -/
def clearWriter : LockData :=
  if l.wantUpgrade then { l with wantUpgrade := false } else { l with wantWrite := false }

/-- What `lock_done` does to the fields, which have to tell it what its caller holds. -/
def drop : LockData :=
  if l.readCount ≠ 0 then { l with readCount := l.readCount - 1 } else l.clearWriter

def lockDone : LockData × LockPc := l.drop.clearWaitingReaders

/-- The loop of `lock_read_to_write`. -/
def lockUpgrade : LockData × LockPc :=
  l.runLoop lockWaitTime .upgrade spun (l, .returned .upgrade)

/-- `lock_read_to_write` fails, and returns `TRUE`, if somebody else has requested an upgrade. -/
def upgradeFails : Bool := l.wantUpgrade

def lockReadToWrite : LockData × LockPc :=
  let l := { l with readCount := l.readCount - 1 }
  if l.upgradeFails then l.clearWaitingReaders
  else { l with wantUpgrade := true }.lockUpgrade lockWaitTime false

def lockWriteToRead : LockData × LockPc :=
  { l with readCount := l.readCount + 1 }.clearWriter.clearWaiting .read

/-- A loop that is gone on with. -/
def resume (loop : LockLoop) (spun : Bool) : LockData × LockPc :=
  match loop with
  | .wantWrite => l.lockWrite lockWaitTime spun
  | .readers => l.lockWriteReaders lockWaitTime spun
  | .lockRead => l.lockRead lockWaitTime spun
  | .upgrade => l.lockUpgrade lockWaitTime spun

end LockData

/-- What a thread does next. -/
inductive LockAction
  | lockWrite
  | lockRead
  | lockReadToWrite
  | lockDone
  | lockWriteToRead
  /-- It goes on with a loop. -/
  | resume
  /-- `thread_wakeup` of the lock. -/
  | threadWakeup
  deriving DecidableEq

namespace LockPc

/-- What a thread holds. -/
def hold : LockPc → LockHold
  | .returned hold => hold
  | .wakeup hold => hold
  | .waits _ _ => .nothing

/-- `thread_wakeup` ends the wait of a thread that sleeps. -/
def wake : LockPc → LockPc
  | .waits loop .asleep => .waits loop .woken
  | pc => pc

/-- The section a thread does, as the callers of the routines see to it. -/
def runSection (pc : LockPc) (l : LockData) (lockWaitTime : ℕ) :
    LockAction → Option (LockData × LockPc)
  | .lockWrite => if pc = .returned .nothing then some (l.lockWrite lockWaitTime false) else none
  | .lockRead => if pc = .returned .nothing then some (l.lockRead lockWaitTime false) else none
  | .lockReadToWrite =>
    if pc = .returned .read then some (l.lockReadToWrite lockWaitTime) else none
  | .lockDone =>
    if pc = .returned .read ∨ pc = .returned .write ∨ pc = .returned .upgrade then some l.lockDone
    else none
  | .lockWriteToRead =>
    if pc = .returned .write ∨ pc = .returned .upgrade then some l.lockWriteToRead else none
  | .resume =>
    match pc with
    | .waits loop .spinning => some (l.resume lockWaitTime loop true)
    | .waits loop .woken => some (l.resume lockWaitTime loop false)
    | _ => none
  | .threadWakeup => none

end LockPc

/-- A lock and the threads that use it. -/
structure LockSystem (Thread : Type*) where
  /-- The lock. -/
  lock : LockData
  /-- Where each thread is. -/
  pc : Thread → LockPc

namespace LockSystem

variable {Thread : Type*} [DecidableEq Thread] (s : LockSystem Thread)

/-- `thread_wakeup` of the lock by a thread. -/
def threadWakeup (t : Thread) (hold : LockHold) : LockSystem Thread :=
  { s with pc := Function.update (fun u => (s.pc u).wake) t (.returned hold) }

/-- One section of the interlock, or one `thread_wakeup`. -/
def step (lockWaitTime : ℕ) (t : Thread) : LockAction → Option (LockSystem Thread)
  | .threadWakeup =>
    match s.pc t with
    | .wakeup hold => some (s.threadWakeup t hold)
    | _ => none
  | action =>
    ((s.pc t).runSection s.lock lockWaitTime action).map fun r =>
      ⟨r.1, Function.update s.pc t r.2⟩

/-- One section or `thread_wakeup`, labelled with the thread and what it does. -/
def Step (lockWaitTime : ℕ) (s : LockSystem Thread) (l : Thread × LockAction)
    (s' : LockSystem Thread) : Prop := s.step lockWaitTime l.1 l.2 = some s'

/-- A lock as `lock_init` leaves it, and threads that hold nothing. -/
def new : LockSystem Thread := ⟨⟨0, false, false, false⟩, fun _ => .returned .nothing⟩

end LockSystem

end MachVirtuTerm
