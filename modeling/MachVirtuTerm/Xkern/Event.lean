import MachVirtuTerm.Lib.DeltaList
import Mathlib.Algebra.Group.Nat.Defs

/-!
# Events of the x-kernel

An event calls a function after a delay. While it waits it lies in a bucket of the timer;
then a process is created for it, which begins with `xk_event_stub`. The event lock
protects the buckets and the calls on an event, but neither all of the stub nor all of
`schedule_i`: these are threads that take one step after the other.
-/

open Function

namespace MachVirtuTerm

namespace XEvent

/-- BIG_N. -/
def bigN : ℕ := 256

/-- The states of an event: E_INIT and the others. -/
inductive EvState where
  | init
  | pending
  | scheduled
  | running
  | finished
  deriving DecidableEq

/-- What `evCancel` returns. -/
inductive EvCancelReturn where
  | finished
  | running
  | cancelled
  deriving DecidableEq

/-- An event, apart from its place in the buckets. Its function comes with the argument. -/
structure Event (Call : Type*) where
  call : Option Call
  state : EvState
  detached : Bool
  cancelled : Bool
  rescheduled : Bool

/-- What a thread does next with its event. -/
inductive Pc where
  /-- `schedule_i` begins. -/
  | schedule (time : ℕ)
  | setScheduled
  | createProcess
  | setPending (delt : ℕ)
  | readTickmod (delt : ℕ)
  | insque (q : ℕ)
  /-- `xk_event_stub` begins. -/
  | stub
  | clearRescheduled
  /-- `deltat` is read as the time to reschedule the event. -/
  | reschedule
  | testCancelled
  | testDetached
  | setInit
  | clearCancelled
  | setRunning
  | call
  /-- The function runs; it may return. -/
  | running
  | testRescheduled
  /-- The last section under the lock. -/
  | finish
  deriving DecidableEq

/-- What a step shows. -/
inductive Out (E Call : Type*) where
  | allocated (e : E)
  /-- `evSchedule` was called, with this time. -/
  | scheduled (e : E) (call : Call) (time : ℕ)
  /-- The delay of an event begins: so many ticks. -/
  | timer (e : E) (delt : ℕ)
  | tick
  /-- An event is taken from its bucket, a process is created for it. -/
  | expired (e : E)
  /-- `evCancel` returned this. -/
  | cancelled (e : E) (ret : EvCancelReturn)
  /-- `evDetach` was called. -/
  | detached (e : E)
  /-- The event can no longer be cancelled. -/
  | running (e : E)
  /-- The function was called. -/
  | started (e : E) (call : Option Call)
  | freed (e : E)
  /-- An event was used that is not allocated, or taken from a bucket in which it is not. -/
  | fault
  deriving DecidableEq

/-- The events and their threads. -/
structure Sys (E Call : Type*) where
  /-- The events that are allocated. -/
  mem : E → Option (Event Call)
  /-- The field `deltat` of each event. -/
  deltat : E → ℕ
  /-- The events in the buckets. -/
  evhead : ℕ → List E
  tickmod : ℕ
  threads : ℕ → Option (E × Pc)
  created : ℕ

namespace Sys

variable {E Call : Type*} [DecidableEq E]

variable (s : Sys E Call)

variable (e : E)

/-- A new thread. -/
def spawn (pc : Pc) : Sys E Call :=
  { s with
    threads := update s.threads s.created (some (e, pc))
    created := s.created + 1 }

/-- A thread goes on here. -/
def goto (t : ℕ) (e : E) (pc : Pc) : Sys E Call :=
  { s with threads := update s.threads t (some (e, pc)) }

/-- A thread ends. -/
def exit (t : ℕ) : Sys E Call :=
  { s with threads := update s.threads t none }

/-- The fields of an event are set. -/
def put (ev : Event Call) : Sys E Call :=
  { s with mem := update s.mem e (some ev) }

/-- `freeEvent`. -/
def free : Sys E Call :=
  { s with mem := update s.mem e none }

/-- The delay of an event in ticks, which last so many milliseconds, for a time in
microseconds. -/
def ticks (granularity time : ℕ) : ℕ :=
  let delt := (time + 500 * granularity) % 2 ^ 32 / (granularity * 1000)
  if delt = 0 ∧ time ≠ 0 then 1 else delt

def eInsque (q : ℕ) (e : E) : Sys E Call :=
  let (deltat, events) := DeltaList.insert e s.deltat (s.evhead q)
  { s with deltat := deltat, evhead := update s.evhead q events }

/-- `e_remque`, from the bucket in which the event lies. -/
def eRemque : Option (Sys E Call) :=
  ((List.range bigN).find? fun q => e ∈ s.evhead q).map fun q =>
    let (deltat, events) := DeltaList.remove e s.deltat (s.evhead q)
    { s with deltat := deltat, evhead := update s.evhead q events }

/-! ## Calls -/

def evAlloc : Option (Sys E Call × List (Out E Call)) :=
  match s.mem e with
  | some _ => none
  | none =>
    some (s.put e ⟨none, .init, false, false, false⟩, [.allocated e])

/-- `evSchedule`: its thread goes on to `schedule_i` without the lock, unless the stub is to
reschedule the event. -/
def evSchedule (call : Call) (time : ℕ) : Sys E Call × List (Out E Call) :=
  match s.mem e with
  | none => (s, [.fault])
  | some ev =>
    let ev := { ev with call := some call }
    match ev.state with
    | .running | .scheduled =>
      ({ s.put e { ev with rescheduled := true, cancelled := false } with
        deltat := update s.deltat e time }, [.scheduled e call time])
    | .pending =>
      match s.eRemque e with
      | none => (s, [.fault])
      | some s => ((s.put e ev).spawn e (.schedule time), [.scheduled e call time])
    | .finished | .init => ((s.put e ev).spawn e (.schedule time), [.scheduled e call time])

def evCancel : Sys E Call × List (Out E Call) :=
  match s.mem e with
  | none => (s, [.fault])
  | some ev =>
    match ev.state with
    | .scheduled =>
      (s.put e { ev with cancelled := true, rescheduled := false }, [.cancelled e .cancelled])
    | .running =>
      (s.put e { ev with cancelled := true, rescheduled := false }, [.cancelled e .running])
    | .finished => (s, [.cancelled e .finished])
    | .pending =>
      match s.eRemque e with
      | none => (s, [.fault])
      | some s =>
        if ev.detached then (s.free e, [.cancelled e .cancelled, .freed e])
        else (s.put e { ev with state := .init }, [.cancelled e .cancelled])
    | .init => (s, [.cancelled e .cancelled])

def evDetach : Sys E Call × List (Out E Call) :=
  match s.mem e with
  | none => (s, [.fault])
  | some ev =>
    match ev.state with
    | .finished | .init => (s.free e, [.detached e, .freed e])
    | _ => (s.put e { ev with detached := true }, [.detached e])

/-! ## The clock -/

/-- Processes are created for these events. -/
def expire : List E → Sys E Call → Sys E Call × List (Out E Call)
  | [], s => (s, [])
  | e :: events, s =>
    match s.mem e with
    | none =>
      let (s, outs) := expire events s
      (s, .fault :: outs)
    | some ev =>
      let (s, outs) := expire events ((s.put e { ev with state := .scheduled }).spawn e .stub)
      (s, .expired e :: outs)

/-- A turn of `evClock`. -/
def evClock : Sys E Call × List (Out E Call) :=
  let deltat :=
    match s.evhead s.tickmod with
    | [] => s.deltat
    | e :: _ =>
      update s.deltat e (if s.deltat e = 0 then 2 ^ 32 - 1 else s.deltat e - 1)
  let tickmod := (s.tickmod + 1) % bigN
  let events := s.evhead tickmod
  let evhead := update s.evhead tickmod (events.dropWhile (deltat · = 0))
  let (s, outs) := expire (events.takeWhile (deltat · = 0))
    { s with deltat := deltat, tickmod := tickmod, evhead := evhead }
  (s, .tick :: outs)

/-! ## Threads -/

/-- The next step of a thread: of `schedule_i` or of `xk_event_stub`. -/
def run (granularity : ℕ) (s : Sys E Call) (t : ℕ) (e : E) (pc : Pc) :
    Sys E Call × List (Out E Call) :=
  match s.mem e with
  | none => (s.exit t, [.fault])
  | some ev =>
    match pc with
    | .schedule time =>
      let delt := ticks granularity time
      ({ s.goto t e (if delt = 0 then .setScheduled else .setPending delt) with
        deltat := update s.deltat e (delt / bigN) }, [])
    | .setScheduled => ((s.put e { ev with state := .scheduled }).goto t e .createProcess, [])
    | .createProcess => ((s.exit t).spawn e .stub, [])
    | .setPending delt => ((s.put e { ev with state := .pending }).goto t e (.readTickmod delt), [])
    | .readTickmod delt => (s.goto t e (.insque ((s.tickmod + delt) % bigN)), [.timer e delt])
    | .insque q => ((s.exit t).eInsque q e, [])
    | .stub => (s.goto t e (if ev.rescheduled then .clearRescheduled else .testCancelled), [])
    | .clearRescheduled => ((s.put e { ev with rescheduled := false }).goto t e .reschedule, [])
    | .reschedule => (s.goto t e (.schedule (s.deltat e)), [])
    | .testCancelled => (s.goto t e (if ev.cancelled then .testDetached else .setRunning), [])
    | .testDetached =>
      if ev.detached then ((s.free e).exit t, [.freed e]) else (s.goto t e .setInit, [])
    | .setInit => ((s.put e { ev with state := .init }).goto t e .clearCancelled, [])
    | .clearCancelled => ((s.put e { ev with cancelled := false }).exit t, [])
    | .setRunning => ((s.put e { ev with state := .running }).goto t e .call, [.running e])
    | .call => (s.goto t e .running, [.started e ev.call])
    | .running => ((s.put e { ev with state := .finished }).goto t e .testRescheduled, [])
    | .testRescheduled => (s.goto t e (if ev.rescheduled then .clearRescheduled else .finish), [])
    | .finish =>
      if ev.detached then ((s.free e).exit t, [.freed e])
      else ((s.put e { ev with cancelled := false }).exit t, [])

end Sys

/-- A step of the system: a call, a tick of the clock or a step of a thread. -/
inductive Action (E Call : Type*) where
  | alloc (e : E)
  | schedule (e : E) (call : Call) (time : ℕ)
  | cancel (e : E)
  | detach (e : E)
  | tick
  | run (t : ℕ)
  deriving DecidableEq

variable {E Call : Type*} [DecidableEq E]

/-- What a step does, and what it shows. -/
def Sys.step (granularity : ℕ) (s : Sys E Call) :
    Action E Call → Option (Sys E Call × List (Out E Call))
  | .alloc e => s.evAlloc e
  | .schedule e call time => some (s.evSchedule e call time)
  | .cancel e => some (s.evCancel e)
  | .detach e => some (s.evDetach e)
  | .tick => some s.evClock
  | .run t => (s.threads t).map fun (e, pc) => s.run granularity t e pc

/-- No events. -/
def Sys.init : Sys E Call where
  mem := fun _ => none
  deltat := fun _ => 0
  evhead := fun _ => []
  tickmod := 0
  threads := fun _ => none
  created := 0

end XEvent

end MachVirtuTerm
