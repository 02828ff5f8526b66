import MachVirtuTerm.Lib.Run
import MachVirtuTerm.Mach.Port

/-!
# Kernel timers

Timer elements wait on a chain in the order in which they expire. The clock interrupt counts
ticks and wakes the softclock thread up, which takes expired elements off the chain and calls
their functions with the timer lock released. An element whose function is `thread_timeout`
holds a reference to its thread from the time it is set; until the function runs it is
pending, and whoever resets it meanwhile takes the function's work away.
-/

open Function

namespace MachVirtuTerm

/-- `telt->set`. -/
inductive TeltSet
  | unset
  | set
  | alloc
  | pending
  deriving DecidableEq

def ntimers : ℕ := 20

/-- A timer element: the one of a thread, a private one, or one of the array for devices. -/
inductive TimerId (Thread : Type*)
  | thread (t : Thread)
  | own (i : ℕ)
  | pool (i : Fin ntimers)
  deriving DecidableEq

/-- The element is not one of the array for devices. -/
def TimerId.isPrivate {Thread : Type*} : TimerId Thread → Bool
  | .pool _ => false
  | _ => true

/-- The function a timer calls, with its parameter. -/
inductive TimeoutCall (Thread : Type*)
  | threadTimeout (t : Thread)
  | other (fcn param : ℕ)
  deriving DecidableEq

/-- `struct timer_elt`. -/
structure TimerElt (Thread : Type*) where
  /-- `fcn` and `param`. -/
  call : TimeoutCall Thread
  ticks : BitVec 32
  set : TeltSet

/-- A timer as it was set: the element, what it is to call and when. -/
structure TimerSetting (Thread : Type*) where
  /-- The element. -/
  id : TimerId Thread
  /-- What is called. -/
  call : TimeoutCall Thread
  /-- When, in ticks. -/
  ticks : BitVec 32
  deriving DecidableEq

/-- Where the softclock thread is. -/
inductive SoftclockPc (Thread : Type*)
  /-- About to look at the chain. -/
  | running
  /-- It waits for the chain. -/
  | asleep
  /-- It took a timer off the chain and is about to call its function. -/
  | calling (setting : TimerSetting Thread)
  /-- In `thread_timeout`, about to deallocate the thread. -/
  | deallocating (t : Thread)
  deriving DecidableEq

/-- The timers, and the references to threads. -/
structure TimerState (Thread : Type*) where
  timeoutTicks : BitVec 32
  /-- The chain behind `timer_head`. -/
  chain : List (TimerId Thread)
  /-- The elements. -/
  elt : TimerId Thread → TimerElt Thread
  /-- `ref_count` of each thread. -/
  refCount : Thread → ℤ
  /-- How many references to a thread are not a timer's. -/
  otherRefs : Thread → ℕ
  /-- The softclock thread. -/
  softclock : SoftclockPc Thread
  /-- A tick is about to wake the softclock thread up. -/
  wakeup : Bool

/-- The sections of the timer lock, and what is done to threads. -/
inductive TimerAction (Thread : Type*)
  /-- The first statements of `set_timeout_setup`. -/
  | setup (i fcn param : ℕ)
  /-- `set_timeout` of a private timer or a thread's. -/
  | setTimeout (id : TimerId Thread) (interval : BitVec 32)
  | resetTimeout (id : TimerId Thread)
  /-- `timeout` up to its `set_timeout`. -/
  | timeout (call : TimeoutCall Thread)
  /-- The `set_timeout` in `timeout`. -/
  | timeoutSet (i : Fin ntimers) (interval : BitVec 32)
  | untimeout (call : TimeoutCall Thread)
  /-- `timeout_tick` up to its `thread_wakeup`. -/
  | timeoutTick
  /-- The `thread_wakeup` in `timeout_tick`. -/
  | threadWakeup
  /-- The softclock thread does its next step. -/
  | softclock
  /-- Somebody takes a reference to a thread. -/
  | threadReference (t : Thread)
  /-- Somebody drops a reference to a thread. -/
  | threadDeallocate (t : Thread)
  deriving DecidableEq

/-- What a section puts out. -/
inductive TimerOutput (Thread : Type*)
  /-- Nothing. -/
  | quiet
  /-- A timer was set. -/
  | started (setting : TimerSetting Thread)
  /-- `reset_timeout` or `untimeout` returned `TRUE`. -/
  | removed (setting : TimerSetting Thread)
  /-- `reset_timeout` or `untimeout` returned `FALSE`. -/
  | notRemoved
  /-- The function of a timer was called. -/
  | called (setting : TimerSetting Thread)
  deriving DecidableEq

namespace TimerState

variable {Thread : Type*} [DecidableEq Thread] (s : TimerState Thread)

variable (id : TimerId Thread)

/-- A timer as it is set. -/
def setting : TimerSetting Thread := ⟨id, (s.elt id).call, (s.elt id).ticks⟩

variable (call : TimeoutCall Thread)

/-- The reference that a timer of a thread holds is taken or dropped. -/
def addRef (n : ℤ) : Thread → ℤ :=
  match call with
  | .threadTimeout t => update s.refCount t (s.refCount t + n)
  | .other _ _ => s.refCount

/-- `set_timeout`: the element goes in front of the first that expires no earlier. -/
def setTimeout (interval : BitVec 32) : TimerState Thread × TimerOutput Thread :=
  let ticks := interval + s.timeoutTicks
  let elt := update s.elt id { s.elt id with ticks := ticks, set := .set }
  ({ s with
      elt := elt
      chain := s.chain.orderedInsert (fun a b => (elt a).ticks ≤ (elt b).ticks) id
      refCount := s.addRef (s.elt id).call 1 },
    .started ⟨id, (s.elt id).call, ticks⟩)

/-- An element on the chain is taken off, with the reference it holds. -/
def remove : TimerState Thread × TimerOutput Thread :=
  ({ s with
      elt := update s.elt id { s.elt id with set := .unset }
      chain := s.chain.erase id
      refCount := s.addRef (s.elt id).call (-1) },
    .removed (s.setting id))

def resetTimeout : TimerState Thread × TimerOutput Thread :=
  if (s.elt id).set = .set then s.remove id
  else if (s.elt id).set = .pending then
    ({ s with elt := update s.elt id { s.elt id with set := .unset } }, .notRemoved)
  else (s, .notRemoved)

/-- `timeout` up to its `set_timeout`; without an element to use it panics. -/
def timeout : Option (TimerState Thread) :=
  ((List.finRange ntimers).find? fun i => (s.elt (.pool i)).set = .unset).map fun i =>
    { s with elt := update s.elt (.pool i) { s.elt (.pool i) with call := call, set := .alloc } }

def untimeout : TimerState Thread × TimerOutput Thread :=
  match s.chain.find? fun id => (s.elt id).call = call with
  | some id => s.remove id
  | none => (s, .notRemoved)

/-- The ticks of the first element of the chain, or of `timer_head` itself. -/
def firstTicks : BitVec 32 :=
  match s.chain with
  | [] => BitVec.allOnes 32
  | id :: _ => (s.elt id).ticks

/-- `timeout_tick` up to its `thread_wakeup`. -/
def timeoutTick : TimerState Thread :=
  let s := { s with timeoutTicks := s.timeoutTicks + 1 }
  { s with wakeup := s.wakeup || decide (s.firstTicks ≤ s.timeoutTicks) }

/-- What becomes of an element that expires. -/
def expired : TeltSet :=
  match call with
  | .threadTimeout _ => .pending
  | .other _ _ => .unset

/-- `softclock` takes the first element of the chain off. -/
def pop (chain : List (TimerId Thread)) : TimerState Thread :=
  { s with
    elt := update s.elt id { s.elt id with set := expired (s.elt id).call }
    chain := chain
    softclock := .calling (s.setting id) }

/-- `thread_timeout` up to its `thread_deallocate`. -/
def threadTimeout (t : Thread) : TimerState Thread :=
  if (s.elt (.thread t)).set = .pending then
    { s with
      elt := update s.elt (.thread t) { s.elt (.thread t) with set := .unset }
      softclock := .deallocating t }
  else { s with softclock := .running }

/-- A step of the softclock thread. -/
def softclockStep : Option (TimerState Thread × TimerOutput Thread) :=
  match s.softclock with
  | .running =>
    if s.timeoutTicks < s.firstTicks then some ({ s with softclock := .asleep }, .quiet)
    else
      match s.chain with
      | [] => none
      | id :: chain => some (s.pop id chain, .quiet)
  | .asleep => none
  | .calling r =>
    match r.call with
    | .threadTimeout t => some (s.threadTimeout t, .called r)
    | .other _ _ => some ({ s with softclock := .running }, .called r)
  | .deallocating t =>
    some ({ s with
        refCount := update s.refCount t (s.refCount t - 1)
        softclock := .running },
      .quiet)

/-- One section. A timer is set by its owner, who knows that it is not set. -/
def step : TimerAction Thread → Option (TimerState Thread × TimerOutput Thread)
  | .setup i fcn param =>
    if (s.elt (.own i)).set = .set then none
    else
      some ({ s with
          elt := update s.elt (.own i)
            { s.elt (.own i) with call := .other fcn param, set := .unset } },
        .quiet)
  | .setTimeout id interval =>
    if id.isPrivate ∧ (s.elt id).set ≠ .set then some (s.setTimeout id interval) else none
  | .resetTimeout id => if id.isPrivate then some (s.resetTimeout id) else none
  | .timeout call => (s.timeout call).map fun s => (s, .quiet)
  | .timeoutSet i interval =>
    if (s.elt (.pool i)).set = .alloc then some (s.setTimeout (.pool i) interval) else none
  | .untimeout call => some (s.untimeout call)
  | .timeoutTick => some (s.timeoutTick, .quiet)
  | .threadWakeup =>
    if s.wakeup then
      some ({ s with
          wakeup := false
          softclock := if s.softclock = .asleep then .running else s.softclock },
        .quiet)
    else none
  | .softclock => s.softclockStep
  | .threadReference t =>
    some ({ s with
        refCount := update s.refCount t (s.refCount t + 1)
        otherRefs := update s.otherRefs t (s.otherRefs t + 1) },
      .quiet)
  | .threadDeallocate t =>
    if s.otherRefs t = 0 then none
    else
      some ({ s with
          refCount := update s.refCount t (s.refCount t - 1)
          otherRefs := update s.otherRefs t (s.otherRefs t - 1) },
        .quiet)

/-- One section, labelled with what was done and what came out of it. -/
def Step (s : TimerState Thread) (l : TimerAction Thread × TimerOutput Thread)
    (s' : TimerState Thread) : Prop := s.step l.1 = some (s', l.2)

/-- The timers as `timeout_init` and `thread_timeout_setup` leave them, each thread with some
references. -/
def init (otherRefs : Thread → ℕ) : TimerState Thread where
  timeoutTicks := 0
  chain := []
  elt
    | .thread t => ⟨.threadTimeout t, 0, .unset⟩
    | _ => ⟨.other 0 0, 0, .unset⟩
  refCount t := otherRefs t
  otherRefs := otherRefs
  softclock := .running
  wakeup := false

end TimerState

end MachVirtuTerm
