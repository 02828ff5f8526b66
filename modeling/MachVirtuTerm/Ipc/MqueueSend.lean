import MachVirtuTerm.Lib.Ring

/-!
# Sending to a port with a full queue

Any number of threads run `ipc_mqueue_send`, `ipc_mqueue_finish_receive`,
`ipc_port_set_qlimit` and `ipc_port_destroy` on any number of ports. Taking a port's
lock, what is done in one go under it, each turn of a loop and freeing it are steps. A
thread that blocks in a send waits in the queue of the port until somebody wakes it, its
timer expires or it is interrupted.
-/

open Function

namespace MachVirtuTerm

/-- `mach_msg_return_t`, as far as senders see it. -/
inductive MachMsgReturn
  | machMsgSuccess
  | machSendInProgress
  | machSendTimedOut
  | machSendInterrupted
  deriving DecidableEq

/-- The reasons for the end of a wait. -/
inductive WaitResult
  | threadAwakened
  | threadTimedOut
  | threadInterrupted
  | threadRestart
  deriving DecidableEq

/-- The fields of `struct ipc_port` that senders use. `ipReceiverKernel` is
`ip_receiver == ipc_space_kernel`. -/
structure SendPort (P T : Type*) where
  ipActive : Bool
  ipReceiverKernel : Bool
  ipPdrequest : Option P
  ipMsgcount : ℕ
  ipQlimit : ℕ
  ipBlocked : Option T
  deriving DecidableEq

/-- The fields of a thread that a wait uses: `ith_state`, `TH_WAIT` in the scheduling
state, the wait result (before there is one, `none`) and whether the timer is set. -/
structure SendThread where
  ithState : MachMsgReturn
  thWait : Bool
  waitResult : Option WaitResult
  timerSet : Bool
  deriving DecidableEq

/-- What `ipc_mqueue_send` is told by its arguments: bits of the message, bits of the
option and the timeout. -/
structure SendCall where
  circular : Bool
  portSendOnce : Bool
  machSendTimeout : Bool
  machSendAlways : Bool
  timeout : ℕ
  deriving DecidableEq

/-- Where a thread is. -/
inductive SendPc (P : Type*)
  /-- In no call, and none before. -/
  | idle
  /-- `ip_lock(port)` of `ipc_mqueue_send`. -/
  | sendLock (port : P) (call : SendCall)
  /-- The tests before the loop. -/
  | send (port : P) (call : SendCall)
  /-- The top of the loop. -/
  | sendLoop (port : P) (call : SendCall)
  /-- `ip_unlock(port)` before the wait. -/
  | sendUnlock (port : P) (call : SendCall)
  | threadBlock (port : P) (call : SendCall)
  /-- `ip_lock(port)` after the wait. -/
  | sendRelock (port : P) (call : SendCall) (saveWaitResult : Option WaitResult)
  /-- `why did we wake up?` -/
  | sendWoken (port : P) (call : SendCall) (saveWaitResult : Option WaitResult)
  /-- `ipc_mqueue_deliver`. -/
  | deliver (port : P)
  /-- `ip_lock(port)` of `ipc_mqueue_finish_receive`. -/
  | receiveLock (port : P)
  /-- The rest of `ipc_mqueue_finish_receive`. -/
  | receive (port : P)
  /-- `ip_lock(port)` before `ipc_port_set_qlimit`. -/
  | qlimitLock (port : P) (qlimit : ℕ)
  /-- `ipc_port_set_qlimit`. -/
  | setQlimit (port : P) (qlimit : ℕ)
  /-- Its loop, with the number of senders that may still be woken. -/
  | qlimitLoop (port : P) (qlimit wakeup : ℕ)
  /-- `ip_lock(port)` before `ipc_port_destroy`. -/
  | destroyLock (port : P)
  /-- `ipc_port_destroy`. -/
  | destroy (port : P)
  /-- `ip_unlock(port)` with a backup port. -/
  | destroyUnlock (port pdrequest : P)
  /-- `ipc_port_check_circularity(port, pdrequest)`. -/
  | circularity (port pdrequest : P)
  /-- `ip_lock(port)` after a circularity. -/
  | destroyRelock (port : P)
  /-- The loop that rouses all blocked senders. -/
  | rouse (port : P)
  /-- `ip_unlock(port)` before `return`. -/
  | unlock (port : P) (mr : MachMsgReturn)
  /-- After `return`. -/
  | returned (mr : MachMsgReturn)
  deriving DecidableEq

/-- The port whose senders' queue a thread waits in, from where it puts itself there to
where it finds out why it woke up. -/
def SendPc.waitsOn {P : Type*} : SendPc P → Option P
  | .sendUnlock port _ | .threadBlock port _ | .sendRelock port _ _ | .sendWoken port _ _ =>
    some port
  | _ => none

/-- Whether a thread has the lock again after a wait. -/
def SendPc.woken {P : Type*} : SendPc P → Bool
  | .sendWoken _ _ _ => true
  | _ => false

/-- The ports and their locks, the threads and the links that chain them in queues. -/
structure SendState (P T : Type*) where
  port : P → SendPort P T
  lock : P → Option T
  thread : T → SendThread
  ithLinks : Links T
  pc : T → SendPc P

/-- What a step means to others. -/
inductive SendLabel (P T : Type*)
  | quiet
  /-- A sender was taken out of the queue of a port and woken. -/
  | woke (port : P) (sender : T)
  deriving DecidableEq

/-- What a thread can do next. -/
inductive SendAction (P : Type*)
  /-- Go on with the call. -/
  | run
  /-- Call `ipc_mqueue_send`. -/
  | send (port : P) (call : SendCall)
  /-- Call `ipc_mqueue_finish_receive`. -/
  | finishReceive (port : P)
  | setQlimit (port : P) (qlimit : ℕ)
  | destroy (port : P)
  /-- `ipc_port_check_circularity` returns. -/
  | checked (circular : Bool)
  /-- The timer of the thread expires: `thread_timeout`. -/
  | timeout
  /-- Somebody interrupts the thread: `clear_wait`. -/
  | interrupt
  deriving DecidableEq

namespace SendThread

variable (th : SendThread)

/-- `thread_will_wait` and `thread_will_wait_with_timeout`. -/
def threadWillWait (timer : Bool) : SendThread :=
  { th with thWait := true, waitResult := none, timerSet := timer }

def clearWait (result : WaitResult) : SendThread :=
  if th.thWait then { th with thWait := false, waitResult := some result } else th

def threadGo : SendThread :=
  { th with timerSet := false }.clearWait .threadAwakened

end SendThread

namespace SendState

variable {P T : Type*} [DecidableEq P] [DecidableEq T] (s : SendState P T) (t : T)

/-- Let a thread go on at another place. -/
def goto (pc : SendPc P) : SendState P T := { s with pc := update s.pc t pc }

variable (port : P)

/-- Lock a port if it is not locked. -/
def ipLock (pc : SendPc P) : Option (SendState P T) :=
  if s.lock port = none then
    some ({ s with lock := update s.lock port (some t) }.goto t pc)
  else none

/-- Unlock a port. -/
def ipUnlock : SendState P T := { s with lock := update s.lock port none }

/-- Store a port. -/
def setPort (p : P) (port : SendPort P T) : SendState P T :=
  { s with port := update s.port p port }

/-- Store a thread. -/
def setThread (th : T) (thread : SendThread) : SendState P T :=
  { s with thread := update s.thread th thread }

/-- Store the links and the base of the senders' queue of a port. -/
def setBlocked (queue : Links T × Option T) : SendState P T :=
  { s.setPort port { s.port port with ipBlocked := queue.2 } with ithLinks := queue.1 }

/-- `ipc_thread_enqueue` on the senders' queue of a port. -/
def ipcThreadEnqueue (thread : T) : SendState P T :=
  s.setBlocked port (s.ithLinks.enqueue (s.port port).ipBlocked thread)

/-- `ipc_thread_rmqueue` on the senders' queue of a port. -/
def ipcThreadRmqueue (thread : T) : SendState P T :=
  s.setBlocked port (s.ithLinks.remove (s.port port).ipBlocked thread)

/-- `ipc_thread_dequeue` on the senders' queue of a port, when it is not empty. -/
def ipcThreadDequeue (first : T) : SendState P T :=
  s.setBlocked port (s.ithLinks.removeFirst first)

/-- Tell a sender that it may send: `sender->ith_state = MACH_MSG_SUCCESS` and
`thread_go(sender)`. -/
def wakeSender (sender : T) : SendState P T :=
  s.setThread sender { s.thread sender with ithState := .machMsgSuccess }.threadGo

/-- One turn of the loop of `ipc_mqueue_send`, with the port locked. -/
def sendLoopStep (call : SendCall) : SendState P T :=
  if ¬(s.port port).ipActive then s.goto t (.unlock port .machMsgSuccess)
  else if (s.port port).ipMsgcount < (s.port port).ipQlimit ∨ call.machSendAlways ∨
      call.portSendOnce then s.goto t (.deliver port)
  else if call.machSendTimeout ∧ call.timeout = 0 then
    s.goto t (.unlock port .machSendTimedOut)
  else
    let s := s.setThread t { s.thread t with ithState := .machSendInProgress }
    let s := s.ipcThreadEnqueue port t
    let s := s.setThread t ((s.thread t).threadWillWait call.machSendTimeout)
    s.goto t (.sendUnlock port call)

/-- What a sender does after its wait, with the port locked again. -/
def sendWokenStep (call : SendCall) (saveWaitResult : Option WaitResult) : Option (SendState P T) :=
  if (s.thread t).ithState = .machMsgSuccess then some (s.goto t (.sendLoop port call))
  else if (s.thread t).ithState ≠ .machSendInProgress then none
  else
    match saveWaitResult with
    | some .threadInterrupted => some (s.goto t (.unlock port .machSendInterrupted))
    | some .threadTimedOut => some (s.goto t (.sendLoop port { call with timeout := 0 }))
    | _ => none

/-- `ipc_mqueue_finish_receive`, with the port locked. -/
def receiveStep : Option (SendState P T × SendLabel P T) :=
  if ¬(s.port port).ipActive then some (s.goto t (.unlock port .machMsgSuccess), .quiet)
  else if (s.port port).ipMsgcount = 0 then none
  else
    let msgcount := (s.port port).ipMsgcount - 1
    let s := s.setPort port { s.port port with ipMsgcount := msgcount }
    match (s.port port).ipBlocked with
    | some sender =>
      if msgcount < (s.port port).ipQlimit then
        let s := s.ipcThreadRmqueue port sender
        some ((s.wakeSender sender).goto t (.unlock port .machMsgSuccess), .woke port sender)
      else some (s.goto t (.unlock port .machMsgSuccess), .quiet)
    | none => some (s.goto t (.unlock port .machMsgSuccess), .quiet)

/-- `ipc_port_set_qlimit` up to its loop. -/
def setQlimitStep (qlimit : ℕ) : SendState P T :=
  if ¬(s.port port).ipActive then s.goto t (.unlock port .machMsgSuccess)
  else if qlimit > (s.port port).ipQlimit then
    s.goto t (.qlimitLoop port qlimit (qlimit - (s.port port).ipQlimit))
  else s.goto t (.qlimitLoop port qlimit 0)

/-- One turn of a loop that wakes senders until there is none, and what follows it. -/
def wakeLoopStep (more done : SendPc P) (finish : SendPort P T → SendPort P T) :
    SendState P T × SendLabel P T :=
  match (s.port port).ipBlocked with
  | some sender =>
    (((s.ipcThreadDequeue port sender).wakeSender sender).goto t more, .woke port sender)
  | none => ((s.setPort port (finish (s.port port))).goto t done, .quiet)

/-- One turn of the loop of `ipc_port_set_qlimit`. -/
def qlimitLoopStep (qlimit : ℕ) : ℕ → SendState P T × SendLabel P T
  | 0 =>
    ((s.setPort port { s.port port with ipQlimit := qlimit }).goto t
      (.unlock port .machMsgSuccess), .quiet)
  | wakeup + 1 =>
    s.wakeLoopStep t port (.qlimitLoop port qlimit wakeup) (.unlock port .machMsgSuccess)
      fun port => { port with ipQlimit := qlimit }

/-- `ipc_port_destroy` up to the test for a backup port. -/
def destroyStep : SendState P T :=
  if ¬(s.port port).ipActive then s.goto t (.unlock port .machMsgSuccess)
  else
    match (s.port port).ipPdrequest with
    | some pdrequest =>
      (s.setPort port { s.port port with ipPdrequest := none }).goto t
        (.destroyUnlock port pdrequest)
    | none => s.goto t (.rouse port)

/-- One step of a thread in a call. -/
def advance : Option (SendState P T × SendLabel P T) :=
  match s.pc t with
  | .idle | .returned _ | .circularity _ _ => none
  | .sendLock port call => (s.ipLock t port (.send port call)).map (·, .quiet)
  | .send port call =>
    -- A kernel object is sent to by calling it; its reply is another send.
    if (s.port port).ipReceiverKernel ∨ call.circular then
      some (s.goto t (.unlock port .machMsgSuccess), .quiet)
    else some (s.goto t (.sendLoop port call), .quiet)
  | .sendLoop port call => some (s.sendLoopStep t port call, .quiet)
  | .sendUnlock port call => some ((s.ipUnlock port).goto t (.threadBlock port call), .quiet)
  | .threadBlock port call =>
    if (s.thread t).thWait then none
    else
      some ((s.setThread t { s.thread t with timerSet := false }).goto t
        (.sendRelock port call (s.thread t).waitResult), .quiet)
  | .sendRelock port call result => (s.ipLock t port (.sendWoken port call result)).map (·, .quiet)
  | .sendWoken port call result => (s.sendWokenStep t port call result).map (·, .quiet)
  | .deliver port =>
    let s := s.setPort port { s.port port with ipMsgcount := (s.port port).ipMsgcount + 1 }
    some ((s.ipUnlock port).goto t (.returned .machMsgSuccess), .quiet)
  | .receiveLock port => (s.ipLock t port (.receive port)).map (·, .quiet)
  | .receive port => s.receiveStep t port
  | .qlimitLock port qlimit => (s.ipLock t port (.setQlimit port qlimit)).map (·, .quiet)
  | .setQlimit port qlimit => some (s.setQlimitStep t port qlimit, .quiet)
  | .qlimitLoop port qlimit wakeup => some (s.qlimitLoopStep t port qlimit wakeup)
  | .destroyLock port => (s.ipLock t port (.destroy port)).map (·, .quiet)
  | .destroy port => some (s.destroyStep t port, .quiet)
  | .destroyUnlock port pdrequest =>
    some ((s.ipUnlock port).goto t (.circularity port pdrequest), .quiet)
  | .destroyRelock port => (s.ipLock t port (.rouse port)).map (·, .quiet)
  | .rouse port =>
    some (s.wakeLoopStep t port (.rouse port) (.unlock port .machMsgSuccess)
      fun port => { port with ipActive := false })
  | .unlock port mr => some ((s.ipUnlock port).goto t (.returned mr), .quiet)

/-- Begin a call, in none before. -/
def call (pc : SendPc P) : Option (SendState P T × SendLabel P T) :=
  match s.pc t with
  | .idle | .returned _ => some (s.goto t pc, .quiet)
  | _ => none

/-- One step of a thread. -/
def step : SendAction P → Option (SendState P T × SendLabel P T)
  | .run => s.advance t
  | .send port call => s.call t (.sendLock port call)
  | .finishReceive port => s.call t (.receiveLock port)
  | .setQlimit port qlimit => s.call t (.qlimitLock port qlimit)
  | .destroy port => s.call t (.destroyLock port)
  | .checked circular =>
    match s.pc t with
    | .circularity port _ =>
      if circular then some (s.goto t (.destroyRelock port), .quiet)
      else some (s.goto t (.returned .machMsgSuccess), .quiet)
    | _ => none
  | .timeout =>
    if (s.thread t).timerSet then
      some (s.setThread t ({ s.thread t with timerSet := false }.clearWait .threadTimedOut), .quiet)
    else none
  | .interrupt => some (s.setThread t ((s.thread t).clearWait .threadInterrupted), .quiet)

/-- A thread is blocked in `ipc_mqueue_send` on a port, and nobody has told it to go on. -/
def BlockedIn (th : T) (port : P) : Prop :=
  (s.pc th).waitsOn = some port ∧ (s.thread th).ithState = .machSendInProgress

/-- The senders' queue of a port holds the threads of a list. -/
def BlockedQueue (l : List T) : Prop :=
  s.ithLinks.Queue (s.port port).ipBlocked l

/-- No thread has begun anything. -/
structure Initial : Prop where
  pc : ∀ t, s.pc t = .idle
  links : ∀ t, s.ithLinks.Single t
  blocked : ∀ p, (s.port p).ipBlocked = none

end SendState

variable {P T : Type*} [DecidableEq P] [DecidableEq T]

/-- A step of a run: the state before it, the thread, what it did and what that meant. -/
structure SendEvent (P T : Type*) where
  state : SendState P T
  thread : T
  action : SendAction P
  label : SendLabel P T

/-- The thread finds out why its wait has ended, and nobody has told it to go on. -/
def SendEvent.GivesUp (e : SendEvent P T) : Prop :=
  e.action = .run ∧ (e.state.pc e.thread).woken = true ∧
    (e.state.thread e.thread).ithState = .machSendInProgress

instance (e : SendEvent P T) : Decidable e.GivesUp := inferInstanceAs (Decidable (_ ∧ _))

/-- The runs from a state: the steps, the last first, and where they led. -/
inductive SendRun (init : SendState P T) : List (SendEvent P T) → SendState P T → Prop
  | nil : SendRun init [] init
  | cons {trace : List (SendEvent P T)} {s s' : SendState P T} {t : T} {action : SendAction P}
    {label : SendLabel P T} (h : SendRun init trace s)
    (hstep : s.step t action = some (s', label)) :
    SendRun init (⟨s, t, action, label⟩ :: trace) s'

end MachVirtuTerm
