import MachVirtuTerm.Ipc.KmsgCopyin
import Mathlib.Algebra.BigOperators.Group.Finset.Piecewise

/-!
# Destroying messages

`ipc_kmsg_destroy` releases the rights in a message. A receive right destroys its port and the
messages in the queue of the port, which are put on a queue of the thread instead of being
destroyed within the first one. A send-once right, and requests for notifications, make new
messages. The thread is a stack of what it has still to do, the innermost call first.
-/

open List Function

namespace MachVirtuTerm

namespace KmsgDestroy

open Kmsg

/-- `struct ipc_kmsg`: a buffer with the header and the body of a message in the kernel. -/
structure IpcKmsg (P M : Type*) where
  buffer : ℕ
  config : Config
  /-- `msgh_remote_port`. -/
  remotePort : PortWord P
  /-- `MACH_MSGH_BITS_REMOTE`. -/
  remoteType : MachMsgTypeName
  /-- `msgh_local_port`. -/
  localPort : PortWord P
  /-- `MACH_MSGH_BITS_LOCAL`. -/
  localType : MachMsgTypeName
  /-- `MACH_MSGH_BITS_COMPLEX`. -/
  complex : Bool
  body : List (Descriptor P M)

/-- `struct ipc_port`. -/
structure IpcPort (P M : Type*) where
  /-- `ip_active`. -/
  active : Bool
  /-- The receiver is `ipc_space_kernel`. -/
  kernel : Bool
  srights : BitVec 32
  nsrequest : Option P
  pdrequest : Option P
  /-- The send-once rights of the dead-name requests. -/
  dnrequests : List P
  /-- The messages in `ip_messages`. -/
  messages : List (IpcKmsg P M)
  /-- The rights that `ipc_kobject_destroy` releases. -/
  kobject : List (P × MachMsgTypeName)

/-- What a thread has still to do. -/
inductive Task (P M : Type*)
  /-- `ipc_kmsg_destroy`. -/
  | destroy (kmsg : IpcKmsg P M)
  /-- The test of the loop in `ipc_kmsg_destroy`. -/
  | loop
  /-- `ipc_kmsg_rmqueue` and `ikm_free` in this loop. -/
  | rmqueue
  /-- The release of an item of a message or a kernel object. -/
  | release (use : Use P M)
  /-- The notifications that are sent with a send-once right; a port-destroyed notification
  comes with a receive right. -/
  | notify (port : P) (right : Option P)
  /-- `ipc_mqueue_send_always`. -/
  | mqueueSend (kmsg : IpcKmsg P M)
  /-- `ipc_port_destroy`. -/
  | portDestroy (port : P)
  /-- `ipc_port_destroy` without a backup. -/
  | portDie (port : P)
  /-- The loop over queued messages in `ipc_port_destroy`. -/
  | flush (port : P)
  /-- `ipc_port_dnnotify`. -/
  | dnnotify (sorights : List P)

/-- A thread and what it works on. -/
structure State (P M : Type*) where
  port : P → IpcPort P M
  ithMessages : List (IpcKmsg P M)
  stack : List (Task P M)
  /-- The next buffer. -/
  fresh : ℕ
  /-- The messages that `ipc_kmsg_clean` was called for. -/
  cleaned : List ℕ
  /-- The messages that were freed then. -/
  freed : List ℕ
  /-- The messages that a receiver or a server in the kernel took, and the replies that were not
  sent. -/
  taken : List (IpcKmsg P M)

/-- How a server in the kernel returns. -/
inductive Served where
  /-- The contents of the request are the server's. -/
  | success
  /-- So is the reply port. -/
  | noReply
  /-- The contents of the request are intact. -/
  | failed
  deriving DecidableEq

/-- What is decided elsewhere: whether there is memory for a notification, what
`ipc_port_check_circularity` says, whether a thread waits for a message, and how a server
returns. -/
structure Choice where
  alloc : Bool
  circular : Bool
  receiver : Bool
  served : Served

variable {P M : Type*}

/-- `ipc_kmsg_clean`: the items that are released. -/
def IpcKmsg.clean (m : IpcKmsg P M) : List (Use P M) :=
  destroyValid m.remotePort m.remoteType ++ destroyValid m.localPort m.localType ++
    if m.complex then cleanBody m.config m.body else []

/-- The message without its destination. -/
def IpcKmsg.undirected (m : IpcKmsg P M) : IpcKmsg P M := { m with remotePort := .null }

/-- The message without its destination and its reply port. -/
def IpcKmsg.bare (m : IpcKmsg P M) : IpcKmsg P M :=
  { m with
    remotePort := .null
    localPort := .null }

/-- A notification, with a receive right if it says that a port is destroyed. -/
def notification (buffer : ℕ) (port : P) (right : Option P) : IpcKmsg P M where
  buffer
  config := ⟨false, 0⟩
  remotePort := .right port
  remoteType := machMsgTypePortSendOnce
  localPort := .null
  localType := 0
  complex := right.isSome
  body := right.toList.map fun p => .port (.right p) machMsgTypePortReceive

/-- The reply of a server in the kernel. -/
def reply (buffer : ℕ) (request : IpcKmsg P M) : IpcKmsg P M where
  buffer
  config := ⟨false, 0⟩
  remotePort := request.localPort
  remoteType := request.localType
  localPort := .null
  localType := 0
  complex := false
  body := []

namespace State

variable (s : State P M)

/-- The thread does something first. -/
def push (tasks : List (Task P M)) : State P M := { s with stack := tasks ++ s.stack }

/-- A port is changed. -/
def setPort [DecidableEq P] (p : P) (x : IpcPort P M) : State P M :=
  { s with port := update s.port p x }

/-- `ipc_kmsg_destroy`. -/
def destroy (m : IpcKmsg P M) : State P M :=
  let empty := s.ithMessages.isEmpty
  let s := { s with ithMessages := s.ithMessages ++ [m] }
  if empty then s.push [.loop] else s

/-- The first message of the queue is cleaned, which stays in it. -/
def loop : State P M :=
  match s.ithMessages with
  | [] => s
  | m :: _ =>
    { s with cleaned := m.buffer :: s.cleaned }.push (m.clean.map Task.release ++ [Task.rmqueue])

/-- The first message of the queue is freed. -/
def rmqueue : Option (State P M) :=
  match s.ithMessages with
  | [] => none
  | m :: rest =>
    some ({ s with
      ithMessages := rest
      freed := m.buffer :: s.freed }.push [.loop])

/-- `ipc_port_release_send`. -/
def releaseSend [DecidableEq P] (p : P) : State P M :=
  let port := s.port p
  if port.active = false then s
  else
    let srights := port.srights - 1
    match (if srights = 0 then port.nsrequest else none) with
    | none => s.setPort p { port with srights }
    | some nsrequest =>
      (s.setPort p { port with
        srights
        nsrequest := none }).push [.notify nsrequest none]

/-- `ipc_object_destroy`, which panics for strange rights. -/
def objectDestroy [DecidableEq P] (p : P) (msgtName : MachMsgTypeName) : Option (State P M) :=
  if msgtName = machMsgTypePortSend then some (s.releaseSend p)
  else if msgtName = machMsgTypePortSendOnce then some (s.push [.notify p none])
  else if msgtName = machMsgTypePortReceive then some (s.push [.portDestroy p])
  else none

/-- An item is released. -/
def release [DecidableEq P] : Use P M → Option (State P M)
  | .released (.right p msgtName) => s.objectDestroy p msgtName
  | .released (.memory _) => some s
  | _ => none

/-- The functions of `ipc_notify.c`. -/
def notify (c : Choice) (port : P) (right : Option P) : State P M :=
  if c.alloc then
    { s with fresh := s.fresh + 1 }.push [.mqueueSend (notification s.fresh port right)]
  else
    match right with
    | none => s
    | some p => s.push [.portDestroy p]

/-- What `ipc_kobject_server` and its caller do with the reply. -/
def sendReply (reply : IpcKmsg P M) : State P M :=
  match reply.remotePort with
  | .right _ => s.push [.mqueueSend reply]
  | _ => s.push [.destroy reply]

/-- `ipc_kobject_server`. -/
def kobjectServer (c : Choice) (request : IpcKmsg P M) : State P M :=
  let reply := KmsgDestroy.reply s.fresh request
  let s := { s with fresh := s.fresh + 1 }
  match c.served with
  | .success => { s with taken := request :: s.taken }.sendReply reply
  | .noReply => { s with taken := reply :: request :: s.taken }
  | .failed => (s.sendReply reply).push [.destroy request.bare]

/-- `ipc_mqueue_send_always`. -/
def mqueueSend [DecidableEq P] (c : Choice) (m : IpcKmsg P M) : Option (State P M) :=
  match m.remotePort with
  | .right p =>
    let port := s.port p
    if port.kernel then some (s.kobjectServer c m)
    else if port.active = false then some (s.push [.destroy m.undirected])
    else if c.receiver then some { s with taken := m :: s.taken }
    else some (s.setPort p { port with messages := port.messages ++ [m] })
  | _ => none

/-- `ipc_port_destroy`, up to where there is no backup. -/
def portDestroy [DecidableEq P] (c : Choice) (p : P) : Option (State P M) :=
  let port := s.port p
  if port.active = false then none
  else
    match port.pdrequest with
    | none => some (s.push [.portDie p])
    | some pdrequest =>
      let s := s.setPort p { port with pdrequest := none }
      if c.circular then some (s.push [.portDie p])
      else some (s.push [.notify pdrequest (some p)])

/-- `ipc_port_destroy` from there on. -/
def portDie [DecidableEq P] (p : P) : Option (State P M) :=
  let port := s.port p
  if port.active = false then none
  else
    some ((s.setPort p { port with
        active := false
        dnrequests := []
        kobject := [] }).push
      (port.nsrequest.toList.map (Task.notify · none) ++ .flush p :: .dnnotify port.dnrequests ::
        port.kobject.map fun r => .release (.released (.right r.1 r.2))))

/-- A queued message is taken from the queue and destroyed. -/
def flush [DecidableEq P] (p : P) : State P M :=
  let port := s.port p
  match port.messages with
  | [] => s
  | m :: rest =>
    (s.setPort p { port with messages := rest }).push [.destroy m.undirected, .flush p]

/-- `ipc_port_dnnotify`. -/
def dnnotify : List P → State P M
  | [] => s
  | soright :: rest => s.push [.notify soright none, .dnnotify rest]

/-- What the thread does next. -/
def step [DecidableEq P] (c : Choice) : Option (State P M) :=
  match s.stack with
  | [] => none
  | task :: stack =>
    let s := { s with stack }
    match task with
    | .destroy m => some (s.destroy m)
    | .loop => some s.loop
    | .rmqueue => s.rmqueue
    | .release use => s.release use
    | .notify port right => some (s.notify c port right)
    | .mqueueSend m => s.mqueueSend c m
    | .portDestroy p => s.portDestroy c p
    | .portDie p => s.portDie p
    | .flush p => some (s.flush p)
    | .dnnotify sorights => some (s.dnnotify sorights)

/-- One step of the thread. -/
def Step [DecidableEq P] (s : State P M) (c : Choice) (s' : State P M) : Prop :=
  s.step c = some s'

end State

end KmsgDestroy

end MachVirtuTerm

/-!
# What the steps of a destruction do to sums

While a message is cleaned, everything that a step takes up or brings about can be weighed: the
ports, the messages that wait for the thread and its tasks. A relation between weights that
holds for each kind of step in itself holds for the sums.
-/

namespace MachVirtuTerm

namespace KmsgDestroy

open Kmsg

variable {P M A : Type*} [AddCommMonoid A]

/-- A port that has died. -/
def IpcPort.dead (x : IpcPort P M) : IpcPort P M :=
  { x with
    active := false
    dnrequests := []
    kobject := [] }

/-- What is done when a port has died. -/
def deathTasks (p : P) (x : IpcPort P M) : List (Task P M) :=
  x.nsrequest.toList.map (Task.notify · none) ++ .flush p :: .dnnotify x.dnrequests ::
    x.kobject.map fun r => .release (.released (.right r.1 r.2))

/-- A port dies. -/
theorem portDie_eq [DecidableEq P] {s s' : State P M} {p : P} (hstep : s.portDie p = some s') :
    (s.port p).active = true ∧
      s' = (s.setPort p (s.port p).dead).push (deathTasks p (s.port p)) := by
  rw [State.portDie] at hstep
  split at hstep
  · cases hstep
  next hactive =>
    cases hstep
    exact ⟨by simpa using hactive, rfl⟩

/-- A notification is made. -/
theorem notify_of_alloc (s : State P M) {c : Choice} (h : c.alloc = true) (q : P)
    (right : Option P) : s.notify c q right =
      { s with fresh := s.fresh + 1 }.push [.mqueueSend (notification s.fresh q right)] := by
  cases right <;> exact if_pos h

/-- There is no memory for a notification. -/
theorem notify_of_not_alloc (s : State P M) {c : Choice} (h : ¬c.alloc = true) (q : P) :
    s.notify c q none = s := if_neg h

/-- There is no memory for a notification with a receive right. -/
theorem notify_right_of_not_alloc (s : State P M) {c : Choice} (h : ¬c.alloc = true) (q p : P) :
    s.notify c q (some p) = s.push [.portDestroy p] := if_neg h

/-- Weights of ports, of waiting messages, of tasks, and of the buffers that are not there. -/
structure Weight (P M A : Type*) where
  port : P → IpcPort P M → A
  message : IpcKmsg P M → A
  task : Task P M → A
  /-- Of the next buffer and the messages that were taken. -/
  outside : ℕ → List (IpcKmsg P M) → A

/-- The weights of all but the first of the messages that wait. -/
def Weight.sum [Fintype P] (w : Weight P M A) (s : State P M) : A :=
  ∑ p, w.port p (s.port p) + (s.ithMessages.tail.map w.message).sum + (s.stack.map w.task).sum +
    w.outside s.fresh s.taken

variable [Fintype P] (w : Weight P M A) (s : State P M)

theorem sum_push (tasks : List (Task P M)) :
    w.sum (s.push tasks) = (tasks.map w.task).sum + w.sum s := by
  simp only [Weight.sum, State.push, map_append, sum_append]
  ac_rfl

theorem sum_pop (task : Task P M) (stack : List (Task P M)) (h : s.stack = task :: stack) :
    w.sum s = w.task task + w.sum { s with stack } := by
  simp only [Weight.sum, h, map_cons, sum_cons]
  ac_rfl

/-- A port has a part in the sum of its own. -/
theorem sum_setPort [DecidableEq P] (p : P) :
    ∃ rest, w.sum s = w.port p (s.port p) + rest ∧
      ∀ x, w.sum (s.setPort p x) = w.port p x + rest := by
  refine ⟨∑ q ∈ Finset.univ \ {p}, w.port q (s.port q) +
    ((s.ithMessages.tail.map w.message).sum + (s.stack.map w.task).sum +
      w.outside s.fresh s.taken), ?_, fun x => ?_⟩
  · rw [Weight.sum, Finset.sum_eq_add_sum_sdiff_singleton_of_mem (Finset.mem_univ p)]
    ac_rfl
  · have hupdate : (fun q => w.port q (update s.port p x q)) =
        update (fun q => w.port q (s.port q)) p (w.port p x) := by
      funext q
      by_cases hq : q = p
      · subst hq
        simp
      · simp [hq]
    have hports : ∑ q, w.port q (update s.port p x q) =
        w.port p x + ∑ q ∈ Finset.univ \ {p}, w.port q (s.port q) := by
      rw [hupdate, Finset.sum_update_of_mem (Finset.mem_univ p)]
    simp only [Weight.sum, State.setPort]
    rw [hports]
    ac_rfl

/-- A message is put behind the one that is cleaned. -/
theorem sum_destroy (m : IpcKmsg P M) (h : s.ithMessages ≠ []) :
    w.sum (s.destroy m) = w.message m + w.sum s := by
  obtain ⟨first, rest, hlist⟩ := exists_cons_of_ne_nil h
  simp only [Weight.sum, State.destroy, hlist, isEmpty_cons, Bool.false_eq_true, if_false,
    cons_append, tail_cons, map_append, sum_append, map_cons,
    map_nil, sum_cons, sum_nil, add_zero]
  ac_rfl

theorem sum_outside (fresh : ℕ) (taken : List (IpcKmsg P M)) :
    ∃ rest, w.sum s = w.outside s.fresh s.taken + rest ∧
      w.sum { s with fresh, taken } = w.outside fresh taken + rest := by
  refine ⟨∑ p, w.port p (s.port p) + (s.ithMessages.tail.map w.message).sum +
    (s.stack.map w.task).sum, ?_, ?_⟩
  · rw [Weight.sum]
    ac_rfl
  · rw [Weight.sum]
    ac_rfl

/-- A task that is neither the loop over waiting messages nor the end of its round. -/
def Task.Plain : Task P M → Prop
  | .loop | .rmqueue => False
  | _ => True

/-- What becomes of a reply. -/
def replyTask (m : IpcKmsg P M) : Task P M :=
  match m.remotePort with
  | .right _ => .mqueueSend m
  | _ => .destroy m

/-- A release of a right. -/
abbrev Task.releaseRight (p : P) (msgtName : MachMsgTypeName) : Task P M :=
  .release (.released (.right p msgtName))

/-- The weights of what each kind of step brings about are related to those of what it takes
up. -/
structure Weight.Balanced (w : Weight P M A) (r : A → A → Prop) : Prop where
  destroy : ∀ m, r (w.message m) (w.task (.destroy m))
  memory : ∀ m, r 0 (w.task (.release (.released (.memory m))))
  deadSend : ∀ p, r 0 (w.task (.releaseRight p machMsgTypePortSend))
  send : ∀ p x srights, r (w.port p { x with srights })
    (w.port p x + w.task (.releaseRight p machMsgTypePortSend))
  noSenders : ∀ p x srights q, x.active = true → x.nsrequest = some q →
    r (w.task (.notify q none) + w.port p { x with
        srights
        nsrequest := none })
      (w.port p x + w.task (.releaseRight p machMsgTypePortSend))
  sendOnce : ∀ p, r (w.task (.notify p none)) (w.task (.releaseRight p machMsgTypePortSendOnce))
  receive : ∀ p, r (w.task (.portDestroy p)) (w.task (.releaseRight p machMsgTypePortReceive))
  notify : ∀ q right fresh taken,
    r (w.task (.mqueueSend (notification fresh q right)) + w.outside (fresh + 1) taken)
      (w.task (.notify q right) + w.outside fresh taken)
  dropped : ∀ q, r 0 (w.task (.notify q none))
  droppedRight : ∀ q p, r (w.task (.portDestroy p)) (w.task (.notify q (some p)))
  served : ∀ m fresh taken,
    r (w.task (replyTask (reply fresh m)) + w.outside (fresh + 1) (m :: taken))
      (w.task (.mqueueSend m) + w.outside fresh taken)
  noReply : ∀ m fresh taken, r (w.outside (fresh + 1) (reply fresh m :: m :: taken))
    (w.task (.mqueueSend m) + w.outside fresh taken)
  failed : ∀ m fresh taken,
    r (w.task (.destroy m.bare) +
        (w.task (replyTask (reply fresh m)) + w.outside (fresh + 1) taken))
      (w.task (.mqueueSend m) + w.outside fresh taken)
  undelivered : ∀ m, r (w.task (.destroy m.undirected)) (w.task (.mqueueSend m))
  received : ∀ m fresh taken, r (w.outside fresh (m :: taken))
    (w.task (.mqueueSend m) + w.outside fresh taken)
  enqueued : ∀ p m x, r (w.port p { x with messages := x.messages ++ [m] })
    (w.port p x + w.task (.mqueueSend m))
  noBackup : ∀ p, r (w.task (.portDie p)) (w.task (.portDestroy p))
  circular : ∀ p x q, x.pdrequest = some q →
    r (w.task (.portDie p) + w.port p { x with pdrequest := none })
      (w.port p x + w.task (.portDestroy p))
  backup : ∀ p x q, x.pdrequest = some q →
    r (w.task (.notify q (some p)) + w.port p { x with pdrequest := none })
      (w.port p x + w.task (.portDestroy p))
  die : ∀ p x, x.active = true →
    r (((deathTasks p x).map w.task).sum + w.port p x.dead) (w.port p x + w.task (.portDie p))
  flushed : ∀ p, r 0 (w.task (.flush p))
  flush : ∀ p x m rest, x.messages = m :: rest →
    r (w.task (.destroy m.undirected) + w.task (.flush p) + w.port p { x with messages := rest })
      (w.port p x + w.task (.flush p))
  notified : r 0 (w.task (.dnnotify []))
  dnnotify : ∀ q rest, r (w.task (.notify q none) + w.task (.dnnotify rest))
    (w.task (.dnnotify (q :: rest)))

section Balanced

variable {w} {s} {r : A → A → Prop}

/-- What is related in itself is related in a sum. -/
theorem related_zero (hadd : ∀ a b c, r a b → r (a + c) (b + c)) {a : A} (h : r 0 a) (c : A) :
    r c (a + c) := by
  have := hadd 0 a c h
  rwa [zero_add] at this

theorem balanced_releaseSend [DecidableEq P] (h : w.Balanced r)
    (hadd : ∀ a b c, r a b → r (a + c) (b + c)) (p : P) :
    r (w.sum (s.releaseSend p)) (w.task (.releaseRight p machMsgTypePortSend) + w.sum s) := by
  obtain ⟨rest, hsum, hset⟩ := sum_setPort w s p
  rw [State.releaseSend]
  by_cases hactive : (s.port p).active = false
  · rw [if_pos hactive]
    exact related_zero hadd (h.deadSend p) _
  rw [if_neg hactive]
  have htrue : (s.port p).active = true := by simpa using hactive
  dsimp only
  split
  · rw [hset, hsum, add_left_comm, ← add_assoc]
    exact hadd _ _ rest (h.send p _ _)
  next q hq =>
    have hns : (s.port p).nsrequest = some q := by
      split at hq
      · exact hq
      · cases hq
    rw [sum_push, hset, hsum]
    simp only [map_cons, map_nil, sum_cons, sum_nil, add_zero]
    rw [← add_assoc, add_left_comm, ← add_assoc]
    exact hadd _ _ rest (h.noSenders p _ _ q htrue hns)

theorem balanced_release [DecidableEq P] (h : w.Balanced r)
    (hadd : ∀ a b c, r a b → r (a + c) (b + c)) {use : Use P M} {s' : State P M}
    (hstep : s.release use = some s') : r (w.sum s') (w.task (.release use) + w.sum s) := by
  match use, hstep with
  | .released (.memory m), hstep =>
    cases hstep
    exact related_zero hadd (h.memory m) _
  | .released (.right p msgtName), hstep =>
    rw [State.release, State.objectDestroy] at hstep
    split at hstep
    next htype =>
      cases hstep
      subst htype
      exact balanced_releaseSend h hadd p
    split at hstep
    next htype =>
      cases hstep
      subst htype
      rw [sum_push]
      simp only [map_cons, map_nil, sum_cons, sum_nil, add_zero]
      exact hadd _ _ _ (h.sendOnce p)
    split at hstep
    next htype =>
      cases hstep
      subst htype
      rw [sum_push]
      simp only [map_cons, map_nil, sum_cons, sum_nil, add_zero]
      exact hadd _ _ _ (h.receive p)
    · cases hstep

theorem balanced_notify (h : w.Balanced r) (hadd : ∀ a b c, r a b → r (a + c) (b + c))
    (c : Choice) (q : P) (right : Option P) :
    r (w.sum (s.notify c q right)) (w.task (.notify q right) + w.sum s) := by
  by_cases halloc : c.alloc = true
  · obtain ⟨rest, hsum, hout⟩ := sum_outside w s (s.fresh + 1) s.taken
    rw [notify_of_alloc s halloc, sum_push, hout, hsum]
    simpa only [map_cons, map_nil, sum_cons, sum_nil, add_zero, add_assoc]
      using hadd _ _ rest (h.notify q right s.fresh s.taken)
  · cases right with
    | none =>
      rw [notify_of_not_alloc s halloc]
      exact related_zero hadd (h.dropped q) _
    | some p =>
      rw [notify_right_of_not_alloc s halloc, sum_push]
      simp only [map_cons, map_nil, sum_cons, sum_nil, add_zero]
      exact hadd _ _ _ (h.droppedRight q p)

theorem sum_sendReply (s : State P M) (m : IpcKmsg P M) :
    w.sum (s.sendReply m) = w.task (replyTask m) + w.sum s := by
  cases hport : m.remotePort <;> simp [State.sendReply, replyTask, hport, sum_push]

theorem balanced_kobjectServer (h : w.Balanced r) (hadd : ∀ a b c, r a b → r (a + c) (b + c))
    (c : Choice) (m : IpcKmsg P M) :
    r (w.sum (s.kobjectServer c m)) (w.task (.mqueueSend m) + w.sum s) := by
  rw [State.kobjectServer]
  dsimp only
  cases c.served with
  | success =>
    obtain ⟨rest, hsum, hout⟩ := sum_outside w s (s.fresh + 1) (m :: s.taken)
    dsimp only
    rw [sum_sendReply, hout, hsum, ← add_assoc, ← add_assoc]
    exact hadd _ _ rest (h.served m _ _)
  | noReply =>
    obtain ⟨rest, hsum, hout⟩ := sum_outside w s (s.fresh + 1) (reply s.fresh m :: m :: s.taken)
    dsimp only
    rw [hout, hsum, ← add_assoc]
    exact hadd _ _ rest (h.noReply m _ _)
  | failed =>
    obtain ⟨rest, hsum, hout⟩ := sum_outside w s (s.fresh + 1) s.taken
    dsimp only
    rw [sum_push, sum_sendReply, hout, hsum]
    simpa only [map_cons, map_nil, sum_cons, sum_nil, add_zero, add_assoc]
      using hadd _ _ rest (h.failed m s.fresh s.taken)

theorem balanced_mqueueSend [DecidableEq P] (h : w.Balanced r)
    (hadd : ∀ a b c, r a b → r (a + c) (b + c)) (c : Choice) {m : IpcKmsg P M} {s' : State P M}
    (hstep : s.mqueueSend c m = some s') :
    r (w.sum s') (w.task (.mqueueSend m) + w.sum s) := by
  rw [State.mqueueSend] at hstep
  split at hstep
  next p _ =>
    dsimp only at hstep
    split at hstep
    · cases hstep
      exact balanced_kobjectServer h hadd c m
    split at hstep
    · cases hstep
      rw [sum_push]
      simp only [map_cons, map_nil, sum_cons, sum_nil, add_zero]
      exact hadd _ _ _ (h.undelivered m)
    split at hstep
    · cases hstep
      obtain ⟨rest, hsum, hout⟩ := sum_outside w s s.fresh (m :: s.taken)
      rw [hout, hsum, ← add_assoc]
      exact hadd _ _ rest (h.received m _ _)
    · cases hstep
      obtain ⟨rest, hsum, hset⟩ := sum_setPort w s p
      rw [hset, hsum, add_left_comm, ← add_assoc]
      exact hadd _ _ rest (h.enqueued p m _)
  · cases hstep

theorem balanced_portDestroy [DecidableEq P] (h : w.Balanced r)
    (hadd : ∀ a b c, r a b → r (a + c) (b + c)) (c : Choice) {p : P} {s' : State P M}
    (hstep : s.portDestroy c p = some s') :
    r (w.sum s') (w.task (.portDestroy p) + w.sum s) := by
  obtain ⟨rest, hsum, hset⟩ := sum_setPort w s p
  rw [State.portDestroy] at hstep
  split at hstep
  · cases hstep
  split at hstep
  · cases hstep
    rw [sum_push]
    simp only [map_cons, map_nil, sum_cons, sum_nil, add_zero]
    exact hadd _ _ _ (h.noBackup p)
  next q hq =>
    split at hstep
    · cases hstep
      rw [sum_push, hset, hsum]
      simp only [map_cons, map_nil, sum_cons, sum_nil, add_zero]
      rw [← add_assoc, add_left_comm, ← add_assoc]
      exact hadd _ _ rest (h.circular p _ q hq)
    · cases hstep
      rw [sum_push, hset, hsum]
      simp only [map_cons, map_nil, sum_cons, sum_nil, add_zero]
      rw [← add_assoc, add_left_comm, ← add_assoc]
      exact hadd _ _ rest (h.backup p _ q hq)

theorem balanced_portDie [DecidableEq P] (h : w.Balanced r)
    (hadd : ∀ a b c, r a b → r (a + c) (b + c)) {p : P} {s' : State P M}
    (hstep : s.portDie p = some s') : r (w.sum s') (w.task (.portDie p) + w.sum s) := by
  obtain ⟨rest, hsum, hset⟩ := sum_setPort w s p
  obtain ⟨hactive, rfl⟩ := portDie_eq hstep
  rw [sum_push, hset, hsum, ← add_assoc, add_left_comm, ← add_assoc]
  exact hadd _ _ rest (h.die p _ hactive)

theorem balanced_flush [DecidableEq P] (h : w.Balanced r)
    (hadd : ∀ a b c, r a b → r (a + c) (b + c)) (p : P) :
    r (w.sum (s.flush p)) (w.task (.flush p) + w.sum s) := by
  obtain ⟨rest, hsum, hset⟩ := sum_setPort w s p
  rw [State.flush]
  split
  · exact related_zero hadd (h.flushed p) _
  next m messages hmessages =>
    rw [sum_push, hset, hsum]
    simp only [map_cons, map_nil, sum_cons, sum_nil, add_zero]
    rw [← add_assoc, add_left_comm (w.task (.flush p)), ← add_assoc]
    exact hadd _ _ rest (h.flush p _ m messages hmessages)

theorem balanced_dnnotify (h : w.Balanced r) (hadd : ∀ a b c, r a b → r (a + c) (b + c))
    (sorights : List P) :
    r (w.sum (s.dnnotify sorights)) (w.task (.dnnotify sorights) + w.sum s) := by
  cases sorights with
  | nil => exact related_zero hadd h.notified _
  | cons q rest =>
    rw [State.dnnotify, sum_push]
    simp only [map_cons, map_nil, sum_cons, sum_nil, add_zero]
    exact hadd _ _ _ (h.dnnotify q rest)

/-- While a message is cleaned, the sums before and after a step are related as the weights of
what it takes up and brings about are. -/
theorem Weight.Balanced.step [DecidableEq P] (h : w.Balanced r)
    (hadd : ∀ a b c, r a b → r (a + c) (b + c)) {c : Choice} {s' : State P M} {task : Task P M}
    {stack : List (Task P M)} (hstack : s.stack = task :: stack) (hplain : task.Plain)
    (hfirst : s.ithMessages ≠ []) (hstep : s.step c = some s') : r (w.sum s') (w.sum s) := by
  rw [sum_pop w s task stack hstack]
  rw [State.step, hstack] at hstep
  dsimp only at hstep
  generalize hs : { s with stack } = popped at hstep ⊢
  have hfirst' : popped.ithMessages ≠ [] := by
    rw [← hs]
    exact hfirst
  cases task with
  | loop => exact hplain.elim
  | rmqueue => exact hplain.elim
  | destroy m =>
    cases hstep
    rw [sum_destroy w popped m hfirst']
    exact hadd _ _ _ (h.destroy m)
  | release use => exact balanced_release h hadd hstep
  | notify q right =>
    cases hstep
    exact balanced_notify h hadd c q right
  | mqueueSend m => exact balanced_mqueueSend h hadd c hstep
  | portDestroy p => exact balanced_portDestroy h hadd c hstep
  | portDie p => exact balanced_portDie h hadd hstep
  | flush p =>
    cases hstep
    exact balanced_flush h hadd p
  | dnnotify sorights =>
    cases hstep
    exact balanced_dnnotify h hadd sorights

end Balanced

end KmsgDestroy

end MachVirtuTerm
