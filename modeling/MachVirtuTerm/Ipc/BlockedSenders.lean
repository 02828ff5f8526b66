import MachVirtuTerm.Ipc.MqueueSend

/-!
# The queue of blocked senders

A step leaves the senders' queues alone, puts the thread at the end of one, wakes the
first sender of one, or ends a wait nobody has ended: the last kind leaves a thread in a
queue that no longer waits in it, and is the only one to do so.
-/

open List Option

namespace MachVirtuTerm

open SendThread SendEvent

variable {P T : Type*}

/-- The only place after a wait. -/
theorem SendPc.eq_sendWoken {pc : SendPc P} (h : pc.woken = true) :
    ∃ port call result, pc = .sendWoken port call result := by
  cases pc with
  | sendWoken port call result => exact ⟨port, call, result, rfl⟩
  | _ => cases h

/-- `clear_wait` does not change the state a sender is told. -/
theorem SendThread.clearWait_ithState (th : SendThread) (r : WaitResult) :
    (th.clearWait r).ithState = th.ithState := by
  unfold clearWait
  split_ifs <;> rfl

/-- `thread_go` does not change the state a sender is told. -/
theorem SendThread.threadGo_ithState (th : SendThread) : th.threadGo.ithState = th.ithState :=
  clearWait_ithState _ _

namespace SendState

variable {s s' s₁ : SendState P T} {t : T} {port : P} {pc : SendPc P} {call : SendCall}
  {result : Option WaitResult} {action : SendAction P} {label : SendLabel P T}

/-- The queue part of two states is the same. -/
structure SameQueues (s s₁ : SendState P T) : Prop where
  links : s₁.ithLinks = s.ithLinks
  blocked : ∀ p, (s₁.port p).ipBlocked = (s.port p).ipBlocked
  ithState : ∀ u, (s₁.thread u).ithState = (s.thread u).ithState
  pc : s₁.pc = s.pc

/-- What a step does to the senders' queues and to those who wait in them. -/
inductive StepEffect [DecidableEq T] (s s' : SendState P T) (t : T) : SendLabel P T → Prop
  | frame (links : s'.ithLinks = s.ithLinks)
    (blocked : ∀ p, (s'.port p).ipBlocked = (s.port p).ipBlocked)
    (blockedIn : ∀ u p, s'.BlockedIn u p ↔ s.BlockedIn u p) : StepEffect s s' t .quiet
  | enqueue (port : P) (out : ∀ p, ¬s.BlockedIn t p)
    (links : s'.ithLinks = (s.ithLinks.enqueue (s.port port).ipBlocked t).1)
    (base : (s'.port port).ipBlocked = (s.ithLinks.enqueue (s.port port).ipBlocked t).2)
    (blocked : ∀ p, p ≠ port → (s'.port p).ipBlocked = (s.port p).ipBlocked)
    (blockedIn : ∀ u p, s'.BlockedIn u p ↔ s.BlockedIn u p ∨ u = t ∧ p = port) :
    StepEffect s s' t .quiet
  | wake (port : P) (sender : T) (first : (s.port port).ipBlocked = some sender)
    (links : s'.ithLinks = (s.ithLinks.remove (s.port port).ipBlocked sender).1)
    (base : (s'.port port).ipBlocked = (s.ithLinks.remove (s.port port).ipBlocked sender).2)
    (blocked : ∀ p, p ≠ port → (s'.port p).ipBlocked = (s.port p).ipBlocked)
    (blockedIn : ∀ u p, s'.BlockedIn u p ↔ s.BlockedIn u p ∧ u ≠ sender) :
    StepEffect s s' t (.woke port sender)

/-- The effect of a step that gives up a wait. -/
structure GiveUpEffect (s s' : SendState P T) (t : T) : Prop where
  links : s'.ithLinks = s.ithLinks
  blocked : ∀ p, (s'.port p).ipBlocked = (s.port p).ipBlocked
  before : ∃ p, s.BlockedIn t p
  after : ∀ p, ¬s'.BlockedIn t p

/-- The queues of all ports hold exactly the threads blocked in sends to them, each once,
and a thread that has returned from its call is in none. -/
structure SendersExact (s : SendState P T) : Prop where
  blocked : ∀ p, ∃ l, s.BlockedQueue p l ∧ ∀ t, t ∈ l ↔ s.BlockedIn t p
  returned : ∀ t mr, s.pc t = .returned mr → ∀ p l, s.BlockedQueue p l → t ∉ l

/-- The invariant. -/
structure SendInv (s : SendState P T) : Prop where
  blocked : ∀ p, ∃ l, s.BlockedQueue p l ∧ ∀ t, t ∈ l ↔ s.BlockedIn t p
  single : ∀ t, (∀ p, ¬s.BlockedIn t p) → s.ithLinks.Single t

/-- A thread is blocked on one port. -/
theorem BlockedIn.port_unique {p q : P} (hp : s.BlockedIn t p) (hq : s.BlockedIn t q) : p = q :=
  Option.some.inj (hp.1.symm.trans hq.1)

/-- In queues that hold exactly the blocked senders nobody else is found. -/
theorem SendInv.exact (h : SendInv s) : s.SendersExact := by
  refine ⟨h.blocked, fun t mr hpc p l hl ht => ?_⟩
  obtain ⟨m, hm, hmem⟩ := h.blocked p
  obtain rfl : l = m := hl.unique hm
  have hwaits := ((hmem t).mp ht).1
  rw [hpc] at hwaits
  exact absurd hwaits (by simp [SendPc.waitsOn])

/-- Nobody is blocked at the beginning. -/
theorem Initial.inv (h : s.Initial) : SendInv s := by
  have hout : ∀ t p, ¬s.BlockedIn t p := by
    intro t p hin
    have hwaits := hin.1
    rw [h.pc t] at hwaits
    exact absurd hwaits (by simp [SendPc.waitsOn])
  refine ⟨fun p => ⟨[], ?_, fun t => ?_⟩, fun t _ => h.links t⟩
  · rw [BlockedQueue, h.blocked p]
    exact Links.queue_nil
  · simp [hout t p]

/-- Links that agree on a cell agree on whether it is alone. -/
theorem single_of_agreeOn {L L' : Links T} (h : L.AgreeOn L' t) (hsingle : L.Single t) :
    L'.Single t :=
  ⟨h.1.trans hsingle.1, h.2.trans hsingle.2⟩

/-- After a step that gives up a wait a thread is in a queue it is not blocked in. -/
theorem GiveUpEffect.not_exact (h : GiveUpEffect s s' t) (hs : s.SendersExact) :
    ¬s'.SendersExact := by
  intro hs'
  obtain ⟨p, hin⟩ := h.before
  obtain ⟨l, hl, hmem⟩ := hs.blocked p
  obtain ⟨m, hm, hmem'⟩ := hs'.blocked p
  rw [BlockedQueue, h.links, h.blocked p] at hm
  obtain rfl : l = m := hl.unique hm
  exact h.after p ((hmem' t).mp ((hmem t).mpr hin))

theorem SameQueues.refl (s : SendState P T) : SameQueues s s :=
  ⟨rfl, fun _ => rfl, fun _ => rfl, rfl⟩

/-- Locking and unlocking does not touch the queues. -/
theorem SameQueues.ipUnlock [DecidableEq P] (h : SameQueues s s₁) : SameQueues s (s₁.ipUnlock port) :=
  ⟨h.links, h.blocked, h.ithState, h.pc⟩

/-- Storing a port does not touch the queues when its base stays. -/
theorem SameQueues.setPort [DecidableEq P] (h : SameQueues s s₁) {p : SendPort P T}
    (hp : p.ipBlocked = (s.port port).ipBlocked) : SameQueues s (s₁.setPort port p) := by
  refine ⟨h.links, fun q => ?_, h.ithState, h.pc⟩
  by_cases hq : q = port
  · obtain rfl := hq
    simpa [SendState.setPort] using hp
  · simpa [SendState.setPort, hq] using h.blocked q

/-- Storing a thread does not touch the queues when its state stays. -/
theorem SameQueues.setThread [DecidableEq T] (h : SameQueues s s₁) {th : SendThread}
    (hth : th.ithState = (s.thread t).ithState) : SameQueues s (s₁.setThread t th) := by
  refine ⟨h.links, h.blocked, fun u => ?_, h.pc⟩
  by_cases hu : u = t
  · obtain rfl := hu
    simpa [SendState.setThread] using hth
  · simpa [SendState.setThread, hu] using h.ithState u

/-- Who is blocked depends on where threads wait and on their states. -/
theorem BlockedIn.congr {u : T} {p : P} (hpc : (s'.pc u).waitsOn = (s.pc u).waitsOn)
    (hstate : (s'.thread u).ithState = (s.thread u).ithState) :
    s'.BlockedIn u p ↔ s.BlockedIn u p := by
  rw [BlockedIn, BlockedIn, hpc, hstate]

variable [DecidableEq T]

/-- A step that does not touch the queues, and after which the thread waits where it
waited before. -/
theorem SameQueues.goto (h : SameQueues s s₁) (hpc : pc.waitsOn = (s.pc t).waitsOn) :
    StepEffect s (s₁.goto t pc) t .quiet := by
  refine .frame h.links h.blocked fun u p => BlockedIn.congr ?_ (h.ithState u)
  by_cases hu : u = t
  · obtain rfl := hu
    simpa [SendState.goto] using hpc
  · simp [SendState.goto, hu, h.pc]

/-- A step that does not touch the queues, of a thread that has been told to go on. -/
theorem SameQueues.goto_success (h : SameQueues s s₁)
    (hstate : (s.thread t).ithState = .machMsgSuccess) :
    StepEffect s (s₁.goto t pc) t .quiet := by
  refine .frame h.links h.blocked fun u p => ?_
  by_cases hu : u = t
  · obtain rfl := hu
    have hstate' : ((s₁.goto u pc).thread u).ithState = .machMsgSuccess :=
      (h.ithState u).trans hstate
    simp [BlockedIn, hstate, hstate']
  · refine BlockedIn.congr ?_ (h.ithState u)
    simp [SendState.goto, hu, h.pc]

/-- A step that does not move the thread. -/
theorem SameQueues.stay (h : SameQueues s s₁) : StepEffect s s₁ t .quiet :=
  .frame h.links h.blocked fun u _ => BlockedIn.congr (by rw [h.pc]) (h.ithState u)

/-- What a sender does after its wait when it has been told to go on. -/
theorem sendWokenStep_effect (hstate : (s.thread t).ithState ≠ .machSendInProgress)
    (h : s.sendWokenStep t port call result = some s') : StepEffect s s' t .quiet := by
  unfold sendWokenStep at h
  split at h
  · rename_i hsuccess
    cases h
    exact (SameQueues.refl s).goto_success hsuccess
  · cases h

/-- What a sender does after its wait when nobody has told it to go on. -/
theorem sendWokenStep_giveUp (hpc : s.pc t = .sendWoken port call result)
    (hstate : (s.thread t).ithState = .machSendInProgress)
    (h : s.sendWokenStep t port call result = some s') : GiveUpEffect s s' t := by
  have hbefore : s.BlockedIn t port := ⟨by rw [hpc]; rfl, hstate⟩
  have hgoto : ∀ pc : SendPc P, pc.waitsOn = none → GiveUpEffect s (s.goto t pc) t := by
    intro pc hout
    refine ⟨rfl, fun _ => rfl, ⟨port, hbefore⟩, fun p hp => ?_⟩
    have hwaits : ((s.goto t pc).pc t).waitsOn = none := by simp [SendState.goto, hout]
    exact absurd (hwaits.symm.trans hp.1) (by simp)
  simp only [sendWokenStep, hstate, reduceCtorEq, if_false, ne_eq, not_true_eq_false] at h
  split at h
  · cases h
    exact hgoto _ rfl
  · cases h
    exact hgoto _ rfl
  · cases h

/-- `ipc_port_set_qlimit` up to its loop does not touch the queues. -/
theorem setQlimitStep_effect {qlimit : ℕ} (hpc : s.pc t = .setQlimit port qlimit) :
    StepEffect s (s.setQlimitStep t port qlimit) t .quiet := by
  have hout : (s.pc t).waitsOn = none := by rw [hpc]; rfl
  unfold setQlimitStep
  split
  · exact (SameQueues.refl s).goto hout.symm
  split
  · exact (SameQueues.refl s).goto hout.symm
  · exact (SameQueues.refl s).goto hout.symm

/-- Beginning a call. -/
theorem call_effect (h : s.call t pc = some (s', label)) (hpc : pc.waitsOn = none) :
    StepEffect s s' t label := by
  unfold call at h
  split at h
  · rename_i hidle
    cases h
    exact (SameQueues.refl s).goto (by rw [hidle]; exact hpc)
  · rename_i hret
    cases h
    exact (SameQueues.refl s).goto (by rw [hret]; exact hpc)
  · cases h

variable [DecidableEq P]

/-- Taking a lock. -/
theorem ipLock_effect (h : (s.ipLock t port pc).map (·, SendLabel.quiet) = some (s', label))
    (hpc : pc.waitsOn = (s.pc t).waitsOn) : StepEffect s s' t label := by
  unfold ipLock at h
  split_ifs at h
  · cases h
    refine SameQueues.goto ?_ hpc
    exact ⟨rfl, fun _ => rfl, fun _ => rfl, rfl⟩
  · cases h

/-- Taking the first cell of a queue out by either routine is the same. -/
theorem ipcThreadDequeue_eq {first : T} (h : (s.port port).ipBlocked = some first) :
    s.ipcThreadDequeue port first = s.ipcThreadRmqueue port first := by
  rw [ipcThreadDequeue, ipcThreadRmqueue, Links.removeFirst_eq, h]

/-- Taking the first sender out of the queue and waking it. -/
theorem SameQueues.wake (h : SameQueues s s₁) {sender : T}
    (hfirst : (s.port port).ipBlocked = some sender) (hbefore : (s.pc t).waitsOn = none)
    (hafter : pc.waitsOn = none) :
    StepEffect s (((s₁.ipcThreadRmqueue port sender).wakeSender sender).goto t pc) t
      (.woke port sender) := by
  refine .wake port sender hfirst ?_ ?_ (fun p hp => ?_) fun u p => ?_
  · change (s₁.ithLinks.remove (s₁.port port).ipBlocked sender).1 = _
    rw [h.links, h.blocked]
  · change ((s₁.ipcThreadRmqueue port sender).port port).ipBlocked = _
    simp [ipcThreadRmqueue, setBlocked, SendState.setPort, h.links, h.blocked]
  · change ((s₁.ipcThreadRmqueue port sender).port p).ipBlocked = _
    simp [ipcThreadRmqueue, setBlocked, SendState.setPort, hp, h.blocked]
  · by_cases hu : u = t
    · obtain rfl := hu
      simp [BlockedIn, SendState.goto, hbefore, hafter]
    · by_cases hsender : u = sender
      · obtain rfl := hsender
        have hstate : ((s₁.ipcThreadRmqueue port u).wakeSender u).thread u =
            { (s₁.ipcThreadRmqueue port u).thread u with ithState := .machMsgSuccess }.threadGo := by
          simp [wakeSender, SendState.setThread]
        simp [BlockedIn, SendState.goto, hstate, threadGo_ithState]
      · simp only [ne_eq, hsender, not_false_eq_true, and_true]
        refine BlockedIn.congr ?_ ?_
        · simp [SendState.goto, hu, wakeSender, SendState.setThread, ipcThreadRmqueue, setBlocked,
            SendState.setPort, h.pc]
        · simp [SendState.goto, wakeSender, SendState.setThread, hsender, ipcThreadRmqueue,
            setBlocked, SendState.setPort, h.ithState]

/-- A turn of the loop of `ipc_mqueue_send`. -/
theorem sendLoopStep_effect (hpc : s.pc t = .sendLoop port call) :
    StepEffect s (s.sendLoopStep t port call) t .quiet := by
  have hout : (s.pc t).waitsOn = none := by rw [hpc]; rfl
  unfold sendLoopStep
  split
  · exact (SameQueues.refl s).goto hout.symm
  split
  · exact (SameQueues.refl s).goto hout.symm
  split
  · exact (SameQueues.refl s).goto hout.symm
  · refine .enqueue port (fun p hp => ?_) rfl ?_ (fun p hp => ?_) fun u p => ?_
    · rw [BlockedIn, hout] at hp
      exact absurd hp.1 (by simp)
    · simp [SendState.goto, SendState.setThread, ipcThreadEnqueue, setBlocked, SendState.setPort]
    · simp [SendState.goto, SendState.setThread, ipcThreadEnqueue, setBlocked, SendState.setPort,
        hp]
    · by_cases hu : u = t
      · obtain rfl := hu
        have hin : (SendPc.sendUnlock port call).waitsOn = some port := rfl
        simp [BlockedIn, SendState.goto, SendState.setThread, hout, hin,
          threadWillWait, ipcThreadEnqueue, setBlocked, SendState.setPort, eq_comm]
      · simp only [hu, false_and, or_false]
        refine BlockedIn.congr ?_ ?_
        · simp [SendState.goto, hu, SendState.setThread, ipcThreadEnqueue, setBlocked,
            SendState.setPort]
        · simp [SendState.goto, hu, SendState.setThread, ipcThreadEnqueue, setBlocked,
            SendState.setPort]

/-- `ipc_mqueue_finish_receive`. -/
theorem receiveStep_effect (hpc : s.pc t = .receive port)
    (h : s.receiveStep t port = some (s', label)) : StepEffect s s' t label := by
  have hout : (s.pc t).waitsOn = none := by rw [hpc]; rfl
  have hsame : SameQueues s (s.setPort port
      { s.port port with ipMsgcount := (s.port port).ipMsgcount - 1 }) :=
    (SameQueues.refl s).setPort rfl
  unfold receiveStep at h
  split at h
  · cases h
    exact (SameQueues.refl s).goto hout.symm
  split at h
  · cases h
  dsimp only at h
  split at h
  · rename_i sender hfirst
    have hfirst : (s.port port).ipBlocked = some sender := (hsame.blocked port).symm.trans hfirst
    split at h
    · cases h
      exact hsame.wake hfirst hout rfl
    · cases h
      exact hsame.goto hout.symm
  · cases h
    exact hsame.goto hout.symm

/-- A turn of a loop that wakes senders. -/
theorem wakeLoopStep_effect {more done : SendPc P} {finish : SendPort P T → SendPort P T}
    (hout : (s.pc t).waitsOn = none) (hmore : more.waitsOn = none) (hdone : done.waitsOn = none)
    (h : s.wakeLoopStep t port more done finish = (s', label))
    (hfinish : (finish (s.port port)).ipBlocked = (s.port port).ipBlocked) :
    StepEffect s s' t label := by
  unfold wakeLoopStep at h
  split at h
  · rename_i sender hfirst
    cases h
    rw [ipcThreadDequeue_eq hfirst]
    exact (SameQueues.refl s).wake hfirst hout hmore
  · cases h
    exact ((SameQueues.refl s).setPort hfinish).goto (hdone.trans hout.symm)

/-- A turn of the loop of `ipc_port_set_qlimit`. -/
theorem qlimitLoopStep_effect {qlimit wakeup : ℕ} (hpc : s.pc t = .qlimitLoop port qlimit wakeup)
    (h : s.qlimitLoopStep t port qlimit wakeup = (s', label)) : StepEffect s s' t label := by
  have hout : (s.pc t).waitsOn = none := by rw [hpc]; rfl
  cases wakeup with
  | zero =>
    cases h
    refine SameQueues.goto ((SameQueues.refl s).setPort ?_) hout.symm
    rfl
  | succ wakeup =>
    simp only [qlimitLoopStep] at h
    exact wakeLoopStep_effect hout rfl rfl h rfl

/-- `ipc_port_destroy` up to the test for a backup port does not touch the queues. -/
theorem destroyStep_effect (hpc : s.pc t = .destroy port) :
    StepEffect s (s.destroyStep t port) t .quiet := by
  have hout : (s.pc t).waitsOn = none := by rw [hpc]; rfl
  unfold destroyStep
  split
  · exact (SameQueues.refl s).goto hout.symm
  split
  · refine SameQueues.goto ((SameQueues.refl s).setPort ?_) hout.symm
    rfl
  · exact (SameQueues.refl s).goto hout.symm

/-- A step in a call that does not give up a wait. -/
theorem advance_effect (h : s.advance t = some (s', label))
    (hgo : ∀ port call result, s.pc t = .sendWoken port call result →
      (s.thread t).ithState ≠ .machSendInProgress) : StepEffect s s' t label := by
  have hrefl : SameQueues s s := SameQueues.refl s
  cases hpc : s.pc t with
  | idle | returned _ | circularity _ _ =>
    simp only [advance, hpc, reduceCtorEq] at h
  | sendLock port call | sendRelock port call _ | receiveLock port | qlimitLock port _
  | destroyLock port | destroyRelock port =>
    simp only [advance, hpc] at h
    exact ipLock_effect h (by rw [hpc]; rfl)
  | send port call =>
    simp only [advance, hpc] at h
    split at h
    all_goals
      cases h
      exact hrefl.goto (by rw [hpc]; rfl)
  | sendLoop port call =>
    simp only [advance, hpc] at h
    cases h
    exact sendLoopStep_effect hpc
  | sendUnlock port call | destroyUnlock port _ | unlock port _ =>
    simp only [advance, hpc] at h
    cases h
    exact hrefl.ipUnlock.goto (by rw [hpc]; rfl)
  | threadBlock port call =>
    simp only [advance, hpc] at h
    split at h
    · cases h
    · cases h
      refine SameQueues.goto (hrefl.setThread ?_) (by rw [hpc]; rfl)
      rfl
  | sendWoken port call result =>
    simp only [advance, hpc, map_eq_some_iff] at h
    obtain ⟨s₂, hstep, heq⟩ := h
    cases heq
    exact sendWokenStep_effect (hgo port call result hpc) hstep
  | deliver port =>
    simp only [advance, hpc] at h
    cases h
    refine SameQueues.goto (SameQueues.ipUnlock (hrefl.setPort ?_)) (by rw [hpc]; rfl)
    rfl
  | receive port =>
    simp only [advance, hpc] at h
    exact receiveStep_effect hpc h
  | setQlimit port qlimit =>
    simp only [advance, hpc] at h
    cases h
    exact setQlimitStep_effect hpc
  | qlimitLoop port qlimit wakeup =>
    simp only [advance, hpc, Option.some.injEq] at h
    exact qlimitLoopStep_effect hpc h
  | destroy port =>
    simp only [advance, hpc] at h
    cases h
    exact destroyStep_effect hpc
  | rouse port =>
    simp only [advance, hpc, Option.some.injEq] at h
    exact wakeLoopStep_effect (by rw [hpc]; rfl) rfl rfl h rfl

end SendState

open SendState

variable [DecidableEq P] [DecidableEq T]

/-- A step that does not give up a wait leaves the queues alone, puts the thread at the end
of one or wakes the first sender of one. -/
theorem SendEvent.effect {s s' : SendState P T} {t : T} {action : SendAction P}
    {label : SendLabel P T} (h : s.step t action = some (s', label))
    (hgo : ¬(mk s t action label).GivesUp) : StepEffect s s' t label := by
  have hrefl : SameQueues s s := SameQueues.refl s
  cases action with
  | run =>
    refine advance_effect h fun port call result hpc hstate => hgo ⟨rfl, ?_, hstate⟩
    change (s.pc t).woken = true
    rw [hpc]
    rfl
  | send port call => exact call_effect h rfl
  | finishReceive port => exact call_effect h rfl
  | setQlimit port qlimit => exact call_effect h rfl
  | destroy port => exact call_effect h rfl
  | checked circular =>
    simp only [step] at h
    split at h
    · rename_i hpc
      split at h
      all_goals
        cases h
        exact hrefl.goto (by rw [hpc]; rfl)
    · cases h
  | timeout =>
    simp only [step] at h
    split at h
    · cases h
      refine SameQueues.stay (hrefl.setThread ?_)
      exact clearWait_ithState _ _
    · cases h
  | interrupt =>
    cases h
    exact (hrefl.setThread (clearWait_ithState _ _)).stay

/-- A step that gives up a wait leaves the queues alone, and the thread waits no more. -/
theorem SendEvent.giveUp {s s' : SendState P T} {t : T} {action : SendAction P}
    {label : SendLabel P T} (h : s.step t action = some (s', label))
    (hgive : (mk s t action label).GivesUp) : GiveUpEffect s s' t := by
  obtain ⟨haction, hwoken, hstate⟩ := hgive
  obtain rfl : action = .run := haction
  obtain ⟨port, call, result, hpc⟩ : ∃ port call result, s.pc t = .sendWoken port call result :=
    SendPc.eq_sendWoken hwoken
  simp only [step, advance, hpc, map_eq_some_iff] at h
  obtain ⟨s₂, hstep, heq⟩ := h
  cases heq
  exact sendWokenStep_giveUp hpc hstate hstep

namespace SendState

variable {s s' : SendState P T} {t : T} {label : SendLabel P T}

/-- Putting a thread at the end of a queue keeps the invariant. -/
theorem SendInv.enqueue (h : SendInv s) {port : P} (out : ∀ p, ¬s.BlockedIn t p)
    (links : s'.ithLinks = (s.ithLinks.enqueue (s.port port).ipBlocked t).1)
    (base : (s'.port port).ipBlocked = (s.ithLinks.enqueue (s.port port).ipBlocked t).2)
    (blocked : ∀ p, p ≠ port → (s'.port p).ipBlocked = (s.port p).ipBlocked)
    (blockedIn : ∀ u p, s'.BlockedIn u p ↔ s.BlockedIn u p ∨ u = t ∧ p = port) :
    SendInv s' := by
  obtain ⟨l, hl, hmem⟩ := h.blocked port
  have ht : t ∉ l := fun ht => out port ((hmem t).mp ht)
  have hagree : ∀ u, u ∉ l → u ≠ t → s.ithLinks.AgreeOn s'.ithLinks u := by
    intro u hu hut
    rw [links]
    exact hl.enqueue_agreeOn hu hut
  refine ⟨fun p => ?_, fun u hu => ?_⟩
  · by_cases hp : p = port
    · obtain rfl := hp
      refine ⟨l ++ [t], ?_, fun u => ?_⟩
      · rw [BlockedQueue, links, base]
        exact hl.enqueue ht (h.single t out)
      · simp [blockedIn, hmem]
    · obtain ⟨m, hm, hmemm⟩ := h.blocked p
      refine ⟨m, ?_, fun u => ?_⟩
      · rw [BlockedQueue, blocked p hp]
        refine hm.congr fun u hu => hagree u (fun hul => hp ?_) fun hut => ?_
        · exact ((hmemm u).mp hu).port_unique ((hmem u).mp hul)
        · exact out p (hut ▸ (hmemm u).mp hu)
      · simp [blockedIn, hmemm, hp]
  · have hout : ∀ p, ¬s.BlockedIn u p := fun p hin => hu p ((blockedIn u p).mpr (Or.inl hin))
    have hut : u ≠ t := fun hut => hu port ((blockedIn u port).mpr (Or.inr ⟨hut, rfl⟩))
    refine single_of_agreeOn (hagree u (fun hul => ?_) hut) (h.single u hout)
    exact hout port ((hmem u).mp hul)

/-- Waking the first sender of a queue keeps the invariant, and it was blocked there. -/
theorem SendInv.wake (h : SendInv s) {port : P} {sender : T}
    (first : (s.port port).ipBlocked = some sender)
    (links : s'.ithLinks = (s.ithLinks.remove (s.port port).ipBlocked sender).1)
    (base : (s'.port port).ipBlocked = (s.ithLinks.remove (s.port port).ipBlocked sender).2)
    (blocked : ∀ p, p ≠ port → (s'.port p).ipBlocked = (s.port p).ipBlocked)
    (blockedIn : ∀ u p, s'.BlockedIn u p ↔ s.BlockedIn u p ∧ u ≠ sender) :
    SendInv s' ∧ s.BlockedIn sender port := by
  obtain ⟨l, hl, hmem⟩ := h.blocked port
  obtain ⟨m, rfl⟩ : ∃ m, l = sender :: m :=
    head?_eq_some_iff.mp (hl.base_eq.symm.trans first)
  have hsender : s.BlockedIn sender port := (hmem sender).mp (by simp)
  have hnot : sender ∉ m := (nodup_cons.mp hl.nodup).1
  have hremoved := Links.Queue.remove [] hl
  have hagree : ∀ u, u ∉ sender :: m → s.ithLinks.AgreeOn s'.ithLinks u := by
    intro u hu
    rw [links]
    exact Links.Queue.remove_agreeOn [] hl hu
  refine ⟨⟨fun p => ?_, fun u hu => ?_⟩, hsender⟩
  · by_cases hp : p = port
    · obtain rfl := hp
      refine ⟨m, ?_, fun u => ?_⟩
      · rw [BlockedQueue, links, base]
        exact hremoved
      · rw [blockedIn, ← hmem]
        constructor
        · intro hu
          exact ⟨by simp [hu], fun heq => hnot (heq ▸ hu)⟩
        · rintro ⟨hu, hne⟩
          simpa [hne] using hu
    · obtain ⟨q, hq, hmemq⟩ := h.blocked p
      refine ⟨q, ?_, fun u => ?_⟩
      · rw [BlockedQueue, blocked p hp]
        refine hq.congr fun u hu => hagree u fun hul => hp ?_
        exact ((hmemq u).mp hu).port_unique ((hmem u).mp hul)
      · rw [blockedIn, hmemq]
        refine (and_iff_left_of_imp ?_).symm
        rintro hu rfl
        exact hp (hu.port_unique hsender)
  · by_cases hus : u = sender
    · obtain rfl := hus
      rw [links]
      exact Links.Queue.remove_single [] hl
    · have hout : ∀ p, ¬s.BlockedIn u p := fun p hin => hu p ((blockedIn u p).mpr ⟨hin, hus⟩)
      refine single_of_agreeOn (hagree u fun hul => ?_) (h.single u hout)
      exact hout port ((hmem u).mp hul)

/-- A step that gives up no wait keeps the invariant and wakes blocked senders only. -/
theorem SendInv.step (h : SendInv s) (heffect : StepEffect s s' t label) :
    SendInv s' ∧ ∀ port sender, label = .woke port sender → s.BlockedIn sender port := by
  cases heffect with
  | frame links blocked blockedIn =>
    refine ⟨⟨fun p => ?_, fun u hu => ?_⟩, by simp⟩
    · obtain ⟨l, hl, hmem⟩ := h.blocked p
      refine ⟨l, ?_, fun u => (hmem u).trans (blockedIn u p).symm⟩
      rw [BlockedQueue, links, blocked p]
      exact hl
    · rw [links]
      exact h.single u fun p hin => hu p ((blockedIn u p).mpr hin)
  | enqueue port out links base blocked blockedIn =>
    exact ⟨h.enqueue out links base blocked blockedIn, by simp⟩
  | wake port sender first links base blocked blockedIn =>
    obtain ⟨hinv, hin⟩ := h.wake first links base blocked blockedIn
    refine ⟨hinv, fun port' sender' heq => ?_⟩
    cases heq
    exact hin

end SendState

/-- In every state of a run the queues are exact, and every thread woken was blocked on the
port it was woken for. -/
def RunExact (trace : List (SendEvent P T)) (s : SendState P T) : Prop :=
  s.SendersExact ∧ ∀ e ∈ trace, e.state.SendersExact ∧
    ∀ port sender, e.label = .woke port sender → e.state.BlockedIn sender port

variable {init s : SendState P T} {trace : List (SendEvent P T)}

/-- A run in which nobody gives up a wait keeps the invariant. -/
theorem SendRun.inv (hinit : init.Initial) (h : SendRun init trace s)
    (hgo : ∀ e ∈ trace, ¬e.GivesUp) : SendInv s ∧ RunExact trace s := by
  induction h with
  | nil => exact ⟨hinit.inv, hinit.inv.exact, by simp⟩
  | cons _ hstep ih =>
    obtain ⟨hinv, hexact, htrace⟩ := ih fun e he => hgo e (by simp [he])
    obtain ⟨hinv', hwoke⟩ := hinv.step (effect hstep (hgo _ (by simp)))
    refine ⟨hinv', hinv'.exact, fun e he => ?_⟩
    rcases mem_cons.mp he with rfl | he
    · exact ⟨hexact, hwoke⟩
    · exact htrace e he

/-- In a run with exact queues nobody gives up a wait. -/
theorem SendRun.not_givesUp (h : SendRun init trace s) (hexact : RunExact trace s) :
    ∀ e ∈ trace, ¬e.GivesUp := by
  induction h with
  | nil => simp
  | cons _ hstep ih =>
    obtain ⟨hs', htrace⟩ := hexact
    have hs := (htrace _ (mem_cons_self ..)).1
    intro e he hgive
    rcases mem_cons.mp he with rfl | he
    · exact (giveUp hstep hgive).not_exact hs hs'
    · exact ih ⟨hs, fun e he => htrace e (by simp [he])⟩ e he hgive

/-- The queues of blocked senders are exact in all states of a run, and every wakeup
reaches a blocked sender, if and only if no sender finds after its wait that nobody has
told it to go on. -/
theorem blocked_senders_exact (hinit : init.Initial) (h : SendRun init trace s) :
    RunExact trace s ↔ ∀ e ∈ trace, ¬e.GivesUp :=
  ⟨h.not_givesUp, fun hgo => (h.inv hinit hgo).2⟩

/-- Let threads act, the last one first. -/
def SendState.follow (s : SendState P T) :
    List (T × SendAction P) → Option (List (SendEvent P T) × SendState P T)
  | [] => some ([], s)
  | (t, action) :: actions => do
    let (trace, s) ← s.follow actions
    let (s', label) ← s.step t action
    some (⟨s, t, action, label⟩ :: trace, s')

/-- Following actions is a run. -/
theorem SendState.follow_run {actions : List (T × SendAction P)}
    (h : init.follow actions = some (trace, s)) : SendRun init trace s := by
  induction actions generalizing trace s with
  | nil =>
    cases h
    exact .nil
  | cons a actions ih =>
    simp only [follow, bind_eq_bind, bind_eq_some_iff] at h
    obtain ⟨⟨trace₁, s₁⟩, hfollow, ⟨s₂, label⟩, hstep, heq⟩ := h
    cases heq
    exact .cons (ih hfollow) hstep

/-- Ports whose queues hold one message, and threads that have done nothing. -/
def portsOfOneMessage : SendState ℕ ℕ where
  port _ := ⟨true, false, none, 0, 1, none⟩
  lock _ := none
  thread _ := ⟨.machMsgSuccess, false, none, false⟩
  ithLinks := ⟨id, id⟩
  pc _ := .idle

/-- Nothing has happened there. -/
theorem portsOfOneMessage_initial : portsOfOneMessage.Initial :=
  ⟨fun _ => rfl, fun _ => ⟨rfl, rfl⟩, fun _ => rfl⟩

/-- A send with a timeout that waits, after another one. -/
def secondSend : List (ℕ × SendAction ℕ) :=
  replicate 4 (1, .run) ++ [(1, .send 0 ⟨false, false, true, false, 10⟩)] ++
    (replicate 4 (0, .run) ++ [(0, .send 0 ⟨false, false, false, false, 0⟩)])

/-- A receiver wakes the sender that waits. -/
theorem blocked_senders_exact_woke :
    ∃ trace s, SendRun portsOfOneMessage trace s ∧ RunExact trace s ∧
      (trace.head?.map label) = some (.woke 0 1) := by
  have hfollow : (portsOfOneMessage.follow ((0, .run) :: (0, .run) :: (0, .finishReceive 0) ::
      secondSend)).map (fun r => (decide (∀ e ∈ r.1, ¬e.GivesUp), r.1.head?.map label)) =
        some (true, some (.woke 0 1)) := by decide
  obtain ⟨⟨trace, s⟩, hfollow, hres⟩ := map_eq_some_iff.mp hfollow
  obtain ⟨hgo, hlabel⟩ := Prod.mk.inj hres
  have hrun := SendState.follow_run hfollow
  refine ⟨trace, s, hrun, ?_, hlabel⟩
  exact (blocked_senders_exact portsOfOneMessage_initial hrun).mpr (of_decide_eq_true hgo)

/-- A sender whose timer has expired returns and stays in the queue. -/
theorem timed_out_sender_queued :
    ∃ trace s, SendRun portsOfOneMessage trace s ∧ s.pc 1 = .returned .machSendTimedOut ∧
      s.BlockedQueue 0 [1] ∧ ¬RunExact trace s := by
  have hfollow : (portsOfOneMessage.follow (replicate 5 (1, .run) ++ (1, .timeout) ::
      secondSend)).map (fun r => (r.2.pc 1, (r.2.port 0).ipBlocked, r.2.ithLinks.next 1,
        r.2.ithLinks.prev 1)) = some (.returned .machSendTimedOut, some 1, 1, 1) := by decide
  obtain ⟨⟨trace, s⟩, hfollow, hres⟩ := map_eq_some_iff.mp hfollow
  obtain ⟨hpc, hres⟩ := Prod.mk.inj hres
  obtain ⟨hbase, hres⟩ := Prod.mk.inj hres
  obtain ⟨hnext, hprev⟩ := Prod.mk.inj hres
  have hqueue : s.BlockedQueue 0 [1] :=
    ⟨hbase, Links.ring_singleton.mpr ⟨hnext, hprev⟩, nodup_singleton 1⟩
  refine ⟨trace, s, SendState.follow_run hfollow, hpc, hqueue, fun hexact => ?_⟩
  exact hexact.1.returned 1 _ hpc 0 [1] hqueue (by simp)

end MachVirtuTerm
