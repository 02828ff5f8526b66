import MachVirtuTerm.Ipc.KmsgDestroy
import Mathlib.Algebra.Group.Pi.Lemmas
import Mathlib.Tactic.Abel

/-!
# What a destruction spends

Three weights: how much there is left to do, which gets less with every step, where the receive
rights are, and where the messages are, of which none is made and none gets lost.
-/

open List

namespace MachVirtuTerm

namespace KmsgDestroy

open Kmsg

variable {P M : Type*}

/-! ## The items of a message -/

/-- The weight of the items of a message. -/
def sumUses {A : Type*} [AddCommMonoid A] (f : Use P M → A) (uses : List (Use P M)) : A :=
  (uses.map f).sum

section

variable {A : Type*} [AddCommMonoid A] (f : Use P M → A) (m : IpcKmsg P M)

theorem sumUses_append (uses₁ uses₂ : List (Use P M)) :
    sumUses f (uses₁ ++ uses₂) = sumUses f uses₁ + sumUses f uses₂ := by
  rw [sumUses, map_append, sum_append]
  rfl

theorem sumUses_clean : sumUses f m.clean =
    sumUses f (destroyValid m.remotePort m.remoteType) + sumUses f m.undirected.clean := by
  rw [IpcKmsg.clean, append_assoc, sumUses_append]
  rfl

theorem sumUses_undirected : sumUses f m.undirected.clean =
    sumUses f (destroyValid m.localPort m.localType) + sumUses f m.bare.clean := by
  rw [← sumUses_append]
  rfl

theorem sumUses_notification (buffer : ℕ) (q : P) :
    sumUses f (notification buffer q none).undirected.clean = 0 := rfl

theorem sumUses_notification_some (buffer : ℕ) (q p : P) :
    sumUses f (notification buffer q (some p)).undirected.clean =
      f (.released (.right p machMsgTypePortReceive)) := by
  change sumUses f [.released (.right p machMsgTypePortReceive)] = _
  simp [sumUses]

end

/-! ## What is left to do -/

/-- What there is to do with an item. -/
def useRank : Use P M → ℕ
  | .released (.right _ msgtName) =>
    if msgtName = machMsgTypePortSend then 1
    else if msgtName = machMsgTypePortSendOnce then 12
    else 3
  | _ => 1

/-- A request costs what its notification does. -/
def requestRank (cost : ℕ) : Option P → ℕ
  | none => 0
  | some _ => cost

/-- A reply is sent if there is a port for it. -/
def replyRank : PortWord P → ℕ
  | .right _ => 5
  | _ => 0

/-- What there is to do for a task. -/
def taskRank : Task P M → ℕ
  | .destroy m => 4 + sumUses useRank m.clean
  | .loop => 1
  | .rmqueue => 2
  | .release use => useRank use
  | .notify _ none => 11
  | .notify _ (some _) => 14
  | .mqueueSend m => 10 + sumUses useRank m.undirected.clean + replyRank m.localPort
  | .portDestroy _ => 2
  | .portDie _ => 1
  | .flush _ => 1
  | .dnnotify sorights => 1 + 12 * sorights.length

/-- What there is to do for the rights of a kernel object. -/
def kobjectRank (kobject : List (P × MachMsgTypeName)) : ℕ :=
  (kobject.map fun r => useRank (.released (.right r.1 r.2) : Use P Unit)).sum

/-- What there may be to do for a port. -/
def portRank (x : IpcPort P M) : ℕ :=
  (x.messages.map fun m => 5 + sumUses useRank m.undirected.clean).sum +
    requestRank 13 x.pdrequest +
    if x.active = true then
      requestRank 11 x.nsrequest + (2 + 12 * x.dnrequests.length) + kobjectRank x.kobject
    else 0

/-- How much there is left to do. -/
def rank : Weight P M ℕ where
  port _ := portRank
  message m := 2 + sumUses useRank m.clean
  task := taskRank
  outside _ _ := 0

/-- Requests for notifications become notifications. -/
theorem sum_rank_requests (request : Option P) :
    ((request.toList.map (Task.notify · none)).map (@taskRank P M)).sum =
      requestRank 11 request := by
  cases request <;> rfl

theorem sum_rank_kobject (kobject : List (P × MachMsgTypeName)) :
    ((kobject.map fun r => (.release (.released (.right r.1 r.2)) : Task P M)).map
      taskRank).sum = kobjectRank kobject := by
  rw [map_map]
  rfl

/-- A reply that is sent or destroyed costs little. -/
theorem taskRank_replyTask (buffer : ℕ) (m : IpcKmsg P M) :
    taskRank (replyTask (reply buffer m)) ≤
      5 + sumUses useRank (@destroyValid P M m.localPort m.localType) + replyRank m.localPort := by
  cases hport : m.localPort <;>
    simp [taskRank, replyTask, reply, IpcKmsg.clean, IpcKmsg.undirected, destroyValid,
      objectDestroy, sumUses, replyRank, useRank, hport]

theorem rank_balanced : (rank : Weight P M ℕ).Balanced (· < ·) where
  destroy m := by simp [rank, taskRank]
  memory m := by simp [rank, taskRank, useRank]
  deadSend p := by simp [rank, taskRank, useRank]
  send p x srights := by simp [rank, taskRank, portRank, useRank]
  noSenders p x srights q hactive hns := by
    simp only [rank, taskRank, portRank, hactive, hns, requestRank, if_true, useRank]
    omega
  sendOnce p := by
    change 11 < useRank (.released (.right p machMsgTypePortSendOnce) : Use P M)
    rw [useRank, if_neg (by decide), if_pos rfl]
    omega
  receive p := by
    change 2 < useRank (.released (.right p machMsgTypePortReceive) : Use P M)
    rw [useRank, if_neg (by decide), if_neg (by decide)]
    omega
  notify q right fresh taken := by
    cases right with
    | none =>
      simp only [rank, taskRank, sumUses_notification]
      simp [notification, replyRank]
    | some p =>
      simp only [rank, taskRank, sumUses_notification_some]
      simp [notification, replyRank, useRank, machMsgTypePortReceive, machMsgTypePortSend,
        machMsgTypePortSendOnce]
  dropped q := by simp [rank, taskRank]
  droppedRight q p := by simp [rank, taskRank]
  served m fresh taken := by
    have hreply := taskRank_replyTask fresh m
    have hlocal := sumUses_undirected useRank m
    change taskRank (replyTask (reply fresh m)) + 0 <
      10 + sumUses useRank m.undirected.clean + replyRank m.localPort + 0
    omega
  noReply m fresh taken := by
    simp only [rank, taskRank]
    omega
  failed m fresh taken := by
    have hreply := taskRank_replyTask fresh m
    have hlocal := sumUses_undirected useRank m
    change 4 + sumUses useRank m.bare.clean + (taskRank (replyTask (reply fresh m)) + 0) <
      10 + sumUses useRank m.undirected.clean + replyRank m.localPort + 0
    omega
  undelivered m := by
    simp only [rank, taskRank]
    omega
  received m fresh taken := by
    simp only [rank, taskRank]
    omega
  enqueued p m x := by
    simp only [rank, taskRank, portRank, map_append, sum_append, map_cons,
      map_nil, sum_cons, sum_nil]
    omega
  noBackup p := by simp [rank, taskRank]
  circular p x q hq := by
    simp only [rank, taskRank, portRank, hq, requestRank]
    omega
  backup p x q hq := by
    simp only [rank, taskRank, portRank, hq, requestRank]
    omega
  die p x hactive := by
    simp only [rank, deathTasks, map_append, sum_append, map_cons, sum_cons,
      sum_rank_requests, sum_rank_kobject]
    simp only [taskRank, portRank, IpcPort.dead, hactive, if_true, Bool.false_eq_true, if_false]
    omega
  flushed p := by simp [rank, taskRank]
  flush p x m rest hmessages := by
    simp only [rank, taskRank, portRank, hmessages, map_cons, sum_cons]
    omega
  notified := by simp [rank, taskRank]
  dnnotify q rest := by
    simp only [rank, taskRank, length_cons]
    omega

/-! ## Where the receive rights are -/

/-- The receive right that an item is. -/
def useReceive : Use P M → Multiset P
  | .released (.right p msgtName) => if msgtName = machMsgTypePortReceive then {p} else 0
  | _ => 0

/-- The receive rights in the body of a message. -/
def bodyReceives (m : IpcKmsg P M) : Multiset P := sumUses useReceive m.bare.clean

/-- The receive rights that a task holds. -/
def taskReceives : Task P M → Multiset P
  | .destroy m | .mqueueSend m => bodyReceives m
  | .release use => useReceive use
  | .notify _ right => ↑right.toList
  | .portDestroy p | .portDie p => {p}
  | .loop | .rmqueue | .flush _ | .dnnotify _ => 0

/-- The receive rights of a kernel object. -/
def kobjectReceives (kobject : List (P × MachMsgTypeName)) : Multiset P :=
  (kobject.map fun r => useReceive (.released (.right r.1 r.2) : Use P Unit)).sum

/-- The receive rights in the queue of a port and of its kernel object. -/
def portReceives (x : IpcPort P M) : Multiset P :=
  (x.messages.map bodyReceives).sum + kobjectReceives x.kobject

/-- The right for a port that is dead is gone. -/
def gone (p : P) (x : IpcPort P M) : Multiset P := if x.active = true then 0 else {p}

/-- Where the receive rights are. -/
def receives : Weight P M (Multiset P) where
  port p x := portReceives x + gone p x
  message := bodyReceives
  task := taskReceives
  outside _ taken := (taken.map bodyReceives).sum

theorem bodyReceives_notification (buffer : ℕ) (q : P) (right : Option P) :
    bodyReceives (notification buffer q right : IpcKmsg P M) = ↑right.toList := by
  cases right with
  | none => rfl
  | some p =>
    change sumUses useReceive [(.released (.right p machMsgTypePortReceive) : Use P M)] = {p}
    simp [sumUses, useReceive]

theorem bodyReceives_reply (buffer : ℕ) (m : IpcKmsg P M) : bodyReceives (reply buffer m) = 0 := rfl

theorem taskReceives_replyTask (buffer : ℕ) (m : IpcKmsg P M) :
    taskReceives (replyTask (reply buffer m)) = 0 := by
  rw [replyTask]
  split <;> rfl

theorem sum_receives_requests (request : Option P) :
    ((request.toList.map (Task.notify · none)).map (@taskReceives P M)).sum = 0 := by
  cases request <;> rfl

theorem sum_receives_kobject (kobject : List (P × MachMsgTypeName)) :
    ((kobject.map fun r => (.release (.released (.right r.1 r.2)) : Task P M)).map
      taskReceives).sum = kobjectReceives kobject := by
  rw [map_map]
  rfl

/-- What is done when a port has died holds the rights of its kernel object. -/
theorem receives_die (p : P) (x : IpcPort P M) :
    ((deathTasks p x).map taskReceives).sum + portReceives x.dead = portReceives x := by
  simp only [deathTasks, map_append, sum_append, map_cons, sum_cons,
    sum_receives_requests, sum_receives_kobject]
  simp only [taskReceives, portReceives, IpcPort.dead, kobjectReceives, map_nil,
    sum_nil, zero_add, add_zero]
  exact add_comm _ _

theorem mem_sum_map {A : Type*} {f : A → Multiset P} {p : P} {l : List A}
    (h : p ∈ (l.map f).sum) : ∃ a ∈ l, p ∈ f a := by
  induction l with
  | nil => exact absurd h (Multiset.notMem_zero p)
  | cons a l ih =>
    rw [map_cons, sum_cons, Multiset.mem_add] at h
    rcases h with h | h
    · exact ⟨a, mem_cons_self, h⟩
    · obtain ⟨a', ha', hp⟩ := ih h
      exact ⟨a', mem_cons_of_mem a ha', hp⟩

theorem receives_balanced : (receives : Weight P M (Multiset P)).Balanced (· = ·) where
  destroy m := rfl
  memory m := rfl
  deadSend p := rfl
  send p x srights := (add_zero _).symm
  noSenders p x srights q hactive hns := add_comm _ _
  sendOnce p := rfl
  receive p := by
    change {p} = useReceive (.released (.right p machMsgTypePortReceive) : Use P M)
    rw [useReceive, if_pos rfl]
  notify q right fresh taken := by
    change bodyReceives (notification fresh q right) + _ = _
    rw [bodyReceives_notification]
    rfl
  dropped q := rfl
  droppedRight q p := rfl
  served m fresh taken := by
    change taskReceives (replyTask (reply fresh m)) + _ = _
    rw [taskReceives_replyTask, zero_add]
    rfl
  noReply m fresh taken := by
    change bodyReceives (reply fresh m) + _ = _
    rw [bodyReceives_reply, zero_add]
    rfl
  failed m fresh taken := by
    change bodyReceives m + (taskReceives (replyTask (reply fresh m)) + _) = bodyReceives m + _
    rw [taskReceives_replyTask, zero_add]
    rfl
  undelivered m := rfl
  received m fresh taken := rfl
  enqueued p m x := by
    change ((x.messages ++ [m]).map bodyReceives).sum + kobjectReceives x.kobject + gone p x =
      (x.messages.map bodyReceives).sum + kobjectReceives x.kobject + gone p x + bodyReceives m
    simp only [map_append, sum_append, map_cons, map_nil, sum_cons, sum_nil, add_zero]
    ac_rfl
  noBackup p := rfl
  circular p x q hq := add_comm _ _
  backup p x q hq := add_comm _ _
  die p x hactive := by
    change ((deathTasks p x).map taskReceives).sum + (portReceives x.dead + gone p x.dead) =
      portReceives x + gone p x + {p}
    rw [← add_assoc, receives_die, gone, gone, if_pos hactive, add_zero, IpcPort.dead]
    simp
  flushed p := rfl
  flush p x m rest hmessages := by
    change bodyReceives m + 0 + ((rest.map bodyReceives).sum + kobjectReceives x.kobject +
      gone p x) = (x.messages.map bodyReceives).sum + kobjectReceives x.kobject + gone p x + 0
    rw [hmessages, map_cons, sum_cons]
    ac_rfl
  notified := rfl
  dnnotify q rest := rfl

/-! ## Where the messages are -/

/-- One message in a buffer. -/
def one (buffer : ℕ) : ℕ → ℤ := Pi.single buffer 1

/-- The buffers of a list of messages. -/
def buffers (messages : List (IpcKmsg P M)) : ℕ → ℤ :=
  (messages.map fun m => one m.buffer).sum

/-- The buffers up to one. -/
def below (fresh : ℕ) : ℕ → ℤ := fun b => if b < fresh then 1 else 0

/-- The message of a task. -/
def taskBuffers : Task P M → ℕ → ℤ
  | .destroy m | .mqueueSend m => one m.buffer
  | _ => 0

/-- Where the messages are, apart from those that have not been made. -/
def account : Weight P M (ℕ → ℤ) where
  port _ x := buffers x.messages
  message m := one m.buffer
  task := taskBuffers
  outside fresh taken := (taken.map fun m => one m.buffer).sum - below fresh

theorem below_succ (fresh : ℕ) : below (fresh + 1) = one fresh + below fresh := by
  funext b
  by_cases hb : b = fresh
  · subst hb
    simp [below, one]
  · have hiff : b < fresh + 1 ↔ b < fresh := by omega
    simp [below, one, hb, hiff]

theorem taskBuffers_replyTask (buffer : ℕ) (m : IpcKmsg P M) :
    taskBuffers (replyTask (reply buffer m)) = one buffer := by
  rw [replyTask]
  split <;> rfl

theorem buffers_append (l : List (IpcKmsg P M)) (m : IpcKmsg P M) :
    buffers (l ++ [m]) = buffers l + one m.buffer := by
  simp [buffers]

theorem buffers_cons (m : IpcKmsg P M) (l : List (IpcKmsg P M)) :
    buffers (m :: l) = one m.buffer + buffers l := rfl

theorem sum_buffers_deathTasks (p : P) (x : IpcPort P M) :
    ((deathTasks p x).map taskBuffers).sum = 0 := by
  have hnone : ∀ f ∈ (deathTasks p x).map taskBuffers, f = 0 := by
    intro f hf
    obtain ⟨task, htask, rfl⟩ := mem_map.mp hf
    simp only [deathTasks, mem_append, mem_map, mem_cons] at htask
    rcases htask with ⟨q, -, rfl⟩ | rfl | rfl | ⟨r, -, rfl⟩ <;> rfl
  exact sum_eq_zero hnone

theorem sum_one_apply (l : List ℕ) (b : ℕ) : (l.map one).sum b = l.count b := by
  induction l with
  | nil => rfl
  | cons a l ih =>
    rw [map_cons, sum_cons, Pi.add_apply, ih, count_cons]
    by_cases hb : a = b
    · subst hb
      simp [one, add_comm]
    · have hb' : b ≠ a := fun h => hb h.symm
      simp [one, hb, hb']

theorem buffers_apply (l : List (IpcKmsg P M)) (b : ℕ) :
    buffers l b = (l.map (·.buffer)).count b := by
  rw [← sum_one_apply, map_map]
  rfl

theorem account_balanced : (account : Weight P M (ℕ → ℤ)).Balanced (· = ·) where
  destroy m := rfl
  memory m := rfl
  deadSend p := rfl
  send p x srights := (add_zero _).symm
  noSenders p x srights q hactive hns := add_comm _ _
  sendOnce p := rfl
  receive p := rfl
  notify q right fresh taken := by
    simp only [account, taskBuffers, below_succ, notification]
    abel
  dropped q := rfl
  droppedRight q p := rfl
  served m fresh taken := by
    simp only [account, taskBuffers_replyTask, below_succ, map_cons, sum_cons]
    simp only [taskBuffers]
    abel
  noReply m fresh taken := by
    simp only [account, taskBuffers, below_succ, reply, map_cons, sum_cons]
    abel
  failed m fresh taken := by
    simp only [account, taskBuffers_replyTask, below_succ]
    simp only [taskBuffers, IpcKmsg.bare]
    abel
  undelivered m := rfl
  received m fresh taken := by
    simp only [account, taskBuffers, map_cons, sum_cons]
    abel
  enqueued p m x := buffers_append _ _
  noBackup p := rfl
  circular p x q hq := add_comm _ _
  backup p x q hq := add_comm _ _
  die p x hactive := by
    simp only [account, sum_buffers_deathTasks]
    exact add_comm _ _
  flushed p := rfl
  flush p x m rest hmessages := by
    simp only [account, taskBuffers, hmessages, buffers_cons, IpcKmsg.undirected, add_zero]
  notified := rfl
  dnnotify q rest := rfl

end KmsgDestroy

end MachVirtuTerm
