import MachVirtuTerm.Ipc.KmsgDestroyInv
import MachVirtuTerm.Lib.Run

/-!
# The steps of a destruction

The loop over the waiting messages is entered once. While a message is cleaned, a step puts
plain tasks on the stack and messages behind those that wait.
-/

open List Function

namespace MachVirtuTerm

namespace KmsgDestroy

open Kmsg

variable {P M : Type*} {s s' : State P M} {c : Choice}

/-- Messages are left in the queue of a port that is dead. -/
def Stranded (s : State P M) (p : P) : Prop :=
  (s.port p).active = false ∧ (s.port p).messages ≠ []

/-- What a step for a task does, on the state without the task. -/
structure Effect (task : Task P M) (s s' : State P M) : Prop where
  stack : ∃ tasks, s'.stack = tasks ++ s.stack ∧ (∀ t ∈ tasks, t.Plain) ∧
    ∀ q, Stranded s' q → .flush q ∈ tasks ∨ (task ≠ .flush q ∧ Stranded s q)
  messages : ∃ added, s'.ithMessages = s.ithMessages ++ added
  cleaned : s'.cleaned = s.cleaned
  freed : s'.freed = s.freed
  fresh : s.fresh ≤ s'.fresh
  active : ∀ q, task ≠ .portDie q → (s'.port q).active = (s.port q).active

/-- A step that changes no port. -/
theorem effect_push {task : Task P M} (hflush : ∀ q, task ≠ .flush q) (tasks : List (Task P M))
    (hplain : ∀ t ∈ tasks, t.Plain) {fresh : ℕ} (hfresh : s.fresh ≤ fresh)
    (taken : List (IpcKmsg P M)) :
    Effect task s { s with
      stack := tasks ++ s.stack
      fresh
      taken } where
  stack := ⟨tasks, rfl, hplain, fun q hq => .inr ⟨hflush q, hq⟩⟩
  messages := ⟨[], (append_nil _).symm⟩
  cleaned := rfl
  freed := rfl
  fresh := hfresh
  active := fun _ _ => rfl

/-- A step that changes a port. -/
theorem effect_setPort [DecidableEq P] {task : Task P M} {p : P} {x : IpcPort P M}
    (hflush : ∀ q, q ≠ p → task ≠ .flush q) (tasks : List (Task P M))
    (hplain : ∀ t ∈ tasks, t.Plain)
    (hactive : task ≠ .portDie p → x.active = (s.port p).active)
    (hstranded : x.active = false → x.messages ≠ [] →
      .flush p ∈ tasks ∨ (task ≠ .flush p ∧ Stranded s p)) :
    Effect task s ((s.setPort p x).push tasks) where
  stack := by
    refine ⟨tasks, rfl, hplain, fun q hq => ?_⟩
    by_cases hqp : q = p
    · subst hqp
      simp only [Stranded, State.push, State.setPort, update_self] at hq
      exact hstranded hq.1 hq.2
    · simp only [Stranded, State.push, State.setPort, update_of_ne hqp] at hq
      exact .inr ⟨hflush q hqp, hq⟩
  messages := ⟨[], (append_nil _).symm⟩
  cleaned := rfl
  freed := rfl
  fresh := le_rfl
  active := by
    intro q hq
    by_cases hqp : q = p
    · subst hqp
      simp only [State.push, State.setPort, update_self]
      exact hactive hq
    · simp only [State.push, State.setPort, update_of_ne hqp]

theorem effect_refl {task : Task P M} (hflush : ∀ q, task ≠ .flush q) : Effect task s s :=
  effect_push hflush [] (fun _ h => absurd h not_mem_nil) le_rfl s.taken

theorem plain_singleton {task : Task P M} (h : task.Plain) : ∀ t ∈ [task], t.Plain := by
  intro t ht
  rw [mem_singleton] at ht
  exact ht ▸ h

theorem effect_releaseSend [DecidableEq P] (p : P) :
    Effect (.releaseRight p machMsgTypePortSend) s (s.releaseSend p) := by
  have hflush : ∀ q, Task.releaseRight (M := M) p machMsgTypePortSend ≠ .flush q := nofun
  rw [State.releaseSend]
  split
  · exact effect_refl hflush
  dsimp only
  split
  · exact effect_setPort (fun q _ => hflush q) [] (fun _ h => absurd h not_mem_nil)
      (fun _ => rfl) fun hactive hmessages => .inr ⟨hflush p, hactive, hmessages⟩
  · exact effect_setPort (fun q _ => hflush q) _ (plain_singleton trivial)
      (fun _ => rfl) fun hactive hmessages => .inr ⟨hflush p, hactive, hmessages⟩

theorem effect_release [DecidableEq P] {use : Use P M} (hstep : s.release use = some s') :
    Effect (.release use) s s' := by
  cases use with
  | transferred | fault => cases hstep
  | released item =>
    cases item with
    | memory =>
      cases hstep
      exact effect_refl (by rintro _ ⟨⟩)
    | right p msgtName =>
      rw [State.release, State.objectDestroy] at hstep
      split at hstep
      next htype =>
        cases hstep
        subst htype
        exact effect_releaseSend p
      split at hstep
      · cases hstep
        exact effect_push (by rintro _ ⟨⟩) [.notify p none] (plain_singleton trivial) le_rfl _
      split at hstep
      · cases hstep
        exact effect_push (by rintro _ ⟨⟩) [.portDestroy p] (plain_singleton trivial) le_rfl _
      · cases hstep

theorem effect_notify (q : P) (right : Option P) :
    Effect (.notify q right) s (s.notify c q right) := by
  by_cases halloc : c.alloc = true
  · rw [notify_of_alloc s halloc]
    exact effect_push nofun [.mqueueSend (notification s.fresh q right)]
      (plain_singleton trivial) (Nat.le_succ _) _
  · cases right with
    | none =>
      rw [notify_of_not_alloc s halloc]
      exact effect_refl nofun
    | some p =>
      rw [notify_right_of_not_alloc s halloc]
      exact effect_push nofun [.portDestroy p] (plain_singleton trivial) le_rfl _

theorem plain_replyTask (m : IpcKmsg P M) : (replyTask m).Plain := by
  rw [replyTask]
  split <;> trivial

theorem sendReply_eq (s : State P M) (m : IpcKmsg P M) : s.sendReply m = s.push [replyTask m] := by
  cases hport : m.remotePort <;> simp [State.sendReply, replyTask, hport]

/-- What a server in the kernel brings about. -/
theorem kobjectServer_eq (c : Choice) (m : IpcKmsg P M) :
    ∃ tasks taken, s.kobjectServer c m = { s with
        stack := tasks ++ s.stack
        fresh := s.fresh + 1
        taken := taken ++ s.taken } ∧
      (∀ t ∈ tasks, t = replyTask (reply s.fresh m) ∨ t = .destroy m.bare) ∧
      ∀ m' ∈ taken, m' = m ∨ m' = reply s.fresh m := by
  cases hserved : c.served with
  | success =>
    refine ⟨[replyTask (reply s.fresh m)], [m], ?_, ?_, ?_⟩
    · rw [State.kobjectServer, hserved]
      dsimp only
      rw [sendReply_eq]
      rfl
    · simp
    · simp
  | noReply =>
    refine ⟨[], [reply s.fresh m, m], ?_, ?_, ?_⟩
    · rw [State.kobjectServer, hserved]
      rfl
    · simp
    · simp
  | failed =>
    refine ⟨[.destroy m.bare, replyTask (reply s.fresh m)], [], ?_, ?_, ?_⟩
    · rw [State.kobjectServer, hserved]
      dsimp only
      rw [sendReply_eq]
      rfl
    · simp
    · simp

theorem effect_mqueueSend [DecidableEq P] {m : IpcKmsg P M}
    (hstep : s.mqueueSend c m = some s') : Effect (.mqueueSend m) s s' := by
  rw [State.mqueueSend] at hstep
  split at hstep
  next p _ =>
    dsimp only at hstep
    split at hstep
    · cases hstep
      obtain ⟨tasks, taken, heq, htasks, -⟩ := kobjectServer_eq (s := s) c m
      rw [heq]
      refine effect_push (by rintro _ ⟨⟩) tasks ?_ (Nat.le_succ _) _
      intro t ht
      rcases htasks t ht with rfl | rfl
      · exact plain_replyTask _
      · trivial
    split at hstep
    · cases hstep
      exact effect_push (by rintro _ ⟨⟩) [.destroy m.undirected] (plain_singleton trivial) le_rfl _
    next hactive =>
      split at hstep
      · cases hstep
        exact effect_push (by rintro _ ⟨⟩) [] (fun _ h => absurd h not_mem_nil) le_rfl _
      · cases hstep
        exact effect_setPort (by rintro _ _ ⟨⟩) [] (fun _ h => absurd h not_mem_nil)
          (fun _ => rfl) fun hdead _ => absurd hdead hactive
  · cases hstep

theorem effect_portDestroy [DecidableEq P] {p : P} (hstep : s.portDestroy c p = some s') :
    Effect (.portDestroy p) s s' := by
  rw [State.portDestroy] at hstep
  split at hstep
  · cases hstep
  split at hstep
  · cases hstep
    exact effect_push (by rintro _ ⟨⟩) [.portDie p] (plain_singleton trivial) le_rfl _
  · split at hstep
    · cases hstep
      exact effect_setPort (by rintro _ _ ⟨⟩) _ (plain_singleton trivial) (fun _ => rfl)
        fun hactive hmessages => .inr ⟨by rintro ⟨⟩, hactive, hmessages⟩
    · cases hstep
      exact effect_setPort (by rintro _ _ ⟨⟩) _ (plain_singleton trivial) (fun _ => rfl)
        fun hactive hmessages => .inr ⟨by rintro ⟨⟩, hactive, hmessages⟩

/-- What is done when a port has died. -/
theorem mem_deathTasks {p : P} {x : IpcPort P M} {t : Task P M} (h : t ∈ deathTasks p x) :
    (∃ q, x.nsrequest = some q ∧ t = .notify q none) ∨ t = .flush p ∨ t = .dnnotify x.dnrequests ∨
      ∃ r ∈ x.kobject, t = .release (.released (.right r.1 r.2)) := by
  simp only [deathTasks, mem_append, mem_map, mem_cons, Option.mem_toList] at h
  rcases h with ⟨q, hq, rfl⟩ | rfl | rfl | ⟨r, hr, rfl⟩
  · exact .inl ⟨q, hq, rfl⟩
  · exact .inr (.inl rfl)
  · exact .inr (.inr (.inl rfl))
  · exact .inr (.inr (.inr ⟨r, hr, rfl⟩))

theorem effect_portDie [DecidableEq P] {p : P} (hstep : s.portDie p = some s') :
    Effect (.portDie p) s s' := by
  obtain ⟨-, rfl⟩ := portDie_eq hstep
  refine effect_setPort (by rintro _ _ ⟨⟩) _ ?_ (fun h => absurd rfl h)
    fun _ _ => .inl (by simp [deathTasks])
  intro t ht
  rcases mem_deathTasks ht with ⟨q, -, rfl⟩ | rfl | rfl | ⟨r, -, rfl⟩
  all_goals trivial

theorem effect_flush [DecidableEq P] (p : P) : Effect (.flush p) s (s.flush p) := by
  rw [State.flush]
  split
  next hmessages =>
    constructor
    · refine ⟨[], rfl, fun _ h => absurd h not_mem_nil, fun q hq => .inr ⟨?_, hq⟩⟩
      rintro heq
      cases heq
      exact hq.2 hmessages
    · exact ⟨[], (append_nil _).symm⟩
    · rfl
    · rfl
    · exact le_rfl
    · exact fun _ _ => rfl
  · refine effect_setPort (fun q hq heq => hq ?_) _ ?_ (fun _ => rfl) fun _ _ => .inl (by simp)
    · cases heq
      rfl
    · intro t ht
      simp only [mem_cons, not_mem_nil, or_false] at ht
      rcases ht with rfl | rfl <;> trivial

theorem effect_dnnotify (sorights : List P) :
    Effect (.dnnotify sorights) s (s.dnnotify sorights) := by
  cases sorights with
  | nil => exact effect_refl nofun
  | cons q rest =>
    refine effect_push nofun _ ?_ le_rfl _
    intro t ht
    simp only [mem_cons, not_mem_nil, or_false] at ht
    rcases ht with rfl | rfl <;> trivial

theorem effect_destroy (m : IpcKmsg P M) (h : s.ithMessages ≠ []) :
    Effect (.destroy m) s (s.destroy m) := by
  have heq : s.destroy m = { s with ithMessages := s.ithMessages ++ [m] } := by
    obtain ⟨first, rest, hlist⟩ := exists_cons_of_ne_nil h
    simp [State.destroy, hlist]
  rw [heq]
  constructor
  · exact ⟨[], rfl, fun _ h => absurd h not_mem_nil, fun q hq => .inr ⟨by rintro ⟨⟩, hq⟩⟩
  · exact ⟨[m], rfl⟩
  · rfl
  · rfl
  · exact le_rfl
  · exact fun _ _ => rfl

/-- A step for a plain task, while a message is cleaned. -/
theorem effect_step [DecidableEq P] {task : Task P M} {stack : List (Task P M)}
    (hstack : s.stack = task :: stack) (hplain : task.Plain) (hfirst : s.ithMessages ≠ [])
    (hstep : s.Step c s') : Effect task { s with stack } s' := by
  rw [State.Step, State.step, hstack] at hstep
  dsimp only at hstep
  cases task with
  | loop => exact hplain.elim
  | rmqueue => exact hplain.elim
  | destroy m =>
    cases hstep
    exact effect_destroy m hfirst
  | release use => exact effect_release hstep
  | notify q right =>
    cases hstep
    exact effect_notify q right
  | mqueueSend m => exact effect_mqueueSend hstep
  | portDestroy p => exact effect_portDestroy hstep
  | portDie p => exact effect_portDie hstep
  | flush p =>
    cases hstep
    exact effect_flush p
  | dnnotify sorights =>
    cases hstep
    exact effect_dnnotify sorights

end KmsgDestroy

end MachVirtuTerm

/-!
# The loop over waiting messages

A thread that is given a message to destroy, while none waits, is in one loop over the waiting
messages until all is done. The rank of the state bounds how long this takes.
-/

namespace MachVirtuTerm

namespace KmsgDestroy

open Kmsg

variable {P M : Type*} {s s' : State P M} {c : Choice}

/-- The task belongs to a loop over the waiting messages. -/
def Task.isLoop : Task P M → Bool
  | .loop | .rmqueue => true
  | _ => false

theorem isLoop_of_plain {t : Task P M} (h : t.Plain) : t.isLoop = false := by
  cases t <;> first | rfl | exact h.elim

/-- Where the thread is. -/
inductive Shape (s : State P M) : Prop
  /-- `ipc_kmsg_destroy` is called and no message waits. -/
  | call (m : IpcKmsg P M) (hstack : s.stack = [.destroy m]) (hlist : s.ithMessages = [])
  /-- The queue of waiting messages is tested. -/
  | loop (hstack : s.stack = [.loop])
  /-- The first of these is cleaned. -/
  | inside (tasks : List (Task P M)) (hstack : s.stack = tasks ++ [.rmqueue])
    (hplain : ∀ t ∈ tasks, t.Plain) (hfirst : s.ithMessages ≠ [])
  /-- All is done. -/
  | done (hstack : s.stack = []) (hlist : s.ithMessages = [])

/-- The steps, by where the thread is. -/
inductive ShapeStep [DecidableEq P] (s : State P M) (c : Choice) (s' : State P M) : Prop
  | call (m : IpcKmsg P M) (hstack : s.stack = [.destroy m]) (hlist : s.ithMessages = [])
    (heq : s' = { s with
      ithMessages := [m]
      stack := [.loop] })
  | leave (hstack : s.stack = [.loop]) (hlist : s.ithMessages = [])
    (heq : s' = { s with stack := [] })
  | clean (m : IpcKmsg P M) (rest : List (IpcKmsg P M)) (hstack : s.stack = [.loop])
    (hlist : s.ithMessages = m :: rest)
    (heq : s' = { s with
      cleaned := m.buffer :: s.cleaned
      stack := m.clean.map Task.release ++ [.rmqueue] })
  | free (m : IpcKmsg P M) (rest : List (IpcKmsg P M)) (hstack : s.stack = [.rmqueue])
    (hlist : s.ithMessages = m :: rest)
    (heq : s' = { s with
      ithMessages := rest
      freed := m.buffer :: s.freed
      stack := [.loop] })
  | plain (task : Task P M) (tasks : List (Task P M))
    (hstack : s.stack = task :: (tasks ++ [.rmqueue])) (hplain : task.Plain)
    (hplains : ∀ t ∈ tasks, t.Plain) (hfirst : s.ithMessages ≠ []) (hstep : s.Step c s')
    (heffect : Effect task { s with stack := tasks ++ [.rmqueue] } s')

theorem shapeStep [DecidableEq P] (h : Shape s) (hstep : s.Step c s') : ShapeStep s c s' := by
  cases h with
  | call m hstack hlist =>
    rw [State.Step, State.step, hstack] at hstep
    cases hstep
    refine .call m hstack hlist ?_
    simp [State.destroy, State.push, hlist]
  | loop hstack =>
    rw [State.Step, State.step, hstack] at hstep
    cases hstep
    cases hlist : s.ithMessages with
    | nil =>
      refine .leave hstack hlist ?_
      simp [State.loop, hlist]
    | cons m rest =>
      refine .clean m rest hstack hlist ?_
      simp [State.loop, State.push, hlist]
  | inside tasks hstack hplain hfirst =>
    cases tasks with
    | nil =>
      obtain ⟨m, rest, hlist⟩ := exists_cons_of_ne_nil hfirst
      rw [State.Step, State.step, hstack] at hstep
      simp only [nil_append, State.rmqueue, hlist, State.push, Option.some.injEq] at hstep
      exact .free m rest hstack hlist hstep.symm
    | cons task tasks =>
      have hhead : task.Plain := hplain task mem_cons_self
      have htail : ∀ t ∈ tasks, t.Plain := fun t ht => hplain t (mem_cons_of_mem task ht)
      exact .plain task tasks hstack hhead htail hfirst hstep
        (effect_step hstack hhead hfirst hstep)
  | done hstack hlist =>
    rw [State.Step, State.step, hstack] at hstep
    cases hstep

/-- The loop is not entered again. -/
theorem Shape.step [DecidableEq P] (h : Shape s) (hstep : s.Step c s') : Shape s' := by
  cases shapeStep h hstep with
  | call m hstack hlist heq =>
    rw [heq]
    exact .loop rfl
  | leave hstack hlist heq =>
    rw [heq]
    exact .done rfl hlist
  | clean m rest hstack hlist heq =>
    rw [heq]
    refine .inside _ rfl ?_ ?_
    · intro t ht
      obtain ⟨use, -, rfl⟩ := mem_map.mp ht
      trivial
    · change s.ithMessages ≠ []
      rw [hlist]
      exact cons_ne_nil m rest
  | free m rest hstack hlist heq =>
    rw [heq]
    exact .loop rfl
  | plain task tasks hstack hplain hplains hfirst hstep heffect =>
    obtain ⟨new, hnew, hnewPlain, -⟩ := heffect.stack
    obtain ⟨added, hadded⟩ := heffect.messages
    refine .inside (new ++ tasks) ?_ ?_ ?_
    · rw [hnew, append_assoc]
    · intro t ht
      rcases mem_append.mp ht with ht | ht
      · exact hnewPlain t ht
      · exact hplains t ht
    · rw [hadded]
      simp [hfirst]

/-- There is never more than one loop over the waiting messages. -/
theorem Shape.countP_isLoop_le (h : Shape s) : s.stack.countP Task.isLoop ≤ 1 := by
  cases h with
  | call m hstack hlist => simp [hstack, Task.isLoop]
  | loop hstack => simp [hstack, Task.isLoop]
  | inside tasks hstack hplain hfirst =>
    have hnone : tasks.countP Task.isLoop = 0 := by
      rw [countP_eq_zero]
      intro t ht
      simp [isLoop_of_plain (hplain t ht)]
    rw [hstack, countP_append, hnone]
    simp [Task.isLoop]
  | done hstack hlist => simp [hstack]

/-! ## Sums over a whole state -/

/-- A message is being cleaned. -/
def Cleaning (s : State P M) : Bool := s.stack.any fun t => t matches .rmqueue

theorem cleaning_inside {tasks : List (Task P M)} (h : s.stack = tasks ++ [.rmqueue]) :
    Cleaning s = true := by
  simp [Cleaning, h]

theorem cleaning_call {m : IpcKmsg P M} (h : s.stack = [.destroy m]) : Cleaning s = false := by
  rw [Cleaning, h]
  rfl

theorem cleaning_loop (h : s.stack = [.loop]) : Cleaning s = false := by
  rw [Cleaning, h]
  rfl

theorem cleaning_done (h : s.stack = []) : Cleaning s = false := by
  rw [Cleaning, h]
  rfl

/-- The first of the messages that wait, unless it is being cleaned. -/
def firstWaiting (s : State P M) : List (IpcKmsg P M) :=
  if Cleaning s = true then [] else s.ithMessages.take 1

/-- The weights of all. -/
def Weight.total {A : Type*} [AddCommMonoid A] [Fintype P] (w : Weight P M A) (s : State P M) : A :=
  w.sum s + ((firstWaiting s).map w.message).sum

section Total

variable {A : Type*} [AddCommMonoid A] [Fintype P] (w : Weight P M A)

theorem total_inside {tasks : List (Task P M)} (h : s.stack = tasks ++ [.rmqueue]) :
    w.total s = w.sum s := by
  rw [Weight.total, firstWaiting, if_pos (cleaning_inside h)]
  simp

/-- The weights outside of the loop. -/
theorem total_outside (h : Cleaning s = false) :
    w.total s = ∑ p, w.port p (s.port p) + (s.ithMessages.map w.message).sum +
      (s.stack.map w.task).sum + w.outside s.fresh s.taken := by
  rw [Weight.total, firstWaiting, if_neg (by simp [h]), Weight.sum]
  cases s.ithMessages with
  | nil => simp
  | cons m rest =>
    simp only [tail_cons, map_cons, sum_cons, take_succ_cons, take_zero, map_nil, sum_nil, add_zero]
    ac_rfl

end Total

/-! ## Termination -/

theorem sum_rank_uses (uses : List (Use P M)) :
    ((uses.map Task.release).map taskRank).sum = sumUses useRank uses := by
  rw [map_map]
  rfl

variable [Fintype P] [DecidableEq P]

/-- Balanced weights, while a message is cleaned. -/
theorem total_plain {task : Task P M} {tasks : List (Task P M)}
    (hstack : s.stack = task :: (tasks ++ [.rmqueue])) (hplain : task.Plain)
    (hfirst : s.ithMessages ≠ []) (hstep : s.Step c s')
    (heffect : Effect task { s with stack := tasks ++ [.rmqueue] } s') {A : Type*}
    [AddCommMonoid A] {w : Weight P M A} {r : A → A → Prop} (h : w.Balanced r)
    (hadd : ∀ a b c, r a b → r (a + c) (b + c)) : r (w.total s') (w.total s) := by
  obtain ⟨new, hnew, -, -⟩ := heffect.stack
  have hafter : s'.stack = (new ++ tasks) ++ [.rmqueue] := by rw [hnew, append_assoc]
  have hbefore : s.stack = (task :: tasks) ++ [.rmqueue] := hstack
  rw [total_inside w hafter, total_inside w hbefore]
  exact h.step hadd hstack hplain hfirst hstep

/-- Every step lowers the rank. -/
theorem rank_step (hshape : Shape s) (hstep : s.Step c s') :
    (rank : Weight P M ℕ).total s' < (rank : Weight P M ℕ).total s := by
  cases shapeStep hshape hstep with
  | call m hstack hlist heq =>
    subst heq
    rw [total_outside _ (cleaning_call hstack), total_outside _ (cleaning_loop rfl)]
    simp only [rank, hstack, hlist, map_cons, map_nil, sum_cons, sum_nil, taskRank]
    omega
  | leave hstack hlist heq =>
    subst heq
    rw [total_outside _ (cleaning_loop hstack), total_outside _ (cleaning_done rfl)]
    simp only [rank, hstack, map_cons, map_nil, sum_cons, sum_nil, taskRank]
    omega
  | clean m rest hstack hlist heq =>
    subst heq
    rw [total_outside _ (cleaning_loop hstack),
      @total_inside _ _ _ _ _ _ _ (m.clean.map Task.release) rfl, Weight.sum]
    simp only [rank, hstack, hlist, tail_cons, map_cons, map_nil, sum_cons,
      sum_nil, map_append, sum_append, sum_rank_uses, taskRank]
    omega
  | free m rest hstack hlist heq =>
    subst heq
    rw [total_outside _ (cleaning_loop rfl), @total_inside _ _ _ _ _ _ _ [] hstack, Weight.sum]
    simp only [rank, hstack, hlist, tail_cons, map_cons, map_nil, sum_cons, sum_nil, taskRank]
    omega
  | plain task tasks hstack hplain hplains hfirst hstep heffect =>
    exact total_plain hstack hplain hfirst hstep heffect rank_balanced
      fun _ _ _ h => Nat.add_lt_add_right h _

/-- What the shape and the rank of a state say together. -/
theorem lowers : Run.Lowers Shape (rank : Weight P M ℕ).total State.Step :=
  fun _ _ _ hshape hstep => ⟨hshape.step hstep, rank_step hshape hstep⟩

end KmsgDestroy

end MachVirtuTerm
