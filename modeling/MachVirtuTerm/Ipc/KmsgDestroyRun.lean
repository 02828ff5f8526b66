import MachVirtuTerm.Ipc.KmsgDestroyFormed
import Mathlib.Algebra.BigOperators.Pi
import Mathlib.Algebra.BigOperators.Ring.Finset

/-!
# What a destruction keeps

Along a destruction no receive right and no message gets lost, the queues of dead ports are
about to be flushed, and the messages that were cleaned are those that were freed, but for the
one that is being cleaned.
-/

open List

namespace MachVirtuTerm

namespace KmsgDestroy

open Kmsg

variable {P M : Type*} {s s' : State P M} {c : Choice}

/-- The message that is being cleaned. -/
def beingCleaned (s : State P M) : List ℕ :=
  if Cleaning s = true then (s.ithMessages.take 1).map (·.buffer) else []

/-- A task on a stack for each queue that has been stranded. -/
def Flushed (s : State P M) : Prop := ∀ p, Stranded s p → .flush p ∈ s.stack

/-- How far the destruction of a message has come. -/
def Begun (root : IpcKmsg P M) (s : State P M) : Prop :=
  root.buffer ∈ s.cleaned ∨ s.stack = [.destroy root] ∨ s.stack = [.loop] ∧ s.ithMessages = [root]

/-- Where no queue waits for a flush, none is stranded by a step that changes no port. -/
theorem flushed_of_port_eq (h : Flushed s) (hnone : ∀ p, .flush p ∉ s.stack)
    (hport : s'.port = s.port) : Flushed s' := by
  intro p hp
  rw [Stranded, hport] at hp
  exact absurd (h p hp) (hnone p)

section

variable [DecidableEq P]

theorem flushed_step (h : Flushed s) (hshape : Shape s) (hstep : s.Step c s') : Flushed s' := by
  cases shapeStep hshape hstep with
  | call m hstack hlist heq => exact flushed_of_port_eq h (by simp [hstack]) (by rw [heq])
  | leave hstack hlist heq => exact flushed_of_port_eq h (by simp [hstack]) (by rw [heq])
  | clean m rest hstack hlist heq => exact flushed_of_port_eq h (by simp [hstack]) (by rw [heq])
  | free m rest hstack hlist heq => exact flushed_of_port_eq h (by simp [hstack]) (by rw [heq])
  | plain task tasks hstack hplain hplains hfirst hstep heffect =>
    obtain ⟨new, hnew, -, hstranded⟩ := heffect.stack
    intro p hp
    rw [hnew, mem_append]
    rcases hstranded p hp with hmem | ⟨hne, hbefore⟩
    · exact .inl hmem
    · have hmem : .flush p ∈ s.stack := h p hbefore
      rw [hstack] at hmem
      rcases mem_cons.mp hmem with heq | hmem
      · exact absurd heq.symm hne
      · exact .inr hmem

/-- A message is freed after it was cleaned. -/
theorem cleaned_step (h : s.cleaned = beingCleaned s ++ s.freed) (hshape : Shape s)
    (hstep : s.Step c s') : s'.cleaned = beingCleaned s' ++ s'.freed := by
  cases shapeStep hshape hstep with
  | call m hstack hlist heq =>
    subst heq
    rw [beingCleaned, cleaning_call hstack] at h
    exact h
  | leave hstack hlist heq =>
    subst heq
    rw [beingCleaned, cleaning_loop hstack] at h
    exact h
  | clean m rest hstack hlist heq =>
    subst heq
    rw [beingCleaned, cleaning_loop hstack] at h
    rw [beingCleaned, @cleaning_inside _ _ _ (m.clean.map Task.release) rfl]
    simp only [hlist, h]
    rfl
  | free m rest hstack hlist heq =>
    subst heq
    rw [beingCleaned, @cleaning_inside _ _ _ [] hstack, hlist] at h
    exact h
  | plain task tasks hstack hplain hplains hfirst hstep heffect =>
    obtain ⟨new, hnew, -, -⟩ := heffect.stack
    obtain ⟨added, hadded⟩ := heffect.messages
    obtain ⟨first, rest, hlist⟩ := exists_cons_of_ne_nil hfirst
    have hafter : s'.stack = (new ++ tasks) ++ [.rmqueue] := by rw [hnew, append_assoc]
    have hbefore : s.stack = (task :: tasks) ++ [.rmqueue] := hstack
    rw [beingCleaned, cleaning_inside hbefore, hlist] at h
    rw [beingCleaned, cleaning_inside hafter, hadded, heffect.cleaned, heffect.freed, hlist]
    exact h

theorem begun_step {root : IpcKmsg P M} (h : Begun root s) (hshape : Shape s)
    (hstep : s.Step c s') : Begun root s' := by
  cases shapeStep hshape hstep with
  | call m hstack hlist heq =>
    subst heq
    rcases h with h | h | ⟨h, -⟩
    · exact .inl h
    · rw [hstack] at h
      cases h
      exact .inr (.inr ⟨rfl, rfl⟩)
    · rw [hstack] at h
      cases h
  | leave hstack hlist heq =>
    subst heq
    rcases h with h | h | ⟨-, h⟩
    · exact .inl h
    · rw [hstack] at h
      cases h
    · rw [hlist] at h
      cases h
  | clean m rest hstack hlist heq =>
    subst heq
    rcases h with h | h | ⟨-, h⟩
    · exact .inl (mem_cons_of_mem _ h)
    · rw [hstack] at h
      cases h
    · rw [hlist] at h
      cases h
      exact .inl mem_cons_self
  | free m rest hstack hlist heq =>
    subst heq
    rcases h with h | h | ⟨h, -⟩
    · exact .inl h
    · rw [hstack] at h
      cases h
    · rw [hstack] at h
      cases h
  | plain task tasks hstack hplain hplains hfirst hstep heffect =>
    rcases h with h | h | ⟨h, -⟩
    · rw [Begun, heffect.cleaned]
      exact .inl h
    · rw [hstack] at h
      cases tasks <;> cases h
    · rw [hstack] at h
      cases tasks <;> cases h

/-- An item that cannot be released stays for ever. -/
theorem fault_step {c : Choice} {s' : State P M} (hshape : Shape s)
    (hfault : .release .fault ∈ s.stack) (hstep : s.Step c s') : .release .fault ∈ s'.stack := by
  cases shapeStep hshape hstep with
  | call m hstack hlist heq => simp [hstack] at hfault
  | leave hstack hlist heq => simp [hstack] at hfault
  | clean m rest hstack hlist heq => simp [hstack] at hfault
  | free m rest hstack hlist heq => simp [hstack] at hfault
  | plain task tasks hstack hplain hplains hfirst hstep heffect =>
    obtain ⟨new, hnew, -, -⟩ := heffect.stack
    rw [hstack] at hfault
    rcases mem_cons.mp hfault with heq | hfault
    · subst heq
      rw [State.Step, State.step, hstack] at hstep
      cases hstep
    · rw [hnew]
      exact mem_append_right _ hfault

/-! ## Nothing stands in the way of a step -/

theorem exists_release {use : Use P M} (h : Releasable use) : ∃ s', s.release use = some s' := by
  match use, h with
  | .released (.memory m), _ => exact ⟨_, rfl⟩
  | .released (.right p msgtName), htype =>
    rw [State.release, State.objectDestroy]
    split
    · exact ⟨_, rfl⟩
    split
    · exact ⟨_, rfl⟩
    next hsend hsendOnce =>
      have hreceive : msgtName = machMsgTypePortReceive := by
        rcases htype with (hsend' | hsendOnce') | hreceive
        · exact absurd hsend' hsend
        · exact absurd hsendOnce' hsendOnce
        · exact hreceive
      rw [if_pos hreceive]
      exact ⟨_, rfl⟩

theorem exists_mqueueSend (c : Choice) {m : IpcKmsg P M} {p : P} (h : m.remotePort = .right p) :
    ∃ s', s.mqueueSend c m = some s' := by
  rw [State.mqueueSend, h]
  dsimp only
  split
  · exact ⟨_, rfl⟩
  split
  · exact ⟨_, rfl⟩
  split
  · exact ⟨_, rfl⟩
  · exact ⟨_, rfl⟩

theorem exists_portDestroy (c : Choice) {p : P} (h : (s.port p).active = true) :
    ∃ s', s.portDestroy c p = some s' := by
  rw [State.portDestroy, if_neg (by simp [h])]
  split
  · exact ⟨_, rfl⟩
  split
  · exact ⟨_, rfl⟩
  · exact ⟨_, rfl⟩

theorem exists_portDie {p : P} (h : (s.port p).active = true) : ∃ s', s.portDie p = some s' := by
  rw [State.portDie, if_neg (by simp [h])]
  exact ⟨_, rfl⟩

end

/-! ## Sums over a whole state -/

section Total

variable [Fintype P] [DecidableEq P]

/-- What a step does to a sum that balances: only the first of the messages that wait goes, for
its items, when it is cleaned. -/
theorem total_step {A : Type*} [AddCommMonoid A] {w : Weight P M A} (h : w.Balanced (· = ·))
    (hloop : w.task .loop = 0) (hrmqueue : w.task .rmqueue = 0) (hshape : Shape s)
    (hstep : s.Step c s') :
    (w.total s' = w.total s ∧ s'.cleaned = s.cleaned) ∨
      ∃ m ∈ s.ithMessages, Cleans s m ∧ s'.cleaned = m.buffer :: s.cleaned ∧
        w.total s' + w.message m =
          w.total s + (m.clean.map fun use => w.task (.release use)).sum := by
  cases shapeStep hshape hstep with
  | call m hstack hlist heq =>
    subst heq
    refine .inl ⟨?_, rfl⟩
    rw [total_outside _ (cleaning_call hstack), total_outside _ (cleaning_loop rfl)]
    simp [hstack, hlist, hloop, h.destroy m]
  | leave hstack hlist heq =>
    subst heq
    refine .inl ⟨?_, rfl⟩
    rw [total_outside _ (cleaning_loop hstack), total_outside _ (cleaning_done rfl)]
    simp [hstack, hloop]
  | clean m rest hstack hlist heq =>
    subst heq
    refine .inr ⟨m, by simp [hlist], ⟨by simp [hstack], by simp [hlist]⟩, rfl, ?_⟩
    rw [total_outside _ (cleaning_loop hstack),
      @total_inside _ _ _ _ _ _ _ (m.clean.map Task.release) rfl, Weight.sum]
    simp only [hstack, hlist, tail_cons, map_cons, map_nil, sum_cons,
      sum_nil, map_append, sum_append, map_map, hloop, hrmqueue, add_zero]
    change _ + (m.clean.map fun use => w.task (.release use)).sum + _ + _ = _
    ac_rfl
  | free m rest hstack hlist heq =>
    subst heq
    refine .inl ⟨?_, rfl⟩
    rw [total_outside _ (cleaning_loop rfl), @total_inside _ _ _ _ _ _ _ [] hstack, Weight.sum]
    simp [hstack, hlist, hloop, hrmqueue]
  | plain task tasks hstack hplain hplains hfirst hstep heffect =>
    refine .inl ⟨?_, heffect.cleaned⟩
    exact total_plain hstack hplain hfirst hstep heffect h fun a b c hab => hab ▸ rfl

/-- No receive right is made and none gets lost. -/
theorem receives_step {first : ℕ} (hok : s.Ok first) (hshape : Shape s) (hstep : s.Step c s') :
    (receives : Weight P M (Multiset P)).total s' = receives.total s := by
  rcases total_step receives_balanced rfl rfl hshape hstep with ⟨heq, -⟩ | ⟨m, hm, -, -, heq⟩
  · exact heq
  · have huses : (m.clean.map fun use => taskReceives (.release use)).sum = bodyReceives m :=
      (hok.messages m hm).receives_clean
    change _ + bodyReceives m = _ + (m.clean.map fun use => taskReceives (.release use)).sum at heq
    rw [huses] at heq
    exact add_right_cancel heq

/-- No message gets lost but those that are cleaned. -/
theorem account_step (hshape : Shape s) (hstep : s.Step c s') :
    (account : Weight P M (ℕ → ℤ)).total s' + (s'.cleaned.map one).sum =
      account.total s + (s.cleaned.map one).sum := by
  rcases total_step account_balanced rfl rfl hshape hstep with
    ⟨heq, hcleaned⟩ | ⟨m, hm, -, hcleaned, heq⟩
  · rw [heq, hcleaned]
  · have huses : (m.clean.map fun use => taskBuffers (.release use : Task P M)).sum = 0 := by
      refine sum_eq_zero fun f hf => ?_
      obtain ⟨use, -, rfl⟩ := mem_map.mp hf
      rfl
    change _ + one m.buffer = _ + (m.clean.map fun use => taskBuffers (.release use)).sum at heq
    rw [huses, add_zero] at heq
    rw [hcleaned, ← heq, map_cons, sum_cons, add_assoc]

/-- What holds along the destruction of a message. -/
structure Inv (root : IpcKmsg P M) (s₀ s : State P M) : Prop where
  shape : Shape s
  ok : s.Ok s₀.fresh
  flushed : Flushed s
  rights : (receives : Weight P M (Multiset P)).total s = receives.total s₀
  accounted : (account : Weight P M (ℕ → ℤ)).total s + (s.cleaned.map one).sum = account.total s₀
  cleaned : s.cleaned = beingCleaned s ++ s.freed
  begun : Begun root s

variable {root : IpcKmsg P M} {s₀ : State P M}

variable (h : Inv root s₀ s)

include h

theorem Inv.step (hcounted : ∀ m, Cleans s m → m.Counted)
    (hstep : s.Step c s') : Inv root s₀ s' where
  shape := h.shape.step hstep
  ok := ok_step h.ok hcounted hstep
  flushed := flushed_step h.flushed h.shape hstep
  rights := (receives_step h.ok h.shape hstep).trans h.rights
  accounted := (account_step h.shape hstep).trans h.accounted
  cleaned := cleaned_step h.cleaned h.shape hstep
  begun := begun_step h.begun h.shape hstep

/-- A port with a receive right that is about to be destroyed is alive. -/
theorem Inv.active (hnodup : (receives.total s₀).Nodup) {p : P}
    {task : Task P M} {stack : List (Task P M)} (hstack : s.stack = task :: stack)
    (htask : taskReceives task = {p}) : (s.port p).active = true := by
  by_contra hdead
  have htotal : receives.total s = taskReceives task + receives.sum { s with stack } +
      ((firstWaiting s).map bodyReceives).sum := by
    rw [Weight.total, sum_pop _ s task stack hstack]
    rfl
  have hgone : p ∈ receives.sum { s with stack } := by
    obtain ⟨rest, hsum, -⟩ := sum_setPort receives { s with stack } p
    rw [hsum]
    change p ∈ portReceives (s.port p) + gone p (s.port p) + rest
    rw [gone, if_neg hdead]
    simp
  rw [← h.rights, htotal, htask, add_assoc, Multiset.singleton_add, Multiset.nodup_cons] at hnodup
  exact hnodup.1 (Multiset.mem_add.mpr (.inl hgone))

/-- A thread that is not done goes on. -/
theorem Inv.progress (hnodup : (receives.total s₀).Nodup)
    (hne : s.stack ≠ []) (c : Choice) : ∃ s', s.Step c s' := by
  obtain ⟨task, stack, hstack⟩ := exists_cons_of_ne_nil hne
  have htask := (h.ok.pop hstack).1
  simp only [State.Step, State.step, hstack]
  cases task with
  | destroy m => exact ⟨_, rfl⟩
  | loop => exact ⟨_, rfl⟩
  | rmqueue =>
    cases h.shape with
    | call m hcall hlist => simp [hcall] at hstack
    | loop hcall => simp [hcall] at hstack
    | inside tasks hinside hplain hfirst =>
      obtain ⟨first, rest, hlist⟩ := exists_cons_of_ne_nil hfirst
      simp [State.rmqueue, hlist]
    | done hdone hlist => simp [hdone] at hstack
  | release use => exact exists_release htask
  | notify q right => exact ⟨_, rfl⟩
  | mqueueSend m =>
    obtain ⟨-, -, p, hp⟩ := htask
    exact exists_mqueueSend c hp
  | portDestroy p => exact exists_portDestroy c (h.active hnodup hstack rfl)
  | portDie p => exact exists_portDie (h.active hnodup hstack rfl)
  | flush p => exact ⟨_, rfl⟩
  | dnnotify sorights => exact ⟨_, rfl⟩

end Total

end KmsgDestroy

end MachVirtuTerm

/-!
# What becomes of a destroyed message

The destruction of a message is complete if it ends, with one loop over the waiting messages at
most, and if afterwards each message is in one place: in the queue of a port that is alive, taken
by somebody, or freed. It is, unless a message is cleaned that counts an array of ports which is
not there.
-/

namespace MachVirtuTerm

namespace KmsgDestroy

open Kmsg

variable {P M : Type*} [Fintype P]

/-- How often a buffer is in the queues of the ports. -/
def queued (s : State P M) (buffer : ℕ) : ℕ :=
  ∑ p, ((s.port p).messages.map (·.buffer)).count buffer

/-- A thread that is about to destroy a message. -/
structure Ready (root : IpcKmsg P M) (s : State P M) : Prop where
  stack : s.stack = [.destroy root]
  ithMessages : s.ithMessages = []
  cleaned : s.cleaned = []
  freed : s.freed = []
  taken : s.taken = []
  ok : s.Ok s.fresh
  /-- Dead ports have no messages. -/
  empty : ∀ p, (s.port p).active = false → (s.port p).messages = []
  /-- A receive right is in one place, and dead ports have none. -/
  nodup : (receives.total s).Nodup
  /-- Each message has a buffer of its own. -/
  once : ∀ b, queued s b + [root.buffer].count b ≤ 1
  /-- All of them are old. -/
  old : ∀ b, 0 < queued s b + [root.buffer].count b → b < s.fresh

/-- A buffer is that of a message there was or of one that was made. -/
def Made (root : IpcKmsg P M) (s₀ s : State P M) (buffer : ℕ) : Prop :=
  buffer = root.buffer ∨ 0 < queued s₀ buffer ∨ s₀.fresh ≤ buffer ∧ buffer < s.fresh

/-- The destruction is over. -/
structure Finished (m : IpcKmsg P M) (s₀ s : State P M) : Prop where
  stack : s.stack = []
  ithMessages : s.ithMessages = []
  /-- The message is freed. -/
  freed : m.buffer ∈ s.freed
  /-- Each message is in one place. -/
  once : ∀ b, Made m s₀ s b →
    queued s b + s.freed.count b + (s.taken.map (·.buffer)).count b = 1
  /-- The messages that were freed are those that were cleaned. -/
  cleaned : s.cleaned = s.freed
  /-- Dead ports have no messages. -/
  empty : ∀ p, (s.port p).active = false → (s.port p).messages = []
  /-- Only new messages are taken. -/
  taken : ∀ m' ∈ s.taken, s₀.fresh ≤ m'.buffer
  /-- A receive right that nobody has any more was that of a port which is dead. -/
  rights : ∀ p ∈ receives.total s₀, (s.port p).active = false ∨
    (∃ q, p ∈ portReceives (s.port q)) ∨ ∃ m' ∈ s.taken, p ∈ bodyReceives m'

section

variable [DecidableEq P]

/-- The destruction of a message ends, has one loop only and is complete. -/
def Complete (root : IpcKmsg P M) (s₀ : State P M) : Prop :=
  (∃ n, ∀ trace s, Run State.Step s₀ trace s → trace.length ≤ n) ∧
    ∀ trace s, Run State.Step s₀ trace s → s.stack.countP Task.isLoop ≤ 1 ∧
      ((∀ c s', ¬s.Step c s') → Finished root s₀ s)

end

variable {root : IpcKmsg P M} {s₀ s : State P M} {trace : List (State P M × Choice)}

theorem Ready.inv (h : Ready root s₀) : Inv root s₀ s₀ where
  shape := .call root h.stack h.ithMessages
  ok := h.ok
  flushed := fun p hp => absurd (h.empty p hp.1) hp.2
  rights := rfl
  accounted := by simp [h.cleaned]
  cleaned := by rw [beingCleaned, cleaning_call h.stack, h.cleaned, h.freed]; rfl
  begun := .inr (.inl h.stack)

theorem Ready.run [DecidableEq P] (h : Ready root s₀) (hrun : Run State.Step s₀ trace s)
    (hcounted : ∀ trace s m, Run State.Step s₀ trace s → Cleans s m → m.Counted) :
    Inv root s₀ s := by
  induction hrun with
  | nil => exact h.inv
  | cons hrun hstep ih => exact ih.step (fun m => hcounted _ _ m hrun) hstep

/-! ## Each message is in one place -/

/-- What the account says of a buffer when nothing waits. -/
theorem total_account (hcleaning : Cleaning s = false) (hlist : s.ithMessages = []) (b : ℕ) :
    (account : Weight P M (ℕ → ℤ)).total s b = queued s b + (s.stack.map taskBuffers).sum b +
      ((s.taken.map (·.buffer)).count b - below s.fresh b) := by
  have hports : (∑ p, buffers (s.port p).messages) b = queued s b := by
    rw [Finset.sum_apply, queued, Nat.cast_sum]
    exact Finset.sum_congr rfl fun p _ => buffers_apply _ b
  rw [total_outside _ hcleaning, hlist, ← hports, ← buffers_apply]
  simp [account, buffers]

theorem Ready.total_account (h : Ready root s₀) (b : ℕ) :
    (account : Weight P M (ℕ → ℤ)).total s₀ b =
      queued s₀ b + [root.buffer].count b - below s₀.fresh b := by
  have hroot : ((s₀.stack.map taskBuffers).sum : ℕ → ℤ) = ([root.buffer].map one).sum := by
    rw [h.stack]
    rfl
  rw [KmsgDestroy.total_account (cleaning_call h.stack) h.ithMessages, hroot, sum_one_apply,
    h.taken, map_nil, count_nil, Nat.cast_zero]
  omega

/-- Each message is in one place. -/
theorem Inv.once (h : Inv root s₀ s) (hready : Ready root s₀) (hstack : s.stack = [])
    (hlist : s.ithMessages = []) {b : ℕ} (hmade : Made root s₀ s b) :
    queued s b + s.cleaned.count b + (s.taken.map (·.buffer)).count b = 1 := by
  have hsum := congrFun h.accounted b
  rw [Pi.add_apply, sum_one_apply, hready.total_account,
    KmsgDestroy.total_account (cleaning_done hstack) hlist, hstack] at hsum
  simp only [map_nil, sum_nil, Pi.zero_apply, add_zero, below] at hsum
  have honce := hready.once b
  have hold := hready.old b
  have hfresh := h.ok.fresh
  rcases hmade with rfl | hqueued | ⟨hnew, hlt⟩
  · have hroot : [root.buffer].count root.buffer = 1 := by simp
    rw [hroot] at honce hold hsum
    have hlt := hold (by omega)
    rw [if_pos hlt, if_pos (by omega)] at hsum
    omega
  · have hlt := hold (by omega)
    rw [if_pos hlt, if_pos (by omega)] at hsum
    omega
  · have hnone : ¬0 < queued s₀ b + [root.buffer].count b := fun hpos => by
      have := hold hpos
      omega
    rw [if_pos hlt, if_neg (by omega)] at hsum
    omega

/-- A receive right that nobody has any more was that of a port which is dead. -/
theorem Inv.gone (h : Inv root s₀ s) (hstack : s.stack = []) (hlist : s.ithMessages = []) {p : P}
    (hp : p ∈ receives.total s₀) : (s.port p).active = false ∨
      (∃ q, p ∈ portReceives (s.port q)) ∨ ∃ m ∈ s.taken, p ∈ bodyReceives m := by
  rw [← h.rights, total_outside _ (cleaning_done hstack), hstack, hlist] at hp
  simp only [map_nil, sum_nil, add_zero] at hp
  rcases Multiset.mem_add.mp hp with hp | hp
  · obtain ⟨q, -, hq⟩ := Multiset.mem_sum.mp hp
    rcases Multiset.mem_add.mp hq with hq | hq
    · exact .inr (.inl ⟨q, hq⟩)
    · rw [KmsgDestroy.gone] at hq
      split at hq
      · exact absurd hq (Multiset.notMem_zero p)
      next hdead =>
        rw [Multiset.mem_singleton] at hq
        subst hq
        exact .inl (by simpa using hdead)
  · exact .inr (.inr (mem_sum_map hp))

/-- A thread that is done has done it all. -/
theorem Inv.finished (h : Inv root s₀ s) (hready : Ready root s₀) (hstack : s.stack = []) :
    Finished root s₀ s := by
  have hlist : s.ithMessages = [] := by
    cases h.shape with
    | call m hcall _ => simp [hcall] at hstack
    | loop hloop => simp [hloop] at hstack
    | inside tasks hinside => simp [hinside] at hstack
    | done _ hlist => exact hlist
  have hcleaned : s.cleaned = s.freed := by
    rw [h.cleaned, beingCleaned, cleaning_done hstack]
    rfl
  constructor
  · exact hstack
  · exact hlist
  · rcases h.begun with hroot | hcall | ⟨hloop, -⟩
    · rwa [← hcleaned]
    · simp [hcall] at hstack
    · simp [hloop] at hstack
  · intro b hmade
    rw [← hcleaned]
    exact h.once hready hstack hlist hmade
  · exact hcleaned
  · intro p hdead
    by_contra hmessages
    have hflush := h.flushed p ⟨hdead, hmessages⟩
    rw [hstack] at hflush
    exact absurd hflush not_mem_nil
  · exact h.ok.taken
  · exact fun p hp => h.gone hstack hlist hp

/-! ## A fault stays -/

section

variable [DecidableEq P]

/-- A message that counts an array which is not there is never done with. -/
theorem not_finished_of_cleans {m : IpcKmsg P M} (hrun : Run State.Step s₀ trace s)
    (hready : Ready root s₀) (hcleans : Cleans s m) (hnot : ¬m.Counted) : ¬Complete root s₀ := by
  intro hcomplete
  have hshape : Shape s := (hrun.length_add_rank_le _ _ hready.inv.shape lowers).1
  obtain ⟨rest, hlist⟩ : ∃ rest, s.ithMessages = m :: rest :=
    head?_eq_some_iff.mp hcleans.2
  obtain ⟨stack, hstack⟩ : ∃ stack, s.stack = .loop :: stack :=
    head?_eq_some_iff.mp hcleans.1
  let c : Choice := ⟨true, true, true, .success⟩
  obtain ⟨s', hstep, hfault⟩ : ∃ s', s.Step c s' ∧ .release .fault ∈ s'.stack := by
    refine ⟨State.loop { s with stack }, by rw [State.Step, State.step, hstack], ?_⟩
    simp only [State.loop, hlist, State.push]
    apply mem_append_left
    apply mem_append_left
    exact mem_map.mpr ⟨_, fault_mem_clean hnot, rfl⟩
  have hshape' : Shape s' := hshape.step hstep
  obtain ⟨trace', last, hrest, hfinal⟩ := Run.exists_final _ _ lowers s' hshape'
  have hstays : Shape last ∧ .release .fault ∈ last.stack :=
    @Run.invariant _ _ _ _ _ _ (fun _ _ => True)
      (fun s => Shape s ∧ .release .fault ∈ s.stack) hrest (fun _ _ => trivial)
      ⟨hshape', hfault⟩ fun _ _ _ h _ hstep => ⟨h.1.step hstep, fault_step h.1 h.2 hstep⟩
  have hfinished := (hcomplete.2 _ _ (Run.trans (.cons hrun hstep) hrest)).2 hfinal
  rw [hfinished.stack] at hstays
  exact absurd hstays.2 not_mem_nil

/-- A destruction is complete if and only if the messages that are cleaned on its way have the
arrays that they count. -/
theorem complete_iff_counted (hready : Ready root s₀) :
    Complete root s₀ ↔
      ∀ trace s m, Run State.Step s₀ trace s → Cleans s m → m.Counted := by
  constructor
  · intro hcomplete trace s m hrun hcleans
    by_contra hnot
    exact not_finished_of_cleans hrun hready hcleans hnot hcomplete
  · intro hcounted
    refine ⟨⟨rank.total s₀, fun trace s hrun => ?_⟩, fun trace s hrun => ?_⟩
    · have hle := (hrun.length_add_rank_le _ _ hready.inv.shape lowers).2
      omega
    · have hinv := hready.run hrun hcounted
      refine ⟨hinv.shape.countP_isLoop_le, fun hfinal => hinv.finished hready ?_⟩
      by_contra hne
      obtain ⟨s', hstep⟩ := hinv.progress hready.nodup hne ⟨true, true, true, .success⟩
      exact hfinal _ s' hstep

/-- A message in buffer 0 with one descriptor. -/
def single (d : Descriptor Unit Unit) : IpcKmsg Unit Unit where
  buffer := 0
  config := ⟨false, 0⟩
  remotePort := .null
  remoteType := 0
  localPort := .null
  localType := 0
  complex := true
  body := [d]

/-- A thread that is about to destroy it, with one port. -/
def alone (d : Descriptor Unit Unit) : State Unit Unit where
  port _ := ⟨true, false, 0, none, none, [], [], []⟩
  ithMessages := []
  stack := [.destroy (single d)]
  fresh := 1
  cleaned := []
  freed := []
  taken := []

theorem ready_alone {d : Descriptor Unit Unit} (hd : d.InKernel)
    (htypes : ∀ p msgtName, .right p msgtName ∈ d.carried → KnownType msgtName)
    (hnodup : (receives.total (alone d)).Nodup) : Ready (single d) (alone d) where
  stack := rfl
  ithMessages := rfl
  cleaned := rfl
  freed := rfl
  taken := rfl
  ok :=
    { ports := fun _ => ⟨fun _ hm => absurd hm not_mem_nil, fun _ hr => absurd hr not_mem_nil⟩
      messages := fun _ hm => absurd hm not_mem_nil
      tasks := by
        intro t ht
        cases mem_singleton.mp ht
        constructor
        · trivial
        · nofun
        · trivial
        · nofun
        · intro d' hd'
          cases mem_singleton.mp hd'
          exact hd
        · intro d' hd'
          cases mem_singleton.mp hd'
          exact htypes
      fresh := le_rfl
      taken := fun _ hm => absurd hm not_mem_nil }
  empty := fun _ h => (nomatch h)
  nodup := hnodup
  once := fun b => by
    have hqueued : queued (alone d) b = 0 := by simp [queued, alone]
    rw [hqueued, zero_add]
    exact count_le_length
  old := fun b hb => by
    have hqueued : queued (alone d) b = 0 := by simp [queued, alone]
    rw [hqueued, zero_add, count_pos_iff, mem_singleton] at hb
    subst hb
    exact Nat.zero_lt_one

/-- A receive right. -/
def receiveRight : Descriptor Unit Unit := .port (.right ()) machMsgTypePortReceive

/-- An array of 2 ^ 30 rights at the null address. -/
def nullPorts : Descriptor Unit Unit := .oolPorts .null 0x40000000 0 machMsgTypePortSend

/-- A message with a receive right is destroyed. -/
theorem complete_iff_counted_receive :
    Complete (single receiveRight) (alone receiveRight) ↔
      ∀ trace s m, Run State.Step (alone receiveRight) trace s → Cleans s m → m.Counted := by
  refine complete_iff_counted (ready_alone trivial ?_ (by decide))
  intro p msgtName hmem
  cases mem_singleton.mp hmem
  exact .inr rfl

/-- A message that counts an array at the null address is not. -/
theorem not_complete_nullPorts :
    Ready (single nullPorts) (alone nullPorts) ∧
      ¬Complete (single nullPorts) (alone nullPorts) := by
  have hready : Ready (single nullPorts) (alone nullPorts) := by
    refine ready_alone rfl ?_ (by decide)
    intro p msgtName hmem
    exact absurd hmem not_mem_nil
  have hstep : (alone nullPorts).Step ⟨true, true, true, .success⟩ { alone nullPorts with
      ithMessages := [single nullPorts]
      stack := [.loop] } := rfl
  refine ⟨hready, not_finished_of_cleans (.cons .nil hstep) hready ⟨rfl, rfl⟩ ?_⟩
  intro hcounted
  have hzero : (0x40000000 : BitVec 32) = 0 := hcounted _ mem_cons_self
  exact absurd hzero (by decide)

end

end KmsgDestroy

end MachVirtuTerm
