import MachVirtuTerm.Kern.ThreadStop

/-!
# Runs of stops

Every section keeps the invariant, if `thread_unstop` does not put a target on a run queue past a
thread that waits to stop it.
-/

namespace MachVirtuTerm

open StopState StopPc Bool Or

/-- The wakeups of `wake_active`. -/
def StopAction.wakes {Thread : Type*} : StopAction Thread → Bool
  | .wakeup _ => true
  | .dispatchWakeup => true
  | _ => false

namespace StopState

variable {Thread : Type*}

/-- How many successful stops the target is kept for. -/
def suspended (s : StopState Thread) : ℕ := if s.target.susp then 1 else 0

/-- The successful stops of a step. -/
def stopped (l : StopAction Thread × StopOutput Thread) : ℕ := if l.2.stopped then 1 else 0

/-- The stops that a step ends. -/
def cleared (l : StopAction Thread × StopOutput Thread) : ℕ := if l.2.cleared then 1 else 0

/-- What a step does. -/
structure Effect (s : StopState Thread) (l : StopAction Thread × StopOutput Thread)
    (s' : StopState Thread) : Prop where
  /-- Only a target that is not stopped is stopped. -/
  stopped : l.2.stopped = true → s.target.susp = false
  balance : suspended s + StopState.stopped l = suspended s' + cleared l
  /-- A wakeup reaches everybody who waits. -/
  wakeup : l.1.wakes = true → ∀ u, (s'.thread u).event ≠ .asserted

variable {s s' : StopState Thread} {t u : Thread} {l : StopAction Thread × StopOutput Thread}
  {action : StopAction Thread} {returned : Option (Thread × Option Bool)}

section

variable (haction : action.wakes = false)

include haction

/-- A step that neither stops the target nor lets it go nor wakes anybody. -/
theorem effect_same
    (hsusp : s'.target.susp = s.target.susp) : Effect s (action, ⟨false, false, returned⟩) s' := by
  constructor
  · intro hfalse
    cases hfalse
  · simp only [suspended, hsusp, StopState.stopped, cleared]
  · intro hwakes
    exact absurd (haction.symm.trans hwakes) Bool.noConfusion

/-- A step that stops the target. -/
theorem effect_stopped (hsusp : s.target.susp = false) (hsusp' : s'.target.susp = true) :
    Effect s (action, ⟨true, false, returned⟩) s' := by
  constructor
  · intro _
    exact hsusp
  · simp [suspended, hsusp, hsusp', StopState.stopped, cleared]
  · intro hwakes
    exact absurd (haction.symm.trans hwakes) Bool.noConfusion

/-- A step that lets the target go. -/
theorem effect_cleared (hsusp : s.target.susp = true) (hsusp' : s'.target.susp = false) :
    Effect s (action, ⟨false, true, returned⟩) s' := by
  constructor
  · intro hfalse
    cases hfalse
  · simp [suspended, hsusp, hsusp', StopState.stopped, cleared]
  · intro hwakes
    exact absurd (haction.symm.trans hwakes) Bool.noConfusion

end

/-- `thread_dispatch` of the target. -/
theorem Inv.dispatch (h : s.Inv) (hplace : s.target.place = .leaving) :
    ∃ s', s.dispatch = some s' ∧ s'.Inv ∧ s'.target.susp = s.target.susp := by
  have hrun : s.target.run = true := h.target.run_iff.mpr (by simp [hplace])
  unfold StopState.dispatch
  split
  · rename_i hbranch
    refine ⟨_, rfl, h.setTarget ?_ rfl fun hrun => hrun, rfl⟩
    have hnot : s.target.swappedOut = false := by
      by_contra hswapped
      have hin := h.target.swapped (not_eq_false _ ▸ hswapped) hrun
      rw [hplace] at hin
      cases hin
    constructor
    · simp [hrun]
    · intro hswapped
      exact absurd (hnot.symm.trans hswapped) Bool.noConfusion
    · intro hin
      cases hin
    · intro hfalse
      exact absurd (hrun.symm.trans hfalse) Bool.noConfusion
    · intro _
      exact hbranch.2
  rename_i hbranch
  have hwait : s.target.wait = true := not_eq_false _ ▸ fun hfalse => hbranch ⟨hrun, hfalse⟩
  rw [if_pos ⟨hwait, inl hrun⟩]
  have htarget := h.target.dispatched hplace hwait
  dsimp only
  split
  · exact ⟨_, rfl, h.dispatchWakes htarget, rfl⟩
  · rename_i hactive
    exact ⟨_, rfl, h.dispatched htarget rfl (not_eq_true _ ▸ hactive), rfl⟩

/-- Something happens to the target. -/
theorem Inv.target_step (h : s.Inv) {target : StopTarget} (haction : action.wakes = false) (htarget : target.Ok) (hsusp : target.susp = s.target.susp)
    (hrun : s.target.run = true → target.run = true) :
    ({ s with target := target } : StopState Thread).Inv ∧
      Effect s (action, .quiet) { s with target := target } :=
  ⟨h.setTarget htarget hsusp hrun, effect_same haction hsusp⟩

/-- The target changes in some other way than by being stopped or let go or dispatched. -/
theorem Inv.target_steps (h : s.Inv) :
    (s.target.place = .running → ∀ interruptible : Bool,
      ({ s.target with
        wait := true
        unint := s.target.unint || !interruptible } : StopTarget).Ok) ∧
    (s.target.place = .running → ({ s.target with place := .leaving } : StopTarget).Ok) ∧
    (s.target.place = .runQueue →
      ({ s.target with
        unint := false
        place := .running } : StopTarget).Ok) ∧
    (s.target.run = false → ({ s.target with swappedOut := true } : StopTarget).Ok) := by
  have hx := h.target
  refine ⟨fun hplace _ => ?_, fun hplace => ?_, fun hplace => ?_, fun hrun => ?_⟩
  · refine ⟨hx.run_iff, hx.swapped, hx.swapping, fun _ => inl rfl, fun hqueued => ?_⟩
    rw [hplace] at hqueued
    exact absurd hqueued (by simp)
  · have hrun : s.target.run = true := hx.run_iff.mpr (by simp [hplace])
    refine ⟨iff_of_true hrun (by simp), fun hswapped _ => ?_, fun hne => ?_, hx.blocked, fun hne => ?_⟩
    · have hin := hx.swapped hswapped hrun
      rw [hplace] at hin
      cases hin
    · cases hne
    · exact absurd hne (by simp)
  · have hrun : s.target.run = true := hx.run_iff.mpr (by simp [hplace])
    refine ⟨iff_of_true hrun (by simp), fun hswapped _ => ?_, fun hne => ?_, hx.blocked, fun hne => ?_⟩
    · have hin := hx.swapped hswapped hrun
      rw [hplace] at hin
      cases hin
    · cases hne
    · exact absurd hne (by simp)
  · refine ⟨hx.run_iff, fun _ htrue => ?_, fun _ => rfl, hx.blocked, hx.queued⟩
    exact absurd (hrun.symm.trans htrue) Bool.noConfusion

/-- The target is swapped in. -/
theorem Inv.swapIn (h : s.Inv) (hswapped : s.target.swappedOut = true) :
    (if s.target.run then ({ s.target with swappedOut := false } : StopTarget).setrun
      else { s.target with swappedOut := false }).Ok := by
  have hx := h.target
  split
  · rename_i hrun
    exact StopTarget.ok_setrun (hx.queued (inr (hx.swapped hswapped hrun)))
  · rename_i hrun
    refine ⟨hx.run_iff, (fun hfalse => nomatch hfalse), fun hplace => ?_, hx.blocked, hx.queued⟩
    have hin : s.target.place = .swappingIn := hplace
    exact absurd (hx.run_iff.mpr (by simp [hin])) hrun

variable [DecidableEq Thread]

/-- A thread that does not wait goes on, and the target stays as it is. -/
theorem Inv.goOn (h : s.Inv) {pc : StopPc} (ht : (s.thread t).pc.wakes = false)
    (hevent : (s.thread t).event = .none) : (s.goTo t pc).Inv :=
  h.goTo h.target ht hevent (inr h.unstop) (inr h.block)

/-- A thread calls something. -/
theorem Inv.call (h : s.Inv) {pc : StopPc} (ht : (s.thread t).pc = .idle) : (s.goTo t pc).Inv := by
  apply h.goOn
  · simp [ht, wakes]
  · exact h.event_eq_none (by simp [ht, inStop]) (by simp [ht, inWait])

/-- `thread_stop` while it has the wake lock. -/
theorem Inv.stop (h : s.Inv) {stopWait : Bool} (hpc : (s.thread t).pc = .stop stopWait) :
    (s.stop t stopWait).1.Inv ∧ Effect s (.stop t, (s.stop t stopWait).2) (s.stop t stopWait).1 := by
  have ht : (s.thread t).pc.wakes = false := by simp [hpc, wakes]
  have hevent : (s.thread t).event = .none :=
    h.event_eq_none (by simp [hpc, inStop]) (by simp [hpc, inWait])
  unfold StopState.stop
  split
  · rename_i hsusp
    exact ⟨h.sleep ht (inl ⟨rfl, hsusp⟩) (fun hboth => by cases hboth.2), effect_same rfl rfl⟩
  rename_i hsusp
  have hsusp' : s.target.susp = false := not_eq_true _ ▸ hsusp
  have htarget : ({ s.target with susp := true } : StopTarget).Ok :=
    ⟨h.target.run_iff, h.target.swapped, h.target.swapping, fun _ => inr rfl, h.target.queued⟩
  have hinv : ∀ pc, ({ s with target := { s.target with susp := true } }.goTo t pc).Inv := by
    intro pc
    refine h.goTo htarget ht hevent (inr fun u hu => ?_) (inr h.block)
    exact (h.unstop u hu).imp_right fun hset => absurd hset.1 hsusp
  dsimp only
  split
  · exact ⟨hinv _, effect_stopped rfl hsusp' rfl⟩
  · exact ⟨hinv _, effect_stopped rfl hsusp' rfl⟩

/-- `thread_wait` while it has the wake lock. -/
theorem Inv.wait (h : s.Inv) {stopWait : Bool} (hpc : (s.thread t).pc = .wait stopWait) :
    (s.wait t stopWait).1.Inv ∧ Effect s (.wait t, (s.wait t stopWait).2) (s.wait t stopWait).1 := by
  have ht : (s.thread t).pc.wakes = false := by simp [hpc, wakes]
  have hevent : (s.thread t).event = .none :=
    h.event_eq_none (by simp [hpc, inStop]) (by simp [hpc, inWait])
  unfold StopState.wait
  split
  · rename_i hrun
    exact ⟨h.sleep ht (inr ⟨rfl, hrun⟩) (fun hboth => by cases hboth.1), effect_same rfl rfl⟩
  · exact ⟨h.goOn ht hevent, effect_same rfl rfl⟩

/-- `thread_unstop` while it has the wake lock. -/
theorem Inv.unstop_step (h : s.Inv) {stopWait : Bool} (hpc : (s.thread t).pc = .unstop stopWait)
    (hheard : s.Heard (.unstop t)) : (StopState.unstop s t stopWait).1.Inv ∧
      Effect s (.unstop t, (StopState.unstop s t stopWait).2) (StopState.unstop s t stopWait).1 := by
  have ht : (s.thread t).pc.wakes = false := by simp [hpc, wakes]
  have hevent : (s.thread t).event = .none :=
    h.event_eq_none (by simp [hpc, inStop]) (by simp [hpc, inWait])
  unfold StopState.unstop
  split
  · rename_i hbranch
    obtain ⟨hrun, hwait, hsusp⟩ := hbranch
    have htarget : ({ s.target with susp := false } : StopTarget).setrun.Ok :=
      StopTarget.ok_setrun hwait
    constructor
    · apply h.goTo htarget ht hevent
      · refine inr fun u hu => ?_
        rcases hheard hrun hwait hsusp with hwakes | hnone
        · exact inl hwakes
        · exact absurd hu (hnone u)
      · refine inr fun u hu => (h.block u hu).imp_right fun hset => ?_
        exact absurd (hrun.symm.trans hset.1) Bool.noConfusion
    · exact effect_cleared rfl hsusp rfl
  rename_i hbranch
  split
  · rename_i hsusp
    have htarget : ({ s.target with susp := false } : StopTarget).Ok := by
      refine ⟨h.target.run_iff, h.target.swapped, h.target.swapping, fun hrun => ?_, h.target.queued⟩
      refine inl (not_eq_false _ ▸ fun hwait => hbranch ⟨hrun, hwait, hsusp⟩)
    dsimp only
    split
    · constructor
      · exact h.goTo htarget ht hevent (inl rfl) (inl rfl)
      · exact effect_cleared rfl hsusp rfl
    · rename_i hactive
      constructor
      · apply h.goTo htarget ht hevent
        · refine inr fun u hu => (h.unstop u hu).imp_right fun hset => ?_
          exact absurd hset.2 hactive
        · exact inr h.block
      · exact effect_cleared rfl hsusp rfl
  · exact ⟨h.goOn ht hevent, effect_same rfl rfl⟩

/-- The wakeup of `thread_unstop`. -/
theorem Inv.wakeup_step (h : s.Inv) {stopWait : Bool} (hpc : (s.thread t).pc = .wakeup stopWait) :
    (s.wakeAll.goTo t .idle).Inv ∧ ∀ u, ((s.wakeAll.goTo t .idle).thread u).event ≠ .asserted := by
  have hevent : (s.thread t).event = .none :=
    h.event_eq_none (by simp [hpc, inStop]) (by simp [hpc, inWait])
  have hnone := wakeAll_event_none hevent
  have hawake : ∀ u, ((s.wakeAll.goTo t .idle).thread u).event ≠ .asserted := by
    intro u
    by_cases hut : u = t
    · subst hut
      rw [StopState.goTo, setThread_thread_self]
      change (s.wakeAll.thread u).event ≠ .asserted
      exact wakeAll_event s u
    · rw [StopState.goTo, setThread_thread_of_ne _ hut]
      exact wakeAll_event s u
  refine ⟨⟨h.target, fun u hu => ?_, fun u hu => ?_, fun u hu => ?_⟩, hawake⟩
  · by_cases hut : u = t
    · subst hut
      rw [StopState.goTo, setThread_thread_self] at hu
      exact absurd hnone hu
    · rw [StopState.goTo, setThread_thread_of_ne _ hut] at hu ⊢
      rw [wakeAll_pc]
      apply h.asleep
      intro hnone'
      exact hu (wakeAll_event_none hnone')
  · exact absurd hu.2 (hawake u)
  · exact absurd hu.2 (hawake u)

/-- `thread_block` returns to a thread that waited. -/
theorem Inv.resume (h : s.Inv) (hstep : Step s l s') (hl : l.1 = .resume t) :
    s'.Inv ∧ Effect s l s' := by
  obtain ⟨action, output⟩ := l
  cases hl
  have hsame : ∀ (pc : StopPc) (returned : Option (Thread × Option Bool)),
      (s.thread t).event = .none → (s.thread t).pc.wakes = false →
        (s.goTo t pc).Inv ∧ Effect s (.resume t, ⟨false, false, returned⟩) (s.goTo t pc) := by
    intro pc returned hevent ht
    exact ⟨h.goOn ht hevent, effect_same rfl rfl⟩
  simp only [Step, step] at hstep
  split at hstep
  · rename_i hevent
    split at hstep
    · rename_i hpc
      have ht : (s.thread t).pc.wakes = false := by simp [hpc, wakes]
      split at hstep
      · cases hstep
        exact hsame _ _ hevent ht
      · cases hstep
        exact hsame _ _ hevent ht
    · rename_i hpc
      have ht : (s.thread t).pc.wakes = false := by simp [hpc, wakes]
      split at hstep
      · cases hstep
        exact hsame _ _ hevent ht
      split at hstep
      · cases hstep
        exact hsame _ _ hevent ht
      · cases hstep
        exact hsame _ _ hevent ht
    · cases hstep
  · cases hstep

/-- What a step under the condition preserves, and what it does. -/
theorem Inv.step (h : s.Inv) (hheard : s.Heard l.1) (hstep : Step s l s') : s'.Inv ∧ Effect s l s' := by
  obtain ⟨action, output⟩ := l
  cases action with
  | callStop t stopWait =>
    simp only [Step, step] at hstep
    split at hstep
    · rename_i ht
      cases hstep
      exact ⟨h.call ht, effect_same rfl rfl⟩
    · cases hstep
  | callWait t =>
    simp only [Step, step] at hstep
    split at hstep
    · rename_i ht
      cases hstep
      exact ⟨h.call ht, effect_same rfl rfl⟩
    · cases hstep
  | callUnstop t =>
    simp only [Step, step] at hstep
    split at hstep
    · rename_i ht
      cases hstep
      exact ⟨h.call ht, effect_same rfl rfl⟩
    · cases hstep
  | stop t =>
    simp only [Step, step] at hstep
    split at hstep
    · rename_i stopWait hpc
      have hboth := h.stop hpc
      rw [Option.some.inj hstep] at hboth
      exact hboth
    · cases hstep
  | wait t =>
    simp only [Step, step] at hstep
    split at hstep
    · rename_i stopWait hpc
      have hboth := h.wait hpc
      rw [Option.some.inj hstep] at hboth
      exact hboth
    · cases hstep
  | resume t => exact h.resume hstep rfl
  | unstop t =>
    simp only [Step, step] at hstep
    split at hstep
    · rename_i stopWait hpc
      have hboth := h.unstop_step hpc hheard
      rw [Option.some.inj hstep] at hboth
      exact hboth
    · cases hstep
  | wakeup t =>
    simp only [Step, step] at hstep
    split at hstep
    · rename_i stopWait hpc
      cases hstep
      obtain ⟨hinv, hawake⟩ := h.wakeup_step hpc
      exact ⟨hinv, ⟨(fun hfalse => nomatch hfalse), rfl, fun _ => hawake⟩⟩
    · cases hstep
  | dispatchWakeup =>
    simp only [Step, step] at hstep
    split at hstep
    · cases hstep
    · cases hstep
      exact ⟨h.wakeAll, ⟨(fun hfalse => nomatch hfalse), rfl, fun _ u => wakeAll_event s u⟩⟩
  | wake t =>
    simp only [Step, step] at hstep
    split at hstep
    · rename_i hwaking
      cases hstep
      exact ⟨h.endSleep (by simp [hwaking]), effect_same rfl rfl⟩
    · cases hstep
  | interrupt t =>
    simp only [Step, step] at hstep
    split at hstep
    · rename_i hasserted
      cases hstep
      exact ⟨h.endSleep (by simp [hasserted]), effect_same rfl rfl⟩
    · cases hstep
  | assertWait interruptible =>
    simp only [Step, step] at hstep
    split at hstep
    · rename_i hplace
      cases hstep
      exact h.target_step rfl (h.target_steps.1 hplace interruptible) rfl fun hrun => hrun
    · cases hstep
  | clearWait interruptOnly =>
    simp only [Step, step] at hstep
    split at hstep
    · cases hstep
      exact ⟨h, effect_same rfl rfl⟩
    · cases hstep
      exact h.target_step rfl h.target.endWait (StopTarget.endWait_susp _) StopTarget.endWait_run
  | switchOut =>
    simp only [Step, step] at hstep
    split at hstep
    · rename_i hplace
      cases hstep
      exact h.target_step rfl (h.target_steps.2.1 hplace) rfl fun hrun => hrun
    · cases hstep
  | dispatch =>
    simp only [Step, step] at hstep
    split at hstep
    · rename_i hplace
      obtain ⟨s₁, hs₁, hinv, hsusp⟩ := h.dispatch hplace
      rw [hs₁] at hstep
      cases hstep
      exact ⟨hinv, effect_same rfl hsusp⟩
    · cases hstep
  | invoke =>
    simp only [Step, step] at hstep
    split at hstep
    · rename_i hplace
      cases hstep
      exact h.target_step rfl (h.target_steps.2.2.1 hplace) rfl fun hrun => hrun
    · cases hstep
  | swapOut =>
    simp only [Step, step] at hstep
    split at hstep
    · rename_i hout
      cases hstep
      exact h.target_step rfl (h.target_steps.2.2.2 hout.1) rfl fun hrun => hrun
    · cases hstep
  | swapIn =>
    simp only [Step, step] at hstep
    split at hstep
    · rename_i hswapped
      cases hstep
      refine h.target_step rfl (h.swapIn hswapped) ?_ fun hrun => ?_
      · split
        · rfl
        · rfl
      · rw [if_pos hrun]
        rfl
    · cases hstep

/-- The invariant holds before anything is done to the target. -/
theorem inv_init (Thread : Type*) : (init : StopState Thread).Inv := by
  refine ⟨⟨?_, ?_, ?_, ?_, ?_⟩, fun t ht => absurd rfl ht, fun t ht => ?_, fun t ht => ?_⟩
  · exact iff_of_true rfl fun hoff => nomatch hoff
  · intro hswapped
    cases hswapped
  · intro hplace
    cases hplace
  · intro hrun
    cases hrun
  · rintro (hplace | hplace)
    · cases hplace
    · cases hplace
  · cases ht.1
  · cases ht.1

/-- In every run in which `thread_unstop` does not take its first branch while a thread awaits it
that no wakeup follows: a wakeup follows for whoever sleeps until the target is let go or blocks,
once it is or has; a wakeup reaches all of them; the target is kept for at most one successful stop;
and it runs, is on a run queue or is swapped in if it is to run. -/
theorem wakeups_follow {trace : List (StopState Thread × StopAction Thread × StopOutput Thread)}
    (hrun : Run Step init trace s) (hok : ∀ x ∈ trace, Heard x.1 x.2.1) :
    (∀ t, (s.thread t).AwaitsUnstop → s.target.susp = false → s.Wakes) ∧
      (∀ t, (s.thread t).AwaitsBlock → s.target.run = false → s.Wakes) ∧
      (∀ x ∈ trace, ∀ s', Step x.1 x.2 s' → Effect x.1 x.2 s') ∧
      Run.total stopped trace = suspended s + Run.total cleared trace ∧
      (s.target.run = true ↔ s.target.place ≠ .off) ∧
      (s.target.wait = false → s.target.susp = false → s.target.run = true) := by
  have hinit := inv_init Thread
  have hsteps : ∀ (s : StopState Thread) l s', s.Inv → Heard s l.1 → Step s l s' → s'.Inv :=
    fun _ _ _ h hl hstep => (h.step hl hstep).1
  have hinv := @Run.invariant _ _ _ _ _ _ (fun s l => Heard s l.1) Inv hrun hok hinit hsteps
  refine ⟨fun t ht hsusp => ?_, fun t ht hblocked => ?_, fun x hx s' hstep => ?_, ?_,
    hinv.target.run_iff, fun hwait hsusp => ?_⟩
  · refine (hinv.unstop t ht).resolve_right fun hset => ?_
    exact absurd (hsusp.symm.trans hset.1) Bool.noConfusion
  · refine (hinv.block t ht).resolve_right fun hset => ?_
    exact absurd (hblocked.symm.trans hset.1) Bool.noConfusion
  · obtain ⟨hbefore, hl, -⟩ :=
      @Run.invariant_of_mem _ _ _ _ _ _ (fun s l => Heard s l.1) Inv hrun hok hinit hsteps x hx
    exact (hbefore.step hl hstep).2
  · have hbalance := @Run.balance _ _ _ _ _ _ Inv ℕ _ (fun s l => Heard s l.1) suspended stopped
      cleared hrun hok hinit hsteps fun _ _ _ h hl hstep => (h.step hl hstep).2.balance
    have hzero : suspended (init : StopState Thread) = 0 := rfl
    rw [hzero, Nat.zero_add] at hbalance
    exact hbalance
  · by_contra hnot
    rcases hinv.target.blocked (not_eq_true _ ▸ hnot) with htrue | htrue
    · exact absurd (hwait.symm.trans htrue) Bool.noConfusion
    · exact absurd (hsusp.symm.trans htrue) Bool.noConfusion

instance (s : StopState Bool) : Decidable s.Wakes := inferInstanceAs (Decidable (_ ∨ _))

instance (s : StopState Bool) (action : StopAction Bool) : Decidable (s.Heard action) := by
  unfold Heard
  split <;> infer_instance

/-- The target is stopped by one thread and blocks, and another thread waits to stop it. -/
def stopTwice : List (StopAction Bool) :=
  [.stop true, .callStop true false, .dispatch, .switchOut, .assertWait true, .stop false,
    .callStop false false]

/-- The first thread lets the target go while it waits, and the second is woken and stops it. -/
theorem unstopWaiting_wakes : ∃ trace s, Run Step (init : StopState Bool) trace s ∧
    (s.thread true).pc = .idle ∧ Run.total stopped trace = 2 ∧
      Run.total stopped trace = suspended s + Run.total cleared trace := by
  have h : (replay step (init : StopState Bool)
      (.stop true :: .resume true :: .wake true :: .wakeup false :: .unstop false ::
        .callUnstop false :: stopTwice)).map
      (fun r => decide ((r.2.thread true).pc = .idle ∧ Run.total stopped r.1 = 2 ∧
        ∀ x ∈ r.1, Heard x.1 x.2.1)) = some true := by
    decide +kernel
  obtain ⟨⟨trace, s⟩, hreplay, hres⟩ := Option.map_eq_some_iff.mp h
  obtain ⟨hidle, hstopped, hok⟩ := of_decide_eq_true hres
  have hrun := Run.of_replay_step hreplay
  exact ⟨trace, s, hrun, hidle, hstopped, (wakeups_follow hrun hok).2.2.2.1⟩

/-- The wait of the target ends before the first thread lets it go: the target is put on a run
queue, and the second thread sleeps on, with nobody about to wake it. -/
theorem unstopWoken_loses : ∃ trace s, Run Step (init : StopState Bool) trace s ∧
    (s.thread false).pc = .idle ∧ s.target.susp = false ∧ s.target.place = .runQueue ∧
      (s.thread true).AwaitsUnstop ∧ ¬s.Wakes := by
  have h : (replay step (init : StopState Bool)
      (.unstop false :: .callUnstop false :: .clearWait false :: stopTwice)).map
      (fun r => decide ((r.2.thread false).pc = .idle ∧ r.2.target.susp = false ∧
        r.2.target.place = .runQueue ∧ (r.2.thread true).AwaitsUnstop ∧ ¬r.2.Wakes)) =
          some true := by
    decide +kernel
  obtain ⟨⟨trace, s⟩, hreplay, hres⟩ := Option.map_eq_some_iff.mp h
  exact ⟨trace, s, Run.of_replay_step hreplay, of_decide_eq_true hres⟩

end StopState

end MachVirtuTerm
