import MachVirtuTerm.Lib.Run

/-!
# Stopping a thread

A thread that has been asked to stop stays off the run queues once it has blocked interruptibly.
Who finds it stopped already waits until it is not, and who waits for it to block waits until it
does not run; both sleep on `wake_active` of the thread, a flag that tells that there is somebody
to wake.
-/

open Function

namespace MachVirtuTerm

/-- Where the target is. -/
inductive ThreadPlace
  /-- It runs on a processor. -/
  | running
  /-- The processor has switched to another thread, which has not dispatched it yet. -/
  | leaving
  | runQueue
  /-- `thread_swapin` was called, and has not put it on a run queue. -/
  | swappingIn
  /-- None of these. -/
  | off
  deriving DecidableEq

/-- The state bits of the target. -/
structure StopTarget where
  /-- `TH_WAIT`. -/
  wait : Bool
  /-- `TH_SUSP`. -/
  susp : Bool
  /-- `TH_RUN`. -/
  run : Bool
  /-- `TH_UNINT`. -/
  unint : Bool
  /-- `TH_SWAPPED_OUT`. -/
  swappedOut : Bool
  place : ThreadPlace
  deriving DecidableEq

/-- Where a thread is in the calls. What is kept along tells whether `thread_stop_wait` called. -/
inductive StopPc
  | idle
  /-- About to take the wake lock in `thread_stop`. -/
  | stop (stopWait : Bool)
  /-- In `thread_block` of `thread_stop`. -/
  | stopAsleep (stopWait : Bool)
  /-- About to take the wake lock in `thread_wait`. -/
  | wait (stopWait : Bool)
  /-- In `thread_block` of `thread_wait`. -/
  | waitAsleep (stopWait : Bool)
  /-- About to take the wake lock in `thread_unstop`. -/
  | unstop (stopWait : Bool)
  /-- About to call `thread_wakeup` in `thread_unstop`. -/
  | wakeup (stopWait : Bool)
  deriving DecidableEq

/-- The wait of a thread for `wake_active`. -/
inductive StopEvent
  | none
  /-- Its `wait_event` is `wake_active`. -/
  | asserted
  /-- Its `wait_event` is `WAKING_EVENT`. -/
  | waking
  deriving DecidableEq

/-- A thread that stops, waits for or lets go the target. -/
structure Stopper where
  pc : StopPc
  event : StopEvent
  /-- `wait_result` is `THREAD_AWAKENED`. -/
  awakened : Bool
  deriving DecidableEq

/-- The target, and the threads that stop it. -/
structure StopState (Thread : Type*) where
  target : StopTarget
  wakeActive : Bool
  /-- The processors that are about to call `thread_wakeup` in `thread_dispatch`. -/
  dispatchWakeups : ℕ
  thread : Thread → Stopper

/-- The calls, their sections, and what happens to the target. -/
inductive StopAction (Thread : Type*)
  /-- `thread_stop` or `thread_stop_wait` is called. -/
  | callStop (t : Thread) (stopWait : Bool)
  /-- `thread_wait` is called. -/
  | callWait (t : Thread)
  /-- `thread_unstop` is called. -/
  | callUnstop (t : Thread)
  /-- `thread_stop` while it has the wake lock. -/
  | stop (t : Thread)
  /-- `thread_wait` while it has the wake lock. -/
  | wait (t : Thread)
  /-- `thread_block` returns. -/
  | resume (t : Thread)
  /-- `thread_unstop` while it has the wake lock. -/
  | unstop (t : Thread)
  /-- `thread_wakeup` of `thread_unstop` while it has the bucket lock. -/
  | wakeup (t : Thread)
  /-- `thread_wakeup` of `thread_dispatch` while it has the bucket lock. -/
  | dispatchWakeup
  /-- `thread_wakeup` ends the wait of a thread. -/
  | wake (t : Thread)
  /-- `clear_wait` ends the wait of a thread. -/
  | interrupt (t : Thread)
  /-- `assert_wait` of the target. -/
  | assertWait (interruptible : Bool)
  /-- The wait of the target is ended. -/
  | clearWait (interruptOnly : Bool)
  /-- The processor switches from the target to another thread. -/
  | switchOut
  /-- `thread_dispatch` of the target. -/
  | dispatch
  /-- The processor switches to the target. -/
  | invoke
  /-- The target is swapped out. -/
  | swapOut
  /-- `thread_swapin` is done. -/
  | swapIn
  deriving DecidableEq

/-- What comes out of a section. -/
structure StopOutput (Thread : Type*) where
  /-- `TH_SUSP` was set by a `thread_stop`. -/
  stopped : Bool
  /-- `TH_SUSP` was cleared. -/
  cleared : Bool
  /-- The thread that returned, and whether it returned `TRUE`, if it returns something. -/
  returned : Option (Thread × Option Bool)
  deriving DecidableEq

/-- Nothing comes out. -/
def StopOutput.quiet {Thread : Type*} : StopOutput Thread := ⟨false, false, none⟩

namespace StopTarget

/-- `thread_swapin` or `thread_setrun`, with `TH_RUN` set. -/
def setrun (x : StopTarget) : StopTarget :=
  { x with
    run := true
    place := if x.swappedOut then .swappingIn else .runQueue }

/-- `clear_wait_locked` and `thread_wakeup_prim`, what they do to the state of a thread. -/
def endWait (x : StopTarget) : StopTarget :=
  if x.wait = false then x
  else if x.run = false ∧ (x.susp = false ∨ x.unint = true) then { x with wait := false }.setrun
  else { x with wait := false }

/-- A new thread, on a processor. -/
def init : StopTarget := ⟨false, false, true, false, false, .running⟩

end StopTarget

namespace StopState

variable {Thread : Type*} [DecidableEq Thread] (s : StopState Thread)

variable (t : Thread)

/-- A thread changes. -/
def setThread (x : Stopper) : StopState Thread :=
  { s with thread := update s.thread t x }

/-- A thread goes on elsewhere. -/
def goTo (pc : StopPc) : StopState Thread :=
  s.setThread t { s.thread t with pc := pc }

/-- A thread asserts that it waits for `wake_active`. -/
def sleep (pc : StopPc) : StopState Thread :=
  { s.setThread t { s.thread t with
      pc := pc
      event := .asserted } with
    wakeActive := true }

variable (stopWait : Bool)

/-- `thread_stop` while it has the wake lock. -/
def stop : StopState Thread × StopOutput Thread :=
  if s.target.susp then (s.sleep t (.stopAsleep stopWait), .quiet)
  else
    let s := { s with target := { s.target with susp := true } }
    if stopWait then (s.goTo t (.wait true), ⟨true, false, none⟩)
    else (s.goTo t .idle, ⟨true, false, some (t, some true)⟩)

/-- `thread_wait` while it has the wake lock. -/
def wait : StopState Thread × StopOutput Thread :=
  if s.target.run then (s.sleep t (.waitAsleep stopWait), .quiet)
  else (s.goTo t .idle, ⟨false, false, some (t, some true)⟩)

/-- What `thread_unstop` returns, or `thread_stop_wait` after it. -/
def unstopResult : Option Bool := if stopWait then some false else none

/-- `thread_unstop` while it has the wake lock. -/
def unstop : StopState Thread × StopOutput Thread :=
  if s.target.run = false ∧ s.target.wait = false ∧ s.target.susp = true then
    ({ s with target := { s.target with susp := false }.setrun }.goTo t .idle,
      ⟨false, true, some (t, unstopResult stopWait)⟩)
  else if s.target.susp then
    let s := { s with target := { s.target with susp := false } }
    if s.wakeActive then
      ({ s with wakeActive := false }.goTo t (.wakeup stopWait), ⟨false, true, none⟩)
    else (s.goTo t .idle, ⟨false, true, some (t, unstopResult stopWait)⟩)
  else (s.goTo t .idle, ⟨false, false, some (t, unstopResult stopWait)⟩)

/-- The threads that wait for `wake_active` are taken off the wait queue. -/
def wakeAll : StopState Thread :=
  { s with
    thread := fun t =>
      if (s.thread t).event = .asserted then { s.thread t with event := .waking } else s.thread t }

/-- `thread_dispatch` of the target. -/
def dispatch : Option (StopState Thread) :=
  if s.target.run = true ∧ s.target.wait = false then
    some { s with target := { s.target with place := .runQueue } }
  else if s.target.wait = true ∧ (s.target.run = true ∨ s.target.unint = false) then
    let s := { s with
      target := { s.target with
        run := false
        place := .off } }
    if s.wakeActive then
      some { s with
        wakeActive := false
        dispatchWakeups := s.dispatchWakeups + 1 }
    else some s
  else none

/-- One section. -/
def step : StopAction Thread → Option (StopState Thread × StopOutput Thread)
  | .callStop t stopWait =>
    if (s.thread t).pc = .idle then some (s.goTo t (.stop stopWait), .quiet) else none
  | .callWait t => if (s.thread t).pc = .idle then some (s.goTo t (.wait false), .quiet) else none
  | .callUnstop t =>
    if (s.thread t).pc = .idle then some (s.goTo t (.unstop false), .quiet) else none
  | .stop t =>
    match (s.thread t).pc with
    | .stop stopWait => some (s.stop t stopWait)
    | _ => none
  | .wait t =>
    match (s.thread t).pc with
    | .wait stopWait => some (s.wait t stopWait)
    | _ => none
  | .resume t =>
    if (s.thread t).event = .none then
      match (s.thread t).pc with
      | .stopAsleep stopWait =>
        if (s.thread t).awakened then some (s.goTo t (.stop stopWait), .quiet)
        else some (s.goTo t .idle, ⟨false, false, some (t, some false)⟩)
      | .waitAsleep stopWait =>
        if (s.thread t).awakened then some (s.goTo t (.wait stopWait), .quiet)
        else if stopWait then some (s.goTo t (.unstop true), .quiet)
        else some (s.goTo t .idle, ⟨false, false, some (t, some false)⟩)
      | _ => none
    else none
  | .unstop t =>
    match (s.thread t).pc with
    | .unstop stopWait => some (s.unstop t stopWait)
    | _ => none
  | .wakeup t =>
    match (s.thread t).pc with
    | .wakeup stopWait =>
      some (s.wakeAll.goTo t .idle, ⟨false, false, some (t, unstopResult stopWait)⟩)
    | _ => none
  | .dispatchWakeup =>
    if s.dispatchWakeups = 0 then none
    else some ({ s.wakeAll with dispatchWakeups := s.dispatchWakeups - 1 }, .quiet)
  | .wake t =>
    if (s.thread t).event = .waking then
      some (s.setThread t { s.thread t with
        event := .none
        awakened := true }, .quiet)
    else none
  | .interrupt t =>
    if (s.thread t).event = .asserted then
      some (s.setThread t { s.thread t with
        event := .none
        awakened := false }, .quiet)
    else none
  | .assertWait interruptible =>
    if s.target.place = .running then
      some ({ s with
        target := { s.target with
          wait := true
          unint := s.target.unint || !interruptible } }, .quiet)
    else none
  | .clearWait interruptOnly =>
    if interruptOnly = true ∧ s.target.unint = true then some (s, .quiet)
    else some ({ s with target := s.target.endWait }, .quiet)
  | .switchOut =>
    if s.target.place = .running then
      some ({ s with target := { s.target with place := .leaving } }, .quiet)
    else none
  | .dispatch => if s.target.place = .leaving then s.dispatch.map (·, .quiet) else none
  | .invoke =>
    if s.target.place = .runQueue then
      some ({ s with
        target := { s.target with
          unint := false
          place := .running } }, .quiet)
    else none
  | .swapOut =>
    if s.target.run = false ∧ s.target.swappedOut = false then
      some ({ s with target := { s.target with swappedOut := true } }, .quiet)
    else none
  | .swapIn =>
    if s.target.swappedOut then
      let target := { s.target with swappedOut := false }
      some ({ s with target := if target.run then target.setrun else target }, .quiet)
    else none

/-- One section, labelled with what was done and what came out of it. -/
def Step (s : StopState Thread) (l : StopAction Thread × StopOutput Thread) (s' : StopState Thread) :
    Prop := s.step l.1 = some (s', l.2)

/-- Nobody has done anything to the target. -/
def init : StopState Thread := ⟨.init, false, 0, fun _ => ⟨.idle, .none, false⟩⟩

end StopState

end MachVirtuTerm

/-!
# No wakeup of a stopper is lost

Whoever sleeps on `wake_active` does so because the target is stopped, or runs, or a wakeup is
about to come. `thread_unstop` breaks that when the target is not running and its wait has ended:
then it puts the target on a run queue and wakes nobody.
-/

namespace MachVirtuTerm

namespace StopTarget

variable {x : StopTarget}

/-- The target is where its state says. -/
structure Ok (x : StopTarget) : Prop where
  run_iff : x.run = true ↔ x.place ≠ .off
  swapped : x.swappedOut = true → x.run = true → x.place = .swappingIn
  swapping : x.place = .swappingIn → x.swappedOut = true
  /-- A target that does not run waits or was stopped. -/
  blocked : x.run = false → x.wait = true ∨ x.susp = true
  /-- It does not wait where it is to run. -/
  queued : x.place = .runQueue ∨ x.place = .swappingIn → x.wait = false

/-- A target that does not wait any more is made to run. -/
theorem ok_setrun (hwait : x.wait = false) : x.setrun.Ok := by
  cases hswapped : x.swappedOut with
  | false =>
    have hplace : x.setrun.place = .runQueue := by simp [setrun, hswapped]
    constructor
    · rw [hplace]
      simp [setrun]
    · intro htrue
      exact absurd (hswapped.symm.trans htrue) Bool.noConfusion
    · rw [hplace]
      intro hne
      cases hne
    · intro hfalse
      cases hfalse
    · intro _
      exact hwait
  | true =>
    have hplace : x.setrun.place = .swappingIn := by simp [setrun, hswapped]
    constructor
    · rw [hplace]
      simp [setrun]
    · intro _ _
      exact hplace
    · intro _
      exact hswapped
    · intro hfalse
      cases hfalse
    · intro _
      exact hwait

/-- The wait of the target is ended. -/
theorem Ok.endWait (h : x.Ok) : x.endWait.Ok := by
  unfold StopTarget.endWait
  split
  · exact h
  rename_i hwait
  split
  · exact ok_setrun rfl
  · rename_i hsched
    refine ⟨h.run_iff, h.swapped, h.swapping, fun hrun => ?_, fun _ => rfl⟩
    have hsusp : ¬(x.susp = false ∨ x.unint = true) := fun hor => hsched ⟨hrun, hor⟩
    exact Or.inr (Bool.not_eq_false _ ▸ (not_or.mp hsusp).1)

/-- A target that waits and has been dispatched. -/
theorem Ok.dispatched (h : x.Ok) (hplace : x.place = .leaving) (hwait : x.wait = true) :
    ({ x with
      run := false
      place := .off } : StopTarget).Ok := by
  have hrun : x.run = true := h.run_iff.mpr (by simp [hplace])
  constructor
  · simp
  · intro _ hfalse
    cases hfalse
  · intro hne
    cases hne
  · intro _
    exact Or.inl hwait
  · intro hne
    rcases hne with hne | hne
    · cases hne
    · cases hne

/-- The wait of the target that is ended leaves it stopped. -/
@[simp] theorem endWait_susp (x : StopTarget) : x.endWait.susp = x.susp := by
  unfold endWait
  split
  · rfl
  split
  · rfl
  · rfl

/-- A target that runs keeps running when its wait is ended. -/
theorem endWait_run (hrun : x.run = true) : x.endWait.run = true := by
  unfold endWait
  split
  · exact hrun
  split
  · rfl
  · exact hrun

end StopTarget

/-- In `thread_block` of `thread_stop`. -/
def StopPc.inStop : StopPc → Bool
  | .stopAsleep _ => true
  | _ => false

/-- In `thread_block` of `thread_wait`. -/
def StopPc.inWait : StopPc → Bool
  | .waitAsleep _ => true
  | _ => false

/-- About to call `thread_wakeup`. -/
def StopPc.wakes : StopPc → Bool
  | .wakeup _ => true
  | _ => false

/-- A thread sleeps on `wake_active` until the target is not stopped. -/
def Stopper.AwaitsUnstop (x : Stopper) : Prop := x.pc.inStop = true ∧ x.event = .asserted

/-- A thread sleeps on `wake_active` until the target does not run. -/
def Stopper.AwaitsBlock (x : Stopper) : Prop := x.pc.inWait = true ∧ x.event = .asserted

instance (x : Stopper) : Decidable x.AwaitsUnstop := inferInstanceAs (Decidable (_ ∧ _))

instance (x : Stopper) : Decidable x.AwaitsBlock := inferInstanceAs (Decidable (_ ∧ _))

namespace StopState

variable {Thread : Type*}

/-- A wakeup of `wake_active` follows. -/
def Wakes (s : StopState Thread) : Prop :=
  0 < s.dispatchWakeups ∨ ∃ t, (s.thread t).pc.wakes = true

/-- The first branch of `thread_unstop` is not taken while a thread awaits it that no wakeup
follows. -/
def Heard (s : StopState Thread) : StopAction Thread → Prop
  | .unstop _ => s.target.run = false → s.target.wait = false → s.target.susp = true →
    s.Wakes ∨ ∀ t, ¬(s.thread t).AwaitsUnstop
  | _ => True

/-- The target and those that await something of it. -/
structure Inv (s : StopState Thread) : Prop where
  target : s.target.Ok
  /-- Who has asserted a wait is in `thread_block`. -/
  asleep : ∀ t, (s.thread t).event ≠ .none → (s.thread t).pc.inStop = true ∨ (s.thread t).pc.inWait = true
  unstop : ∀ t, (s.thread t).AwaitsUnstop → s.Wakes ∨ s.target.susp = true ∧ s.wakeActive = true
  block : ∀ t, (s.thread t).AwaitsBlock → s.Wakes ∨ s.target.run = true ∧ s.wakeActive = true

variable {s s' : StopState Thread} {t u : Thread}

/-- A thread that is not in `thread_block` has not asserted a wait. -/
theorem Inv.event_eq_none (h : s.Inv) (hstop : (s.thread t).pc.inStop = false)
    (hwait : (s.thread t).pc.inWait = false) : (s.thread t).event = .none := by
  by_contra hevent
  rcases h.asleep t hevent with htrue | htrue
  · exact absurd (hstop.symm.trans htrue) Bool.noConfusion
  · exact absurd (hwait.symm.trans htrue) Bool.noConfusion

/-- The target changes. -/
theorem Inv.setTarget (h : s.Inv) {target : StopTarget} (htarget : target.Ok)
    (hsusp : target.susp = s.target.susp) (hrun : s.target.run = true → target.run = true) :
    ({ s with target := target } : StopState Thread).Inv := by
  refine ⟨htarget, h.asleep, fun u hu => ?_, fun u hu => ?_⟩
  · apply (h.unstop u hu).imp_right
    intro hset
    exact ⟨hsusp.trans hset.1, hset.2⟩
  · apply (h.block u hu).imp_right
    intro hset
    exact ⟨hrun hset.1, hset.2⟩

/-- The target leaves its processor, waiting. -/
theorem Inv.dispatched (h : s.Inv) {target : StopTarget} (htarget : target.Ok)
    (hsusp : target.susp = s.target.susp) (hactive : s.wakeActive = false) :
    ({ s with target := target } : StopState Thread).Inv := by
  refine ⟨htarget, h.asleep, fun u hu => ?_, fun u hu => ?_⟩
  · apply (h.unstop u hu).imp_right
    intro hset
    exact ⟨hsusp.trans hset.1, hset.2⟩
  · apply (h.block u hu).imp_right
    intro hset
    rw [hactive] at hset
    cases hset.2

/-- A processor is about to wake those that wait for `wake_active`. -/
theorem Inv.dispatchWakes (h : s.Inv) {target : StopTarget} (htarget : target.Ok) :
    ({ s with
      target := target
      wakeActive := false
      dispatchWakeups := s.dispatchWakeups + 1 } : StopState Thread).Inv :=
  ⟨htarget, h.asleep, fun _ _ => Or.inl (Or.inl (Nat.succ_pos _)),
    fun _ _ => Or.inl (Or.inl (Nat.succ_pos _))⟩

/-- Nobody waits for `wake_active` any more once a wakeup has come. -/
theorem wakeAll_event (s : StopState Thread) (t : Thread) : (s.wakeAll.thread t).event ≠ .asserted := by
  unfold wakeAll
  dsimp only
  split
  · intro hevent
    cases hevent
  · assumption

/-- A thread that waited goes on to wait until its wait is ended. -/
theorem wakeAll_pc (s : StopState Thread) (t : Thread) :
    (s.wakeAll.thread t).pc = (s.thread t).pc := by
  unfold wakeAll
  dsimp only
  split
  · rfl
  · rfl

/-- Who does not wait is not touched. -/
theorem wakeAll_event_none (h : (s.thread t).event = .none) :
    (s.wakeAll.thread t).event = .none := by
  unfold wakeAll
  dsimp only
  rw [if_neg (by simp [h])]
  exact h

/-- A wakeup. -/
theorem Inv.wakeAll (h : s.Inv) {dispatchWakeups : ℕ} :
    ({ s.wakeAll with dispatchWakeups := dispatchWakeups } : StopState Thread).Inv := by
  refine ⟨h.target, fun t ht => ?_, fun t ht => ?_, fun t ht => ?_⟩
  · change (s.wakeAll.thread t).pc.inStop = true ∨ (s.wakeAll.thread t).pc.inWait = true
    rw [wakeAll_pc]
    apply h.asleep
    intro hnone
    exact ht (wakeAll_event_none hnone)
  · exact absurd ht.2 (wakeAll_event s t)
  · exact absurd ht.2 (wakeAll_event s t)

variable [DecidableEq Thread]

@[simp] theorem setThread_thread_self (x : Stopper) : (s.setThread t x).thread t = x :=
  update_self ..

theorem setThread_thread_of_ne (x : Stopper) (hu : u ≠ t) :
    (s.setThread t x).thread u = s.thread u :=
  update_of_ne hu ..

/-- A wakeup that follows still does when somebody else goes on. -/
theorem Wakes.setThread (h : s.Wakes) {x : Stopper} (ht : (s.thread t).pc.wakes = false) :
    (s.setThread t x).Wakes := by
  rcases h with h | ⟨u, hu⟩
  · exact Or.inl h
  · have hne : u ≠ t := by
      rintro rfl
      exact absurd (ht.symm.trans hu) Bool.noConfusion
    refine Or.inr ⟨u, ?_⟩
    rw [setThread_thread_of_ne x hne]
    exact hu

/-- A thread that is about to call `thread_wakeup`. -/
theorem wakes_setThread {x : Stopper} (hx : x.pc.wakes = true) : (s.setThread t x).Wakes := by
  refine Or.inr ⟨t, ?_⟩
  rw [setThread_thread_self]
  exact hx

/-- A thread that does not wait goes on, and the target may change. -/
theorem Inv.goTo (h : s.Inv) {target : StopTarget} {wakeActive : Bool} {pc : StopPc}
    (htarget : target.Ok) (ht : (s.thread t).pc.wakes = false) (hevent : (s.thread t).event = .none)
    (hunstop : pc.wakes = true ∨
      ∀ u, (s.thread u).AwaitsUnstop → s.Wakes ∨ target.susp = true ∧ wakeActive = true)
    (hblock : pc.wakes = true ∨
      ∀ u, (s.thread u).AwaitsBlock → s.Wakes ∨ target.run = true ∧ wakeActive = true) :
    ({ s with
      target := target
      wakeActive := wakeActive }.goTo t pc).Inv := by
  have hkeep : s.Wakes → ({ s with
      target := target
      wakeActive := wakeActive }.goTo t pc).Wakes :=
    fun hwakes => @Wakes.setThread _ _ t _ (by exact hwakes) _ ht
  refine ⟨htarget, fun u hu => ?_, fun u hu => ?_, fun u hu => ?_⟩
  · by_cases hut : u = t
    · subst hut
      rw [StopState.goTo, setThread_thread_self] at hu
      exact absurd hevent hu
    · rw [StopState.goTo, setThread_thread_of_ne _ hut] at hu ⊢
      exact h.asleep u hu
  · by_cases hut : u = t
    · subst hut
      rw [StopState.goTo, setThread_thread_self] at hu
      exact absurd (hevent.symm.trans hu.2) StopEvent.noConfusion
    · rw [StopState.goTo, setThread_thread_of_ne _ hut] at hu
      rcases hunstop with hwakes | hunstop
      · exact Or.inl (wakes_setThread hwakes)
      · exact (hunstop u hu).imp_left hkeep
  · by_cases hut : u = t
    · subst hut
      rw [StopState.goTo, setThread_thread_self] at hu
      exact absurd (hevent.symm.trans hu.2) StopEvent.noConfusion
    · rw [StopState.goTo, setThread_thread_of_ne _ hut] at hu
      rcases hblock with hwakes | hblock
      · exact Or.inl (wakes_setThread hwakes)
      · exact (hblock u hu).imp_left hkeep

/-- A thread asserts a wait for what does not hold yet. -/
theorem Inv.sleep (h : s.Inv) {pc : StopPc} (ht : (s.thread t).pc.wakes = false)
    (hpc : pc.inStop = true ∧ s.target.susp = true ∨ pc.inWait = true ∧ s.target.run = true)
    (hone : ¬(pc.inStop = true ∧ pc.inWait = true)) : (s.sleep t pc).Inv := by
  have hkeep : s.Wakes → (s.sleep t pc).Wakes :=
    fun hwakes => @Wakes.setThread _ s t _ hwakes _ ht
  have hself : (s.sleep t pc).thread t = { s.thread t with
      pc := pc
      event := .asserted } := update_self ..
  have hother : ∀ u, u ≠ t → (s.sleep t pc).thread u = s.thread u :=
    fun u hu => update_of_ne hu ..
  refine ⟨h.target, fun u hu => ?_, fun u hu => ?_, fun u hu => ?_⟩
  · by_cases hut : u = t
    · subst hut
      rw [hself]
      exact hpc.imp And.left And.left
    · rw [hother u hut] at hu ⊢
      exact h.asleep u hu
  · by_cases hut : u = t
    · subst hut
      rw [hself] at hu
      rcases hpc with ⟨-, hsusp⟩ | ⟨hwait, -⟩
      · exact Or.inr ⟨hsusp, rfl⟩
      · exact absurd ⟨hu.1, hwait⟩ hone
    · rw [hother u hut] at hu
      exact (h.unstop u hu).imp hkeep fun hset => ⟨hset.1, rfl⟩
  · by_cases hut : u = t
    · subst hut
      rw [hself] at hu
      rcases hpc with ⟨hstop, -⟩ | ⟨-, hrun⟩
      · exact absurd ⟨hstop, hu.1⟩ hone
      · exact Or.inr ⟨hrun, rfl⟩
    · rw [hother u hut] at hu
      exact (h.block u hu).imp hkeep fun hset => ⟨hset.1, rfl⟩

/-- The wait of a thread for `wake_active` is ended. -/
theorem Inv.endSleep (h : s.Inv) {awakened : Bool} (hevent : (s.thread t).event ≠ .none) :
    (s.setThread t { s.thread t with
      event := .none
      awakened := awakened }).Inv := by
  have ht : (s.thread t).pc.wakes = false := by
    have hpc := h.asleep t hevent
    cases hcases : (s.thread t).pc with
    | wakeup _ =>
      rw [hcases] at hpc
      exact absurd hpc (by simp [StopPc.inStop, StopPc.inWait])
    | _ => rfl
  refine ⟨h.target, fun u hu => ?_, fun u hu => ?_, fun u hu => ?_⟩
  · by_cases hut : u = t
    · subst hut
      rw [setThread_thread_self]
      exact h.asleep u hevent
    · rw [setThread_thread_of_ne _ hut] at hu ⊢
      exact h.asleep u hu
  · by_cases hut : u = t
    · subst hut
      rw [setThread_thread_self] at hu
      cases hu.2
    · rw [setThread_thread_of_ne _ hut] at hu
      exact (h.unstop u hu).imp_left fun hwakes => hwakes.setThread ht
  · by_cases hut : u = t
    · subst hut
      rw [setThread_thread_self] at hu
      cases hu.2
    · rw [setThread_thread_of_ne _ hut] at hu
      exact (h.block u hu).imp_left fun hwakes => hwakes.setThread ht

end StopState

end MachVirtuTerm
