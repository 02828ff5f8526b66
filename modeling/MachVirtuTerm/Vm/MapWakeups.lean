import MachVirtuTerm.Vm.MapWireTransition
import MachVirtuTerm.Vm.MapCopyoutTransition
import Mathlib.Data.Fintype.Defs

/-!
# Threads at work on one map

Any number of threads call `vm_map_wire`, `vm_map_unwire`, `vm_map_delete`, `vm_map_remove`
and `vm_map_copyout_page_list` on one map, again and again. Each thread has the entries and
the version of the map as they are, and the place it has reached, which is lost when another
thread has had the lock; a thread takes the lock only while no other has it.
-/

open List

namespace MachVirtuTerm

/-- A call from outside; `delete` is one of `vm_map_delete` by a caller who takes the lock
before it and releases it after it. -/
inductive MapCall
  | wire (call : WireCall)
  | unwire (call : UnwireCall)
  | delete (call : DeleteCall)
  | remove (call : DeleteCall)
  | copyoutPageList (call : CopyoutCall)
  deriving DecidableEq

/-- Where a thread is. -/
inductive MapPc
  | idle
  | wire (pc : WirePc)
  | unwire (pc : UnwirePc)
  | delete (call : DeleteCall) (pc : DeletePc)
  | remove (call : DeleteCall) (pc : DeletePc)
  | copyoutPageList (pc : CopyoutPc)
  deriving DecidableEq

/-- The entry a thread has in transition. -/
def MapPc.held : MapPc → Option VmMapEntry
  | .idle => none
  | .wire pc => pc.held
  | .unwire pc => pc.held
  | .delete _ pc | .remove _ pc => pc.held
  | .copyoutPageList pc => pc.held

/-- A map and a thread. -/
abbrev MapThread := MapState MapPc

/-- What a thread does next. -/
inductive ThreadAction
  | call (call : MapCall)
  | run (oracle : MapOracle)
  /-- A wait ends by an interruption. -/
  | interrupt
  deriving DecidableEq

namespace MapThread

variable {Pc : Type*}

/-- A thread that is not at work on the map. -/
def idle (entries : List VmMapEntry) (minOffset maxOffset : VmOffset) (timestamp : BitVec 32) :
    MapThread where
  before := []
  after := entries
  minOffset := minOffset
  maxOffset := maxOffset
  timestamp := timestamp
  locked := false
  moved := false
  needWakeup := false
  lastTimestamp := ~~~0
  pc := .idle

variable (s : MapThread)

/-- A call begins. -/
def callStep : MapCall → MapThread
  | .wire call => { s with pc := .wire (.enter call) }
  | .unwire call => { s with pc := .unwire (.enter call) }
  | .delete call =>
    { s.lock with
      needWakeup := false
      lastTimestamp := ~~~0
      pc := .delete call .lookup }
  | .remove call =>
    let (start, «end») := s.rangeCheck call.start call.end
    { s.lock with
      needWakeup := false
      lastTimestamp := ~~~0
      pc := .remove ⟨start, «end», call.flags⟩ .lookup }
  | .copyoutPageList call => { s with pc := .copyoutPageList (.startAgain call) }

/-- A step of the routine a thread is in. -/
def nested (step : MapState Pc → MapAction → Option (MapState Pc × List MapEvent))
    (wrap : Pc → MapPc) (s : MapThread) (pc : Pc) (action : MapAction) :
    Option (MapThread × List MapEvent) :=
  (step (s.goto pc) action).map fun (s, events) => (s.goto (wrap s.pc), events)

/-- A thread goes on; a caller of `vm_map_delete` unlocks the map after it, if it has the
lock. -/
def routineStep (action : MapAction) : Option (MapThread × List MapEvent) :=
  match s.pc with
  | .idle => none
  | .wire (.returned _) | .unwire (.returned _) | .copyoutPageList (.returned _) =>
    some ({ s with pc := .idle }, [.finished])
  | .delete _ (.returned _) =>
    if s.locked then some ({ s.unlock with pc := .idle }, [.finished]) else none
  | .remove _ (.returned kr) =>
    if s.locked then
      some ({ s.unlock with pc := .idle }, [.returned .vmMapRemove kr false, .finished])
    else none
  | .wire pc => nested WireState.step .wire s pc action
  | .unwire pc => nested UnwireState.step .unwire s pc action
  | .delete call pc =>
    nested (fun s action => DeleteState.step s call action) (.delete call) s pc action
  | .remove call pc =>
    nested (fun s action => DeleteState.step s call action) (.remove call) s pc action
  | .copyoutPageList pc => nested CopyoutState.step .copyoutPageList s pc action

/-- One step of a thread. -/
def step : ThreadAction → Option (MapThread × List MapEvent)
  | .call call => if s.pc = .idle then some (s.callStep call, []) else none
  | .run oracle => s.routineStep (.run oracle)
  | .interrupt => s.routineStep .interrupt

/-- Another thread has or has had the lock. -/
def sync (u v : MapThread) : MapThread :=
  { u with
    before := []
    after := v.entries
    moved := true
    timestamp := v.timestamp }

/-- A thread has the lock in a step, or takes it. -/
def Touches (v v' : MapThread) : Prop := v.locked = true ∨ v'.timestamp ≠ v.timestamp

instance (v v' : MapThread) : Decidable (Touches v v') := inferInstanceAs (Decidable (_ ∨ _))

end MapThread

/-- A step of a run: the thread and its state before it, what it did next and what that did to
entries and waiting threads. -/
structure ThreadStep (Thread : Type*) where
  thread : Thread
  state : MapThread
  action : ThreadAction
  events : List MapEvent

/-- The threads after a step of one of them. -/
def stepThreads {Thread : Type*} [DecidableEq Thread] (threads : Thread → MapThread) (t : Thread)
    (v : MapThread) (u : Thread) : MapThread :=
  if u = t then v
  else if MapThread.Touches (threads t) v then MapThread.sync (threads u) v
  else threads u

/-- The runs of the threads: the steps, the last first, and where they led. -/
inductive ThreadsRun {Thread : Type*} [DecidableEq Thread] (init : Thread → MapThread) :
    List (ThreadStep Thread) → (Thread → MapThread) → Prop
  | nil : ThreadsRun init [] init
  | cons {trace : List (ThreadStep Thread)} {threads : Thread → MapThread} {t : Thread}
    {action : ThreadAction} {v : MapThread} {events : List MapEvent}
    (h : ThreadsRun init trace threads)
    (hstep : MapThread.step (threads t) action = some (v, events))
    (hlock : v.timestamp ≠ (threads t).timestamp → ∀ u, (threads u).locked = false) :
    ThreadsRun init (⟨t, threads t, action, events⟩ :: trace) (stepThreads threads t v)

/-- What the threads did to entries and waiting threads, the last first. -/
def threadsLog {Thread : Type*} (trace : List (ThreadStep Thread)) : List (Thread × MapEvent) :=
  trace.flatMap fun step => (step.events.map (step.thread, ·)).reverse

end MachVirtuTerm

/-!
# No wakeup and no lock is lost

Every thread that waits for an entry still has its mark in the entry, which is then wired or
in the range another thread holds in transition, or the mark was taken by a thread that has
called `vm_map_entry_wakeup` since or will do so before it is done; and every routine returns
with the lock if it should. This holds in the runs in which no routine leaves early with the
mark of a waiting thread, or without the lock, or finds the version it saved after others have
locked the map a multiple of 2 ^ 32 times.
-/

namespace MachVirtuTerm

variable {pending : Bool} {events : List MapEvent} {action : MapAction}

namespace MapThread

variable {s s' : MapThread}

/-- What holds of a thread at each place. -/
def TransitInv (s : MapThread) : MapPc → Prop
  | .idle => s.locked = false
  | .wire pc => WireState.PcInv (s.goto pc) pc
  | .unwire pc => UnwireState.PcInv (s.goto pc) pc
  | .delete _ pc | .remove _ pc => DeleteState.TransitInv (s.goto pc) pc
  | .copyoutPageList pc => CopyoutState.TransitInv (s.goto pc) pc

/-- A thread remembers that it has to wake somebody up. -/
def Owes (s : MapThread) : MapPc → Prop
  | .idle => False
  | .wire pc => WireState.Owes (s.goto pc) pc
  | .unwire pc => UnwireState.Owes (s.goto pc) pc
  | .delete _ pc | .remove _ pc => DeleteState.Owes (s.goto pc) pc
  | .copyoutPageList pc => CopyoutState.Owes (s.goto pc) pc

/-- What is asked of a step of the routine the thread is in. -/
def RoutineProper (s : MapThread) (action : MapAction) : MapPc → Prop
  | .idle => True
  | .wire pc => WireState.Proper (s.goto pc) pc
  | .unwire pc => UnwireState.Proper (s.goto pc) pc
  | .delete call pc | .remove call pc => DeleteState.Proper (s.goto pc) call action pc
  | .copyoutPageList pc => CopyoutState.Proper (s.goto pc) action pc

instance (s : MapThread) (action : MapAction) (pc : MapPc) :
    Decidable (s.RoutineProper action pc) :=
  match pc with
  | .idle => inferInstanceAs (Decidable True)
  | .wire pc => inferInstanceAs (Decidable (WireState.Proper (s.goto pc) pc))
  | .unwire pc => inferInstanceAs (Decidable (UnwireState.Proper (s.goto pc) pc))
  | .delete call pc | .remove call pc =>
    inferInstanceAs (Decidable (DeleteState.Proper (s.goto pc) call action pc))
  | .copyoutPageList pc => inferInstanceAs (Decidable (CopyoutState.Proper (s.goto pc) action pc))

/-- What is asked of a step of a thread. -/
def Proper (s : MapThread) : ThreadAction → Prop
  | .call _ => True
  | .run oracle => s.RoutineProper (.run oracle) s.pc
  | .interrupt => s.RoutineProper .interrupt s.pc

instance (s : MapThread) (action : ThreadAction) : Decidable (s.Proper action) :=
  match action with
  | .call _ => inferInstanceAs (Decidable True)
  | .run oracle => inferInstanceAs (Decidable (s.RoutineProper (.run oracle) s.pc))
  | .interrupt => inferInstanceAs (Decidable (s.RoutineProper .interrupt s.pc))

end MapThread

/-- The invariant of a thread. -/
structure ThreadInv (s : MapThread) (pending : Bool) : Prop where
  ok : EntriesOk s.entries
  pc : s.TransitInv s.pc
  owes : pending = true → s.Owes s.pc

/-- What holds of each step of a thread. -/
structure ThreadStepOk (pending : Bool) (s s' : MapThread) (events : List MapEvent) : Prop where
  entries : TransitionStep s.pc.held s'.pc.held s.entries s'.entries
    (events.flatMap MapEvent.clearedEntries)
  waits : ∀ a, .waits a ∈ events → NeedsAt s'.entries a
  unlocked : s.locked = false → s'.timestamp = s.timestamp →
    s'.entries = s.entries ∧ s'.locked = false
  returned : ∀ routine kr locked, .returned routine kr locked ∈ events →
    locked = routine.returnsLocked
  finished : ∀ x y, events = x ++ .finished :: y → pendingAfter pending x = false

/-- A step of a routine is one of its thread. -/
theorem StepOk.thread {s s' : MapThread} (h : StepOk MapPc.held s s' events) :
    ThreadStepOk pending s s' events := by
  refine ⟨h.entries, h.waits, h.unlocked, h.returned.2, fun x y hevents => ?_⟩
  exact absurd (by simp [hevents]) h.returned.1

/-- What holds of a call of `vm_map_unwire` without the lock holds when others have had it. -/
theorem UnwireState.PcInv.refresh {s : UnwireState} {pc : UnwirePc} {entries : List VmMapEntry}
    {timestamp : BitVec 32} (h : s.PcInv pc) (hlocked : s.locked = false) :
    UnwireState.PcInv { s with
      before := [], after := entries, moved := true, timestamp := timestamp } pc := by
  cases pc with
  | enter _ | finish | returned _ => exact h
  | loop call => exact absurd (hlocked.symm.trans h.1) (by simp)
  | faultUnwire call tmpEntry => exact ⟨h.1, h.2.1, by simp⟩

/-- What holds of a call of `vm_map_wire` without the lock holds when others have had it. -/
theorem WireState.PcInv.refresh {s : WireState} {pc : WirePc} {entries : List VmMapEntry}
    {timestamp : BitVec 32} (h : s.PcInv pc) (hlocked : s.locked = false) :
    WireState.PcInv { s with
      before := [], after := entries, moved := true, timestamp := timestamp } pc := by
  cases pc with
  | enter _ | failed _ _ _ | finish | returned _ | waitTransition _ _ => exact h
  | loop call => exact absurd (hlocked.symm.trans h.1) (by simp)
  | faultWire call tmpEntry => exact ⟨h.1, h.2.1, by simp⟩
  | undo kr pc => exact UnwireState.PcInv.refresh h hlocked

/-- What holds of a call of `vm_map_delete` without the lock holds when others have had it. -/
theorem DeleteState.TransitInv.refresh {s : DeleteState} {pc : DeletePc}
    {entries : List VmMapEntry} {timestamp : BitVec 32} (h : s.TransitInv pc)
    (hlocked : s.locked = false) :
    DeleteState.TransitInv { s with
      before := [], after := entries, moved := true, timestamp := timestamp } pc := by
  cases pc with
  | waitTransition _ | waitKwire _ => exact h
  | lookup | loop | retryEntry | finish | returned _ =>
    exact absurd (hlocked.symm.trans h) (by simp)
  | faultUnwire tmpEntry => exact ⟨h.1, by simp⟩

/-- What holds of a call of `vm_map_copyout_page_list` without the lock holds when others have
had it. -/
theorem CopyoutState.TransitInv.refresh {s : CopyoutState} {pc : CopyoutPc}
    {entries : List VmMapEntry} {timestamp : BitVec 32} (h : s.TransitInv pc)
    (hlocked : s.locked = false) :
    CopyoutState.TransitInv { s with
      before := [], after := entries, moved := true, timestamp := timestamp } pc := by
  cases pc with
  | startAgain _ | waitSpace _ | finish _ | returned _ | continuation _ => exact h
  | insertPages _ | error _ _ => exact absurd (hlocked.symm.trans h.1) (by simp)
  | delete _ _ _ pc => exact DeleteState.TransitInv.refresh h hlocked

namespace ThreadInv

variable {s s' : MapThread}

/-- A call begins. -/
theorem callStep (h : ThreadInv s pending) (hidle : s.pc = .idle) (call : MapCall) :
    ThreadInv (s.callStep call) pending ∧ ThreadStepOk pending s (s.callStep call) [] := by
  have hinv := h.pc
  have howes := h.owes
  rw [hidle] at hinv howes
  have hunlocked : s.locked = false := hinv
  have hpending : pending = false := by simpa [MapThread.Owes] using howes
  have hheld : s.pc.held = none := by rw [hidle]; rfl
  have hrefl := TransitionStep.refl none h.ok
  cases call with
  | wire call | unwire call | copyoutPageList call =>
    refine ⟨⟨h.ok, hinv, by simp [hpending]⟩, ?_, by simp, fun _ _ => ⟨rfl, hunlocked⟩, by simp,
      by simp⟩
    rw [hheld]
    exact hrefl
  | delete call | remove call =>
    refine ⟨⟨h.ok, rfl, by simp [hpending]⟩, ?_, by simp, ?_, by simp, by simp⟩
    · rw [hheld]
      exact hrefl
    · exact fun _ ht => absurd ht (by simp [MapThread.callStep, MapState.lock])

/-- A thread whose routine has returned without the lock is done. -/
theorem finish (h : ThreadInv s pending) (hlocked : s.locked = false) (hpending : pending = false)
    (hheld : s.pc.held = none) :
    ThreadInv { s with pc := .idle } (pendingAfter pending [.finished]) ∧
      ThreadStepOk pending s { s with pc := .idle } [.finished] := by
  refine ⟨⟨h.ok, hlocked, by simp [pendingAfter, MapEvent.pending, hpending]⟩, ?_, by simp,
    fun _ _ => ⟨rfl, hlocked⟩, by simp, fun x y hevents => ?_⟩
  · rw [hheld]
    exact TransitionStep.refl none h.ok
  · cases x with
    | nil => exact hpending
    | cons event x => simp at hevents

/-- The caller of a routine that has returned with the lock releases it and is done. -/
theorem finishUnlock {prior : List MapEvent} (h : ThreadInv s pending) (hlocked : s.locked = true)
    (hpending : pending = false) (hheld : s.pc.held = none)
    (hprior : prior = [] ∨ ∃ kr, prior = [.returned .vmMapRemove kr false]) :
    ThreadInv { s.unlock with pc := .idle } (pendingAfter pending (prior ++ [.finished])) ∧
      ThreadStepOk pending s { s.unlock with pc := .idle } (prior ++ [.finished]) := by
  have hunlocked : ∀ {P : Prop}, s.locked = false → P := fun hl =>
    absurd (hl.symm.trans hlocked) (by simp)
  have hrefl := TransitionStep.refl none h.ok
  rcases hprior with rfl | ⟨kr, rfl⟩
  · refine ⟨⟨h.ok, rfl, by simp [pendingAfter, MapEvent.pending, hpending]⟩, ?_, by simp, hunlocked,
      by simp, fun x y hevents => ?_⟩
    · rw [hheld]
      exact hrefl
    · cases x with
      | nil => exact hpending
      | cons event x => simp at hevents
  · refine ⟨⟨h.ok, rfl, by simp [pendingAfter, MapEvent.pending, hpending]⟩, ?_, by simp, hunlocked,
      by simp [MapRoutine.returnsLocked], fun x y hevents => ?_⟩
    · rw [hheld]
      exact hrefl
    · rcases x with _ | ⟨event, _ | ⟨event', x⟩⟩
      · simp at hevents
      · simp only [cons_append, nil_append, List.cons.injEq] at hevents
        rw [← hevents.1, hpending]
        rfl
      · simp at hevents

/-- A step of the routine a thread is in. -/
theorem routineStep (h : ThreadInv s pending) (hproper : s.RoutineProper action s.pc)
    (haction : action.entries = none) (hstep : s.routineStep action = some (s', events)) :
    ThreadInv s' (pendingAfter pending events) ∧ ThreadStepOk pending s s' events := by
  have hinv := h.pc
  have howes := h.owes
  unfold MapThread.routineStep at hstep
  split at hstep
  · cases hstep
  · rename_i kr hpc
    cases hstep
    rw [hpc] at hinv howes
    exact h.finish hinv (by simpa [MapThread.Owes, WireState.Owes] using howes) (by rw [hpc]; rfl)
  · rename_i kr hpc
    cases hstep
    rw [hpc] at hinv howes
    exact h.finish hinv (by simpa [MapThread.Owes, UnwireState.Owes] using howes) (by rw [hpc]; rfl)
  · rename_i kr hpc
    cases hstep
    rw [hpc] at hinv howes
    exact h.finish hinv (by simpa [MapThread.Owes, CopyoutState.Owes] using howes) (by rw [hpc]; rfl)
  · rename_i call kr hpc
    split at hstep
    · cases hstep
      rw [hpc] at hinv howes
      exact h.finishUnlock hinv (by simpa [MapThread.Owes, DeleteState.Owes] using howes)
        (by rw [hpc]; rfl) (Or.inl rfl)
    · cases hstep
  · rename_i call kr hpc
    split at hstep
    · cases hstep
      rw [hpc] at hinv howes
      exact h.finishUnlock hinv (by simpa [MapThread.Owes, DeleteState.Owes] using howes)
        (by rw [hpc]; rfl) (Or.inr ⟨kr, rfl⟩)
    · cases hstep
  all_goals
    rename_i hpc
    obtain ⟨⟨s₁, events₁⟩, hinner, heq⟩ := Option.map_eq_some_iff.mp hstep
    cases heq
    rw [hpc] at hinv howes hproper
  · have hwire : WireInv (s.goto _) pending := ⟨h.ok, hinv, howes⟩
    obtain ⟨hinv', hok⟩ := hwire.step hproper haction hinner
    exact ⟨⟨hinv'.ok, hinv'.pc, hinv'.owes⟩, (hok.lift hpc fun _ => rfl).thread⟩
  · have hunwire : UnwireInv (s.goto _) pending := ⟨h.ok, hinv, howes⟩
    obtain ⟨hinv', hok⟩ := hunwire.step hproper haction hinner
    exact ⟨⟨hinv'.ok, hinv'.pc, hinv'.owes⟩, (hok.lift hpc fun _ => rfl).thread⟩
  iterate 2
    · have hdelete : DeleteTransit (s.goto _) pending := ⟨h.ok, hinv, howes⟩
      obtain ⟨hinv', hok⟩ := hdelete.step hproper haction hinner
      exact ⟨⟨hinv'.ok, hinv'.pc, hinv'.owes⟩, (hok.lift hpc fun _ => rfl).thread⟩
  · have hcopyout : CopyoutTransit (s.goto _) pending := ⟨h.ok, hinv, howes⟩
    obtain ⟨hinv', hok⟩ := hcopyout.step hproper haction hinner
    exact ⟨⟨hinv'.ok, hinv'.pc, hinv'.owes⟩, (hok.lift hpc fun _ => rfl).thread⟩

/-- One step. -/
theorem step {action : ThreadAction} (h : ThreadInv s pending) (hproper : s.Proper action)
    (hstep : s.step action = some (s', events)) :
    ThreadInv s' (pendingAfter pending events) ∧ ThreadStepOk pending s s' events := by
  cases action with
  | call call =>
    simp only [MapThread.step] at hstep
    split at hstep
    · rename_i hidle
      cases hstep
      exact h.callStep hidle call
    · cases hstep
  | run oracle => exact h.routineStep hproper rfl hstep
  | interrupt => exact h.routineStep hproper rfl hstep

/-- What holds of a thread without the lock still holds when another one has had it. -/
theorem sync {v : MapThread} (h : ThreadInv s pending) (hlocked : s.locked = false)
    (hok : EntriesOk v.entries) : ThreadInv (s.sync v) pending := by
  refine ⟨hok, ?_, h.owes⟩
  have hinv := h.pc
  change MapThread.TransitInv (s.sync v) s.pc
  cases hpc : s.pc with
  | idle => exact hlocked
  | wire pc =>
    rw [hpc] at hinv
    exact WireState.PcInv.refresh hinv hlocked
  | unwire pc =>
    rw [hpc] at hinv
    exact UnwireState.PcInv.refresh hinv hlocked
  | delete call pc | remove call pc =>
    rw [hpc] at hinv
    exact DeleteState.TransitInv.refresh hinv hlocked
  | copyoutPageList pc =>
    rw [hpc] at hinv
    exact CopyoutState.TransitInv.refresh hinv hlocked

end ThreadInv

section Log

variable {Thread : Type*} [DecidableEq Thread] {log : List (Thread × MapEvent)} {t u : Thread}

/-- Whether a thread has to wake somebody up, by what was done, the last first. -/
def owed (t : Thread) : List (Thread × MapEvent) → Bool
  | [] => false
  | (u, event) :: log => if u = t then event.pending (owed t log) else owed t log

/-- What a thread did counts for it. -/
theorem owed_append_self (t : Thread) (events : List MapEvent) (log : List (Thread × MapEvent)) :
    owed t ((events.map (t, ·)).reverse ++ log) = pendingAfter (owed t log) events := by
  induction events generalizing log with
  | nil => rfl
  | cons event events ih =>
    rw [map_cons, reverse_cons, append_assoc, ih]
    simp [pendingAfter, owed]

/-- What another thread did does not count. -/
theorem owed_append_other (h : u ≠ t) (events : List MapEvent) (log : List (Thread × MapEvent)) :
    owed t ((events.map (u, ·)).reverse ++ log) = owed t log := by
  induction events generalizing log with
  | nil => rfl
  | cons event events ih =>
    rw [map_cons, reverse_cons, append_assoc, ih]
    simp [owed, h]

/-- A thread that has cleared the transition bit of an entry for which somebody waits, and has
called no `vm_map_entry_wakeup` since, has to wake somebody up. -/
theorem owed_of_cleared {entries : List VmMapEntry} {address : VmOffset}
    (hneeds : NeedsAt entries address) {later : List (Thread × MapEvent)}
    (hwakeup : (t, .wakeup) ∉ later) : owed t (later ++ (t, .cleared entries) :: log) = true := by
  induction later with
  | nil =>
    obtain ⟨e, he, -, hneed⟩ := hneeds
    have hany : entries.any (·.needsWakeup) = true := any_eq_true.mpr ⟨e, he, hneed⟩
    simp [owed, MapEvent.pending, hany]
  | cons step later ih =>
    obtain ⟨u, event⟩ := step
    simp only [mem_cons, not_or, Prod.mk.injEq, not_and] at hwakeup
    have ih := ih hwakeup.2
    rw [cons_append, owed]
    split
    · rename_i hu
      cases event with
      | wakeup => exact absurd rfl (hwakeup.1 hu.symm)
      | cleared entries =>
        rw [ih]
        rfl
      | _ => exact ih
    · exact ih

omit [DecidableEq Thread] in
/-- A place in the log after a step is one in the log before it, or one in the step. -/
theorem log_split {events : List MapEvent} {event : MapEvent} {later earlier : List (Thread × MapEvent)}
    (h : (events.map (t, ·)).reverse ++ log = later ++ (u, event) :: earlier) :
    (∃ later', later = (events.map (t, ·)).reverse ++ later' ∧
      log = later' ++ (u, event) :: earlier) ∨
    u = t ∧ ∃ x y, events = x ++ event :: y ∧ earlier = (x.map (t, ·)).reverse ++ log := by
  rcases append_eq_append_iff.mp h with ⟨later', hlater, hlog⟩ | ⟨mid, hevents, hmid⟩
  · exact Or.inl ⟨later', hlater, hlog⟩
  · cases mid with
    | nil =>
      rw [append_nil] at hevents
      exact Or.inl ⟨[], by rw [hevents, append_nil], hmid.symm⟩
    | cons step mid =>
      rw [cons_append, List.cons.injEq] at hmid
      obtain ⟨rfl, rfl⟩ := hmid
      have hmap : events.map (t, ·) = mid.reverse ++ (u, event) :: later.reverse := by
        rw [← reverse_reverse (events.map (t, ·)), hevents]
        simp
      obtain ⟨x, rest, rfl, hx, hrest⟩ := map_eq_append_iff.mp hmap
      obtain ⟨event', y, rfl, hstep, -⟩ := map_eq_cons_iff.mp hrest
      obtain ⟨rfl, rfl⟩ := Prod.mk.inj hstep
      exact Or.inr ⟨rfl, x, y, rfl, by rw [hx, reverse_reverse]⟩

end Log

section Run

variable {Thread : Type*} [DecidableEq Thread] {log : List (Thread × MapEvent)} {t u : Thread}
  {threads : Thread → MapThread} {trace : List (ThreadStep Thread)} {v : MapThread}

/-- A thread waits at an address: an entry there has its mark, and is in the range that some
thread holds in transition, or wired. -/
def StillWaits (threads : Thread → MapThread) (w : Thread) (address : VmOffset) : Prop :=
  ∃ e ∈ (threads w).entries, e.Contains address ∧ e.needsWakeup = true ∧
    (e.inTransition = true ∧
        (∃ t tmpEntry, (threads t).pc.held = some tmpEntry ∧ e.Within tmpEntry) ∨
      e.inTransition = false ∧ e.wiredCount ≠ 0)

/-- A thread has cleared the transition bit of an entry at an address for which somebody
waited, and has called `vm_map_entry_wakeup` after that if it is done. -/
def WokenUp (later : List (Thread × MapEvent)) (address : VmOffset) : Prop :=
  ∃ after t entries before, later = after ++ (t, .cleared entries) :: before ∧
    NeedsAt entries address ∧ ∀ x y, after = x ++ (t, .finished) :: y → (t, .wakeup) ∈ y

/-- The invariant of the threads. -/
structure ThreadsInv (log : List (Thread × MapEvent)) (threads : Thread → MapThread) : Prop where
  same : ∀ t u, (threads t).entries = (threads u).entries
  lock : ∀ t u, (threads t).locked = true → (threads u).locked = true → t = u
  inv : ∀ t, ThreadInv (threads t) (owed t log)
  transition : ∀ t, ∀ e ∈ (threads t).entries, e.inTransition = true →
    ∃ u tmpEntry, (threads u).pc.held = some tmpEntry ∧ e.Within tmpEntry
  woken : ∀ x t y, log = x ++ (t, .finished) :: y → owed t y = false
  waits : ∀ later w a earlier, log = later ++ (w, .waits a) :: earlier →
    NeedsAt (threads w).entries a ∨ ∃ after t entries before,
      later = after ++ (t, .cleared entries) :: before ∧ NeedsAt entries a
  returned : ∀ t routine kr locked, (t, .returned routine kr locked) ∈ log →
    locked = routine.returnsLocked

/-- After a step all threads have the entries that it leaves. -/
theorem stepThreads_entries (hsame : ∀ u, (threads u).entries = (threads t).entries)
    (hunlocked : (threads t).locked = false → v.timestamp = (threads t).timestamp →
      v.entries = (threads t).entries) (u : Thread) :
    (stepThreads threads t v u).entries = v.entries := by
  unfold stepThreads
  split
  · rfl
  · split
    · rfl
    · rename_i htouch
      simp only [MapThread.Touches, not_or, Bool.not_eq_true, not_not] at htouch
      rw [hunlocked htouch.1 htouch.2]
      exact hsame u

/-- A step of a thread leaves the places of the others. -/
theorem stepThreads_pc (h : u ≠ t) : (stepThreads threads t v u).pc = (threads u).pc := by
  unfold stepThreads
  rw [if_neg h]
  split <;> rfl

/-- A step of a thread leaves the others without the lock, or with it. -/
theorem stepThreads_locked (h : u ≠ t) :
    (stepThreads threads t v u).locked = (threads u).locked := by
  unfold stepThreads
  rw [if_neg h]
  split <;> rfl

/-- A step of a thread leads to its new state. -/
theorem stepThreads_self : stepThreads threads t v t = v := if_pos rfl

/-- A step of a thread keeps the invariant. -/
theorem ThreadsInv.step {action : ThreadAction} (h : ThreadsInv log threads)
    (hproper : (threads t).Proper action)
    (hstep : MapThread.step (threads t) action = some (v, events))
    (hlock : v.timestamp ≠ (threads t).timestamp → ∀ u, (threads u).locked = false) :
    ThreadsInv ((events.map (t, ·)).reverse ++ log) (stepThreads threads t v) := by
  obtain ⟨hinv, hok⟩ := (h.inv t).step hproper hstep
  have hentries := stepThreads_entries (fun u => h.same u t) fun hl ht => (hok.unlocked hl ht).1
  -- A thread that has or takes the lock is the only one.
  have halone : ∀ u, u ≠ t → MapThread.Touches (threads t) v → (threads u).locked = false := by
    rintro u hu (hlocked | htime)
    · rw [← Bool.not_eq_true]
      exact fun hl => hu (h.lock u t hl hlocked)
    · exact hlock htime u
  have htouch : v.locked = true → MapThread.Touches (threads t) v := by
    intro hlocked
    by_contra hnot
    simp only [MapThread.Touches, not_or, Bool.not_eq_true, not_not] at hnot
    have hunlocked := (hok.unlocked hnot.1 hnot.2).2
    exact absurd (hlocked.symm.trans hunlocked) (by simp)
  refine ⟨fun t₁ t₂ => by rw [hentries, hentries], fun t₁ t₂ h₁ h₂ => ?_, fun u => ?_,
    fun u e he htransition => ?_, fun later u earlier hlog => ?_,
    fun later w a earlier hlog => ?_, fun u routine kr locked hreturned => ?_⟩
  · by_cases ht₁ : t₁ = t <;> by_cases ht₂ : t₂ = t
    · rw [ht₁, ht₂]
    · rw [ht₁, stepThreads_self] at h₁
      rw [stepThreads_locked ht₂, halone t₂ ht₂ (htouch h₁)] at h₂
      cases h₂
    · rw [ht₂, stepThreads_self] at h₂
      rw [stepThreads_locked ht₁, halone t₁ ht₁ (htouch h₂)] at h₁
      cases h₁
    · rw [stepThreads_locked ht₁] at h₁
      rw [stepThreads_locked ht₂] at h₂
      exact h.lock t₁ t₂ h₁ h₂
  · by_cases hu : u = t
    · rw [hu, stepThreads_self, owed_append_self]
      exact hinv
    · rw [owed_append_other (Ne.symm hu), stepThreads, if_neg hu]
      split
      · rename_i htouches
        exact (h.inv u).sync (halone u hu htouches) hinv.ok
      · exact h.inv u
  · rw [hentries] at he
    rcases hok.entries.transition e he htransition with
      ⟨tmpEntry, hheld, hwithin⟩ | ⟨e₀, he₀, htransition₀, hwithin₀, hnot⟩
    · exact ⟨t, tmpEntry, by rw [stepThreads_self, hheld], hwithin⟩
    · obtain ⟨u', tmpEntry, hheld, hwithin⟩ := h.transition t e₀ he₀ htransition₀
      have hu' : u' ≠ t := by
        rintro rfl
        exact hnot tmpEntry hheld hwithin
      exact ⟨u', tmpEntry, by rw [stepThreads_pc hu', hheld], hwithin₀.trans hwithin⟩
  · rcases log_split hlog with ⟨later', -, hlog'⟩ | ⟨rfl, x, y, hevents, hearlier⟩
    · exact h.woken later' u earlier hlog'
    · rw [hearlier, owed_append_self]
      exact hok.finished x y hevents
  · rcases log_split hlog with ⟨later', rfl, hlog'⟩ | ⟨rfl, x, y, hevents, hearlier⟩
    · rcases h.waits later' w a earlier hlog' with hneeds | ⟨after, t', entries, before, rfl, hneeds⟩
      · rw [h.same w t] at hneeds
        rcases hok.entries.needs a hneeds with hneeds | ⟨e, he, hneed⟩
        · rw [hentries]
          exact Or.inl hneeds
        · obtain ⟨event, hevent, he⟩ := mem_flatMap.mp he
          cases event with
          | cleared entries =>
            have hmem : (t, MapEvent.cleared entries) ∈ (events.map (t, ·)).reverse := by
              simpa using hevent
            obtain ⟨after, before, hsplit⟩ := append_of_mem hmem
            refine Or.inr ⟨after, t, entries, before ++ later', ?_, e, he, hneed⟩
            rw [hsplit]
            simp
          | _ => cases he
      · refine Or.inr ⟨(events.map (t, ·)).reverse ++ after, t', entries, before, ?_, hneeds⟩
        simp
    · rw [hentries]
      exact Or.inl (hok.waits a (by rw [hevents]; simp))
  · rcases mem_append.mp hreturned with hreturned | hreturned
    · obtain ⟨event, hevent, heq⟩ := mem_map.mp (mem_reverse.mp hreturned)
      obtain ⟨-, rfl⟩ := Prod.mk.inj heq
      exact hok.returned routine kr locked hevent
    · exact h.returned u routine kr locked hreturned

/-- A run whose steps are proper keeps the invariant. -/
theorem ThreadsRun.inv {entries : List VmMapEntry} {minOffset maxOffset : VmOffset}
    {timestamp : BitVec 32} (hsorted : EntriesSorted entries)
    (hquiet : ∀ e ∈ entries, e.inTransition = false ∧ e.needsWakeup = false)
    (h : ThreadsRun (fun _ => MapThread.idle entries minOffset maxOffset timestamp) trace threads)
    (hproper : ∀ step ∈ trace, MapThread.Proper step.state step.action) :
    ThreadsInv (threadsLog trace) threads := by
  induction h with
  | nil =>
    have hok : EntriesOk entries := ⟨hsorted, fun e he hneed => by simp [hquiet e he] at hneed⟩
    refine ⟨fun _ _ => rfl, fun _ _ hlocked => ?_, fun _ => ⟨hok, rfl, ?_⟩,
      fun _ e he htransition => ?_, by simp [threadsLog], by simp [threadsLog], by simp [threadsLog]⟩
    · cases hlocked
    · simp [threadsLog, owed]
    · rw [(hquiet e he).1] at htransition
      cases htransition
  | cons h hstep hlock ih =>
    have hinv := (ih fun step hmem => hproper step (mem_cons_of_mem _ hmem)).step
      (hproper _ (mem_cons_self ..)) hstep hlock
    simpa [threadsLog] using hinv

/-- In a run whose steps are proper every thread that has begun to wait for an entry still
does, or its mark was taken by a thread that wakes it up before it is done; and every routine
that has returned had the lock if it should. -/
theorem wakeups_and_locks {entries : List VmMapEntry} {minOffset maxOffset : VmOffset}
    {timestamp : BitVec 32} (hsorted : EntriesSorted entries)
    (hquiet : ∀ e ∈ entries, e.inTransition = false ∧ e.needsWakeup = false)
    (h : ThreadsRun (fun _ => MapThread.idle entries minOffset maxOffset timestamp) trace threads)
    (hproper : ∀ step ∈ trace, MapThread.Proper step.state step.action) :
    (∀ later w address earlier, threadsLog trace = later ++ (w, .waits address) :: earlier →
      StillWaits threads w address ∨ WokenUp later address) ∧
    ∀ t routine kr locked, (t, .returned routine kr locked) ∈ threadsLog trace →
      locked = routine.returnsLocked := by
  have hinv := h.inv hsorted hquiet hproper
  refine ⟨fun later w address earlier hlog => ?_, hinv.returned⟩
  rcases hinv.waits later w address earlier hlog with hneeds | ⟨after, t, cleared, before, rfl, hneeds⟩
  · obtain ⟨e, he, hcontains, hneed⟩ := hneeds
    refine Or.inl ⟨e, he, hcontains, hneed, ?_⟩
    by_cases htransition : e.inTransition = true
    · exact Or.inl ⟨htransition, hinv.transition w e he htransition⟩
    · refine Or.inr ⟨by simpa using htransition, ?_⟩
      exact ((hinv.inv w).ok.needs e he hneed).resolve_left htransition
  · refine Or.inr ⟨after, t, cleared, before, rfl, hneeds, fun x y hafter => ?_⟩
    by_contra hwakeup
    have hdone := hinv.woken x t (y ++ (t, .cleared cleared) :: (before ++ (w, .waits address) ::
      earlier)) (by rw [hlog, hafter]; simp)
    rw [owed_of_cleared hneeds hwakeup] at hdone
    cases hdone

end Run

section Follow

variable {Thread : Type} [DecidableEq Thread] [Fintype Thread]

/-- Let threads act, the last first. -/
def followThreads (init : Thread → MapThread) :
    List (Thread × ThreadAction) → Option (List (ThreadStep Thread) × (Thread → MapThread))
  | [] => some ([], init)
  | (t, action) :: actions => do
    let (trace, threads) ← followThreads init actions
    let (v, events) ← MapThread.step (threads t) action
    if v.timestamp ≠ (threads t).timestamp → ∀ u, (threads u).locked = false then
      some (⟨t, threads t, action, events⟩ :: trace, stepThreads threads t v)
    else none

/-- Following actions is a run. -/
theorem threadsRun_of_follow {init threads : Thread → MapThread}
    {actions : List (Thread × ThreadAction)} {trace : List (ThreadStep Thread)}
    (h : followThreads init actions = some (trace, threads)) : ThreadsRun init trace threads := by
  induction actions generalizing trace threads with
  | nil =>
    cases h
    exact .nil
  | cons step actions ih =>
    obtain ⟨t, action⟩ := step
    simp only [followThreads, Option.bind_eq_bind, Option.bind_eq_some_iff] at h
    obtain ⟨⟨trace₁, threads₁⟩, hfollow, ⟨v, events⟩, hstep, hif⟩ := h
    split at hif
    · rename_i hlock
      cases hif
      exact .cons (ih hfollow) hstep hlock
    · cases hif

end Follow

/-- An entry of one page. -/
def quietPage : VmMapEntry where
  vmeStart := 0x1000
  vmeEnd := 0x2000
  object := some 0
  offset := 0
  isShared := false
  isSubMap := false
  inTransition := false
  needsWakeup := false
  behavior := 0
  needsCopy := false
  protection := 3
  maxProtection := 7
  inheritance := 1
  wiredCount := 0
  userWiredCount := 0

/-- A map of two pages, and two threads. -/
def twoThreads (_ : Bool) : MapThread :=
  .idle [quietPage, { quietPage with vmeStart := 0x2000, vmeEnd := 0x3000 }] 0 0xFFFFF000 0

/-- While one thread wires the first page of a region for a user, the other begins to delete
that page; then the first thread goes on for some steps. -/
def wireAndRemove («end» : VmOffset) (steps : ℕ) : List (Bool × ThreadAction) :=
  replicate steps (false, .run .quiet) ++ replicate 3 (true, .run .quiet) ++
    [(true, .call (.remove ⟨0x1000, 0x2000, ⟨false, false, false⟩⟩)), (false, .run .quiet),
      (false, .run .quiet), (false, .call (.wire ⟨0x1000, «end», 3, true⟩))]

/-- The second thread waits for the first page, and the first thread wakes it up when it has
wired both pages. -/
theorem wakeups_and_locks_waited :
    ∃ trace threads, ThreadsRun twoThreads trace threads ∧
      (true, .waits 0x1000) ∈ threadsLog trace ∧ (false, .finished) ∈ threadsLog trace ∧
      (∀ later w address earlier, threadsLog trace = later ++ (w, .waits address) :: earlier →
        StillWaits threads w address ∨ WokenUp later address) ∧
      ∀ t routine kr locked, (t, .returned routine kr locked) ∈ threadsLog trace →
        locked = routine.returnsLocked := by
  have hfollow : (followThreads twoThreads (wireAndRemove 0x3000 6)).map
      (fun r => decide ((∀ step ∈ r.1, MapThread.Proper step.state step.action) ∧
        (true, .waits 0x1000) ∈ threadsLog r.1 ∧ (false, .finished) ∈ threadsLog r.1)) = some true := by
    decide +kernel
  obtain ⟨⟨trace, threads⟩, hfollow, hres⟩ := Option.map_eq_some_iff.mp hfollow
  obtain ⟨hproper, hwaits, hfinished⟩ := of_decide_eq_true hres
  have hrun := threadsRun_of_follow hfollow
  obtain ⟨hwoken, hreturned⟩ := wakeups_and_locks (by decide) (by decide) hrun hproper
  exact ⟨trace, threads, hrun, hwaits, hfinished, hwoken, hreturned⟩

/-- If the only thread that has cleared a transition bit is done and there was no wakeup, nobody
was woken up. -/
theorem not_wokenUp {Thread : Type*} {later : List (Thread × MapEvent)} {t : Thread}
    {address : VmOffset} (hfinished : (t, .finished) ∈ later.head?)
    (hcleared : ∀ p ∈ later, p.2.clearedEntries ≠ [] → p.1 = t)
    (hwakeup : ∀ p ∈ later, p.2 ≠ .wakeup) : ¬WokenUp later address := by
  rintro ⟨after, u, entries, before, rfl, ⟨e, he, -⟩, hwoken⟩
  obtain rfl : u = t := hcleared (u, .cleared entries) (by simp) (ne_nil_of_mem he)
  cases after with
  | nil => simp at hfinished
  | cons step after =>
    simp only [cons_append, head?_cons, Option.mem_some_iff] at hfinished
    have hmem := hwoken [] after (by rw [hfinished, nil_append])
    exact hwakeup (u, .wakeup) (by simp [hmem]) rfl

/-- When there is a hole after the two pages, the first thread unwires the first page again and
is done, but the second thread waits on. -/
theorem wakeup_lost_at_hole :
    ∃ trace threads, ThreadsRun twoThreads trace threads ∧
      ∃ later w address earlier, threadsLog trace = later ++ (w, .waits address) :: earlier ∧
        ¬StillWaits threads w address ∧ ¬WokenUp later address := by
  have hfollow : (followThreads twoThreads (wireAndRemove 0x4000 9)).map
      (fun r => decide ((threadsLog r.1)[6]? = some (true, .waits 0x1000) ∧
        (false, .finished) ∈ (threadsLog r.1).head? ∧
        (∀ p ∈ threadsLog r.1, p.2.clearedEntries ≠ [] → p.1 = false) ∧
        (∀ p ∈ threadsLog r.1, p.2 ≠ .wakeup) ∧
        ∀ e ∈ (r.2 true).entries, e.needsWakeup = false)) = some true := by
    decide +kernel
  obtain ⟨⟨trace, threads⟩, hfollow, hres⟩ := Option.map_eq_some_iff.mp hfollow
  obtain ⟨hwaits, hfinished, hcleared, hwakeup, hmarks⟩ := of_decide_eq_true hres
  obtain ⟨hlt, hwaits⟩ := List.getElem?_eq_some_iff.mp hwaits
  have hsplit : threadsLog trace =
      (threadsLog trace).take 6 ++ (true, .waits 0x1000) :: (threadsLog trace).drop 7 := by
    rw [← hwaits, getElem_cons_drop, take_append_drop]
  refine ⟨trace, threads, threadsRun_of_follow hfollow, _, _, _, _, hsplit, ?_, ?_⟩
  · rintro ⟨e, he, -, hneed, -⟩
    rw [hmarks e he] at hneed
    cases hneed
  · refine not_wokenUp (t := false) ?_ (fun p hp => hcleared p (mem_of_mem_take hp))
      fun p hp => hwakeup p (mem_of_mem_take hp)
    rw [head?_take]
    simpa using hfinished

end MachVirtuTerm
