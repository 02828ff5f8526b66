import MachVirtuTerm.Lib.BitString

/-!
# The run queue of a processor set

Threads that can run wait in one queue for each priority. Beside the queues there are a string
of bits, the lowest queue in use, and two counts. Operations come to `none` where they panic,
where an assertion fails, and where `ffsbit` reads behind its string.
-/

open List Function

namespace MachVirtuTerm

/-- `NRQS`, by the number of words of bits less one, which is 3 with `MACH_RT` and 0 without. -/
def nrqs (words : ℕ) : ℕ := 32 * (words + 1)

/-- `DEPRESSPRI` and `MINPRI`. -/
def depressPri (words : ℕ) : ℕ := nrqs words - 2

def lpri (words : ℕ) : ℕ := nrqs words - 3

def idlePri (words : ℕ) : ℕ := nrqs words - 1

/-- `struct thread`: what the scheduler uses of it. -/
structure SchedThread where
  /-- `runq` is the run queue, not `RUN_QUEUE_NULL`. -/
  onRunq : Bool
  whichq : ℕ
  schedPri : ℤ
  priority : BitVec 32
  /-- `depress_priority`, -1 if the thread is not depressed. -/
  depressPriority : ℤ
  /-- `policy == POLICY_TIMESHARE`. -/
  timeshare : Bool
  schedStamp : BitVec 32
  cpuUsage : BitVec 32
  schedUsage : BitVec 32
  cpuDelta : BitVec 32
  schedDelta : BitVec 32
  /-- `TH_WAIT` or `TH_SUSP` in its state. -/
  waiting : Bool

/-- `struct run_queue`. -/
structure RunQueue (Thread : Type*) where
  runq : ℕ → List Thread
  bitmap : List (BitVec 32)
  low : ℕ
  count : ℤ
  depressCount : ℤ

open RunQueue

/-- The state of the processor, and its `next_thread`. -/
inductive ProcessorState (Thread : Type*)
  | running
  | idle
  | dispatching (next : Thread)
  /-- `PROCESSOR_ASSIGN` or `PROCESSOR_SHUTDOWN`. -/
  | leaving (next : Option Thread)

/-- `next_thread`. -/
def ProcessorState.next {Thread : Type*} : ProcessorState Thread → Option Thread
  | .running | .idle => none
  | .dispatching next => some next
  | .leaving next => next

/-- A processor set of one processor, and its threads. -/
structure Sched (Thread : Type*) where
  thread : Thread → SchedThread
  rq : RunQueue Thread
  processor : ProcessorState Thread
  schedTick : BitVec 32

def waitShift : List (ℕ × ℤ) :=
  [(1, 1), (1, 3), (1, -3), (2, -7), (3, 5), (3, -5), (4, -8), (5, 7),
    (5, -7), (6, -10), (7, 10), (7, -9), (8, -11), (9, 12), (9, -11), (10, -13),
    (11, 14), (11, -13), (12, -15), (13, 17), (13, -15), (14, -17), (15, 19), (16, 18),
    (16, -19), (17, 22), (18, 20), (18, -20), (19, 26), (20, 22), (20, -22), (21, -27)]

/-- A usage after some ticks. -/
def agedUsage (usage : BitVec 32) (ticks : ℕ) : BitVec 32 :=
  let shift := waitShift.getD ticks (0, 0)
  if shift.2 > 0 then (usage >>> shift.1) + (usage >>> shift.2.toNat)
  else (usage >>> shift.1) - (usage >>> (-shift.2).toNat)

/-- `do_priority_computation`; the shift is `PRI_SHIFT + SCHED_SHIFT`. -/
def doPriorityComputation (words : ℕ) (th : SchedThread) : ℤ :=
  let pri := (th.priority + (th.schedUsage >>> 25)).toInt
  if pri > lpri words then lpri words else pri

/-- The first part of `update_priority`: the aging of a thread, by what `thread_timer_delta` adds
to its two deltas. -/
def SchedThread.age (th : SchedThread) (schedTick : BitVec 32) (timer : BitVec 32 × BitVec 32) :
    SchedThread :=
  let ticks := schedTick - th.schedStamp
  let cpuDelta := th.cpuDelta + timer.1
  let schedDelta := th.schedDelta + timer.2
  { th with
    schedStamp := th.schedStamp + ticks
    cpuUsage := if ticks > 30 then 0 else agedUsage (th.cpuUsage + cpuDelta) ticks.toNat
    schedUsage := if ticks > 30 then 0 else agedUsage (th.schedUsage + schedDelta) ticks.toNat
    cpuDelta := 0
    schedDelta := 0 }

variable {Thread : Type*}

/-- `pset_init`: the run queue. -/
def RunQueue.initial (words : ℕ) : RunQueue Thread where
  runq := fun _ => []
  bitmap := setbit (idlePri words) (replicate (words + 1) 0)
  low := idlePri words
  count := 0
  depressCount := 0

variable [DecidableEq Thread]

namespace RunQueue

/-- The run queue with a thread more. -/
def add (rq : RunQueue Thread) (words : ℕ) (th : Thread) (whichq : ℕ) (tail : Bool) :
    RunQueue Thread where
  runq := update rq.runq whichq (if tail then rq.runq whichq ++ [th] else th :: rq.runq whichq)
  bitmap := setbit whichq rq.bitmap
  low := if whichq < rq.low then whichq else rq.low
  count := rq.count + 1
  depressCount := if whichq = depressPri words then rq.depressCount + 1 else rq.depressCount

/-- What is left to update when a thread of a priority was taken off its queue. -/
def tookOff (rq : RunQueue Thread) (words whichq pri : ℕ) : Option (RunQueue Thread) :=
  let rq := { rq with
    count := rq.count - 1
    depressCount := if whichq = depressPri words then rq.depressCount - 1 else rq.depressCount }
  if rq.runq pri = [] then
    let bitmap := clrbit pri rq.bitmap
    (ffsbit bitmap).map fun low => { rq with bitmap, low }
  else some rq

end RunQueue

namespace Sched

variable (words : ℕ)

/-- Change a thread. -/
def setThread (s : Sched Thread) (th : Thread) (x : SchedThread) : Sched Thread :=
  { s with thread := update s.thread th x }

def runQueueEnqueue (s : Sched Thread) (th : Thread) (tail : Bool) : Option (Sched Thread) :=
  let x := s.thread th
  if x.schedPri < 0 ∨ x.schedPri > depressPri words then none
  else if x.onRunq then none
  else
    let whichq := x.schedPri.toNat
    some ({ s with rq := s.rq.add words th whichq tail }.setThread th
      { x with onRunq := true, whichq })

/-- `rem_runq`: whether the thread was on the run queue. -/
def remRunq (s : Sched Thread) (th : Thread) : Option (Bool × Sched Thread) :=
  let x := s.thread th
  if x.onRunq then
    -- the thread is unlinked from the queue it is on, whichever it is
    let runq := fun i => (s.rq.runq i).erase th
    ({ s.rq with runq }.tookOff words x.whichq x.schedPri.toNat).map fun rq =>
      (true, { s with rq }.setThread th { x with onRunq := false })
  else some (false, s)

/-- `thread_setrun` of a thread whose priority is up to date. -/
def dispatch (s : Sched Thread) (th : Thread) (mayPreempt tail : Bool) : Option (Sched Thread) :=
  if (s.thread th).onRunq then none
  else
    match s.processor with
    | .idle => some { s with processor := .dispatching th }
    | .dispatching next =>
      if mayPreempt ∧ (s.thread next).schedPri > (s.thread th).schedPri then
        { s with processor := .dispatching th }.runQueueEnqueue words next tail
      else s.runQueueEnqueue words th tail
    | .running | .leaving _ => s.runQueueEnqueue words th tail

/-- Take a thread off the run queue, change its priority, and put it back. -/
def requeue (s : Sched Thread) (th : Thread) (pri : ℤ)
    (put : Sched Thread → Option (Sched Thread)) : Option (Sched Thread) :=
  (s.remRunq words th).bind fun (wasQueued, s) =>
    let s := s.setThread th { s.thread th with schedPri := pri }
    if wasQueued then put s else some s

/-- `update_priority`. A thread that was queued is set running again; its stamp is the tick now,
so that `thread_setrun` does not update it once more. -/
def updatePriority (s : Sched Thread) (th : Thread) (timer : BitVec 32 × BitVec 32) :
    Option (Sched Thread) :=
  if (s.thread th).schedStamp = s.schedTick then none
  else
    let x := (s.thread th).age s.schedTick timer
    let s := s.setThread th x
    if x.timeshare ∧ x.depressPriority < 0 then
      s.requeue words th (doPriorityComputation words x) fun s => s.dispatch words th true true
    else some s

def threadSetrun (s : Sched Thread) (th : Thread) (timer : BitVec 32 × BitVec 32)
    (mayPreempt tail : Bool) : Option (Sched Thread) :=
  if (s.thread th).schedStamp = s.schedTick then s.dispatch words th mayPreempt tail
  else (s.updatePriority words th timer).bind fun s => s.dispatch words th mayPreempt tail

def setPri (s : Sched Thread) (th : Thread) (pri : ℤ) (resched : Bool)
    (timer : BitVec 32 × BitVec 32) : Option (Sched Thread) :=
  s.requeue words th pri fun s =>
    if resched then s.threadSetrun words th timer true true else s.runQueueEnqueue words th true

/-- `choose_pset_thread`: the thread, or `none` for the idle thread. -/
def choosePsetThread (s : Sched Thread) : Option (Option Thread × Sched Thread) :=
  if s.rq.count > 0 then
    match s.rq.runq s.rq.low with
    | [] => none
    | th :: q =>
      let x := s.thread th
      ({ s.rq with runq := update s.rq.runq s.rq.low q }.tookOff words x.whichq
        s.rq.low).map fun rq => (some th, { s with rq }.setThread th { x with onRunq := false })
  else
    match s.processor with
    | .running => some (none, { s with processor := .idle })
    | _ => some (none, s)

/-! ## The scan for stuck threads -/

def maxStuckThreads : ℕ := 64

/-- The variables of `do_runq_scan`, and the threads that it has come to. -/
structure Scan (Thread : Type*) where
  visited : List Thread
  /-- `stuck_threads`. -/
  stuck : List Thread
  count : ℤ
  /-- The scan returns `TRUE`: it ran out of room. -/
  full : Bool

/-- The loop through a queue, where `lockable` are the threads that can be locked. -/
def scanQueue (s : Sched Thread) (lockable : Thread → Bool) : List Thread → Scan Thread →
    Scan Thread
  | [], x => x
  | th :: q, x =>
    let x := { x with visited := x.visited ++ [th] }
    if (s.thread th).waiting = false ∧ s.schedTick - (s.thread th).schedStamp > 1 then
      if x.stuck.length = maxStuckThreads then { x with full := true }
      else
        let stuck := if lockable th then x.stuck ++ [th] else x.stuck
        scanQueue s lockable q { x with stuck, count := x.count - 1 }
    else scanQueue s lockable q { x with count := x.count - 1 }

/-- The loop through the queues, from one on. -/
def scanQueues (s : Sched Thread) (lockable : Thread → Bool) : List (List Thread) →
    Scan Thread → Option (Scan Thread)
  | [], x => if x.count > 0 then none else some x
  | q :: queues, x =>
    if x.count > 0 then
      let x := s.scanQueue lockable q x
      if x.full then some x else scanQueues s lockable queues x
    else some x

/-- `do_runq_scan`, with the threads that are stuck already; it comes to `none` where it goes
behind the array of queues. -/
def doRunqScan (s : Sched Thread) (lockable : Thread → Bool) (stuck : List Thread) :
    Option (Scan Thread) :=
  let x : Scan Thread := ⟨[], stuck, s.rq.count, false⟩
  if s.rq.count > 0 then
    s.scanQueues lockable (((List.range (nrqs words)).drop s.rq.low).map s.rq.runq) x
  else some x

/-! ## Runs -/

/-- What is done with the threads. -/
inductive Call (Thread : Type*)
  | threadSetrun (th : Thread) (timer : BitVec 32 × BitVec 32) (mayPreempt tail : Bool)
  | runQueueEnqueue (th : Thread) (tail : Bool)
  | remRunq (th : Thread)
  | setPri (th : Thread) (pri : ℤ) (resched : Bool) (timer : BitVec 32 × BitVec 32)
  | updatePriority (th : Thread) (timer : BitVec 32 × BitVec 32)
  /-- The hand-off of `thread_switch`. -/
  | threadSwitch (th : Thread)
  | choosePsetThread
  /-- `sched_tick` changes. -/
  | tick (schedTick : BitVec 32)
  /-- A thread changes in other fields. -/
  | change (th : Thread) (x : SchedThread)
  /-- The processor goes on: it takes its next thread, is not idle any more, or leaves. -/
  | proceed (processor : ProcessorState Thread)

/-- The effect of a call. A thread that is made to run is neither queued nor the next thread
already. -/
inductive Step : Sched Thread → Call Thread → Sched Thread → Prop
  | threadSetrun {s s' : Sched Thread} {th : Thread} {timer : BitVec 32 × BitVec 32}
    {mayPreempt tail : Bool} (hrunq : (s.thread th).onRunq = false)
    (hnext : s.processor.next ≠ some th)
    (h : s.threadSetrun words th timer mayPreempt tail = some s') :
    Step s (.threadSetrun th timer mayPreempt tail) s'
  | runQueueEnqueue {s s' : Sched Thread} {th : Thread} {tail : Bool}
    (hnext : s.processor.next ≠ some th) (h : s.runQueueEnqueue words th tail = some s') :
    Step s (.runQueueEnqueue th tail) s'
  | remRunq {s s' : Sched Thread} {th : Thread} {wasQueued : Bool}
    (h : s.remRunq words th = some (wasQueued, s')) : Step s (.remRunq th) s'
  | setPri {s s' : Sched Thread} {th : Thread} {pri : ℤ} {resched : Bool}
    {timer : BitVec 32 × BitVec 32} (h : s.setPri words th pri resched timer = some s') :
    Step s (.setPri th pri resched timer) s'
  | updatePriority {s s' : Sched Thread} {th : Thread} {timer : BitVec 32 × BitVec 32}
    (h : s.updatePriority words th timer = some s') : Step s (.updatePriority th timer) s'
  | threadSwitch {s s' : Sched Thread} {th : Thread}
    (h : s.remRunq words th = some (true, s')) : Step s (.threadSwitch th) s'
  | choosePsetThread {s s' : Sched Thread} {chosen : Option Thread}
    (h : s.choosePsetThread words = some (chosen, s')) : Step s .choosePsetThread s'
  | tick (s : Sched Thread) (schedTick : BitVec 32) :
    Step s (.tick schedTick) { s with schedTick }
  | change {s : Sched Thread} {th : Thread} {x : SchedThread}
    (hqueue : x.onRunq = (s.thread th).onRunq ∧ x.whichq = (s.thread th).whichq)
    (hpri : x.schedPri = (s.thread th).schedPri) : Step s (.change th x) (s.setThread th x)
  | proceed {s : Sched Thread} {processor : ProcessorState Thread}
    (hnext : ∀ th, processor.next = some th → s.processor.next = some th) :
    Step s (.proceed processor) { s with processor }

/-- A new processor set, whatever its threads are, as long as none is queued. -/
structure Initial (s : Sched Thread) : Prop where
  rq : s.rq = initial words
  threads : ∀ th, (s.thread th).onRunq = false

end Sched

end MachVirtuTerm

/-!
# The summaries of a run queue

The count, the bits, the lowest queue and the count of depressed threads say what the queues
hold. The bit of `IDLEPRI` is always set, so that `ffsbit` finds a bit.
-/

namespace MachVirtuTerm

variable {Thread : Type*} {words : ℕ}

/-! ## Threads in queues -/

/-- The threads of the queues, in order. -/
def RunQueue.threads (rq : RunQueue Thread) (words : ℕ) : List Thread :=
  (List.range (nrqs words)).flatMap rq.runq

/-- A thread more in one of the queues is a thread more in all. -/
theorem flatMap_range_perm {f f' : ℕ → List Thread} {i n : ℕ} {th : Thread} (hi : i < n)
    (hne : ∀ j ≠ i, f' j = f j) (h : (f' i).Perm (th :: f i)) :
    ((List.range n).flatMap f').Perm (th :: (List.range n).flatMap f) := by
  induction n with
  | zero => cases hi
  | succ n ih =>
    rw [range_succ, flatMap_append, flatMap_append, flatMap_singleton, flatMap_singleton]
    obtain rfl | hlt := (Nat.lt_succ_iff.mp hi).eq_or_lt
    · have hsame : (List.range i).flatMap f' = (List.range i).flatMap f :=
        flatMap_congr fun j hj => hne j (mem_range.mp hj).ne
      rw [hsame]
      exact (h.append_left _).trans perm_middle
    · rw [hne n hlt.ne']
      exact (ih hlt).append_right _

/-- What the summaries say. -/
structure RunQueue.Ok (rq : RunQueue Thread) (words : ℕ) : Prop where
  length : rq.bitmap.length = words + 1
  range : ∀ i, rq.runq i ≠ [] → i ≤ depressPri words
  nodup : ∀ i, (rq.runq i).Nodup
  bits : ∀ i, testbit i rq.bitmap = true ↔ rq.runq i ≠ [] ∨ i = idlePri words
  low : IsLeast {i | testbit i rq.bitmap = true} rq.low
  count : rq.count = (rq.threads words).length
  depress : rq.depressCount = (rq.runq (depressPri words)).length

theorem depressPri_lt (words : ℕ) : depressPri words < idlePri words := by
  rw [depressPri, idlePri, nrqs]
  omega

theorem idlePri_lt (words : ℕ) : idlePri words < 32 * (words + 1) := by
  rw [idlePri, nrqs]
  omega

theorem RunQueue.initial_ok (words : ℕ) : (initial words : RunQueue Thread).Ok words := by
  have hlength : (replicate (words + 1) (0 : BitVec 32)).length = words + 1 :=
    length_replicate
  have hzero : ∀ n i, testbit i (replicate n (0 : BitVec 32)) = false := by
    intro n
    induction n with
    | zero => exact fun _ => rfl
    | succ n ih =>
      intro i
      rw [replicate_succ, testbit]
      split
      · exact ih _
      · exact BitVec.getLsbD_zero
  have hbits : ∀ i, testbit i (initial words : RunQueue Thread).bitmap = true ↔
      i = idlePri words := by
    intro i
    change testbit i (setbit _ _) = true ↔ _
    rw [testbit_setbit (by rw [hlength]; exact idlePri_lt words), hzero]
    simp
  refine ⟨?_, fun i hi => absurd rfl hi, fun i => nodup_nil, fun i => ?_, ⟨?_, ?_⟩, ?_, rfl⟩
  · change (setbit _ _).length = _
    rw [length_setbit, hlength]
  · rw [hbits]
    exact ⟨.inr, fun h => h.resolve_left fun hne => hne rfl⟩
  · exact (hbits _).mpr rfl
  · intro i hi
    exact ((hbits i).mp hi).ge
  · change (0 : ℤ) = _
    simp [threads, initial]

variable {rq : RunQueue Thread} {th : Thread}

/-- The first thread of the lowest queue is found. -/
theorem RunQueue.Ok.low_ne_nil (h : rq.Ok words) (hcount : rq.count > 0) :
    IsLeast {i | rq.runq i ≠ []} rq.low := by
  obtain ⟨th, hth⟩ : ∃ th, th ∈ rq.threads words := by
    rw [h.count] at hcount
    exact exists_mem_of_length_pos (by omega)
  obtain ⟨i, -, hi⟩ := mem_flatMap.mp hth
  have hne : rq.runq i ≠ [] := ne_nil_of_mem hi
  have hle : rq.low ≤ i := h.low.2 ((h.bits i).mpr (.inl hne))
  have hlt : rq.low < idlePri words :=
    (hle.trans (h.range i hne)).trans_lt (depressPri_lt words)
  refine ⟨((h.bits rq.low).mp h.low.1).resolve_right hlt.ne, fun j hj => ?_⟩
  exact h.low.2 ((h.bits j).mpr (.inl hj))

theorem RunQueue.mem_threads {i : ℕ} (h : rq.Ok words) (hth : th ∈ rq.runq i) :
    th ∈ rq.threads words := by
  refine mem_flatMap.mpr ⟨i, mem_range.mpr ?_, hth⟩
  have hle := h.range i (ne_nil_of_mem hth)
  rw [depressPri] at hle
  rw [nrqs] at hle ⊢
  omega

/-- A thread is put on a queue. -/
theorem RunQueue.Ok.add (h : rq.Ok words) {whichq : ℕ} (hwhichq : whichq ≤ depressPri words)
    (hnew : th ∉ rq.runq whichq) (tail : Bool) : (rq.add words th whichq tail).Ok words := by
  have hidle := idlePri_lt words
  have hdepress := depressPri_lt words
  have hself : ((rq.add words th whichq tail).runq whichq).Perm (th :: rq.runq whichq) := by
    change (update rq.runq whichq _ whichq).Perm _
    rw [update_self]
    split
    · exact perm_append_comm
    · exact .refl _
  have hother : ∀ j ≠ whichq, (rq.add words th whichq tail).runq j = rq.runq j := fun j hj =>
    update_of_ne hj _ _
  have hbits : ∀ i, testbit i (rq.add words th whichq tail).bitmap = true ↔
      i = whichq ∨ testbit i rq.bitmap = true := by
    intro i
    change testbit i (setbit whichq rq.bitmap) = true ↔ _
    rw [testbit_setbit (by rw [h.length]; omega), Bool.or_eq_true, decide_eq_true_eq, or_comm]
  have hne : (rq.add words th whichq tail).runq whichq ≠ [] := fun hnil => by
    rw [hnil] at hself
    exact cons_ne_nil _ _ hself.nil_eq.symm
  refine ⟨?_, fun i hi => ?_, fun i => ?_, fun i => ?_, ?_, ?_, ?_⟩
  · exact (length_setbit _ _).trans h.length
  · obtain rfl | hi' := eq_or_ne i whichq
    · exact hwhichq
    · exact h.range i (by rwa [hother i hi'] at hi)
  · obtain rfl | hi := eq_or_ne i whichq
    · exact hself.nodup_iff.mpr (nodup_cons.mpr ⟨hnew, h.nodup i⟩)
    · rw [hother i hi]
      exact h.nodup i
  · rw [hbits]
    obtain rfl | hi := eq_or_ne i whichq
    · exact iff_of_true (.inl rfl) (.inl hne)
    · rw [hother i hi, ← h.bits]
      exact or_iff_right hi
  · have hlow : (rq.add words th whichq tail).low = min whichq rq.low := by
      change (if whichq < rq.low then whichq else rq.low) = _
      split
      · exact (min_eq_left (by omega)).symm
      · exact (min_eq_right (by omega)).symm
    rw [hlow]
    have hset : {i | testbit i (rq.add words th whichq tail).bitmap = true} =
        insert whichq {i | testbit i rq.bitmap = true} := Set.ext hbits
    rw [hset]
    exact h.low.insert whichq
  · have hperm := flatMap_range_perm (n := nrqs words) (by rw [nrqs]; omega) hother hself
    change rq.count + 1 = _
    rw [threads, hperm.length_eq, length_cons, h.count, threads]
    omega
  · change (if whichq = depressPri words then _ else _) = _
    split
    · rename_i heq
      rw [← heq, hself.length_eq, h.depress, length_cons, heq]
      omega
    · rename_i hne'
      rw [hother _ (Ne.symm hne'), h.depress]

/-- A thread was taken off a queue. -/
theorem RunQueue.Ok.tookOff (h : rq.Ok words) {pri : ℕ} {rq' : RunQueue Thread}
    (hsummaries : rq'.bitmap = rq.bitmap ∧ rq'.low = rq.low ∧ rq'.count = rq.count ∧
      rq'.depressCount = rq.depressCount)
    (hself : (rq.runq pri).Perm (th :: rq'.runq pri)) (hother : ∀ j ≠ pri, rq'.runq j = rq.runq j) :
    ∃ rq'', rq'.tookOff words pri pri = some rq'' ∧ rq''.runq = rq'.runq ∧ rq''.Ok words := by
  obtain ⟨hbitmap, hlow, hcount, hdepress⟩ := hsummaries
  have hpri : pri ≤ depressPri words := h.range pri fun hnil => by
    rw [hnil] at hself
    exact cons_ne_nil _ _ hself.nil_eq.symm
  have hidle := idlePri_lt words
  have hlt := depressPri_lt words
  have hrange : ∀ i, rq'.runq i ≠ [] → i ≤ depressPri words := by
    intro i hi
    obtain rfl | hne := eq_or_ne i pri
    · exact hpri
    · exact h.range i (by rwa [hother i hne] at hi)
  have hnodup : ∀ i, (rq'.runq i).Nodup := by
    intro i
    obtain rfl | hne := eq_or_ne i pri
    · exact (nodup_cons.mp (hself.nodup_iff.mp (h.nodup i))).2
    · rw [hother i hne]
      exact h.nodup i
  have hcount' : rq'.count - 1 = ((List.range (nrqs words)).flatMap rq'.runq).length := by
    have hperm := flatMap_range_perm (n := nrqs words) (by rw [nrqs]; omega)
      (fun j hj => (hother j hj).symm) hself
    have hlength := hperm.length_eq
    rw [length_cons] at hlength
    rw [hcount, h.count, threads]
    omega
  have hdepress' : (if pri = depressPri words then rq'.depressCount - 1 else rq'.depressCount) =
      (rq'.runq (depressPri words)).length := by
    split
    · rename_i heq
      have hlength := hself.length_eq
      rw [hdepress, h.depress, ← heq, hlength, length_cons]
      omega
    · rename_i hne
      rw [hdepress, h.depress, hother _ (Ne.symm hne)]
  rw [RunQueue.tookOff]
  by_cases hempty : rq'.runq pri = []
  · have hbits : ∀ i, testbit i (clrbit pri rq'.bitmap) = true ↔
        rq'.runq i ≠ [] ∨ i = idlePri words := by
      intro i
      rw [testbit_clrbit (by rw [hbitmap, h.length]; omega), hbitmap, Bool.and_eq_true, h.bits]
      obtain rfl | hne := eq_or_ne i pri
      · simp only [decide_true, Bool.not_true, Bool.false_eq_true, and_false, hempty, ne_eq,
          not_true_eq_false, false_or, false_iff]
        omega
      · simp [hne, hother i hne]
    obtain ⟨low, hffsbit, hleast⟩ := ffsbit_isLeast ((hbits (idlePri words)).mpr (.inr rfl))
    simp only
    rw [if_pos hempty, hffsbit, Option.map_some]
    refine ⟨_, rfl, rfl, ?_, hrange, hnodup, hbits, hleast, hcount', hdepress'⟩
    exact (length_clrbit _ _).trans (hbitmap ▸ h.length)
  · simp only
    rw [if_neg hempty]
    have hbits : ∀ i, testbit i rq'.bitmap = true ↔ rq'.runq i ≠ [] ∨ i = idlePri words := by
      intro i
      rw [hbitmap, h.bits]
      obtain rfl | hne := eq_or_ne i pri
      · have hold : rq.runq i ≠ [] := fun hnil => by
          rw [hnil] at hself
          exact cons_ne_nil _ _ hself.nil_eq.symm
        exact iff_of_true (.inl hold) (.inl hempty)
      · rw [hother i hne]
    refine ⟨_, rfl, rfl, hbitmap ▸ h.length, hrange, hnodup, hbits, ?_, hcount', hdepress'⟩
    change IsLeast {i | testbit i rq'.bitmap = true} rq'.low
    rw [hbitmap, hlow]
    exact h.low

end MachVirtuTerm
