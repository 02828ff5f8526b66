import MachVirtuTerm.Kern.RunQueue
import MachVirtuTerm.Lib.Run

/-!
# The run queue in every run

A thread that is queued is on the queue of its priority, and the next thread of the processor is
not queued. So the summaries are right whatever is done with the threads.
-/

open List Function Option

namespace MachVirtuTerm

variable {Thread : Type*} {words : ℕ}

namespace Sched

variable {s s' : Sched Thread} {th : Thread}

/-- The run queue is right, and the threads know where they are. -/
structure Inv (words : ℕ) (s : Sched Thread) : Prop where
  rq : s.rq.Ok words
  queued : ∀ th i, th ∈ s.rq.runq i → (s.thread th).onRunq = true ∧ (s.thread th).schedPri = i ∧
    (s.thread th).whichq = i
  onRunq : ∀ th, (s.thread th).onRunq = true → th ∈ s.rq.runq (s.thread th).whichq
  next : ∀ th, s.processor.next = some th → (s.thread th).onRunq = false

theorem Initial.inv (h : Initial words s) : Inv words s where
  rq := h.rq ▸ RunQueue.initial_ok words
  queued := fun th i hth => by
    rw [h.rq] at hth
    cases hth
  onRunq := fun th hth => by
    rw [h.threads th] at hth
    cases hth
  next := fun th _ => h.threads th

/-! ## The scan -/

/-- The queued threads. -/
def queuedThreads (words : ℕ) (s : Sched Thread) : List Thread := s.rq.threads words

/-- A scan that has come to some threads, of which others are left. -/
structure Scans (x x' : Scan Thread) (threads : List Thread) : Prop where
  visited : x'.visited <+: x.visited ++ threads
  stuck : x'.stuck.length ≤ maxStuckThreads
  all : x'.full = false → x'.visited = x.visited ++ threads

/-- A queue. -/
theorem scanQueue_spec (s : Sched Thread) (lockable : Thread → Bool) (q : List Thread)
    {x : Scan Thread} (hfull : x.full = false) (hstuck : x.stuck.length ≤ maxStuckThreads) :
    Scans x (s.scanQueue lockable q x) q ∧ ((s.scanQueue lockable q x).full = false →
      (s.scanQueue lockable q x).count = x.count - q.length) := by
  induction q generalizing x with
  | nil =>
    rw [scanQueue]
    refine ⟨⟨by simp, hstuck, fun _ => by simp⟩, fun _ => by simp⟩
  | cons th q ih =>
    have hnext : ∀ y : Scan Thread, y.full = false → y.stuck.length ≤ maxStuckThreads →
        y.visited = x.visited ++ [th] → y.count = x.count - 1 →
        Scans x (s.scanQueue lockable q y) (th :: q) ∧ ((s.scanQueue lockable q y).full = false →
          (s.scanQueue lockable q y).count = x.count - (th :: q).length) := by
      intro y hyfull hystuck hyvisited hycount
      obtain ⟨hscans, hcount⟩ := ih hyfull hystuck
      have happend : y.visited ++ q = x.visited ++ th :: q := by
        rw [hyvisited, append_assoc, singleton_append]
      refine ⟨⟨happend ▸ hscans.visited, hscans.stuck, fun hdone => ?_⟩, fun hdone => ?_⟩
      · rw [hscans.all hdone, happend]
      · rw [hcount hdone, hycount, length_cons]
        omega
    rw [scanQueue]
    simp only
    split
    · split
      · refine ⟨⟨?_, hstuck, (nomatch ·)⟩, (nomatch ·)⟩
        exact (prefix_append_right_inj _).mpr ⟨q, rfl⟩
      · rename_i hroom
        refine hnext _ hfull ?_ rfl rfl
        change (if lockable th then x.stuck ++ [th] else x.stuck).length ≤ _
        split
        · rw [length_append, length_singleton]
          omega
        · exact hstuck
    · exact hnext _ hfull hstuck rfl rfl

/-- The queues from one on, when the count says how many threads they have. -/
theorem scanQueues_spec (s : Sched Thread) (lockable : Thread → Bool)
    (queues : List (List Thread)) {x : Scan Thread} (hfull : x.full = false)
    (hstuck : x.stuck.length ≤ maxStuckThreads) (hcount : x.count = queues.flatten.length) :
    ∃ x', s.scanQueues lockable queues x = some x' ∧ Scans x x' queues.flatten := by
  induction queues generalizing x with
  | nil =>
    rw [scanQueues, if_neg (by rw [hcount]; simp)]
    exact ⟨x, rfl, by simp, hstuck, fun _ => by simp⟩
  | cons q queues ih =>
    rw [scanQueues]
    by_cases hpos : x.count > 0
    · rw [if_pos hpos]
      obtain ⟨hscans, hcount'⟩ := s.scanQueue_spec lockable q hfull hstuck
      rw [flatten_cons]
      simp only
      by_cases hdone : (s.scanQueue lockable q x).full = true
      · rw [if_pos hdone]
        refine ⟨_, rfl, ?_, hscans.stuck, fun hnot => ?_⟩
        · rw [← append_assoc]
          exact hscans.visited.trans (prefix_append _ _)
        · rw [hdone] at hnot
          cases hnot
      · rw [if_neg hdone]
        rw [Bool.not_eq_true] at hdone
        obtain ⟨x', heq, hscans'⟩ := ih hdone hscans.stuck (by
          rw [hcount' hdone, hcount, flatten_cons, length_append]
          omega)
        have happend : (s.scanQueue lockable q x).visited ++ queues.flatten =
            x.visited ++ (q ++ queues.flatten) := by
          rw [hscans.all hdone, append_assoc]
        refine ⟨x', heq, happend ▸ hscans'.visited, hscans'.stuck, fun hnot => ?_⟩
        rw [hscans'.all hnot, happend]
    · have hnil : (q :: queues).flatten = [] := by
        refine eq_nil_of_length_eq_zero ?_
        omega
      rw [if_neg hpos, hnil]
      exact ⟨x, rfl, by simp, hstuck, fun _ => by simp⟩

/-- A scan visits the queued threads, each one once, up to one for which there is no room. -/
structure ScansAll (words : ℕ) (s : Sched Thread) (x : Scan Thread) : Prop where
  nodup : (s.queuedThreads words).Nodup
  visited : x.visited <+: s.queuedThreads words
  stuck : x.stuck.length ≤ maxStuckThreads
  all : x.full = false → x.visited = s.queuedThreads words

theorem Inv.nodup (h : Inv words s) : (s.queuedThreads words).Nodup := by
  refine nodup_flatMap.mpr ⟨fun i _ => h.rq.nodup i, ?_⟩
  refine nodup_range.imp fun {i j} hij th hi hj => hij ?_
  exact (h.queued th i hi).2.2.symm.trans (h.queued th j hj).2.2

theorem Inv.mem_queuedThreads (h : Inv words s) (th : Thread) :
    th ∈ s.queuedThreads words ↔ (s.thread th).onRunq = true := by
  constructor
  · intro hth
    obtain ⟨i, -, hi⟩ := mem_flatMap.mp hth
    exact (h.queued th i hi).1
  · exact fun hth => RunQueue.mem_threads h.rq (h.onRunq th hth)

/-- `do_runq_scan` stays inside of the array of queues. -/
theorem Inv.doRunqScan (h : Inv words s) (lockable : Thread → Bool) {stuck : List Thread}
    (hstuck : stuck.length ≤ maxStuckThreads) :
    ∃ x, s.doRunqScan words lockable stuck = some x ∧ s.ScansAll words x := by
  have hdrop : (((List.range (nrqs words)).drop s.rq.low).map s.rq.runq).flatten =
      s.queuedThreads words := by
    rw [queuedThreads, RunQueue.threads, ← flatMap_def]
    have htake : ((List.range (nrqs words)).take s.rq.low).flatMap s.rq.runq = [] := by
      refine flatMap_eq_nil_iff.mpr fun i hi => ?_
      by_contra hne
      obtain ⟨j, hj, rfl⟩ := mem_take_iff_getElem.mp hi
      rw [getElem_range] at hne
      have hle := h.rq.low.2 ((h.rq.bits j).mpr (.inl hne))
      omega
    have hall := congrArg (List.flatMap s.rq.runq)
      (take_append_drop s.rq.low (List.range (nrqs words)))
    rwa [flatMap_append, htake, nil_append] at hall
  rw [Sched.doRunqScan]
  split
  · obtain ⟨x, heq, hscans⟩ := s.scanQueues_spec lockable
      (((List.range (nrqs words)).drop s.rq.low).map s.rq.runq)
      (x := ⟨[], stuck, s.rq.count, false⟩) rfl hstuck (by rw [hdrop]; exact h.rq.count)
    rw [hdrop] at hscans
    exact ⟨x, heq, h.nodup, hscans.visited, hscans.stuck, hscans.all⟩
  · rename_i hcount
    have hnil : s.queuedThreads words = [] := by
      refine eq_nil_of_length_eq_zero ?_
      have hlength := h.rq.count
      rw [queuedThreads]
      omega
    exact ⟨_, rfl, h.nodup, hnil ▸ prefix_rfl, hstuck, fun _ => hnil.symm⟩

/-! ## The operations -/

variable [DecidableEq Thread]

@[simp] theorem setThread_self (s : Sched Thread) (th : Thread) (x : SchedThread) :
    (s.setThread th x).thread th = x :=
  update_self ..

/-- A thread that changes neither its queue nor, while it is queued, its priority. -/
theorem Inv.setThread (h : Inv words s) {x : SchedThread}
    (honRunq : x.onRunq = (s.thread th).onRunq)
    (hqueue : (s.thread th).onRunq = true →
      x.schedPri = (s.thread th).schedPri ∧ x.whichq = (s.thread th).whichq) :
    Inv words (s.setThread th x) where
  rq := h.rq
  queued := by
    intro th' i hth'
    change (update s.thread th x th').onRunq = true ∧ _
    have hold := h.queued th' i hth'
    obtain rfl | hne := eq_or_ne th' th
    · obtain ⟨hpri, hwhichq⟩ := hqueue hold.1
      simp only [Sched.setThread, update_self, honRunq, hpri, hwhichq]
      exact hold
    · simp only [Sched.setThread, update_of_ne hne]
      exact hold
  onRunq := by
    intro th' hth'
    change th' ∈ s.rq.runq _
    simp only [Sched.setThread] at hth' ⊢
    obtain rfl | hne := eq_or_ne th' th
    · rw [update_self] at hth' ⊢
      rw [honRunq] at hth'
      rw [(hqueue hth').2]
      exact h.onRunq th' hth'
    · rw [update_of_ne hne] at hth' ⊢
      exact h.onRunq th' hth'
  next := by
    intro th' hth'
    change (update s.thread th x th').onRunq = false
    have hold := h.next th' hth'
    obtain rfl | hne := eq_or_ne th' th
    · rw [update_self, honRunq, hold]
    · rw [update_of_ne hne, hold]

/-- `run_queue_enqueue`. -/
theorem Inv.runQueueEnqueue (h : Inv words s) {tail : Bool} (hnext : s.processor.next ≠ some th)
    (hstep : s.runQueueEnqueue words th tail = some s') : Inv words s' := by
  rw [Sched.runQueueEnqueue] at hstep
  simp only at hstep
  split at hstep
  · cases hstep
  · rename_i hrange
    split at hstep
    · cases hstep
    · rename_i honRunq
      obtain ⟨hpos, hle⟩ := not_or.mp hrange
      have hpri : ((s.thread th).schedPri.toNat : ℤ) = (s.thread th).schedPri :=
        Int.toNat_of_nonneg (not_lt.mp hpos)
      cases hstep
      have hnew : ∀ i, th ∉ s.rq.runq i := fun i hth => honRunq (h.queued th i hth).1
      generalize (s.thread th).schedPri.toNat = whichq at hpri ⊢
      have hmem : ∀ i th', th' ∈ (s.rq.add words th whichq tail).runq i ↔
          th' ∈ s.rq.runq i ∨ i = whichq ∧ th' = th := by
        intro i th'
        change th' ∈ update s.rq.runq whichq _ i ↔ _
        obtain rfl | hne := eq_or_ne i whichq
        · rw [update_self]
          split
          · simp
          · simp [or_comm]
        · rw [update_of_ne hne]
          simp [hne]
      refine ⟨h.rq.add (by omega) (hnew whichq) tail, fun th' i hth' => ?_, fun th' hth' => ?_,
        fun th' hth' => ?_⟩
      · simp only [Sched.setThread]
        obtain hold | ⟨rfl, rfl⟩ := (hmem i th').mp hth'
        · have hne : th' ≠ th := fun heq => hnew i (heq ▸ hold)
          rw [update_of_ne hne]
          exact h.queued th' i hold
        · rw [update_self]
          exact ⟨rfl, hpri.symm, rfl⟩
      · simp only [Sched.setThread] at hth' ⊢
        refine (hmem _ th').mpr ?_
        obtain rfl | hne := eq_or_ne th' th
        · rw [update_self]
          exact .inr ⟨rfl, rfl⟩
        · rw [update_of_ne hne] at hth' ⊢
          exact .inl (h.onRunq th' hth')
      · have hne : th' ≠ th := fun heq => hnext (heq ▸ hth')
        simp only [Sched.setThread]
        rw [update_of_ne hne]
        exact h.next th' hth'

/-- A thread that was taken off its queue. -/
theorem Inv.tookOff (h : Inv words s) {i : ℕ} {rq : RunQueue Thread}
    (hself : (s.rq.runq i).Perm (th :: rq.runq i)) (hother : ∀ j ≠ i, rq.runq j = s.rq.runq j)
    (hrq : rq.Ok words) :
    Inv words ({ s with rq }.setThread th { s.thread th with onRunq := false }) := by
  have hth : th ∈ s.rq.runq i := hself.mem_iff.mpr (mem_cons_self ..)
  have hwhichq : ∀ j, th ∈ s.rq.runq j → j = i := fun j hj =>
    (h.queued th j hj).2.2.symm.trans (h.queued th i hth).2.2
  have hmem : ∀ j th', th' ∈ rq.runq j ↔ th' ∈ s.rq.runq j ∧ th' ≠ th := by
    intro j th'
    obtain rfl | hne := eq_or_ne j i
    · have hnodup := nodup_cons.mp (hself.nodup_iff.mp (h.rq.nodup j))
      rw [hself.mem_iff, mem_cons]
      constructor
      · exact fun hin => ⟨.inr hin, fun heq => hnodup.1 (heq ▸ hin)⟩
      · exact fun hin => hin.1.resolve_left hin.2
    · rw [hother j hne]
      exact ⟨fun hin => ⟨hin, fun heq => hne (hwhichq j (heq ▸ hin))⟩, And.left⟩
  refine ⟨hrq, fun th' j hth' => ?_, fun th' hth' => ?_, fun th' hth' => ?_⟩
  · obtain ⟨hin, hne⟩ := (hmem j th').mp hth'
    simp only [Sched.setThread]
    rw [update_of_ne hne]
    exact h.queued th' j hin
  · simp only [Sched.setThread] at hth' ⊢
    obtain rfl | hne := eq_or_ne th' th
    · rw [update_self] at hth'
      cases hth'
    · rw [update_of_ne hne] at hth' ⊢
      exact (hmem _ th').mpr ⟨h.onRunq th' hth', hne⟩
  · simp only [Sched.setThread]
    obtain rfl | hne := eq_or_ne th' th
    · rw [update_self]
    · rw [update_of_ne hne]
      exact h.next th' hth'

/-- What `rem_runq` leaves. -/
structure Removes (words : ℕ) (s : Sched Thread) (th : Thread) (s' : Sched Thread) : Prop where
  inv : Inv words s'
  processor : s'.processor = s.processor
  thread : s'.thread = update s.thread th { s.thread th with onRunq := false }

/-- `rem_runq` finds the thread, and `ffsbit` a bit. -/
theorem Inv.remRunq (h : Inv words s) (th : Thread) :
    ∃ s', s.remRunq words th = some ((s.thread th).onRunq, s') ∧ Removes words s th s' := by
  rw [Sched.remRunq]
  simp only
  split
  · rename_i honRunq
    have hin := h.onRunq th honRunq
    obtain ⟨-, hpri, -⟩ := h.queued th _ hin
    have hwhichq : (s.thread th).schedPri.toNat = (s.thread th).whichq := by
      rw [hpri, Int.toNat_natCast]
    have hself := perm_cons_erase hin
    have hother : ∀ j ≠ (s.thread th).whichq, (s.rq.runq j).erase th = s.rq.runq j := by
      intro j hj
      exact erase_of_not_mem fun hth => hj ((h.queued th j hth).2.2).symm
    obtain ⟨rq, heq, hrunq, hok⟩ := @RunQueue.Ok.tookOff _ _ s.rq th h.rq (s.thread th).whichq
      { s.rq with runq := fun i => (s.rq.runq i).erase th } ⟨rfl, rfl, rfl, rfl⟩ hself hother
    rw [hwhichq, heq, map_some, honRunq]
    refine ⟨_, rfl, h.tookOff (i := (s.thread th).whichq) ?_ ?_ hok, rfl, rfl⟩
    · rw [hrunq]
      exact hself
    · rw [hrunq]
      exact hother
  · rename_i honRunq
    rw [Bool.not_eq_true] at honRunq
    refine ⟨s, by rw [honRunq], h, rfl, ?_⟩
    rw [← honRunq]
    exact (update_eq_self th s.thread).symm

/-- The thread that `choose_pset_thread` comes to: the first one of the lowest queue that is not
empty, or the idle thread. -/
def IsChoice (s : Sched Thread) (chosen : Option Thread) : Prop :=
  (∃ low th q, IsLeast {i | s.rq.runq i ≠ []} low ∧ s.rq.runq low = th :: q ∧ chosen = some th) ∨
    (∀ i, s.rq.runq i = []) ∧ chosen = none

/-- `choose_pset_thread` does not panic. -/
theorem Inv.choosePsetThread (h : Inv words s) :
    ∃ chosen s', s.choosePsetThread words = some (chosen, s') ∧ s.IsChoice chosen ∧
      Inv words s' := by
  rw [Sched.choosePsetThread]
  by_cases hcount : s.rq.count > 0
  · rw [if_pos hcount]
    have hlow := h.rq.low_ne_nil hcount
    cases hqueue : s.rq.runq s.rq.low with
    | nil => exact absurd hqueue hlow.1
    | cons th q =>
      have hself : (s.rq.runq s.rq.low).Perm (th :: update s.rq.runq s.rq.low q s.rq.low) := by
        rw [update_self, hqueue]
      have hother : ∀ j ≠ s.rq.low, update s.rq.runq s.rq.low q j = s.rq.runq j :=
        fun j hj => update_of_ne hj _ _
      have hwhichq : (s.thread th).whichq = s.rq.low :=
        (h.queued th s.rq.low (by rw [hqueue]; exact mem_cons_self ..)).2.2
      obtain ⟨rq, heq, hrunq, hok⟩ := @RunQueue.Ok.tookOff _ _ s.rq th h.rq s.rq.low
        { s.rq with runq := update s.rq.runq s.rq.low q } ⟨rfl, rfl, rfl, rfl⟩ hself hother
      have htook : RunQueue.tookOff { s.rq with runq := update s.rq.runq s.rq.low q } words
          (s.thread th).whichq s.rq.low = some rq := by
        rw [hwhichq]
        exact heq
      simp only
      rw [htook, map_some]
      refine ⟨some th, _, rfl, .inl ⟨s.rq.low, th, q, hlow, hqueue, rfl⟩,
        h.tookOff (i := s.rq.low) ?_ ?_ hok⟩
      · rw [hrunq]
        exact hself
      · rw [hrunq]
        exact hother
  · rw [if_neg hcount]
    have hnone : ∀ i, s.rq.runq i = [] := by
      intro i
      refine eq_nil_iff_forall_not_mem.mpr fun th hth => hcount ?_
      have hlength := length_pos_of_mem (RunQueue.mem_threads h.rq hth)
      rw [h.rq.count]
      omega
    split
    · exact ⟨none, _, rfl, .inr ⟨hnone, rfl⟩, h.rq, h.queued, h.onRunq, fun th => (nomatch ·)⟩
    · exact ⟨none, s, rfl, .inr ⟨hnone, rfl⟩, h⟩

/-- `thread_setrun` of a thread whose priority is up to date. -/
theorem Inv.dispatch (h : Inv words s) {mayPreempt tail : Bool}
    (hnext : s.processor.next ≠ some th)
    (hstep : s.dispatch words th mayPreempt tail = some s') : Inv words s' := by
  rw [Sched.dispatch] at hstep
  split at hstep
  · cases hstep
  · rename_i honRunq
    rw [Bool.not_eq_true] at honRunq
    have hdispatching : Inv words { s with processor := .dispatching th } := by
      refine ⟨h.rq, h.queued, h.onRunq, fun th' hth' => ?_⟩
      cases hth'
      exact honRunq
    split at hstep
    · cases hstep
      exact hdispatching
    · rename_i next hprocessor
      split at hstep
      · refine hdispatching.runQueueEnqueue (fun heq => ?_) hstep
        rw [hprocessor] at hnext
        exact hnext heq.symm
      · exact h.runQueueEnqueue hnext hstep
    · exact h.runQueueEnqueue hnext hstep
    · exact h.runQueueEnqueue hnext hstep

/-- A thread is taken off the run queue, changes its priority, and is put back. -/
theorem Inv.requeue (h : Inv words s) {pri : ℤ} {put : Sched Thread → Option (Sched Thread)}
    (hput : ∀ t t', Inv words t → (t.thread th).onRunq = false → t.processor.next ≠ some th →
      put t = some t' → Inv words t')
    (hstep : s.requeue words th pri put = some s') : Inv words s' := by
  obtain ⟨t, heq, hremoves⟩ := h.remRunq th
  rw [Sched.requeue, heq, bind_some] at hstep
  have hoff : (t.thread th).onRunq = false := by
    rw [hremoves.thread, update_self]
  have hinv : Inv words (t.setThread th { t.thread th with schedPri := pri }) :=
    hremoves.inv.setThread rfl fun honRunq => by
      rw [hoff] at honRunq
      cases honRunq
  simp only at hstep
  split at hstep
  · rename_i honRunq
    refine hput _ _ hinv ?_ (fun hnext => ?_) hstep
    · rw [setThread_self]
      exact hoff
    change t.processor.next = some th at hnext
    rw [hremoves.processor] at hnext
    rw [h.next th hnext] at honRunq
    cases honRunq
  · cases hstep
    exact hinv

/-- `update_priority`. -/
theorem Inv.updatePriority (h : Inv words s) {timer : BitVec 32 × BitVec 32}
    (hstep : s.updatePriority words th timer = some s') : Inv words s' := by
  rw [Sched.updatePriority] at hstep
  split at hstep
  · cases hstep
  · have hage := h.setThread (x := (s.thread th).age s.schedTick timer) rfl fun _ => ⟨rfl, rfl⟩
    simp only at hstep
    split at hstep
    · exact hage.requeue (fun t t' ht _ hnext => ht.dispatch hnext) hstep
    · cases hstep
      exact hage

/-- An update of a thread that is not queued does not dispatch it. -/
theorem updatePriority_processor {timer : BitVec 32 × BitVec 32}
    (hrunq : (s.thread th).onRunq = false)
    (hstep : s.updatePriority words th timer = some s') : s'.processor = s.processor := by
  rw [Sched.updatePriority] at hstep
  split at hstep
  · cases hstep
  · simp only at hstep
    split at hstep
    · have hoff : ((s.setThread th ((s.thread th).age s.schedTick timer)).thread th).onRunq =
          false := by
        rw [setThread_self]
        exact hrunq
      rw [Sched.requeue, Sched.remRunq] at hstep
      simp only [hoff, Bool.false_eq_true, if_false, bind_some] at hstep
      cases hstep
      rfl
    · cases hstep
      rfl

/-- `thread_setrun`. -/
theorem Inv.threadSetrun (h : Inv words s) {timer : BitVec 32 × BitVec 32} {mayPreempt tail : Bool}
    (hrunq : (s.thread th).onRunq = false) (hnext : s.processor.next ≠ some th)
    (hstep : s.threadSetrun words th timer mayPreempt tail = some s') : Inv words s' := by
  rw [Sched.threadSetrun] at hstep
  split at hstep
  · exact h.dispatch hnext hstep
  · obtain ⟨t, hupdate, hdispatch⟩ := bind_eq_some_iff.mp hstep
    refine (h.updatePriority hupdate).dispatch ?_ hdispatch
    rwa [updatePriority_processor hrunq hupdate]

/-- `set_pri`. -/
theorem Inv.setPri (h : Inv words s) {pri : ℤ} {resched : Bool} {timer : BitVec 32 × BitVec 32}
    (hstep : s.setPri words th pri resched timer = some s') : Inv words s' := by
  refine h.requeue (fun t t' ht hrunq hnext hput => ?_) hstep
  split at hput
  · exact ht.threadSetrun hrunq hnext hput
  · exact ht.runQueueEnqueue hnext hput

/-- Every call keeps the run queue right. -/
theorem Step.inv {call : Call Thread} (hstep : Step words s call s') (h : Inv words s) :
    Inv words s' := by
  cases hstep with
  | threadSetrun hrunq hnext hstep => exact h.threadSetrun hrunq hnext hstep
  | runQueueEnqueue hnext hstep => exact h.runQueueEnqueue hnext hstep
  | @remRunq _ th _ hstep | @threadSwitch _ th hstep =>
    obtain ⟨t, heq, hremoves⟩ := h.remRunq th
    exact (Prod.mk.inj (Option.some.inj (heq.symm.trans hstep))).2 ▸ hremoves.inv
  | setPri hstep => exact h.setPri hstep
  | updatePriority hstep => exact h.updatePriority hstep
  | choosePsetThread hstep =>
    obtain ⟨chosen, t, heq, -, hinv⟩ := h.choosePsetThread
    cases heq.symm.trans hstep
    exact hinv
  | tick schedTick => exact ⟨h.rq, h.queued, h.onRunq, h.next⟩
  | change hqueue hpri => exact h.setThread hqueue.1 fun _ => ⟨hpri, hqueue.2⟩
  | proceed hnext =>
    exact ⟨h.rq, h.queued, h.onRunq, fun th hth => h.next th (hnext th hth)⟩

/-! ## Every run -/

/-- What holds of the run queue and of the operations on it. -/
structure RunQueueExact (words : ℕ) (s : Sched Thread) : Prop where
  count : s.rq.count = (s.queuedThreads words).length
  queued : ∀ th, th ∈ s.queuedThreads words ↔ (s.thread th).onRunq = true
  bits : ∀ i ≤ depressPri words, testbit i s.rq.bitmap = true ↔ s.rq.runq i ≠ []
  idle : testbit (idlePri words) s.rq.bitmap = true ∧ s.rq.runq (idlePri words) = []
  low : 0 < s.rq.count → IsLeast {i | s.rq.runq i ≠ []} s.rq.low
  depress : s.rq.depressCount = (s.rq.runq (depressPri words)).length
  queue : ∀ th i, th ∈ s.rq.runq i → (s.thread th).schedPri = i ∧ (s.thread th).onRunq = true
  remRunq : ∀ th, (s.remRunq words th).isSome
  choose : ∃ chosen s', s.choosePsetThread words = some (chosen, s') ∧ s.IsChoice chosen
  scan : ∀ lockable stuck, stuck.length ≤ maxStuckThreads →
    ∃ x, s.doRunqScan words lockable stuck = some x ∧ s.ScansAll words x

theorem Inv.exact (h : Inv words s) : s.RunQueueExact words where
  count := h.rq.count
  queued := h.mem_queuedThreads
  bits := fun i hi => by
    rw [h.rq.bits]
    exact or_iff_left (hi.trans_lt (depressPri_lt words)).ne
  idle := by
    refine ⟨(h.rq.bits _).mpr (.inr rfl), ?_⟩
    by_contra hne
    exact absurd (h.rq.range _ hne) (not_le.mpr (depressPri_lt words))
  low := h.rq.low_ne_nil
  depress := h.rq.depress
  queue := fun th i hth => ⟨(h.queued th i hth).2.1, (h.queued th i hth).1⟩
  remRunq := fun th => by
    obtain ⟨t, heq, -⟩ := h.remRunq th
    rw [heq]
    rfl
  choose := by
    obtain ⟨chosen, t, heq, hchoice, -⟩ := h.choosePsetThread
    exact ⟨chosen, t, heq, hchoice⟩
  scan := fun lockable _ hstuck => h.doRunqScan lockable hstuck

/-- The run queue is right in every run. -/
theorem runQueue_exact {s₀ : Sched Thread} (h₀ : Initial words s₀)
    {trace : List (Sched Thread × Call Thread)} (hrun : Run (Step words) s₀ trace s) :
    s.RunQueueExact words := by
  have hinv : Inv words s := @Run.invariant _ _ _ _ _ _ (fun _ _ => True) (Inv words) hrun
    (fun _ _ => trivial) h₀.inv fun _ _ _ h _ hstep => hstep.inv h
  exact hinv.exact

/-- A thread of priority 10, which is up to date. -/
def waitingThread : SchedThread := ⟨false, 0, 10, 10, -1, true, 0, 0, 0, 0, 0, false⟩

/-- A processor set of such threads. -/
def newSet : Sched ℕ := ⟨fun _ => waitingThread, RunQueue.initial 0, .running, 0⟩

theorem newSet_initial : Initial 0 newSet := ⟨rfl, fun _ => rfl⟩

/-- Two threads are set running, the second is given a better priority, and it is chosen. -/
theorem runQueue_exact_chosen : ∃ s trace, Run (Step 0) newSet trace s ∧ trace.length = 4 ∧
    s.queuedThreads 0 = [5] ∧ s.RunQueueExact 0 :=
  have run := (((Run.nil.cons (@Step.threadSetrun _ _ 0 newSet _ 5 (0, 0) true true rfl
    (nomatch ·) rfl)).cons (@Step.threadSetrun _ _ 0 _ _ 6 (0, 0) true true rfl
    (nomatch ·) rfl)).cons (@Step.setPri _ _ 0 _ _ 6 8 false (0, 0) rfl)).cons
    (@Step.choosePsetThread _ _ 0 _ _ _ rfl)
  ⟨_, _, run, rfl, by decide, runQueue_exact newSet_initial run⟩

/-- The bit of `IDLEPRI` is set though no thread is ever in its queue. -/
theorem idle_bit_set_while_empty :
    ¬∀ (words : ℕ) (s₀ : Sched ℕ) (trace : List (Sched ℕ × Call ℕ)) (s : Sched ℕ),
      Initial words s₀ → Run (Step words) s₀ trace s →
        ∀ i < nrqs words, testbit i s.rq.bitmap = true ↔ s.rq.runq i ≠ [] := by
  intro hclaim
  have hbit := (hclaim 0 newSet [] newSet newSet_initial .nil 31 (by decide)).mp (by decide)
  exact hbit rfl

end Sched

end MachVirtuTerm
