import MachVirtuTerm.Kern.SemaphoreSignals
import Mathlib.Data.List.Sort

/-!
# The order in which a semaphore signals threads

Under the FIFO policy no thread is signalled before one that was in the queue when it came, and
still is. Under the other policy the queue is in the order of the priorities, as long as those of
the threads in it do not change: a thread is not moved when it gets another.
-/

open List

namespace MachVirtuTerm

variable {Thread : Type*} {priority : Thread → ℕ}

/-- A thread enters a queue that is in the order of the priorities. -/
theorem pairwise_syncPolicyEnqueue {q : List Thread} (h : q.Pairwise (priority · ≤ priority ·))
    (t : Thread) :
    (syncPolicyEnqueue true priority q t).Pairwise (priority · ≤ priority ·) := by
  induction q with
  | nil => exact pairwise_singleton _ t
  | cons u q ih =>
    obtain ⟨hu, hq⟩ := pairwise_cons.mp h
    unfold syncPolicyEnqueue at ih ⊢
    rw [if_pos rfl] at ih ⊢
    by_cases hle : priority u ≤ priority t
    · rw [takeWhile_cons_of_pos (by simpa using hle), dropWhile_cons_of_pos (by simpa using hle)]
      refine pairwise_cons.mpr ⟨fun v hv => ?_, ih hq⟩
      rcases mem_append.mp hv with hv | hv
      · exact hu v ((takeWhile_sublist _).subset hv)
      · rcases mem_cons.mp hv with rfl | hv
        · exact hle
        · exact hu v ((dropWhile_sublist _).subset hv)
    · rw [takeWhile_cons_of_neg (by simpa using hle), dropWhile_cons_of_neg (by simpa using hle)]
      refine pairwise_cons.mpr ⟨fun v hv => ?_, h⟩
      rcases mem_cons.mp hv with rfl | hv
      · omega
      · exact (Nat.le_of_not_le hle).trans (hu v hv)

namespace SemaphoreState

variable [DecidableEq Thread] {cfg : SemaphoreConfig}
  {s s' : SemaphoreState Thread} {l : SemaphoreAction Thread × SemaphoreOutput Thread}

theorem completeFirst_append {result n : ℕ} (h : completeFirst s result n = some s') :
    n ≤ s.blocked.length ∧ s.blocked.take n ++ s'.blocked = s.blocked ∧
      s'.priority = s.priority := by
  induction n generalizing s with
  | zero =>
    cases h
    exact ⟨Nat.zero_le _, rfl, rfl⟩
  | succ n ih =>
    unfold completeFirst at h
    split at h
    · cases h
    · rename_i t blocked hblocked
      obtain ⟨hn, htake, hpriority⟩ := ih h
      rw [hblocked]
      exact ⟨Nat.succ_le_succ hn, congrArg (t :: ·) htake, hpriority⟩

/-- What a step does with the queue. -/
inductive QueueStep (cfg : SemaphoreConfig) (priority : Thread → ℕ) (q : List Thread) :
    SemaphoreAction Thread × SemaphoreOutput Thread → List Thread → Prop
  /-- A signal takes the first thread. -/
  | signal {t : Thread} {q' : List Thread} (h : q = t :: q') :
    QueueStep cfg priority q (.signal, ⟨[t], none⟩) q'
  /-- Threads leave otherwise. -/
  | leave {l : SemaphoreAction Thread × SemaphoreOutput Thread} {q' : List Thread}
    (hl : l.1 = .signal → l.2.granted = []) (h : q'.Sublist q) : QueueStep cfg priority q l q'
  /-- A thread enters. -/
  | enter {t : Thread} {waitTime : Option (BitVec 32 × BitVec 32)} {output : SemaphoreOutput Thread} :
    QueueStep cfg priority q (.wait t waitTime, output)
      (syncPolicyEnqueue cfg.fixedPriority priority q t)

omit [DecidableEq Thread] in
theorem QueueStep.same {q : List Thread} (hl : l.1 = .signal → l.2.granted = []) :
    QueueStep cfg priority q l q :=
  .leave hl (Sublist.refl q)

theorem wait_blocked (t : Thread) (waitTime : Option (BitVec 32 × BitVec 32)) :
    (s.wait cfg t waitTime).1.blocked = s.blocked ∨ (s.wait cfg t waitTime).1.blocked =
      syncPolicyEnqueue cfg.fixedPriority s.priority s.blocked t := by
  have hlocked : ∀ ticks, (s.waitLocked cfg t ticks).1.blocked = s.blocked ∨
      (s.waitLocked cfg t ticks).1.blocked =
        syncPolicyEnqueue cfg.fixedPriority s.priority s.blocked t := by
    intro ticks
    unfold waitLocked
    split_ifs <;> simp
  unfold wait
  split
  · exact hlocked _
  · split
    · exact .inl rfl
    · split
      · exact .inl rfl
      · exact hlocked _

theorem queueStep (h : Step cfg s l s') : QueueStep cfg s.priority s.blocked l s'.blocked := by
  obtain ⟨action, output⟩ := l
  simp only [Step] at h
  cases action with
  | wait t waitTime =>
    obtain ⟨-, heq⟩ := Option.ite_none_right_eq_some.mp h
    have hq := @wait_blocked _ _ cfg s t waitTime
    rw [Option.some.inj heq] at hq
    rcases hq with hq | hq
    · rw [hq]
      exact .same fun h => by cases h
    · rw [hq]
      exact .enter
  | signal =>
    simp only [step] at h
    split_ifs at h
    · cases h
      exact .same fun _ => rfl
    · cases h
      exact .same fun _ => rfl
    · obtain ⟨s₁, hs₁, heq⟩ := Option.map_eq_some_iff.mp h
      cases heq
      obtain ⟨hn, happend, -⟩ := completeFirst_append hs₁
      obtain ⟨t, q, hblocked⟩ := exists_cons_of_length_pos hn
      change s.blocked = t :: q at hblocked
      simp only [hblocked, take_succ_cons, take_zero, singleton_append, cons.injEq,
        true_and] at happend
      rw [hblocked]
      exact .signal (by rw [happend])
  | signalAll | destroy =>
    simp only [step] at h
    split_ifs at h
    · cases h
      exact .same fun h => by cases h
    · cases h
      exact .same fun h => by cases h
    · obtain ⟨s₁, hs₁, heq⟩ := Option.map_eq_some_iff.mp h
      cases heq
      refine .leave (fun h => by cases h) ?_
      exact (completeFirst_append hs₁).2.1 ▸ sublist_append_right _ _
  | _ =>
    simp only [step] at h
    repeat' split at h
    all_goals
      cases h
      try exact .leave (fun h => by cases h) erase_sublist
      try exact .same fun h => by cases h

/-- The threads that a step takes off the queue by `semaphore_signal`. -/
def signalled (l : SemaphoreAction Thread × SemaphoreOutput Thread) : List Thread :=
  if l.1 = .signal then l.2.granted else []

variable {trace : List (SemaphoreState Thread × SemaphoreAction Thread × SemaphoreOutput Thread)}

/-- The queue has threads that stood in it before a run, behind those of them that were signalled,
and then threads that came since. -/
theorem queue_of_run (hfifo : cfg.fixedPriority = false) (hrun : Run (Step cfg) s trace s') :
    ∃ kept new, s'.blocked = kept ++ new ∧
      (kept ≠ [] → (trace.reverse.flatMap (signalled ·.2) ++ kept).Sublist s.blocked) ∧
      ∀ t ∈ new, ∃ x ∈ trace, ∃ waitTime, x.2.1 = .wait t waitTime := by
  induction hrun with
  | nil => exact ⟨s.blocked, [], (append_nil _).symm, fun _ => Sublist.refl _, forall_mem_nil _⟩
  | @cons trace s₁ s₂ l hrun hstep ih =>
    obtain ⟨kept, new, hq, hsignalled, hnew⟩ := ih
    have hnew' : ∀ t ∈ new, ∃ x ∈ (s₁, l) :: trace, ∃ waitTime, x.2.1 = .wait t waitTime :=
      fun t ht => (hnew t ht).imp fun x hx => ⟨mem_cons_of_mem _ hx.1, hx.2⟩
    rw [reverse_cons, flatMap_append, flatMap_singleton]
    generalize trace.reverse.flatMap (signalled ·.2) = before at hsignalled
    have hqueue := queueStep hstep
    rw [hq] at hqueue
    generalize s₂.blocked = q at hqueue
    cases hqueue with
    | @signal t q h =>
      cases kept with
      | nil =>
        refine ⟨[], q, rfl, fun h => absurd rfl h, fun u hu => hnew' u ?_⟩
        rw [show new = t :: q from h]
        exact mem_cons_of_mem t hu
      | cons u kept =>
        obtain ⟨rfl, rfl⟩ := cons.inj h
        refine ⟨kept, new, rfl, fun _ => ?_, hnew'⟩
        rw [append_assoc]
        exact hsignalled (cons_ne_nil _ _)
    | leave hl h =>
      obtain ⟨kept', new', rfl, hkept, hsub⟩ := sublist_append_iff.mp h
      refine ⟨kept', new', rfl, fun hne => ?_, fun t ht => hnew' t (hsub.subset ht)⟩
      have hnil : signalled l = [] := ite_eq_right_iff.mpr hl
      rw [hnil, append_nil]
      refine (Sublist.append_left hkept before).trans (hsignalled fun hnone => hne ?_)
      rw [hnone] at hkept
      exact sublist_nil.mp hkept
    | @enter t waitTime output =>
      refine ⟨kept, new ++ [t], ?_, fun hne => ?_, fun u hu => ?_⟩
      · rw [syncPolicyEnqueue, hfifo, if_neg Bool.false_ne_true, append_assoc]
      · have hnil : signalled (SemaphoreAction.wait t waitTime, output) = [] := if_neg (by simp)
        rw [hnil, append_nil]
        exact hsignalled hne
      · rcases mem_append.mp hu with hu | hu
        · exact hnew' u hu
        · obtain rfl := mem_singleton.mp hu
          exact ⟨_, mem_cons_self, waitTime, rfl⟩

/-- As long as a thread waits, the threads that are signalled are some that stood before it in the
queue, in order. -/
theorem first_come_first_signalled (hfifo : cfg.fixedPriority = false)
    (hrun : Run (Step cfg) s trace s') {t : Thread} (ht : t ∈ s'.blocked)
    (hwaits : ∀ x ∈ trace, ∀ waitTime, x.2.1 ≠ .wait t waitTime) :
    (trace.reverse.flatMap (signalled ·.2) ++ [t]).Sublist s.blocked := by
  obtain ⟨kept, new, hq, hsignalled, hnew⟩ := queue_of_run hfifo hrun
  rw [hq] at ht
  rcases mem_append.mp ht with ht | ht
  · exact (Sublist.append_left (singleton_sublist.mpr ht) _).trans
      (hsignalled (ne_nil_of_mem ht))
  · obtain ⟨x, hx, waitTime, heq⟩ := hnew t ht
    exact absurd heq (hwaits x hx waitTime)

/-- Three threads wait one after the other, the first gives up, and of the others the one that came
first is signalled. -/
theorem first_come_first_signalled_three : ∃ before trace, ∃ s s' : SemaphoreState (Fin 3),
    Run (Step ⟨false, 100⟩) (init 0) before s ∧ Run (Step ⟨false, 100⟩) s trace s' ∧
      s'.blocked = [2] ∧ ((trace.reverse.flatMap fun x : SemaphoreState (Fin 3) × _ × _ =>
        signalled x.2) ++ [2]).Sublist s.blocked := by
  have h : ((replay (step ⟨false, 100⟩) (init 0 : SemaphoreState (Fin 3))
      [.wait 2 none, .wait 1 none, .wait 0 none]).bind fun r =>
        (replay (step ⟨false, 100⟩) r.2 [.signal, .abort 0, .test 0, .wake 0, .threadAbort 0,
          .block 0]).map fun r' => (r, r')).map (fun r => decide (r.2.2.blocked = [2] ∧
            r.2.1.map (·.2.1) = [.signal, .abort 0, .test 0, .wake 0, .threadAbort 0, .block 0])) =
              some true := by
    decide +kernel
  obtain ⟨⟨⟨before, s⟩, trace, s'⟩, hreplay, hres⟩ := Option.map_eq_some_iff.mp h
  obtain ⟨hblocked, hactions⟩ := of_decide_eq_true hres
  obtain ⟨r, hbefore, hafter⟩ := Option.bind_eq_some_iff.mp hreplay
  obtain ⟨r', hafter, heq⟩ := Option.map_eq_some_iff.mp hafter
  cases heq
  have hrun := Run.of_replay_step hafter
  refine ⟨before, trace, s, s', Run.of_replay_step hbefore, hrun, hblocked,
    first_come_first_signalled rfl hrun ?_ fun x hx waitTime hwait => ?_⟩
  · rw [hblocked]
    exact mem_singleton_self 2
  · have hmem := mem_map_of_mem (f := (·.2.1)) hx
    rw [hactions, hwait] at hmem
    simp at hmem

/-- A thread gets another priority only in a step of its own. -/
theorem step_priority (h : Step cfg s l s') (hl : ∀ t priority, l.1 ≠ .setPriority t priority) :
    s'.priority = s.priority := by
  obtain ⟨action, output⟩ := l
  simp only [Step] at h
  cases action with
  | setPriority t priority => exact absurd rfl (hl t priority)
  | wait t waitTime =>
    obtain ⟨-, heq⟩ := Option.ite_none_right_eq_some.mp h
    rw [← show (s.wait cfg t waitTime).1 = s' from congrArg Prod.fst (Option.some.inj heq)]
    unfold wait waitLocked
    repeat' split
    all_goals rfl
  | signal | signalAll | destroy =>
    simp only [step] at h
    split_ifs at h
    · cases h
      rfl
    · cases h
      rfl
    · obtain ⟨s₁, hs₁, heq⟩ := Option.map_eq_some_iff.mp h
      cases heq
      exact (completeFirst_append hs₁).2.2
  | _ =>
    simp only [step] at h
    repeat' split at h
    all_goals
      cases h
      try rfl

/-- In every run in which no thread gets another priority while it is in the queue, the queue is in
the order of the priorities, and a signal takes a thread of the first of them. -/
theorem signalled_by_priority (hfixed : cfg.fixedPriority = true) {value : Fin (2 ^ 31)}
    (hrun : Run (Step cfg) (init value) trace s)
    (hsteady : ∀ x ∈ trace, ∀ t priority, x.2.1 = .setPriority t priority → t ∉ x.1.blocked) :
    s.blocked.Pairwise (s.priority · ≤ s.priority ·) ∧
      ∀ x ∈ trace, ∀ t ∈ signalled x.2, ∀ u ∈ x.1.blocked, x.1.priority t ≤ x.1.priority u := by
  induction hrun with
  | nil => exact ⟨Pairwise.nil, fun x hx => absurd hx not_mem_nil⟩
  | @cons trace s₁ s₂ l hrun hstep ih =>
    obtain ⟨hset, hsteady⟩ := forall_mem_cons.mp hsteady
    obtain ⟨hsorted, hsignalled⟩ := ih hsteady
    by_cases hl : ∃ t priority, l.1 = .setPriority t priority
    · obtain ⟨t, priority, hl⟩ := hl
      have ht := hset t priority hl
      obtain ⟨action, output⟩ := l
      cases hl
      cases hstep
      refine ⟨hsorted.imp_of_mem fun {u v} hu hv huv => ?_,
        forall_mem_cons.mpr ⟨forall_mem_nil _, hsignalled⟩⟩
      have hne : ∀ w ∈ s₁.blocked, w ≠ t := fun w hw heq => ht (heq ▸ hw)
      dsimp only
      rw [Function.update_of_ne (hne u hu), Function.update_of_ne (hne v hv)]
      exact huv
    have hqueue := queueStep hstep
    rw [step_priority hstep fun t priority heq => hl ⟨t, priority, heq⟩]
    generalize s₂.blocked = q at hqueue
    cases hqueue with
    | @signal t q hq =>
      refine ⟨(hq ▸ hsorted).of_cons, forall_mem_cons.mpr ⟨fun v hv u hu => ?_, hsignalled⟩⟩
      obtain rfl : v = t := mem_singleton.mp hv
      rw [hq] at hsorted hu
      rcases mem_cons.mp hu with rfl | hu
      · exact le_rfl
      · exact rel_of_pairwise_cons hsorted hu
    | leave hl hq =>
      have hnil : signalled l = [] := ite_eq_right_iff.mpr hl
      refine ⟨hsorted.sublist hq, forall_mem_cons.mpr ⟨fun t ht => ?_, hsignalled⟩⟩
      exact absurd (hnil ▸ ht) not_mem_nil
    | enter =>
      rw [hfixed]
      exact ⟨pairwise_syncPolicyEnqueue hsorted _, forall_mem_cons.mpr
        ⟨forall_mem_nil _, hsignalled⟩⟩

/-- Of two threads the one of the first priority is signalled, which came last. -/
theorem signalled_by_priority_two : ∃ trace, ∃ s : SemaphoreState Bool,
    Run (Step ⟨true, 100⟩) (init 0) trace s ∧ s.blocked = [false] ∧
      ∀ x ∈ trace, ∀ t ∈ signalled x.2, ∀ u ∈ x.1.blocked, x.1.priority t ≤ x.1.priority u := by
  have h : (replay (step ⟨true, 100⟩) (init 0 : SemaphoreState Bool) [.signal, .wait true none,
      .wait false none, .setPriority false 1]).map (fun r => decide (r.2.blocked = [false] ∧
        r.1.map (fun x => (x.1.blocked, x.2.1)) = [([true, false], .signal),
          ([false], .wait true none), ([], .wait false none), ([], .setPriority false 1)])) =
            some true := by
    decide +kernel
  obtain ⟨⟨trace, s⟩, hreplay, hres⟩ := Option.map_eq_some_iff.mp h
  obtain ⟨hblocked, hactions⟩ := of_decide_eq_true hres
  have hrun := Run.of_replay_step hreplay
  refine ⟨trace, s, hrun, hblocked, (signalled_by_priority rfl hrun fun x hx t priority hset => ?_).2⟩
  have hmem := mem_map_of_mem (f := fun x => (x.1.blocked, x.2.1)) hx
  rw [hactions] at hmem
  simp only [mem_cons, Prod.mk.injEq, hset] at hmem
  simp at hmem
  simp [hmem]

end SemaphoreState

end MachVirtuTerm
