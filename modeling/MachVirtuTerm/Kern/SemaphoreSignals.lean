import MachVirtuTerm.Kern.Semaphore

/-!
# Signals and successful waits

A signal that takes a thread off the queue while it waits is the one success that the thread
returns. If the wait had been ended before by a timeout or an abort, the signal is lost.
-/

open List Function

namespace MachVirtuTerm

open SemaphoreThread Run Bool

/-- The operation is complete, and the thread is about to return success. -/
def SemaphoreThread.Granted (x : SemaphoreThread) : Prop :=
  x.pc ≠ .idle ∧ x.linked = false ∧ x.waitResult = kernSuccess

instance (x : SemaphoreThread) : Decidable x.Granted :=
  inferInstanceAs (Decidable (_ ∧ _ ∧ _))

/-- A thread that is linked was not granted anything. -/
theorem SemaphoreThread.not_granted_of_linked {x : SemaphoreThread} (hl : x.linked = true) :
    ¬x.Granted := by
  intro h
  have hfalse := h.2.1
  rw [hl] at hfalse
  cases hfalse

namespace SemaphoreState

variable {Thread : Type*} {s s' : SemaphoreState Thread} {t u : Thread}

/-- A time of no seconds is what a wait does not wait for. -/
theorem waitTicks_eq_returns {cfg : SemaphoreConfig} {tvSec tvNsec : BitVec 32}
    (h : waitTicks cfg tvSec tvNsec = .returns) :
    tvSec = 0 := by
  unfold waitTicks at h
  dsimp only at h
  split at h
  · cases h
  · rename_i hlt
    split at h
    · cases h
    · split at h
      · rename_i hzero
        rw [hzero] at hlt
        bv_omega
      · cases h

/-- A thread that is not in the call is not in the queue. -/
theorem Inv.not_mem_of_idle (h : s.Inv) (ht : (s.thread t).pc = .idle) : t ∉ s.blocked :=
  fun hmem => ((h.mem_iff t).mp hmem).1 ht

/-- The count changes to one that is not negative while nobody is in the queue. -/
theorem Inv.setCount (h : s.Inv) {active : Bool} {count : ℤ} (hactive : active = true → s.active = true)
    (hcount : 0 ≤ s.count) (hnonneg : 0 ≤ count) (hmax : count < 2147483648) :
    ({ s with
      active := active
      count := count } : SemaphoreState Thread).Inv := by
  have hempty := h.count.1 hcount
  refine ⟨fun t => (h.thread t).mono hactive, h.nodup, h.mem_iff, ?_, ?_, fun _ => hnonneg⟩
  · exact ⟨fun _ => hempty, fun hneg => absurd hneg (Int.not_lt.mpr hnonneg)⟩
  · change -2147483648 ≤ count ∧ count < 2147483648
    omega

/-- A thread that was granted a signal is woken, and does not abort its wait. -/
theorem Inv.granted_goes_on (h : s.Inv) (ht : (s.thread t).Granted) :
    (s.thread t).waiting = false ∧ (s.thread t).pc ≠ .aborting := by
  constructor
  · by_contra hwaiting
    have hlinked := ((h.thread t).waiting (not_eq_false _ ▸ hwaiting)).2.1
    exact not_granted_of_linked hlinked ht
  · intro haborting
    exact (h.thread t).code haborting ht.2.2

/-- The invariant holds of a new semaphore. -/
theorem inv_init (Thread : Type*) (value : Fin (2 ^ 31)) :
    (init value : SemaphoreState Thread).Inv := by
  refine ⟨fun t => ?_, nodup_nil, fun t => ?_, ⟨fun _ => rfl, fun hneg => ?_⟩, ?_, fun hfalse => ?_⟩
  · constructor
    · intro hwaiting
      cases hwaiting
    · intro hpc
      cases hpc
    · intro hpc
      cases hpc
    · intro hpc
      exact absurd rfl hpc
    · intro hpc
      exact absurd rfl hpc
  · exact iff_of_false not_mem_nil fun hin => hin.1 rfl
  · exact absurd hneg (Int.not_lt.mpr (Int.natCast_nonneg value))
  · have hlt := value.isLt
    change -2147483648 ≤ (value.val : ℤ) ∧ (value.val : ℤ) < 2147483648
    omega
  · cases hfalse

/-- Steps that do not take the count out of an `int`, signal only threads whose wait has not ended,
and poll only when the count is not positive. -/
def Prompt (s : SemaphoreState Thread) : SemaphoreAction Thread → Prop
  | .wait _ none => s.count ≠ -2147483648
  | .wait _ (some (tvSec, tvNsec)) => s.count ≠ -2147483648 ∧
    (tvSec = 0 → tvNsec.slt 0 = false → tvNsec.slt 1000000000 = true → s.count ≤ 0)
  | .signal => s.active = true →
    s.count ≠ 2147483647 ∧ ∀ t ∈ s.blocked.take 1, (s.thread t).waiting = true
  | .signalAll => s.active = true → ∀ t ∈ s.blocked, (s.thread t).waiting = true
  | .signalThread t => s.active = true → t ∈ s.blocked → (s.thread t).waiting = true
  | _ => True

/-- The signals that a thread was granted and has not returned yet. -/
def held (t : Thread) (s : SemaphoreState Thread) : ℕ := if (s.thread t).Granted then 1 else 0

variable [DecidableEq Thread]

instance (s : SemaphoreState Thread) (action : SemaphoreAction Thread) :
    Decidable (s.Prompt action) := by
  unfold Prompt
  split <;> infer_instance

/-- The signals that a step grants to a thread. -/
def granted (t : Thread) (l : SemaphoreAction Thread × SemaphoreOutput Thread) : ℕ :=
  l.2.granted.count t

/-- The successes that a thread returns after it was in the queue. -/
def succeeded (t : Thread) (l : SemaphoreAction Thread × SemaphoreOutput Thread) : ℕ :=
  match l.2.returned with
  | some r => if r.thread = t ∧ r.code = kernSuccess ∧ r.blocked = true then 1 else 0
  | none => 0

/-- What a step does with signals. -/
structure Conserves (s : SemaphoreState Thread) (l : SemaphoreAction Thread × SemaphoreOutput Thread)
    (s' : SemaphoreState Thread) : Prop where
  /-- A signal raises a count that is not negative or is granted to one thread. -/
  signal : l.1 = .signal → s.active = true → s'.count = s.count + 1 ∧
    (0 ≤ s.count ∧ l.2.granted = [] ∨ s.count < 0 ∧ ∃ t, l.2.granted = [t])
  /-- A wait that does not block takes one from a positive count. -/
  passed : ∀ r, l.2.returned = some r → r.blocked = false → r.code = kernSuccess →
    0 < s.count ∧ s'.count = s.count - 1
  /-- Or it changes nothing. -/
  refused : ∀ r, l.2.returned = some r → r.blocked = false → r.code ≠ kernSuccess → s' = s
  /-- A thread that returns is not in the queue. -/
  off : ∀ r, l.2.returned = some r → r.thread ∉ s'.blocked
  timedOut : ∀ r, l.2.returned = some r → r.code = kernOperationTimedOut → r.found ≤ 0
  /-- The signals that a thread is granted are the successes that it returns. -/
  balance : ∀ t, held t s + granted t l = held t s' + succeeded t l

theorem held_of_update {x : SemaphoreThread} (hthread : s'.thread = Function.update s.thread t x)
    (hx : x.Granted ↔ (s.thread t).Granted) (u : Thread) : held u s = held u s' := by
  unfold held
  rw [hthread]
  by_cases hu : u = t
  · subst hu
    rw [update_self]
    simp only [hx]
  · rw [update_of_ne hu]

/-- Nobody is granted anything or returns. -/
theorem conserves_quiet {action : SemaphoreAction Thread} (haction : action ≠ .signal)
    (hheld : ∀ t, held t s = held t s') : Conserves s (action, .quiet) s' where
  signal h := absurd h haction
  passed _ h := nomatch h
  refused _ h := nomatch h
  off _ h := nomatch h
  timedOut _ h := nomatch h
  balance t := hheld t

/-- A wait returns without changing anything. -/
theorem conserves_refused {timeout : Option (BitVec 32 × BitVec 32)} {code : ℕ}
    (ht : t ∉ s.blocked) (hcode : code ≠ kernSuccess)
    (htimedOut : code = kernOperationTimedOut → s.count ≤ 0) :
    Conserves s (.wait t timeout, ⟨[], some ⟨t, code, false, s.count⟩⟩) s where
  signal h := nomatch h
  passed r h _ hr := by
    cases h
    exact absurd hr hcode
  refused _ _ _ _ := rfl
  off r h := by
    cases h
    exact ht
  timedOut r h hr := by
    cases h
    exact htimedOut hr
  balance u := by simp [granted, succeeded]

/-- A thread leaves the call. -/
theorem conserves_leave {action : SemaphoreAction Thread} {x : SemaphoreThread} {code : ℕ}
    (haction : action ≠ .signal) (hthread : s'.thread = Function.update s.thread t x)
    (hpc : x.pc = .idle) (ht : t ∉ s'.blocked)
    (hcode : code = kernSuccess ↔ (s.thread t).Granted)
    (htimedOut : (s.thread t).found ≤ 0) :
    Conserves s (action, ⟨[], some ⟨t, code, true, (s.thread t).found⟩⟩) s' where
  signal h := absurd h haction
  passed r h hr := by
    cases h
    cases hr
  refused r h hr := by
    cases h
    cases hr
  off r h := by
    cases h
    exact ht
  timedOut r h _ := by
    cases h
    exact htimedOut
  balance u := by
    have hnot : ¬x.Granted := fun h => h.1 hpc
    simp only [held, granted, succeeded, hthread, count_nil]
    by_cases hu : u = t
    · subst hu
      simp [hcode, hnot]
    · have htu : ¬t = u := fun heq => hu heq.symm
      rw [update_of_ne hu]
      simp [htu]

/-- Threads of the queue are granted signals. -/
theorem conserves_grant {action : SemaphoreAction Thread} (threads : List Thread) (h : s.Inv)
    (hsub : ∀ t ∈ threads, t ∈ s.blocked ∧ (s.thread t).waiting = true) (hnodup : threads.Nodup)
    (hthread : ∀ t, s'.thread t =
      if t ∈ threads then (s.thread t).complete kernSuccess else s.thread t)
    (hsignal : action = .signal → s.active = true → s'.count = s.count + 1 ∧
      (0 ≤ s.count ∧ threads = [] ∨ s.count < 0 ∧ ∃ t, threads = [t])) :
    Conserves s (action, ⟨threads, none⟩) s' where
  signal := hsignal
  passed _ h := nomatch h
  refused _ h := nomatch h
  off _ h := nomatch h
  timedOut _ h := nomatch h
  balance u := by
    simp only [held, granted, succeeded, hthread]
    by_cases hu : u ∈ threads
    · obtain ⟨hmem, hwaiting⟩ := hsub u hu
      obtain ⟨hpc, hlinked⟩ := (h.mem_iff u).mp hmem
      have hgranted : ((s.thread u).complete kernSuccess).Granted := by
        refine ⟨?_, complete_linked .., ?_⟩
        · rw [complete_pc]
          exact hpc
        · rw [complete_waitResult, if_pos hwaiting]
      rw [if_pos hu, if_pos hgranted, if_neg (not_granted_of_linked hlinked),
        count_eq_one_of_mem hnodup hu]
    · rw [if_neg hu, count_eq_zero_of_not_mem hu]

section Sections

variable {cfg : SemaphoreConfig} {l : SemaphoreAction Thread × SemaphoreOutput Thread}

section

variable (h : s.Inv)

include h

/-- A wait from where it locks the semaphore. -/
theorem Inv.waitLocked {timeout : Option (BitVec 32 × BitVec 32)} {ticks : WaitTicks}
    (hmin : s.count ≠ -2147483648) (ht : (s.thread t).pc = .idle) : (s.waitLocked cfg t ticks).1.Inv ∧
      Conserves s (.wait t timeout, (s.waitLocked cfg t ticks).2) (s.waitLocked cfg t ticks).1 := by
  have hnot := h.not_mem_of_idle ht
  have hrange := h.range
  unfold SemaphoreState.waitLocked
  rw [wrapInt_eq (by omega) (by omega)]
  split
  · exact ⟨h, conserves_refused hnot (by decide) fun hcode => nomatch hcode⟩
  rename_i hactive
  split
  · rename_i hcount
    exact ⟨h, conserves_refused hnot (by decide) fun _ => hcount.2⟩
  split
  · rename_i hcount
    have hx : SemaphoreThread.Ok { s.thread t with
        pc := .asserted (decide (ticks ≠ .forever))
        linked := true
        waiting := true
        found := s.count } s.active := by
      constructor
      · intro _
        simp
      · intro hpc
        cases hpc
      · intro hpc
        cases hpc
      · intro _ _ hwaiting
        cases hwaiting
      · intro _
        change s.count ≤ 0
        omega
    have hin : SemaphorePc.asserted (decide (ticks ≠ .forever)) ≠ .idle := fun hpc => nomatch hpc
    refine ⟨h.enqueue (not_eq_false _ ▸ hactive) hcount hmin hnot hx ⟨hin, rfl⟩, ?_⟩
    apply conserves_quiet
    · intro hsignal
      cases hsignal
    · refine held_of_update rfl (iff_of_false ?_ fun hgranted => hgranted.1 ht)
      exact not_granted_of_linked rfl
  · rename_i hcount
    refine ⟨@Inv.setCount _ s h s.active _ (fun h => h) (by omega) (by omega) (by omega), ?_⟩
    constructor
    · intro hsignal
      cases hsignal
    · intro r hr _ _
      cases hr
      exact ⟨by omega, rfl⟩
    · intro r hr _ hcode
      cases hr
      exact absurd rfl hcode
    · intro r hr
      cases hr
      exact hnot
    · intro r hr hcode
      cases hr
      cases hcode
    · intro u
      simp [held, granted, succeeded]

/-- A wait up to where it unlocks the semaphore. -/
theorem Inv.wait {timeout : Option (BitVec 32 × BitVec 32)}
    (hprompt : s.Prompt (.wait t timeout)) (ht : (s.thread t).pc = .idle) :
    (s.wait cfg t timeout).1.Inv ∧
      Conserves s (.wait t timeout, (s.wait cfg t timeout).2) (s.wait cfg t timeout).1 := by
  have hnot := h.not_mem_of_idle ht
  unfold SemaphoreState.wait
  split
  · exact h.waitLocked hprompt ht
  · rename_i tvSec tvNsec
    obtain ⟨hmin, hpoll⟩ := hprompt
    split
    · exact ⟨h, conserves_refused hnot (by decide) fun hcode => nomatch hcode⟩
    rename_i hvalid
    obtain ⟨hnonneg, hlt⟩ := not_or.mp hvalid
    split
    · rename_i hreturns
      refine ⟨h, conserves_refused hnot (by decide) fun _ => ?_⟩
      exact hpoll (waitTicks_eq_returns hreturns) (not_eq_true _ ▸ hnonneg) (not_not.mp hlt)
    · exact h.waitLocked hmin ht

/-- A thread in the call goes on, or its wait is ended. -/
theorem Inv.setThread_quiet {action : SemaphoreAction Thread} {x : SemaphoreThread}
    (haction : action ≠ .signal) (hx : x.Ok s.active) (hpc : x.pc ≠ .idle)
    (ht : (s.thread t).pc ≠ .idle) (hlinked : x.linked = (s.thread t).linked)
    (hres : x.linked = false → x.waitResult = (s.thread t).waitResult) :
    (s.setThread t x).Inv ∧ Conserves s (action, .quiet) (s.setThread t x) := by
  constructor
  · apply h.setThread hx
    rw [hlinked]
    exact and_congr (iff_of_true hpc ht) Iff.rfl
  · apply conserves_quiet haction
    apply held_of_update rfl
    constructor
    · intro hgranted
      exact ⟨ht, hlinked ▸ hgranted.2.1, (hres hgranted.2.1).symm.trans hgranted.2.2⟩
    · intro hgranted
      have hfalse : x.linked = false := hlinked.trans hgranted.2.1
      exact ⟨hpc, hfalse, (hres hfalse).trans hgranted.2.2⟩

/-- The wait of a thread is ended. -/
theorem Inv.endWait {action : SemaphoreAction Thread} {result : ℕ}
    (haction : action ≠ .signal) (hwaiting : (s.thread t).waiting = true)
    (hresult : result ≠ kernSuccess) :
    (s.endWait t result).Inv ∧ Conserves s (action, .quiet) (s.endWait t result) := by
  have hx := h.thread t
  obtain ⟨hpc, hlinked, hwoken, haborting⟩ := hx.waiting hwaiting
  refine h.setThread_quiet haction ?_ hpc hpc rfl fun hfalse => ?_
  · constructor
    · intro hfalse
      cases hfalse
    · intro hpc
      exact absurd hpc haborting
    · intro _
      exact hresult
    · intro _ _ _
      exact hresult
    · exact hx.found
  · exact absurd (hlinked.symm.trans hfalse) Bool.noConfusion

/-- A thread leaves the call. -/
theorem Inv.leave (hlinked : (s.thread t).linked = false) :
    (s.setThread t { s.thread t with pc := .idle }).Inv := by
  apply h.setThread
  · constructor
    · intro hwaiting
      have hlinked' := ((h.thread t).waiting hwaiting).2.1
      rw [hlinked] at hlinked'
      cases hlinked'
    · intro hpc
      cases hpc
    · intro hpc
      cases hpc
    · intro hpc
      exact absurd rfl hpc
    · intro hpc
      exact absurd rfl hpc
  · exact iff_of_false (fun hin => hin.1 rfl) fun hin => by
      rw [hlinked] at hin
      cases hin.2

/-- A thread finds that its operation was completed. -/
theorem Inv.test (ht : (s.thread t).pc = .woken) (hlinked : (s.thread t).linked = false) :
    (s.leave t (s.thread t).waitResult).1.Inv ∧
      Conserves s (.test t, (s.leave t (s.thread t).waitResult).2)
        (s.leave t (s.thread t).waitResult).1 := by
  have hpc : (s.thread t).pc ≠ .idle := by simp [ht]
  refine ⟨h.leave hlinked, conserves_leave ?_ rfl rfl ?_ ?_ ((h.thread t).found hpc)⟩
  · intro hsignal
    cases hsignal
  · exact (h.leave hlinked).not_mem_of_idle (by rw [setThread_thread_self])
  · exact ⟨fun hcode => ⟨hpc, hlinked, hcode⟩, fun hgranted => hgranted.2.2⟩

/-- A thread takes itself off the queue. -/
theorem Inv.abort (hstep : Step cfg s l s') (hl : l.1 = .abort t) : s'.Inv ∧ Conserves s l s' := by
  obtain ⟨action, output⟩ := l
  cases hl
  simp only [Step, step] at hstep
  split at hstep
  · rename_i haborting
    have hpc : (s.thread t).pc ≠ .idle := by simp [haborting]
    have hcode := (h.thread t).code haborting
    have hnotgranted : ¬(s.thread t).Granted := fun hgranted => hcode hgranted.2.2
    have hnot : ∀ x : SemaphoreThread, x.pc = .idle → ¬(x.pc ≠ .idle ∧ x.linked = true) :=
      fun x hx hin => hin.1 hx
    have hfailure : (if (s.thread t).waitResult = threadTimedOut then kernOperationTimedOut
        else kernAborted) = kernSuccess ↔ (s.thread t).Granted := by
      refine iff_of_false ?_ hnotgranted
      split
      · decide
      · decide
    split at hstep
    · split at hstep
      · rename_i hactive hmem
        cases hstep
        have hx : SemaphoreThread.Ok { s.thread t with pc := .idle } s.active := by
          constructor
          · intro hwaiting
            exact absurd haborting ((h.thread t).waiting hwaiting).2.2.2
          · intro hpc
            cases hpc
          · intro hpc
            cases hpc
          · intro hpc
            exact absurd rfl hpc
          · intro hpc
            exact absurd rfl hpc
        have hinv := h.erase hmem hx fun hin => hin.1 rfl
        refine ⟨hinv, conserves_leave ?_ rfl rfl ?_ hfailure ((h.thread t).found hpc)⟩
        · intro hsignal
          cases hsignal
        · exact hinv.not_mem_of_idle (by rw [setThread_thread_self])
      · cases hstep
    · rename_i hinactive
      cases hstep
      have hempty := h.count.1 (h.inactive (not_eq_true _ ▸ hinactive))
      have hlinked : (s.thread t).linked = false := by
        by_contra hlinked
        have hmem := (h.mem_iff t).mpr ⟨hpc, not_eq_false _ ▸ hlinked⟩
        rw [hempty] at hmem
        cases hmem
      have hinv := h.leave hlinked
      refine ⟨hinv, conserves_leave ?_ rfl rfl ?_ hfailure ((h.thread t).found hpc)⟩
      · intro hsignal
        cases hsignal
      · exact hinv.not_mem_of_idle (by rw [setThread_thread_self])
  · cases hstep

/-- Some of the threads at the front of the queue are granted signals. -/
theorem Inv.grantFirst {action : SemaphoreAction Thread} {n : ℕ} {count : ℤ}
    {output : SemaphoreOutput Thread} (hn : n ≤ s.blocked.length)
    (hwaits : ∀ t ∈ s.blocked.take n, (s.thread t).waiting = true)
    (hcount : (0 ≤ count → s.blocked.drop n = []) ∧
      (count < 0 → ((s.blocked.drop n).length : ℤ) = -count))
    (hrange : -2147483648 ≤ count ∧ count < 2147483648)
    (hinactive : s.active = false → 0 ≤ count)
    (hsignal : action = .signal → s.active = true → count = s.count + 1 ∧
      (0 ≤ s.count ∧ s.blocked.take n = [] ∨ s.count < 0 ∧ ∃ t, s.blocked.take n = [t]))
    (hstep : (SemaphoreState.completeFirst { s with count := count } kernSuccess n).map
      (·, ⟨s.blocked.take n, none⟩) = some (s', output)) :
    s'.Inv ∧ Conserves s (action, output) s' := by
  obtain ⟨s₁, hs₁, hinv, hcount₁, hthread⟩ := @Inv.completeFirst _ _ _ h kernSuccess n s.active count hn
    (fun hactive => hactive) (fun t ht => Or.inl (hwaits t ht)) hcount hrange hinactive
  rw [hs₁] at hstep
  cases hstep
  refine ⟨hinv, conserves_grant _ h (fun t ht => ?_) ?_ hthread ?_⟩
  · exact ⟨mem_of_mem_take ht, hwaits t ht⟩
  · exact h.nodup.sublist (take_sublist _ _)
  · rw [hcount₁]
    exact hsignal

/-- One signal. -/
theorem Inv.signal (hprompt : s.Prompt l.1) (hstep : Step cfg s l s')
    (hl : l.1 = .signal) : s'.Inv ∧ Conserves s l s' := by
  obtain ⟨action, output⟩ := l
  cases hl
  simp only [Step, step] at hstep
  split at hstep
  · rename_i hactive
    cases hstep
    refine ⟨h, conserves_grant [] h (fun t ht => nomatch ht) nodup_nil ?_ ?_⟩
    · intro t
      rw [if_neg not_mem_nil]
    · intro _ hactive'
      rw [hactive] at hactive'
      cases hactive'
  rename_i hactive
  have hactive' : s.active = true := not_eq_false _ ▸ hactive
  obtain ⟨hmax, hwaits⟩ := hprompt hactive'
  have hrange := h.range
  rw [wrapInt_eq (by omega) (by omega)] at hstep
  split at hstep
  · rename_i hcount
    cases hstep
    refine ⟨@Inv.setCount _ s h s.active _ (fun h => h) hcount (by omega) (by omega), ?_⟩
    refine conserves_grant [] h (fun t ht => nomatch ht) nodup_nil ?_ ?_
    · intro t
      rw [if_neg not_mem_nil]
    · intro _ _
      exact ⟨rfl, Or.inl ⟨hcount, rfl⟩⟩
  · rename_i hcount
    have hneg : s.count < 0 := by omega
    have hlength := h.count.2 hneg
    have hdrop := length_drop (i := 1) (l := s.blocked)
    apply h.grantFirst (by omega) hwaits _ _ _ _ hstep
    · constructor
      · intro hnonneg
        exact eq_nil_of_length_eq_zero (by omega)
      · intro _
        omega
    · omega
    · intro hfalse
      exact absurd hfalse hactive
    · intro _ _
      refine ⟨rfl, Or.inr ⟨hneg, ?_⟩⟩
      cases hblocked : s.blocked with
      | nil =>
        rw [hblocked] at hlength
        simp only [length_nil] at hlength
        omega
      | cons t _ => exact ⟨t, rfl⟩

/-- Signals to all. -/
theorem Inv.signalAll (hprompt : s.Prompt l.1) (hstep : Step cfg s l s')
    (hl : l.1 = .signalAll) : s'.Inv ∧ Conserves s l s' := by
  obtain ⟨action, output⟩ := l
  cases hl
  simp only [Step, step] at hstep
  split at hstep
  · cases hstep
    refine ⟨h, conserves_quiet ?_ fun _ => rfl⟩
    intro hsignal
    cases hsignal
  rename_i hactive
  split at hstep
  · rename_i hcount
    cases hstep
    refine ⟨@Inv.setCount _ s h s.active 0 (fun h => h) hcount le_rfl (by decide),
      conserves_quiet ?_ fun _ => rfl⟩
    intro hsignal
    cases hsignal
  · rename_i hcount
    have hlength := h.count.2 (by omega)
    have hn : (-s.count).toNat = s.blocked.length := by omega
    rw [hn] at hstep
    apply h.grantFirst le_rfl _ _ _ _ _ hstep
    · intro t ht
      exact hprompt (not_eq_false _ ▸ hactive) t (mem_of_mem_take ht)
    · exact ⟨fun _ => drop_length, fun hneg => absurd hneg (lt_irrefl 0)⟩
    · decide
    · intro _
      exact le_rfl
    · intro hsignal
      cases hsignal

/-- A signal to a thread. -/
theorem Inv.signalThread (hprompt : s.Prompt l.1) (hstep : Step cfg s l s')
    (hl : l.1 = .signalThread t) : s'.Inv ∧ Conserves s l s' := by
  obtain ⟨action, output⟩ := l
  cases hl
  simp only [Step, step] at hstep
  split at hstep
  · cases hstep
    refine ⟨h, conserves_quiet ?_ fun _ => rfl⟩
    intro hsignal
    cases hsignal
  rename_i hactive
  split at hstep
  · rename_i hmem
    cases hstep
    have hwaiting := hprompt (not_eq_false _ ▸ hactive) hmem
    have hx : ((s.thread t).complete kernSuccess).Ok s.active :=
      (h.thread t).complete (Or.inl hwaiting)
    have hinv := h.erase hmem hx fun hin => by
      rw [complete_linked] at hin
      cases hin.2
    refine ⟨hinv, conserves_grant _ h (fun u hu => ?_) (nodup_singleton t) (fun u => ?_) ?_⟩
    · rw [mem_singleton] at hu
      rw [hu]
      exact ⟨hmem, hwaiting⟩
    · by_cases hu : u = t
      · subst hu
        rw [if_pos (mem_singleton_self u)]
        exact setThread_thread_self _
      · rw [if_neg (by simp [hu])]
        exact setThread_thread_of_ne _ hu
    · intro hsignal
      cases hsignal
  · cases hstep
    refine ⟨h, conserves_quiet ?_ fun _ => rfl⟩
    intro hsignal
    cases hsignal

/-- The semaphore is destroyed. -/
theorem Inv.destroy (hstep : Step cfg s l s') (hl : l.1 = .destroy) :
    s'.Inv ∧ Conserves s l s' := by
  obtain ⟨action, output⟩ := l
  cases hl
  simp only [Step, step] at hstep
  split at hstep
  · cases hstep
    refine ⟨h, conserves_quiet ?_ fun _ => rfl⟩
    intro hsignal
    cases hsignal
  split at hstep
  · rename_i hcount
    cases hstep
    refine ⟨h.setCount (fun hfalse => nomatch hfalse) hcount hcount h.range.2,
      conserves_quiet ?_ fun _ => rfl⟩
    intro hsignal
    cases hsignal
  · rename_i hcount
    have hlength := h.count.2 (by omega)
    have hn : (-s.count).toNat = s.blocked.length := by omega
    rw [hn] at hstep
    obtain ⟨s₁, hs₁, hinv, -, hthread⟩ := @Inv.completeFirst _ _ _ h kernSemaphoreDestroyed _ false 1 le_rfl
      (fun hfalse => nomatch hfalse) (fun _ _ => Or.inr rfl)
      (And.intro (fun _ => drop_length) fun hneg => absurd hneg (by decide)) (by decide)
      fun _ => by decide
    rw [hs₁] at hstep
    cases hstep
    refine ⟨hinv, conserves_quiet ?_ fun t => ?_⟩
    · intro hsignal
      cases hsignal
    simp only [held, hthread, take_length]
    by_cases ht : t ∈ s.blocked
    · obtain ⟨hpc, hlinked⟩ := (h.mem_iff t).mp ht
      rw [if_neg (not_granted_of_linked hlinked), if_pos ht, if_neg]
      intro hgranted
      have hres := hgranted.2.2
      rw [complete_waitResult] at hres
      split at hres
      · cases hres
      · rename_i hwaiting
        exact (h.thread t).ended hpc hlinked (not_eq_true _ ▸ hwaiting) hres
    · rw [if_neg ht]

/-- What a step under the condition preserves, and what it does with signals. -/
theorem Inv.step (hprompt : s.Prompt l.1) (hstep : Step cfg s l s') :
    s'.Inv ∧ Conserves s l s' := by
  obtain ⟨action, output⟩ := l
  cases action with
  | wait t timeout =>
    simp only [Step, SemaphoreState.step] at hstep
    split at hstep
    · rename_i ht
      have hwait : (s.wait cfg t timeout).1.Inv ∧ _ := h.wait hprompt ht
      rw [Option.some.inj hstep] at hwait
      exact hwait
    · cases hstep
  | block t =>
    simp only [Step, SemaphoreState.step] at hstep
    split at hstep
    · rename_i timed hpc
      cases hstep
      have hx := h.thread t
      have hne : (s.thread t).pc ≠ .idle := by simp [hpc]
      refine h.setThread_quiet ?_ ⟨fun hwaiting => ?_, ?_, ?_, ?_, ?_⟩ ?_ hne rfl fun _ => rfl
      · intro hsignal
        cases hsignal
      · obtain ⟨-, hlinked, -⟩ := hx.waiting hwaiting
        simp [hlinked]
      · intro hpc
        cases hpc
      · intro hpc
        cases hpc
      · intro _
        exact hx.ended hne
      · intro _
        exact hx.found hne
      · intro hpc
        cases hpc
    · cases hstep
  | wake t =>
    simp only [Step, SemaphoreState.step] at hstep
    split at hstep
    · rename_i hwake
      cases hstep
      have hx := h.thread t
      have hne : (s.thread t).pc ≠ .idle := by simp [hwake.1]
      refine h.setThread_quiet ?_ ⟨fun hwaiting => ?_, ?_, ?_, ?_, ?_⟩ ?_ hne rfl fun _ => rfl
      · intro hsignal
        cases hsignal
      · exact absurd (hwaiting.symm.trans hwake.2) Bool.noConfusion
      · intro hpc
        cases hpc
      · intro hpc
        cases hpc
      · intro _
        exact hx.ended hne
      · intro _
        exact hx.found hne
      · intro hpc
        cases hpc
    · cases hstep
  | test t =>
    simp only [Step, SemaphoreState.step] at hstep
    split at hstep
    · rename_i hwoken
      split at hstep
      · rename_i hlinked
        cases hstep
        have hx := h.thread t
        have hne : (s.thread t).pc ≠ .idle := by simp [hwoken]
        have hnot : (s.thread t).waiting = false := by
          by_contra hwaiting
          exact (hx.waiting (not_eq_false _ ▸ hwaiting)).2.2.1 hwoken
        refine h.setThread_quiet ?_ ⟨fun hwaiting => ?_, ?_, ?_, ?_, ?_⟩ ?_ hne rfl fun _ => rfl
        · intro hsignal
          cases hsignal
        · exact absurd (hwaiting.symm.trans hnot) Bool.noConfusion
        · intro _ hfalse
          exact absurd (hlinked.symm.trans hfalse) Bool.noConfusion
        · intro _
          exact hx.ended hne hlinked hnot
        · intro _
          exact hx.ended hne
        · intro _
          exact hx.found hne
        · intro hpc
          cases hpc
      · rename_i hlinked
        cases hstep
        exact h.test hwoken (not_eq_true _ ▸ hlinked)
    · cases hstep
  | abort t => exact h.abort hstep rfl
  | signal => exact h.signal hprompt hstep rfl
  | signalAll => exact h.signalAll hprompt hstep rfl
  | signalThread t => exact h.signalThread hprompt hstep rfl
  | destroy => exact h.destroy hstep rfl
  | threadTimeout t =>
    simp only [Step, SemaphoreState.step] at hstep
    split at hstep
    · rename_i hwaiting
      cases hstep
      exact h.endWait (fun hsignal => nomatch hsignal) hwaiting.2 (by decide)
    · cases hstep
  | threadAbort t =>
    simp only [Step, SemaphoreState.step] at hstep
    split at hstep
    · rename_i hwaiting
      cases hstep
      exact h.endWait (fun hsignal => nomatch hsignal) hwaiting (by decide)
    · cases hstep
  | setPriority t priority =>
    cases hstep
    refine ⟨⟨h.thread, h.nodup, h.mem_iff, h.count, h.range, h.inactive⟩, ?_⟩
    exact conserves_quiet (fun hsignal => nomatch hsignal) fun _ => rfl

/-- The sections that take threads off the queue find them there. -/
theorem Inv.finds_blocked : (s.step cfg .signal).isSome ∧ (s.step cfg .signalAll).isSome ∧
    (s.step cfg .destroy).isSome ∧ ∀ t, (s.thread t).pc = .aborting → (s.step cfg (.abort t)).isSome := by
  have hcomplete : ∀ (active : Bool) (count : ℤ) (result n : ℕ), n ≤ s.blocked.length →
      ∃ s', SemaphoreState.completeFirst { s with
        active := active
        count := count } result n = some s' := by
    intro active count result n hn
    obtain ⟨s', hs', -⟩ := @completeFirst_eq _ { s with
      active := active
      count := count } _ result n h.nodup hn
    exact ⟨s', hs'⟩
  have hlength : ¬s.count ≥ 0 → (s.blocked.length : ℤ) = -s.count :=
    fun hcount => h.count.2 (by omega)
  refine ⟨?_, ?_, ?_, fun t haborting => ?_⟩
  · simp only [SemaphoreState.step]
    split
    · rfl
    split
    · rfl
    · rename_i hcount
      have hl := hlength hcount
      obtain ⟨s', hs'⟩ := hcomplete s.active (wrapInt (s.count + 1)) kernSuccess 1 (by omega)
      rw [hs']
      rfl
  · simp only [SemaphoreState.step]
    split
    · rfl
    split
    · rfl
    · rename_i hcount
      have hl := hlength hcount
      obtain ⟨s', hs'⟩ := hcomplete s.active 0 kernSuccess (-s.count).toNat (by omega)
      rw [hs']
      rfl
  · simp only [SemaphoreState.step]
    split
    · rfl
    split
    · rfl
    · rename_i hcount
      have hl := hlength hcount
      obtain ⟨s', hs'⟩ := hcomplete false 1 kernSemaphoreDestroyed (-s.count).toNat (by omega)
      rw [hs']
      rfl
  · simp only [SemaphoreState.step]
    rw [if_pos haborting]
    split
    · rename_i hactive
      have hmem : t ∈ s.blocked := by
        refine (h.mem_iff t).mpr ⟨by simp [haborting], ?_⟩
        by_contra hlinked
        have hfalse := (h.thread t).aborting haborting (not_eq_true _ ▸ hlinked)
        rw [hactive] at hfalse
        cases hfalse
      rw [if_pos hmem]
      rfl
    · rfl

end

/-- In every run in which signals take threads off the queue only while they wait, no time of no
seconds is given while the count is positive, and the count stays an `int`, the queue is as long as the count says, every
signal raises the count or is granted to one thread, and the signals that a thread is granted are
the successes that it returns. -/
theorem signals_conserved {value : Fin (2 ^ 31)}
    {trace : List (SemaphoreState Thread × SemaphoreAction Thread × SemaphoreOutput Thread)}
    (hrun : Run (Step cfg) (init value) trace s) (hok : ∀ x ∈ trace, Prompt x.1 x.2.1) :
    ((0 ≤ s.count → s.blocked = []) ∧ (s.count < 0 → (s.blocked.length : ℤ) = -s.count)) ∧
      s.blocked.Nodup ∧
      (∀ t, t ∈ s.blocked ↔ (s.thread t).pc ≠ .idle ∧ (s.thread t).linked = true) ∧
      (∀ t, (s.thread t).Granted → (s.thread t).waiting = false ∧ (s.thread t).pc ≠ .aborting) ∧
      (∀ x ∈ trace, ∀ s', Step cfg x.1 x.2 s' → Conserves x.1 x.2 s') ∧
      (∀ t, total (granted t) trace = held t s + total (succeeded t) trace) ∧
      (s.step cfg .signal).isSome ∧ (s.step cfg .signalAll).isSome ∧ (s.step cfg .destroy).isSome ∧
      ∀ t, (s.thread t).pc = .aborting → (s.step cfg (.abort t)).isSome := by
  have hinit := inv_init Thread value
  have hsteps : ∀ (s : SemaphoreState Thread) l s', s.Inv → Prompt s l.1 → Step cfg s l s' → s'.Inv :=
    fun _ _ _ h hl hstep => (h.step hl hstep).1
  have hinv := @invariant _ _ _ _ _ _ (fun s l => Prompt s l.1) Inv hrun hok hinit hsteps
  refine ⟨hinv.count, hinv.nodup, hinv.mem_iff, fun t ht => hinv.granted_goes_on ht, ?_, ?_,
    hinv.finds_blocked⟩
  · intro x hx s' hstep
    obtain ⟨hbefore, hl, -⟩ :=
      @invariant_of_mem _ _ _ _ _ _ (fun s l => Prompt s l.1) Inv hrun hok hinit hsteps x hx
    exact (hbefore.step hl hstep).2
  · intro t
    have hbalance := @balance _ _ _ _ _ _ Inv ℕ _ (fun s l => Prompt s l.1) (held t) (granted t)
      (succeeded t) hrun hok hinit hsteps fun _ _ _ h hl hstep => (h.step hl hstep).2.balance t
    have hzero : held t (init value : SemaphoreState Thread) = 0 :=
      if_neg fun hgranted => hgranted.1 rfl
    rw [hzero, Nat.zero_add] at hbalance
    exact hbalance

/-- Threads that enter the queue in order, and a clock with 100 ticks a second. -/
def oneQueue : SemaphoreConfig := ⟨false, 100⟩

/-- A thread waits and blocks. -/
def waitAndBlock : List (SemaphoreAction Unit) := [.block (), .wait () none]

/-- A thread waits, and a signal makes it return success. -/
theorem waitAndSignal_conserved : ∃ trace s, Run (Step oneQueue) (init 0) trace s ∧
    (s.thread ()).pc = .idle ∧ total (succeeded ()) trace = 1 ∧
      total (granted ()) trace = held () s + total (succeeded ()) trace := by
  have h : (replay (step oneQueue) (init 0) (.test () :: .wake () :: .signal :: waitAndBlock)).map
      (fun r => decide ((r.2.thread ()).pc = .idle ∧ total (succeeded ()) r.1 = 1 ∧
        ∀ x ∈ r.1, Prompt x.1 x.2.1)) = some true := by
    decide +kernel
  obtain ⟨⟨trace, s⟩, hreplay, hres⟩ := Option.map_eq_some_iff.mp h
  obtain ⟨hidle, hsucceeded, hok⟩ := of_decide_eq_true hres
  have hrun := of_replay_step hreplay
  exact ⟨trace, s, hrun, hidle, hsucceeded, (signals_conserved hrun hok).2.2.2.2.2.1 ()⟩

/-- A thread is aborted before the signal takes it off the queue: it returns that it was
interrupted, and the signal is lost. -/
theorem abortAndSignal_loses : ∃ trace s, Run (Step oneQueue) (init 0) trace s ∧
    (s.thread ()).pc = .idle ∧ s.count = 0 ∧ total (granted ()) trace = 1 ∧
      total (succeeded ()) trace = 0 ∧
      trace.head?.map (·.2.2.returned) = some (some ⟨(), threadInterrupted, true, 0⟩) := by
  have h : (replay (step oneQueue) (init 0)
      (.test () :: .wake () :: .signal :: .threadAbort () :: waitAndBlock)).map
      (fun r => decide ((r.2.thread ()).pc = .idle ∧ r.2.count = 0 ∧
        total (granted ()) r.1 = 1 ∧ total (succeeded ()) r.1 = 0 ∧
        r.1.head?.map (·.2.2.returned) = some (some ⟨(), threadInterrupted, true, 0⟩))) =
          some true := by
    decide +kernel
  obtain ⟨⟨trace, s⟩, hreplay, hres⟩ := Option.map_eq_some_iff.mp h
  exact ⟨trace, s, of_replay_step hreplay, of_decide_eq_true hres⟩

end Sections

end SemaphoreState

end MachVirtuTerm
