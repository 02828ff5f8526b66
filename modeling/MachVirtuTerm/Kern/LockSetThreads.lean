import MachVirtuTerm.Kern.LockSetInv

/-!
# Passing a ulock on to a thread

Between the section that passes a ulock on and the end of the wait of the thread that gets it, the
thread has a promise that the other is about to keep. If no abort comes in between, the thread
returns what it was promised.
-/

open Function

namespace MachVirtuTerm

variable {Thread Id : Type*}

/-- The thread whose wait a thread is about to end, and with which result. -/
def UlockThread.passes (x : UlockThread Thread Id) : Option (Thread × ℕ) :=
  match x.pc with
  | .complete _ _ target result => some (target, result)
  | .clearWait _ _ target result => some (target, result)
  | _ => none

/-- A thread is about to assert that it waits, or does wait. -/
def UlockThread.Sleeping (x : UlockThread Thread Id) : Prop :=
  (∃ wait id, x.pc = .parked wait id) ∨ x.waiting = true

/-- A thread waits for something, or is about to. -/
def UlockThread.Parked (x : UlockThread Thread Id) (wait : UlockWait) (id : Id) : Prop :=
  x.pc = .parked wait id ∨ x.pc = .asleep wait id ∧ x.waiting = true

/-- The wait of a thread was ended after its operation was completed. -/
def UlockThread.Done (x : UlockThread Thread Id) (result : ℕ) : Prop :=
  ((∃ wait id, x.pc = .asleep wait id) ∨ ∃ wait id, x.pc = .woken wait id) ∧
    x.waiting = false ∧ x.linked = false ∧ x.waitResult = result

/-- What holds of a thread by itself. -/
structure UlockThread.Ok (x : UlockThread Thread Id) : Prop where
  waiting : x.waiting = true → ∃ wait id, x.pc = .asleep wait id
  /-- Who is in a queue and was not passed the ulock finds that it is linked. -/
  linked : x.promised = none → ∀ id,
    x.pc = .parked .acquire id ∨ x.pc = .asleep .acquire id ∨ x.pc = .woken .acquire id →
      x.linked = true
  /-- A wait that nobody ended on purpose was interrupted. -/
  interrupted : x.promised = none → x.waiting = false → ∀ wait id,
    x.pc = .asleep wait id ∨ x.pc = .woken wait id → x.waitResult = threadInterrupted
  /-- Who aborts was promised nothing. -/
  aborting : ∀ wait id, x.pc = .aborting wait id → x.promised = none
  /-- Who was promised something waits, or did. -/
  promised : x.promised ≠ none → (∃ wait id, x.pc = .parked wait id) ∨
    (∃ wait id, x.pc = .asleep wait id) ∨ ∃ wait id, x.pc = .woken wait id

/-- The promises between threads. -/
structure PromisesOk (thread : Thread → UlockThread Thread Id) : Prop where
  ok : ∀ t, (thread t).Ok
  /-- Who is about to end a wait has promised the result. -/
  passes : ∀ t target result, (thread t).passes = some (target, result) →
    (thread target).promised = some result ∧ (thread target).Sleeping
  cleared : ∀ t pass id target result, (thread t).pc = .clearWait pass id target result →
    (thread target).linked = false
  unique : ∀ t t' target result result', (thread t).passes = some (target, result) →
    (thread t').passes = some (target, result') → t = t'
  /-- What was promised is about to be done, or was. -/
  promised : ∀ t result, (thread t).promised = some result →
    (∃ u, (thread u).passes = some (t, result)) ∨ (thread t).Done result

section Promises

variable {thread : Thread → UlockThread Thread Id} {t : Thread} {x : UlockThread Thread Id}

/-- Nobody is about to end his own wait. -/
theorem PromisesOk.target_ne (h : PromisesOk thread) {target : Thread} {result : ℕ}
    (hpasses : (thread t).passes = some (target, result)) : target ≠ t ∧ (thread target).passes = none := by
  have hnone : (thread target).passes = none := by
    have hsleeping := (h.passes t target result hpasses).2
    unfold UlockThread.passes
    rcases hsleeping with ⟨wait, id, hpc⟩ | hwaiting
    · rw [hpc]
    · obtain ⟨wait, id, hpc⟩ := (h.ok target).waiting hwaiting
      rw [hpc]
  refine ⟨?_, hnone⟩
  rintro rfl
  rw [hnone] at hpasses
  cases hpasses

/-- Threads that wait and were promised nothing find their operations finished. -/
theorem PromisesOk.destroy (h : PromisesOk thread) {thread' : Thread → UlockThread Thread Id}
    (destroys : Thread → Prop) {result : ℕ}
    (hdestroys : ∀ v, destroys v → (thread v).waiting = true ∧ (thread v).promised = none ∧
      thread' v = { thread v with
        waiting := false
        waitResult := result
        linked := false
        promised := some result })
    (hkeeps : ∀ v, ¬destroys v → thread' v = thread v) : PromisesOk thread' := by
  have hpc : ∀ v, (thread' v).pc = (thread v).pc := by
    intro v
    by_cases hv : destroys v
    · rw [(hdestroys v hv).2.2]
    · rw [hkeeps v hv]
  have hsame : ∀ v, (thread' v).passes = (thread v).passes := by
    intro v
    unfold UlockThread.passes
    rw [hpc]
  have htarget : ∀ v g c, (thread v).passes = some (g, c) → ¬destroys g := by
    intro v g c hv hg
    have hp := (h.passes v g c hv).1
    rw [(hdestroys g hg).2.1] at hp
    cases hp
  refine ⟨fun v => ?_, fun v g c hv => ?_, fun v pass id g c hv => ?_,
    fun v v' g c c' hv hv' => ?_, fun v c hv => ?_⟩
  · have hold := h.ok v
    by_cases hv : destroys v
    · obtain ⟨hwaiting, -, heq⟩ := hdestroys v hv
      obtain ⟨wait, id, hasleep⟩ := hold.waiting hwaiting
      rw [heq]
      refine ⟨(fun hfalse => nomatch hfalse), (fun hfalse => nomatch hfalse),
        (fun hfalse => nomatch hfalse), fun _ _ haborting => ?_, fun _ => ?_⟩
      · exact absurd (hasleep.symm.trans haborting) fun hfalse => nomatch hfalse
      · exact Or.inr (Or.inl ⟨wait, id, hasleep⟩)
    · rw [hkeeps v hv]
      exact hold
  · rw [hsame] at hv
    rw [hkeeps g (htarget v g c hv)]
    exact h.passes v g c hv
  · rw [hpc] at hv
    have hpv : (thread v).passes = some (g, c) := by
      unfold UlockThread.passes
      rw [hv]
    rw [hkeeps g (htarget v g c hpv)]
    exact h.cleared v pass id g c hv
  · rw [hsame] at hv hv'
    exact h.unique v v' g c c' hv hv'
  · by_cases hv' : destroys v
    · obtain ⟨hwaiting, -, heq⟩ := hdestroys v hv'
      rw [heq] at hv ⊢
      exact Or.inr ⟨Or.inl ((h.ok v).waiting hwaiting), rfl, rfl, Option.some.inj hv⟩
    · rw [hkeeps v hv'] at hv ⊢
      refine (h.promised v c hv).imp_left fun hcoming => ?_
      obtain ⟨u, hu⟩ := hcoming
      exact ⟨u, (hsame u).trans hu⟩

variable [DecidableEq Thread]

/-- A thread that passes nothing on and that nobody passes anything to changes. -/
theorem PromisesOk.update (h : PromisesOk thread) (hx : x.Ok) (hpasses : (thread t).passes = none)
    (hxpasses : x.passes = none) (htarget : ∀ u result, (thread u).passes ≠ some (t, result))
    (hpromised : x.promised = none) : PromisesOk (Function.update thread t x) := by
  have hother : ∀ v, v ≠ t → Function.update thread t x v = thread v :=
    fun v hv => update_of_ne hv ..
  have hself : Function.update thread t x t = x := update_self ..
  have hback : ∀ v target result, (Function.update thread t x v).passes = some (target, result) →
      v ≠ t ∧ target ≠ t ∧ (thread v).passes = some (target, result) := by
    intro v target result hv
    have hvt : v ≠ t := by
      rintro rfl
      rw [hself, hxpasses] at hv
      cases hv
    rw [hother v hvt] at hv
    refine ⟨hvt, ?_, hv⟩
    rintro rfl
    exact htarget v result hv
  refine ⟨fun v => ?_, fun v target result hv => ?_, fun v pass id target result hv => ?_,
    fun v v' target result result' hv hv' => ?_, fun v result hv => ?_⟩
  · by_cases hvt : v = t
    · subst hvt
      rw [hself]
      exact hx
    · rw [hother v hvt]
      exact h.ok v
  · obtain ⟨-, htt, hv⟩ := hback v target result hv
    rw [hother target htt]
    exact h.passes v target result hv
  · have hpv : (Function.update thread t x v).passes = some (target, result) := by
      unfold UlockThread.passes
      rw [hv]
    obtain ⟨hvt, htt, -⟩ := hback v target result hpv
    rw [hother v hvt] at hv
    rw [hother target htt]
    exact h.cleared v pass id target result hv
  · exact h.unique v v' target result result' (hback _ _ _ hv).2.2 (hback _ _ _ hv').2.2
  · have hvt : v ≠ t := by
      rintro rfl
      rw [hself, hpromised] at hv
      cases hv
    rw [hother v hvt] at hv ⊢
    refine (h.promised v result hv).imp_left fun hcoming => ?_
    obtain ⟨u, hu⟩ := hcoming
    refine ⟨u, ?_⟩
    rw [hother u fun hut => ?_]
    · exact hu
    · rw [hut, hpasses] at hu
      cases hu

/-- A thread that passes nothing on goes on in its wait. -/
theorem PromisesOk.advance (h : PromisesOk thread) (hx : x.Ok) (hpasses : (thread t).passes = none)
    (hxpasses : x.passes = none) (hpromised : x.promised = (thread t).promised)
    (hlinked : x.linked = (thread t).linked)
    (hsleeping : (thread t).promised ≠ none → (thread t).Sleeping → x.Sleeping)
    (hdone : ∀ result, (thread t).Done result → x.Done result) :
    PromisesOk (Function.update thread t x) := by
  have hother : ∀ v, v ≠ t → Function.update thread t x v = thread v :=
    fun v hv => update_of_ne hv ..
  have hself : Function.update thread t x t = x := update_self ..
  have hsame : ∀ v, (Function.update thread t x v).passes = (thread v).passes := by
    intro v
    by_cases hvt : v = t
    · subst hvt
      rw [hself, hxpasses, hpasses]
    · rw [hother v hvt]
  refine ⟨fun v => ?_, fun v target result hv => ?_, fun v pass id target result hv => ?_,
    fun v v' target result result' hv hv' => ?_, fun v result hv => ?_⟩
  · by_cases hvt : v = t
    · subst hvt
      rw [hself]
      exact hx
    · rw [hother v hvt]
      exact h.ok v
  · rw [hsame] at hv
    obtain ⟨hp, hs⟩ := h.passes v target result hv
    by_cases htt : target = t
    · subst htt
      rw [hself]
      exact ⟨hpromised.trans hp, hsleeping (by simp [hp]) hs⟩
    · rw [hother target htt]
      exact ⟨hp, hs⟩
  · have hvt : v ≠ t := by
      rintro rfl
      rw [hself] at hv
      unfold UlockThread.passes at hxpasses
      rw [hv] at hxpasses
      cases hxpasses
    rw [hother v hvt] at hv
    have hcleared := h.cleared v pass id target result hv
    by_cases htt : target = t
    · subst htt
      rw [hself, hlinked]
      exact hcleared
    · rw [hother target htt]
      exact hcleared
  · rw [hsame] at hv hv'
    exact h.unique v v' target result result' hv hv'
  · simp only [hsame]
    by_cases hvt : v = t
    · subst hvt
      rw [hself] at hv ⊢
      exact (h.promised v result (hpromised.symm.trans hv)).imp_right (hdone result)
    · rw [hother v hvt] at hv ⊢
      exact h.promised v result hv

/-- A thread passes a ulock on to another that waits, or is about to. -/
theorem PromisesOk.promise (h : PromisesOk thread) {y : UlockThread Thread Id} {target : Thread}
    {result : ℕ} (hne : target ≠ t) (hpasses : (thread t).passes = none)
    (htarget : ∀ u result, (thread u).passes ≠ some (t, result)) (hy : y.Ok)
    (hypasses : y.passes = some (target, result))
    (hypc : ∀ pass id target result, y.pc ≠ .clearWait pass id target result)
    (hypromised : y.promised = none) (hxpasses : (thread target).passes = none)
    (hsleeping : (thread target).Sleeping) (hpromised : (thread target).promised = none) :
    PromisesOk (Function.update (Function.update thread target
      { thread target with promised := some result }) t y) := by
  have hother : ∀ v, v ≠ t → v ≠ target → Function.update (Function.update thread target
      { thread target with promised := some result }) t y v = thread v := by
    intro v hvt hvtarget
    rw [update_of_ne hvt, update_of_ne hvtarget]
  have hself : Function.update (Function.update thread target
      { thread target with promised := some result }) t y t = y := update_self ..
  have hgets : Function.update (Function.update thread target
      { thread target with promised := some result }) t y target =
        { thread target with promised := some result } := by
    rw [update_of_ne hne, update_self]
  have hgetspasses : ({ thread target with promised := some result } :
      UlockThread Thread Id).passes = none := hxpasses
  generalize hthread' : Function.update (Function.update thread target
      { thread target with promised := some result }) t y = thread' at *
  have hback : ∀ v g c, v ≠ t → (thread' v).passes = some (g, c) →
      v ≠ target ∧ g ≠ t ∧ g ≠ target ∧ (thread v).passes = some (g, c) := by
    intro v g c hvt hv
    have hvtarget : v ≠ target := by
      rintro rfl
      rw [hgets, hgetspasses] at hv
      cases hv
    rw [hother v hvt hvtarget] at hv
    refine ⟨hvtarget, ?_, ?_, hv⟩
    · rintro rfl
      exact htarget v c hv
    · rintro rfl
      have hp := (h.passes v g c hv).1
      rw [hpromised] at hp
      cases hp
  refine ⟨fun v => ?_, fun v g c hv => ?_, fun v pass id g c hv => ?_,
    fun v v' g c c' hv hv' => ?_, fun v c hv => ?_⟩
  · by_cases hvt : v = t
    · rw [hvt, hself]
      exact hy
    by_cases hvtarget : v = target
    · rw [hvtarget, hgets]
      have hold := h.ok target
      refine ⟨hold.waiting, (fun hfalse => nomatch hfalse), (fun hfalse => nomatch hfalse), ?_, ?_⟩
      · intro wait id hpc
        rcases hsleeping with ⟨wait', id', hpc'⟩ | hwaiting
        · exact absurd (hpc'.symm.trans hpc) fun hfalse => nomatch hfalse
        · obtain ⟨wait', id', hpc'⟩ := hold.waiting hwaiting
          exact absurd (hpc'.symm.trans hpc) fun hfalse => nomatch hfalse
      · intro _
        rcases hsleeping with hparked | hwaiting
        · exact Or.inl hparked
        · exact Or.inr (Or.inl (hold.waiting hwaiting))
    · rw [hother v hvt hvtarget]
      exact h.ok v
  · by_cases hvt : v = t
    · rw [hvt, hself, hypasses] at hv
      cases hv
      rw [hgets]
      exact ⟨rfl, hsleeping⟩
    · obtain ⟨-, hgt, hgtarget, hv⟩ := hback v g c hvt hv
      rw [hother g hgt hgtarget]
      exact h.passes v g c hv
  · by_cases hvt : v = t
    · rw [hvt, hself] at hv
      exact absurd hv (hypc pass id g c)
    · have hpv : (thread' v).passes = some (g, c) := by
        unfold UlockThread.passes
        rw [hv]
      obtain ⟨hvtarget, hgt, hgtarget, -⟩ := hback v g c hvt hpv
      rw [hother v hvt hvtarget] at hv
      rw [hother g hgt hgtarget]
      exact h.cleared v pass id g c hv
  · have hpass : ∀ w c, (thread' w).passes = some (g, c) → w ≠ t → g ≠ target :=
      fun w c hw hwt => (hback w g c hwt hw).2.2.1
    have hown : ∀ w c, (thread' w).passes = some (g, c) → w = t → g = target := by
      intro w c hw hwt
      rw [hwt, hself, hypasses] at hw
      exact (Prod.mk.inj (Option.some.inj hw)).1.symm
    by_cases hvt : v = t
    · by_cases hvt' : v' = t
      · rw [hvt, hvt']
      · exact absurd (hown v c hv hvt) (hpass v' c' hv' hvt')
    · by_cases hvt' : v' = t
      · exact absurd (hown v' c' hv' hvt') (hpass v c hv hvt)
      · exact h.unique v v' g c c' (hback v g c hvt hv).2.2.2 (hback v' g c' hvt' hv').2.2.2
  · have hvt : v ≠ t := by
      intro hvt
      rw [hvt, hself, hypromised] at hv
      cases hv
    by_cases hvtarget : v = target
    · rw [hvtarget, hgets] at hv
      refine Or.inl ⟨t, ?_⟩
      rw [hself, hypasses, hvtarget, Option.some.inj hv]
    · rw [hother v hvt hvtarget] at hv ⊢
      refine (h.promised v c hv).imp_left fun hcoming => ?_
      obtain ⟨u, hu⟩ := hcoming
      have hut : u ≠ t := by
        rintro rfl
        rw [hpasses] at hu
        cases hu
      have hutarget : u ≠ target := by
        rintro rfl
        rw [hxpasses] at hu
        cases hu
      exact ⟨u, by rw [hother u hut hutarget]; exact hu⟩

/-- What two threads are when one after the other changes. -/
theorem update_update {y : UlockThread Thread Id} {target : Thread} (hne : target ≠ t) :
    Function.update (Function.update thread target x) t y t = y ∧
      Function.update (Function.update thread target x) t y target = x ∧
        ∀ v, v ≠ t → v ≠ target →
          Function.update (Function.update thread target x) t y v = thread v := by
  refine ⟨update_self .., ?_, fun v hvt hvtarget => ?_⟩
  · rw [update_of_ne hne, update_self]
  · rw [update_of_ne hvt, update_of_ne hvtarget]

/-- The operation of the thread that gets the ulock is marked complete. -/
theorem PromisesOk.complete (h : PromisesOk thread) {pass : UlockPass} {id : Id} {target : Thread}
    {result : ℕ} (hpc : (thread t).pc = .complete pass id target result) :
    PromisesOk (Function.update (Function.update thread target
      { thread target with linked := false }) t
        { thread t with pc := .clearWait pass id target result }) := by
  have hpasses : (thread t).passes = some (target, result) := by
    unfold UlockThread.passes
    rw [hpc]
  obtain ⟨hne, hnone⟩ := h.target_ne hpasses
  obtain ⟨hpromised, hsleeping⟩ := h.passes t target result hpasses
  obtain ⟨hself, hgets, hother⟩ := @update_update Thread Id thread t
    { thread target with linked := false } _ { thread t with pc := .clearWait pass id target result }
      target hne
  generalize Function.update (Function.update thread target
    { thread target with linked := false }) t
      { thread t with pc := .clearWait pass id target result } = thread' at *
  have hsame : ∀ v, (thread' v).passes = (thread v).passes ∧
      (thread' v).promised = (thread v).promised := by
    intro v
    by_cases hvt : v = t
    · rw [hvt, hself, hpasses]
      exact ⟨rfl, rfl⟩
    by_cases hvtarget : v = target
    · rw [hvtarget, hgets]
      exact ⟨rfl, rfl⟩
    · rw [hother v hvt hvtarget]
      exact ⟨rfl, rfl⟩
  refine ⟨fun v => ?_, fun v g c hv => ?_, fun v pass' id' g c hv => ?_,
    fun v v' g c c' hv hv' => ?_, fun v c hv => ?_⟩
  · by_cases hvt : v = t
    · have hold := h.ok t
      rw [hvt, hself]
      refine ⟨fun hwaiting => ?_, ?_, ?_, (fun _ _ hfalse => nomatch hfalse), fun hsome => ?_⟩
      · obtain ⟨_, _, hfalse⟩ := hold.waiting hwaiting
        rw [hpc] at hfalse
        cases hfalse
      · rintro - _ (hfalse | hfalse | hfalse)
        · cases hfalse
        · cases hfalse
        · cases hfalse
      · rintro - - _ _ (hfalse | hfalse)
        · cases hfalse
        · cases hfalse
      · rcases hold.promised hsome with ⟨_, _, hfalse⟩ | ⟨_, _, hfalse⟩ | ⟨_, _, hfalse⟩
        · rw [hpc] at hfalse
          cases hfalse
        · rw [hpc] at hfalse
          cases hfalse
        · rw [hpc] at hfalse
          cases hfalse
    by_cases hvtarget : v = target
    · have hold := h.ok target
      rw [hvtarget, hgets]
      refine ⟨hold.waiting, fun hfalse => ?_, hold.interrupted, hold.aborting, hold.promised⟩
      exact absurd (hpromised.symm.trans hfalse) fun hfalse => nomatch hfalse
    · rw [hother v hvt hvtarget]
      exact h.ok v
  · rw [(hsame v).1] at hv
    obtain ⟨hp, hs⟩ := h.passes v g c hv
    refine ⟨(hsame g).2.trans hp, ?_⟩
    by_cases hgt : g = t
    · obtain ⟨hgv, hgnone⟩ := h.target_ne hv
      rw [hgt, hpasses] at hgnone
      cases hgnone
    by_cases hgtarget : g = target
    · rw [hgtarget, hgets]
      exact hsleeping
    · rw [hother g hgt hgtarget]
      exact hs
  · by_cases hvt : v = t
    · rw [hvt, hself] at hv
      cases hv
      rw [hgets]
    · have hvtarget : v ≠ target := by
        rintro rfl
        rw [hgets] at hv
        unfold UlockThread.passes at hnone
        rw [show (thread v).pc = _ from hv] at hnone
        cases hnone
      rw [hother v hvt hvtarget] at hv
      have hcleared := h.cleared v pass' id' g c hv
      by_cases hgtarget : g = target
      · rw [hgtarget, hgets]
      by_cases hgt : g = t
      · have hgv : (thread v).passes = some (g, c) := by
          unfold UlockThread.passes
          rw [hv]
        rw [hgt] at hgv
        exact absurd (hpasses.symm.trans (h.target_ne hgv).2) fun hfalse => nomatch hfalse
      · rw [hother g hgt hgtarget]
        exact hcleared
  · rw [(hsame v).1] at hv
    rw [(hsame v').1] at hv'
    exact h.unique v v' g c c' hv hv'
  · rw [(hsame v).2] at hv
    rcases h.promised v c hv with ⟨u, hu⟩ | hdone
    · exact Or.inl ⟨u, (hsame u).1.trans hu⟩
    · right
      by_cases hvt : v = t
      · obtain ⟨hpcs, -⟩ := hdone
        rw [hvt, hpc] at hpcs
        rcases hpcs with ⟨_, _, hfalse⟩ | ⟨_, _, hfalse⟩
        · cases hfalse
        · cases hfalse
      by_cases hvtarget : v = target
      · rw [hvtarget] at hdone
        rw [hvtarget, hgets]
        exact ⟨hdone.1, hdone.2.1, rfl, hdone.2.2.2⟩
      · rw [hother v hvt hvtarget]
        exact hdone

/-- The wait of the thread that gets the ulock is ended. -/
theorem PromisesOk.clearWait (h : PromisesOk thread) {pass : UlockPass} {id : Id} {target : Thread}
    {result : ℕ} (hpc : (thread t).pc = .clearWait pass id target result)
    (hwaiting : (thread target).waiting = true) (hx : x.Ok) (hxpasses : x.passes = none)
    (hxpromised : x.promised = none) :
    PromisesOk (Function.update (Function.update thread target ((thread target).endWait result)) t x) := by
  have hpasses : (thread t).passes = some (target, result) := by
    unfold UlockThread.passes
    rw [hpc]
  obtain ⟨hne, hnone⟩ := h.target_ne hpasses
  obtain ⟨hpromised, hsleeping⟩ := h.passes t target result hpasses
  have hlinked := h.cleared t pass id target result hpc
  have hend : (thread target).endWait result = { thread target with
      waiting := false
      waitResult := result } := by
    unfold UlockThread.endWait
    rw [if_pos hwaiting]
  rw [hend]
  obtain ⟨hself, hgets, hother⟩ := @update_update Thread Id thread t
    { thread target with
      waiting := false
      waitResult := result } _ x target hne
  generalize Function.update (Function.update thread target { thread target with
    waiting := false
    waitResult := result }) t x = thread' at *
  have hback : ∀ v g c, (thread' v).passes = some (g, c) →
      v ≠ t ∧ v ≠ target ∧ g ≠ t ∧ g ≠ target ∧ (thread v).passes = some (g, c) := by
    intro v g c hv
    have hvt : v ≠ t := by
      rintro rfl
      rw [hself, hxpasses] at hv
      cases hv
    have hvtarget : v ≠ target := by
      rintro rfl
      rw [hgets] at hv
      exact absurd (hnone.symm.trans hv) fun hfalse => nomatch hfalse
    rw [hother v hvt hvtarget] at hv
    refine ⟨hvt, hvtarget, ?_, ?_, hv⟩
    · rintro rfl
      exact absurd (hpasses.symm.trans (h.target_ne hv).2) fun hfalse => nomatch hfalse
    · rintro rfl
      exact hvt (h.unique v t g c result hv hpasses)
  refine ⟨fun v => ?_, fun v g c hv => ?_, fun v pass' id' g c hv => ?_,
    fun v v' g c c' hv hv' => ?_, fun v c hv => ?_⟩
  · by_cases hvt : v = t
    · rw [hvt, hself]
      exact hx
    by_cases hvtarget : v = target
    · have hold := h.ok target
      rw [hvtarget, hgets]
      refine ⟨(fun hfalse => nomatch hfalse), hold.linked, fun hfalse => ?_, hold.aborting,
        hold.promised⟩
      exact absurd (hpromised.symm.trans hfalse) fun hfalse => nomatch hfalse
    · rw [hother v hvt hvtarget]
      exact h.ok v
  · obtain ⟨-, -, hgt, hgtarget, hv⟩ := hback v g c hv
    rw [hother g hgt hgtarget]
    exact h.passes v g c hv
  · have hpv : (thread' v).passes = some (g, c) := by
      unfold UlockThread.passes
      rw [hv]
    obtain ⟨hvt, hvtarget, hgt, hgtarget, -⟩ := hback v g c hpv
    rw [hother v hvt hvtarget] at hv
    rw [hother g hgt hgtarget]
    exact h.cleared v pass' id' g c hv
  · exact h.unique v v' g c c' (hback v g c hv).2.2.2.2 (hback v' g c' hv').2.2.2.2
  · by_cases hvt : v = t
    · rw [hvt, hself, hxpromised] at hv
      cases hv
    by_cases hvtarget : v = target
    · right
      rw [hvtarget, hgets] at hv ⊢
      have hc : result = c := Option.some.inj (hpromised.symm.trans hv)
      exact ⟨Or.inl ((h.ok target).waiting hwaiting), rfl, hlinked, hc⟩
    · rw [hother v hvt hvtarget] at hv ⊢
      refine (h.promised v c hv).imp_left fun hcoming => ?_
      obtain ⟨u, hu⟩ := hcoming
      have hut : u ≠ t := by
        rintro rfl
        exact hvtarget (Prod.mk.inj (Option.some.inj (hu.symm.trans hpasses))).1
      have hutarget : u ≠ target := by
        rintro rfl
        exact absurd (hnone.symm.trans hu) fun hfalse => nomatch hfalse
      exact ⟨u, by rw [hother u hut hutarget]; exact hu⟩

end Promises

end MachVirtuTerm
