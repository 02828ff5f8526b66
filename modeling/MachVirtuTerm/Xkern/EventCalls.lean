import MachVirtuTerm.Xkern.EventSteps

/-!
# The calls on events

The calls hold the event lock, but the threads at an event do not. At some places a call does
what it promises.
-/

open Function

namespace MachVirtuTerm

namespace XEvent

/-! ## Where calls are right -/

/-- `evSchedule`: the stub has yet to see that the event is rescheduled. -/
def MaySchedule : Pc → Prop
  | .createProcess | .stub | .running => True
  | _ => False

variable {E Call : Type*}

/-- `evCancel`: the stub has yet to see that the event is cancelled, or nothing is left to be
cancelled. -/
def MayCancel (ev : Event Call) : Pc → Prop
  | .createProcess | .stub | .testCancelled | .testDetached | .setInit | .clearCancelled | .call
  | .running | .finish => True
  | .testRescheduled => ev.rescheduled = false
  | _ => False

/-- `evDetach`: the event is not freed yet, and the stub has yet to see that it is detached. -/
structure MayDetach (ev : Event Call) (pc : Pc) : Prop where
  state : ev.state ≠ .init ∧ ev.state ≠ .finished
  pc : pc ≠ .setInit

variable {granularity : ℕ} {s s' : Sys E Call} {m m' : Contract E Call} {e : E} {ev : Event Call}
  {pc : Pc} {moving moving' : E → Prop} {t : ℕ}

/-- An event on its way rests, or is not allocated. -/
theorem Inv.lands (h : Inv granularity s m (· = e))
    (hothers : ∀ e' ≠ e, s'.mem e' = s.mem e' ∧ s'.deltat e' = s.deltat e' ∧ m.Same m' e')
    (hevhead : s'.evhead = s.evhead) (htick : s'.tickmod = s.tickmod)
    (hcreated : s'.created = s.created) (hthreads : s'.threads = s.threads)
    (hnow : m'.now = m.now)
    (hrest : s'.mem e = none ∧ m'.live e = false ∨
      ∃ ev, s'.mem e = some ev ∧ Known m' e ev ∧ (ev.state = .init ∨ ev.state = .finished) ∧
        Quiet ev ∧ ev.detached = false ∧ Unarmed m' e) :
    Inv granularity s' m' fun _ => False := by
  obtain ⟨hunattended, hunlisted⟩ := h.moving e rfl
  have hunattended' : s'.Unattended e := by
    unfold Sys.Unattended
    rwa [hthreads]
  have hunlisted' : s'.Unlisted e := by
    unfold Sys.Unlisted
    rwa [hevhead]
  refine h.change ⟨fun e' hne => (hothers e' hne).1, fun e' hne => (hothers e' hne).2.1, hevhead,
    htick, fun _ _ _ _ => by rw [hthreads], fun e' hne => (hothers e' hne).2.2, hnow⟩ ?_
    (fun q hq => absurd hq (hunlisted q)) (fun e' hne => iff_of_false id hne) (fun _ => ?_)
    False.elim
  · intro t ht
    rw [hcreated] at ht
    rw [hthreads]
    exact h.fresh t ht
  · rcases hrest with ⟨hmem, hlive⟩ | ⟨ev', hmem, hknown, hstate, hquiet, hkept, hunarmed⟩
    · exact .dead hmem hlive hunattended' hunlisted'
    · exact .idle ev' hmem hknown hstate hquiet hkept hunarmed hunattended' hunlisted'

/-- The thread at an event stays where it is. -/
theorem Inv.remains (h : Inv granularity s m moving) (ht : s.threads t = some (e, pc))
    (hmem : s'.mem e = some ev)
    (hothers : ∀ e' ≠ e, s'.mem e' = s.mem e' ∧ s'.deltat e' = s.deltat e' ∧ m.Same m' e')
    (hevhead : s'.evhead = s.evhead) (htick : s'.tickmod = s.tickmod)
    (hcreated : s'.created = s.created) (hthreads : s'.threads = s.threads) (hnow : m'.now = m.now)
    (hknown : Known m' e ev) (hok : PcOk granularity s' m' e ev pc) :
    Inv granularity s' m' moving :=
  h.goes_on ht hmem hothers hevhead htick hcreated
    (by rw [hthreads, ← ht, update_eq_self]) hnow hknown hok

/-- What holds at a place does not depend on the mark of `evDetach` before it is looked at. -/
theorem PcOk.mark {m' : Contract E Call} (h : PcOk granularity s m e ev pc) (hmay : MayDetach ev pc)
    (hsame : m'.armed e = m.armed e ∧ m'.due e = m.due e ∧ m'.starting e = m.starting e)
    (hdeltat : s'.deltat e = s.deltat e) (htick : s'.tickmod = s.tickmod) (hnow : m'.now = m.now) :
    PcOk granularity s' m' e { ev with detached := true } pc := by
  obtain ⟨harmed, hdue, hstarting⟩ := hsame
  have hquiet : Quiet { ev with detached := true } ↔ Quiet ev :=
    ⟨fun hq => ⟨hq.1, hq.2⟩, fun hq => ⟨hq.1, hq.2⟩⟩
  have harmed' {delay : ℕ} : Armed m' e { ev with detached := true } delay ↔ Armed m e ev delay :=
    ⟨fun ha => (armed_congr harmed hdue).mp ⟨ha.1, ha.2⟩,
      fun ha => have hto := (armed_congr harmed hdue).mpr ha; ⟨hto.1, hto.2⟩⟩
  have htold : Told granularity s' m' e { ev with detached := true } ↔
      Told granularity s m e ev := by
    unfold Told
    rw [harmed', hdeltat, unarmed_congr harmed hdue]
  cases pc with
  | setInit => exact absurd rfl hmay.pc
  | clearCancelled => exact absurd h.1 hmay.state.1
  | insque q =>
    obtain ⟨hq, ha, hstate, hlt, hat⟩ := h
    refine ⟨hquiet.mpr hq, by rwa [harmed], hstate, hlt, ?_⟩
    rw [hdeltat]
    exact (due_congr htick hnow hdue).mpr hat
  | _ =>
    simpa only [PcOk, hquiet, harmed', htold, hdeltat, hstarting, unarmed_congr harmed hdue] using h

variable [DecidableEq E]

/-- A contract without a delay is not changed. -/
theorem Unarmed.set_eq (h : Unarmed m e) : m.set e none none = m := by
  unfold Contract.set
  have harmed : update m.armed e none = m.armed := by
    rw [← h.armed, update_eq_self]
  have hdue : update m.due e none = m.due := by rw [← h.due, update_eq_self]
  rw [harmed, hdue]

/-- What is promised after `evSchedule`. -/
def scheduled (granularity : ℕ) (m : Contract E Call) (e : E) (call : Call) (time : ℕ) :
    Contract E Call :=
  m.set e (some (call, Sys.ticks granularity time)) none

variable {call : Call} {time : ℕ} {outs : List (Out E Call)}

theorem scheduled_armed (hcall : ev.call = some call) :
    Armed (scheduled granularity m e call time) e ev (Sys.ticks granularity time) :=
  ⟨⟨call, update_self _ _ _, hcall⟩, update_self _ _ _⟩

/-- A thread begins with `schedule_i`. -/
theorem Inv.spawn_schedule (h : Inv granularity s m (· = e)) (hknown : Known m e ev)
    (hquiet : Quiet ev) :
    Inv granularity ((s.put e { ev with call := some call }).spawn e (.schedule time))
      (scheduled granularity m e call time) fun _ => False := by
  have hspawn : Inv granularity ((s.put e { ev with call := some call }).spawn e (.schedule time))
      (scheduled granularity m e call time) fun e' => e' = e ∧ e' ≠ e :=
    h.spawn rfl (update_self _ _ _)
      (fun e' hne => ⟨update_of_ne hne _ _, rfl, Contract.same_set hne⟩) rfl rfl rfl rfl
      rfl ⟨hknown.live, hknown.detached⟩ ⟨⟨hquiet.1, hquiet.2⟩, scheduled_armed rfl⟩
  exact hspawn.moving_congr fun e' => iff_of_false id fun hand => hand.2 hand.1

variable [DecidableEq Call]

/-- `evAlloc`. -/
theorem evAlloc_spec (h : Inv granularity s m fun _ => False)
    (hstep : s.evAlloc e = some (s', outs)) :
    ∃ m', m.run granularity outs = some m' ∧ Inv granularity s' m' fun _ => False := by
  unfold Sys.evAlloc at hstep
  cases hmem : s.mem e with
  | some ev =>
    rw [hmem] at hstep
    cases hstep
  | none =>
    rw [hmem] at hstep
    cases hstep
    cases h.placed e id with
    | dead mem live unattended unlisted =>
      refine ⟨{ m.set e none none with
        live := update m.live e true, detached := update m.detached e false }, ?_,
        (h.depart unattended unlisted).lands (fun e' hne => ⟨update_of_ne hne _ _, rfl,
          update_of_ne hne _ _, update_of_ne hne _ _,
          update_of_ne hne _ _, update_of_ne hne _ _, rfl⟩) rfl rfl rfl rfl rfl
        (.inr ⟨_, update_self _ _ _, ⟨update_self _ _ _,
          update_self _ _ _⟩, .inl rfl, ⟨rfl, rfl⟩, rfl, update_self _ _ _,
          update_self _ _ _⟩)⟩
      refine Contract.run_cons (if_neg ?_)
      rw [live]
      decide
    | idle ev mem => exact absurd (hmem.symm.trans mem) nofun
    | attended ev mem => exact absurd (hmem.symm.trans mem) nofun
    | listed ev mem => exact absurd (hmem.symm.trans mem) nofun

theorem scheduled_run (htime : time + 500 * granularity < 2 ^ 32) (hlive : m.live e = true) :
    m.run granularity [.scheduled e call time] = some (scheduled granularity m e call time) := by
  refine Contract.run_cons ?_
  unfold Contract.step scheduled
  dsimp only
  rw [if_pos hlive, Contract.delay_eq_ticks htime]

/-- The stub is to reschedule the event. -/
theorem evSchedule_told (h : Inv granularity s m fun _ => False) (hmem : s.mem e = some ev)
    (ht : s.threads t = some (e, pc)) (hknown : Known m e ev) (hmay : MaySchedule pc)
    (hok : PcOk granularity s m e ev pc) (htime : time + 500 * granularity < 2 ^ 32) :
    ∃ m', m.run granularity (s.evSchedule e call time).2 = some m' ∧
      Inv granularity (s.evSchedule e call time).1 m' fun _ => False := by
  have hstate : ev.state = .running ∨ ev.state = .scheduled := by
    cases pc with
    | createProcess | stub => exact .inr hok.1
    | running => exact .inl hok.1
    | _ => exact hmay.elim
  have hcall : s.evSchedule e call time =
      ({ s.put e ⟨some call, ev.state, ev.detached, false, true⟩ with
        deltat := update s.deltat e time }, [.scheduled e call time]) := by
    unfold Sys.evSchedule
    rw [hmem]
    dsimp only
    rcases hstate with hstate | hstate <;> rw [hstate]
  rw [hcall]
  refine ⟨_, scheduled_run htime hknown.live, h.remains ht (update_self _ _ _)
    (fun e' hne => ⟨update_of_ne hne _ _, update_of_ne hne _ _,
      Contract.same_set hne⟩) rfl rfl rfl rfl rfl ⟨hknown.live, hknown.detached⟩ ?_⟩
  have htold : Told granularity { s.put e ⟨some call, ev.state, ev.detached, false, true⟩ with
      deltat := update s.deltat e time } (scheduled granularity m e call time) e
      ⟨some call, ev.state, ev.detached, false, true⟩ := by
    unfold Told
    rw [if_pos rfl]
    refine ⟨rfl, ?_⟩
    dsimp only
    rw [update_self]
    exact scheduled_armed rfl
  cases pc with
  | createProcess | stub => exact ⟨hok.1, by rw [if_pos rfl]; exact htold⟩
  | running => exact ⟨hok.1, htold⟩
  | _ => exact hmay.elim

/-- `evSchedule`. -/
theorem evSchedule_spec (h : Inv granularity s m fun _ => False) (hmem : s.mem e ≠ none)
    (hmay : ∀ t pc, s.threads t = some (e, pc) → MaySchedule pc)
    (htime : time + 500 * granularity < 2 ^ 32) :
    ∃ m', m.run granularity (s.evSchedule e call time).2 = some m' ∧
      Inv granularity (s.evSchedule e call time).1 m' fun _ => False := by
  cases h.placed e id with
  | dead mem => exact absurd mem hmem
  | attended ev mem known t pc thread only ok =>
    exact evSchedule_told h mem thread known (hmay t pc thread) ok htime
  | idle ev mem known state quiet kept unarmed unattended unlisted =>
    have hcall : s.evSchedule e call time = ((s.put e { ev with call := some call }).spawn e
        (.schedule time), [.scheduled e call time]) := by
      unfold Sys.evSchedule
      rw [mem]
      dsimp only
      rcases state with hstate | hstate <;> rw [hstate]
    rw [hcall]
    exact ⟨_, scheduled_run htime known.live, (h.depart unattended unlisted).spawn_schedule known quiet⟩
  | listed ev mem known state quiet armed q bucket mem_bucket only unattended =>
    obtain ⟨s₁, hremque, hinv, hsame⟩ := h.eRemque bucket mem_bucket unattended
    have hcall : s.evSchedule e call time = ((s₁.put e { ev with call := some call }).spawn e
        (.schedule time), [.scheduled e call time]) := by
      unfold Sys.evSchedule
      rw [mem]
      dsimp only
      rw [state, hremque]
    rw [hcall]
    exact ⟨_, scheduled_run htime known.live, hinv.spawn_schedule known quiet⟩

/-! ## `evCancel` and `evDetach` -/

/-- What is promised after `evCancel`. -/
theorem cancelled_run (hlive : m.live e = true) {ret : EvCancelReturn} (hret : ret ≠ .finished) :
    m.run granularity [.cancelled e ret] = some (m.set e none none) := by
  refine Contract.run_cons ?_
  unfold Contract.step
  dsimp only
  rw [if_pos hlive, if_neg hret]

theorem finished_run (hlive : m.live e = true) (hunarmed : Unarmed m e) :
    m.run granularity [.cancelled e .finished] = some m := by
  refine Contract.run_cons ?_
  unfold Contract.step
  dsimp only
  rw [if_pos hlive, if_pos rfl, if_pos hunarmed.armed]

section

variable (h : Inv granularity s m fun _ => False)

include h

theorem evCancel_told (hmem : s.mem e = some ev)
    (ht : s.threads t = some (e, pc)) (hknown : Known m e ev)
    (hstate : ev.state = .running ∨ ev.state = .scheduled)
    (hok : PcOk granularity (s.put e { ev with cancelled := true, rescheduled := false })
      (m.set e none none) e { ev with cancelled := true, rescheduled := false } pc) :
    ∃ m', m.run granularity (s.evCancel e).2 = some m' ∧
      Inv granularity (s.evCancel e).1 m' fun _ => False := by
  have hinv : Inv granularity (s.put e { ev with cancelled := true, rescheduled := false })
      (m.set e none none) fun _ => False :=
    h.remains ht (update_self _ _ _)
      (fun e' hne => ⟨update_of_ne hne _ _, rfl, Contract.same_set hne⟩) rfl rfl rfl rfl
      rfl ⟨hknown.live, hknown.detached⟩ hok
  unfold Sys.evCancel
  rw [hmem]
  dsimp only
  rcases hstate with hstate | hstate
  · rw [hstate] at hinv ⊢
    exact ⟨_, cancelled_run hknown.live nofun, hinv⟩
  · rw [hstate] at hinv ⊢
    exact ⟨_, cancelled_run hknown.live nofun, hinv⟩

/-- `evCancel` of an event that is not to be called. -/
theorem evCancel_rest (hmem : s.mem e = some ev)
    (hknown : Known m e ev) (hstate : ev.state = .init ∨ ev.state = .finished)
    (hunarmed : Unarmed m e) :
    ∃ m', m.run granularity (s.evCancel e).2 = some m' ∧
      Inv granularity (s.evCancel e).1 m' fun _ => False := by
  unfold Sys.evCancel
  rw [hmem]
  dsimp only
  rcases hstate with hstate | hstate
  · rw [hstate]
    refine ⟨m, ?_, h⟩
    have hrun := @cancelled_run _ _ granularity m e _ _ hknown.live .cancelled nofun
    rwa [hunarmed.set_eq] at hrun
  · rw [hstate]
    exact ⟨m, finished_run hknown.live hunarmed, h⟩

/-- `evCancel`. -/
theorem evCancel_spec (hmem : s.mem e ≠ none)
    (hmay : ∀ ev t pc, s.mem e = some ev → s.threads t = some (e, pc) → MayCancel ev pc) :
    ∃ m', m.run granularity (s.evCancel e).2 = some m' ∧
      Inv granularity (s.evCancel e).1 m' fun _ => False := by
  cases h.placed e id with
  | dead mem => exact absurd mem hmem
  | idle ev mem known state quiet kept unarmed => exact evCancel_rest h mem known state unarmed
  | attended ev mem known t pc thread only ok =>
    have hunarmed : Unarmed (m.set e none none) e := ⟨Contract.set_armed, Contract.set_due⟩
    have may := hmay ev t pc mem thread
    cases pc with
    | createProcess | stub =>
      refine evCancel_told h mem thread known (.inr ok.1) ⟨ok.1, ?_⟩
      rw [if_neg Bool.false_ne_true, if_pos rfl]
      exact hunarmed
    | testCancelled =>
      refine evCancel_told h mem thread known (.inr ok.1) ⟨ok.1, rfl, ?_⟩
      rw [if_pos rfl]
      exact hunarmed
    | testDetached => exact evCancel_told h mem thread known (.inr ok.1) ⟨ok.1, rfl, hunarmed⟩
    | setInit =>
      exact evCancel_told h mem thread known (.inr ok.1) ⟨ok.1, rfl, ok.2.2.1, hunarmed⟩
    | clearCancelled => exact evCancel_rest h mem known (.inl ok.1) ok.2.2.2
    | call =>
      refine evCancel_told h mem thread known (.inl ok.1) ⟨ok.1, ?_, ok.2.2⟩
      unfold Told
      rw [if_neg Bool.false_ne_true]
      exact hunarmed
    | running =>
      refine evCancel_told h mem thread known (.inl ok.1) ⟨ok.1, ?_⟩
      unfold Told
      rw [if_neg Bool.false_ne_true]
      exact hunarmed
    | testRescheduled =>
      have hre : ev.rescheduled = false := may
      have htold := ok.2
      unfold Told at htold
      rw [hre, if_neg Bool.false_ne_true] at htold
      exact evCancel_rest h mem known (.inr ok.1) htold
    | finish => exact evCancel_rest h mem known (.inr ok.1) ok.2.2
    | _ => exact may.elim
  | listed ev mem known state quiet armed q bucket mem_bucket only unattended =>
    obtain ⟨s₁, hremque, hinv, hsame⟩ := h.eRemque bucket mem_bucket unattended
    unfold Sys.evCancel
    rw [mem]
    dsimp only
    rw [state]
    dsimp only
    rw [hremque]
    dsimp only
    by_cases hdetached : ev.detached = true
    · rw [if_pos hdetached]
      refine ⟨{ m.set e none none with live := update m.live e false }, ?_,
        hinv.lands (fun e' hne => ⟨update_of_ne hne _ _, rfl,
          update_of_ne hne _ _, rfl, update_of_ne hne _ _, update_of_ne hne _ _, rfl⟩) rfl rfl rfl rfl
        rfl (.inl ⟨update_self _ _ _, update_self _ _ _⟩)⟩
      have hfreed : (m.set e none none).run granularity [.freed e] =
          some { m.set e none none with live := update m.live e false } :=
        Contract.run_freed known.live (known.detached.trans hdetached)
          ⟨Contract.set_armed, Contract.set_due⟩
      have hcancelled : m.run granularity [.cancelled e .cancelled] = some (m.set e none none) :=
        cancelled_run known.live nofun
      exact (Contract.run_append hcancelled).trans hfreed
    · rw [if_neg hdetached]
      exact ⟨_, cancelled_run known.live nofun, hinv.lands
        (fun e' hne => ⟨update_of_ne hne _ _, rfl, Contract.same_set hne⟩) rfl rfl rfl rfl
        rfl (.inr ⟨_, update_self _ _ _, ⟨known.live, known.detached⟩, .inl rfl,
          ⟨quiet.1, quiet.2⟩, by simpa using hdetached, Contract.set_armed, Contract.set_due⟩)⟩

end

theorem detached_run (hlive : m.live e = true) : m.run granularity [.detached e] =
    some { m with detached := update m.detached e true } :=
  Contract.run_cons (if_pos hlive)

/-- `evDetach`. -/
theorem evDetach_spec (h : Inv granularity s m fun _ => False) (hmem : s.mem e ≠ none)
    (hmay : ∀ ev t pc, s.mem e = some ev → s.threads t = some (e, pc) → MayDetach ev pc) :
    ∃ m', m.run granularity (s.evDetach e).2 = some m' ∧
      Inv granularity (s.evDetach e).1 m' fun _ => False := by
  have hmark {ev : Event Call} (mem : s.mem e = some ev)
      (hstate : ev.state ≠ .init ∧ ev.state ≠ .finished) :
      s.evDetach e = (s.put e { ev with detached := true }, [.detached e]) := by
    unfold Sys.evDetach
    rw [mem]
    dsimp only
    cases hs : ev.state with
    | init => exact absurd hs hstate.1
    | finished => exact absurd hs hstate.2
    | _ => rfl
  have hothers {x : Option (Event Call)} {m' : Contract E Call} (hm' : ∀ e' ≠ e, m.Same m' e') :
      ∀ e' ≠ e, update s.mem e x e' = s.mem e' ∧ s.deltat e' = s.deltat e' ∧
        m.Same m' e' :=
    fun e' hne => ⟨update_of_ne hne _ _, rfl, hm' e' hne⟩
  cases h.placed e id with
  | dead mem => exact absurd mem hmem
  | idle ev mem known state quiet kept unarmed unattended unlisted =>
    have hfree : s.evDetach e = (s.free e, [.detached e, .freed e]) := by
      unfold Sys.evDetach
      rw [mem]
      dsimp only
      rcases state with hstate | hstate <;> rw [hstate]
    rw [hfree]
    refine ⟨{ m with
      live := update m.live e false, detached := update m.detached e true }, ?_,
      (h.depart unattended unlisted).lands (hothers fun e' hne => ⟨update_of_ne hne _ _,
        update_of_ne hne _ _, rfl, rfl, rfl⟩) rfl rfl rfl rfl rfl
      (.inl ⟨update_self _ _ _, update_self _ _ _⟩)⟩
    exact (Contract.run_append (detached_run known.live)).trans
      (Contract.run_freed known.live (update_self _ _ _) ⟨unarmed.armed, unarmed.due⟩)
  | attended ev mem known t pc thread only ok =>
    have may := hmay ev t pc mem thread
    rw [hmark mem may.state]
    exact ⟨_, detached_run known.live, h.remains thread (update_self _ _ _)
      (hothers fun e' hne => ⟨rfl, update_of_ne hne _ _, rfl, rfl, rfl⟩) rfl rfl rfl rfl
      rfl ⟨known.live, update_self _ _ _⟩ (ok.mark may ⟨rfl, rfl, rfl⟩ rfl rfl rfl)⟩
  | listed ev mem known state quiet armed q bucket mem_bucket only unattended =>
    rw [hmark mem (by rw [state]; exact ⟨nofun, nofun⟩)]
    refine ⟨_, detached_run known.live, h.change (e := e) ⟨fun e' hne =>
      update_of_ne hne _ _, fun _ _ => rfl, rfl, rfl, fun _ _ _ _ => Iff.rfl,
      fun e' hne => ⟨rfl, update_of_ne hne _ _, rfl, rfl, rfl⟩, rfl⟩ h.fresh
      (fun _ _ => ⟨rfl, rfl⟩) (fun _ _ => Iff.rfl) (fun _ => .listed _ (update_self _ _ _)
        ⟨known.live, update_self _ _ _⟩ state ⟨quiet.1, quiet.2⟩ armed q bucket mem_bucket
        only unattended) False.elim⟩

end XEvent

end MachVirtuTerm
