import MachVirtuTerm.Xkern.Event

/-!
# What events promise

A contract follows what is shown: an event is armed by `evSchedule`, with a function and a delay
in ticks; the delay is over as many ticks after its timer was set; the function is called once
then, unless the event was cancelled. A call while it runs arms it again. An event is freed
once, after it was detached.
-/

open Function

namespace MachVirtuTerm

namespace XEvent

variable {E Call : Type*}

/-- What is promised for the events. -/
structure Contract (E Call : Type*) where
  live : E → Bool
  detached : E → Bool
  /-- The function that is to be called, and what is left of the delay before its timer is
  set, or nothing when it is over. -/
  armed : E → Option (Call × ℕ)
  /-- When the delay is over. -/
  due : E → Option ℕ
  /-- The function that is called next, which can no longer be cancelled. -/
  starting : E → Option Call
  /-- The number of ticks so far. -/
  now : ℕ

namespace Contract

/-- No events. -/
def init : Contract E Call :=
  ⟨fun _ => false, fun _ => false, fun _ => none, fun _ => none, fun _ => none, 0⟩

/-- The contracts for an event are the same. -/
structure Same (m m' : Contract E Call) (e : E) : Prop where
  live : m'.live e = m.live e
  detached : m'.detached e = m.detached e
  armed : m'.armed e = m.armed e
  due : m'.due e = m.due e
  starting : m'.starting e = m.starting e

theorem Same.refl (m : Contract E Call) (e : E) : m.Same m e := ⟨rfl, rfl, rfl, rfl, rfl⟩

variable [DecidableEq E]

/-- The contract for one event is changed. -/
def set (m : Contract E Call) (e : E) (armed : Option (Call × ℕ)) (due : Option ℕ) :
    Contract E Call :=
  { m with armed := update m.armed e armed, due := update m.due e due }

variable {m m' : Contract E Call}

/-- Those for other events are. -/
theorem same_set {e e' : E} {armed : Option (Call × ℕ)} {due : Option ℕ} (hne : e' ≠ e) :
    m.Same (m.set e armed due) e' :=
  ⟨rfl, rfl, update_of_ne hne _ _, update_of_ne hne _ _, rfl⟩

@[simp] theorem set_armed {e : E} {armed : Option (Call × ℕ)} {due : Option ℕ} :
    (m.set e armed due).armed e = armed := update_self _ _ _

@[simp] theorem set_due {e : E} {armed : Option (Call × ℕ)} {due : Option ℕ} :
    (m.set e armed due).due e = due := update_self _ _ _

variable [DecidableEq Call]

/-- The delay in ticks that a time in microseconds stands for, rounded, and at least one tick if it
is not zero. -/
def delay (granularity time : ℕ) : ℕ :=
  let ticks := (time + 500 * granularity) / (granularity * 1000)
  if ticks = 0 ∧ time ≠ 0 then 1 else ticks

/-- The code computes it, as long as the sum fits in 32 bits. -/
theorem delay_eq_ticks {granularity time : ℕ} (h : time + 500 * granularity < 2 ^ 32) :
    delay granularity time = Sys.ticks granularity time := by
  unfold delay Sys.ticks
  rw [Nat.mod_eq_of_lt h]

/-- What may be shown next. -/
def step (granularity : ℕ) (m : Contract E Call) : Out E Call → Option (Contract E Call)
  | .allocated e =>
    if m.live e then none
    else
      some { m.set e none none with
        live := update m.live e true, detached := update m.detached e false }
  | .scheduled e call time =>
    if m.live e then some (m.set e (some (call, delay granularity time)) none) else none
  | .timer e delt =>
    match m.armed e with
    | none => none
    | some (_, delay) =>
      if delay = delt ∧ m.due e = none then some (m.set e (m.armed e) (some (m.now + delt)))
      else none
  | .tick => some { m with now := m.now + 1 }
  | .expired e =>
    if m.due e = some m.now then some (m.set e ((m.armed e).map fun x => (x.1, 0)) none) else none
  | .cancelled e ret =>
    if m.live e then
      if ret = .finished then if m.armed e = none then some m else none
      else some (m.set e none none)
    else none
  | .detached e =>
    if m.live e then some { m with detached := update m.detached e true } else none
  | .running e =>
    match m.armed e with
    | none => none
    | some (call, delay) =>
      if delay = 0 ∧ m.due e = none then
        some { m.set e none none with starting := update m.starting e (some call) }
      else none
  | .started e call =>
    match m.starting e with
    | none => none
    | some starting =>
      if call = some starting then some { m with starting := update m.starting e none }
      else none
  | .freed e =>
    if m.live e ∧ m.detached e ∧ m.armed e = none ∧ m.due e = none then
      some { m with live := update m.live e false }
    else none
  | .fault => none

/-- What may be shown one after the other. -/
def run (granularity : ℕ) (m : Contract E Call) (outs : List (Out E Call)) :
    Option (Contract E Call) := outs.foldlM (step granularity) m

variable {granularity : ℕ} {out : Out E Call} {outs : List (Out E Call)}

theorem run_cons (h : m.step granularity out = some m') :
    m.run granularity (out :: outs) = m'.run granularity outs := by
  unfold run
  rw [List.foldlM_cons, h]
  rfl

theorem run_append {outs' : List (Out E Call)} (h : m.run granularity outs = some m') :
    m.run granularity (outs ++ outs') = m'.run granularity outs' := by
  unfold run at h ⊢
  rw [List.foldlM_append, h]
  rfl

end Contract

/-! ## Where the events are -/

/-- The function of an event is to be called, after a delay. -/
structure Armed (m : Contract E Call) (e : E) (ev : Event Call) (delay : ℕ) : Prop where
  armed : ∃ call, m.armed e = some (call, delay) ∧ ev.call = some call
  due : m.due e = none

/-- It is not. -/
structure Unarmed (m : Contract E Call) (e : E) : Prop where
  armed : m.armed e = none
  due : m.due e = none

theorem Contract.run_freed [DecidableEq E] [DecidableEq Call] {granularity : ℕ}
    {m : Contract E Call} {e : E} (hlive : m.live e = true) (hdetached : m.detached e = true)
    (hunarmed : Unarmed m e) : m.run granularity [.freed e] =
      some { m with live := update m.live e false } :=
  Contract.run_cons (if_pos ⟨hlive, hdetached, hunarmed.armed, hunarmed.due⟩)

/-- No call has told the stub anything. -/
structure Quiet (ev : Event Call) : Prop where
  cancelled : ev.cancelled = false
  rescheduled : ev.rescheduled = false

/-- What is left to do after the function has returned, or before the stub begins: the event is
rescheduled, or nothing is. -/
def Told (granularity : ℕ) (s : Sys E Call) (m : Contract E Call) (e : E) (ev : Event Call) :
    Prop :=
  if ev.rescheduled then
    ev.cancelled = false ∧ Armed m e ev (Sys.ticks granularity (s.deltat e))
  else Unarmed m e

variable (s : Sys E Call)

/-- The ticks from now on until a bucket is looked at. -/
def Sys.nextLook (q : ℕ) : ℕ := (q + bigN - s.tickmod) % bigN

/-- An event is due after some more turns of the timer. -/
structure Due (s : Sys E Call) (m : Contract E Call) (e : E) (q turns : ℕ) : Prop where
  due : m.due e = some (m.now + s.nextLook q + bigN * turns)
  later : q = s.tickmod → 0 < turns

/-- What holds where a thread stands. -/
def PcOk (granularity : ℕ) (s : Sys E Call) (m : Contract E Call) (e : E) (ev : Event Call) :
    Pc → Prop
  | .schedule time => Quiet ev ∧ Armed m e ev (Sys.ticks granularity time)
  | .setScheduled => Quiet ev ∧ Armed m e ev 0
  | .setPending delt => Quiet ev ∧ Armed m e ev delt ∧ s.deltat e = delt / bigN ∧ delt ≠ 0
  | .readTickmod delt =>
    Quiet ev ∧ Armed m e ev delt ∧ s.deltat e = delt / bigN ∧ delt ≠ 0 ∧ ev.state = .pending
  | .insque q =>
    Quiet ev ∧ (∃ call delay, m.armed e = some (call, delay) ∧ ev.call = some call) ∧
      ev.state = .pending ∧ q < bigN ∧ Due s m e q (s.deltat e)
  | .createProcess | .stub =>
    ev.state = .scheduled ∧
      if ev.rescheduled then Told granularity s m e ev
      else if ev.cancelled then Unarmed m e else Armed m e ev 0
  | .clearRescheduled => ev.rescheduled = true ∧ Told granularity s m e ev
  | .reschedule => Quiet ev ∧ Armed m e ev (Sys.ticks granularity (s.deltat e))
  | .testCancelled =>
    ev.state = .scheduled ∧ ev.rescheduled = false ∧
      if ev.cancelled then Unarmed m e else Armed m e ev 0
  | .testDetached => ev.state = .scheduled ∧ ev.rescheduled = false ∧ Unarmed m e
  | .setInit =>
    ev.state = .scheduled ∧ ev.rescheduled = false ∧ ev.detached = false ∧ Unarmed m e
  | .clearCancelled =>
    ev.state = .init ∧ ev.rescheduled = false ∧ ev.detached = false ∧ Unarmed m e
  | .setRunning => ev.state = .scheduled ∧ Quiet ev ∧ Armed m e ev 0
  | .call =>
    ev.state = .running ∧ Told granularity s m e ev ∧
      ∃ call, m.starting e = some call ∧ ev.call = some call
  | .running => ev.state = .running ∧ Told granularity s m e ev
  | .testRescheduled => ev.state = .finished ∧ Told granularity s m e ev
  | .finish => ev.state = .finished ∧ ev.rescheduled = false ∧ Unarmed m e

/-- No thread is at an event. -/
def Sys.Unattended (e : E) : Prop := ∀ t pc, s.threads t ≠ some (e, pc)

/-- An event lies in no bucket. -/
def Sys.Unlisted (e : E) : Prop := ∀ q, e ∉ s.evhead q

/-- The contract knows the event. -/
structure Known (m : Contract E Call) (e : E) (ev : Event Call) : Prop where
  live : m.live e = true
  detached : m.detached e = ev.detached

/-- An event is in one place: it is not allocated, it rests, one thread is at it, or it lies in
one bucket. -/
inductive Placed (granularity : ℕ) (s : Sys E Call) (m : Contract E Call) (e : E) : Prop
  | dead (mem : s.mem e = none) (live : m.live e = false) (unattended : s.Unattended e)
      (unlisted : s.Unlisted e)
  | idle (ev : Event Call) (mem : s.mem e = some ev) (known : Known m e ev)
      (state : ev.state = .init ∨ ev.state = .finished) (quiet : Quiet ev)
      (kept : ev.detached = false) (unarmed : Unarmed m e) (unattended : s.Unattended e)
      (unlisted : s.Unlisted e)
  | attended (ev : Event Call) (mem : s.mem e = some ev) (known : Known m e ev) (t : ℕ) (pc : Pc)
      (thread : s.threads t = some (e, pc))
      (only : ∀ t' pc', s.threads t' = some (e, pc') → t' = t) (ok : PcOk granularity s m e ev pc)
      (unlisted : s.Unlisted e)
  | listed (ev : Event Call) (mem : s.mem e = some ev) (known : Known m e ev)
      (state : ev.state = .pending) (quiet : Quiet ev)
      (armed : ∃ call delay, m.armed e = some (call, delay) ∧ ev.call = some call) (q : ℕ)
      (bucket : q < bigN) (mem_bucket : e ∈ s.evhead q) (only : ∀ q', e ∈ s.evhead q' → q' = q)
      (unattended : s.Unattended e)

/-- The invariant. Some events may be on their way from one place to another. -/
structure Inv (granularity : ℕ) (s : Sys E Call) (m : Contract E Call) (moving : E → Prop) :
    Prop where
  now : m.now % bigN = s.tickmod
  fresh : ∀ t, s.created ≤ t → s.threads t = none
  nodup : ∀ q, (s.evhead q).Nodup
  timed : ∀ q, ∃ turns, DeltaList.At s.deltat turns 0 (s.evhead q) ∧
    ∀ e ∈ s.evhead q, Due s m e q (turns e)
  placed : ∀ e, ¬ moving e → Placed granularity s m e
  moving : ∀ e, moving e → s.Unattended e ∧ s.Unlisted e

end XEvent

end MachVirtuTerm

/-!
# Steps at one event

Most steps change one event, its thread and its contract. All other events stay where they
are.
-/

namespace MachVirtuTerm

namespace XEvent

section Congr

variable {E Call : Type*} {granularity : ℕ} {s s' : Sys E Call} {m m' : Contract E Call}
  {e e' : E} {ev : Event Call} {pc : Pc}

theorem armed_congr (harmed : m'.armed e = m.armed e) (hdue : m'.due e = m.due e) {delay : ℕ} :
    Armed m' e ev delay ↔ Armed m e ev delay := by
  constructor
  · rintro ⟨⟨call, hto, hcall⟩, hat⟩
    exact ⟨⟨call, harmed ▸ hto, hcall⟩, hdue ▸ hat⟩
  · rintro ⟨⟨call, hto, hcall⟩, hat⟩
    exact ⟨⟨call, harmed.trans hto, hcall⟩, hdue.trans hat⟩

theorem unarmed_congr (harmed : m'.armed e = m.armed e) (hdue : m'.due e = m.due e) :
    Unarmed m' e ↔ Unarmed m e := by
  constructor
  · rintro ⟨hto, hat⟩
    exact ⟨harmed ▸ hto, hdue ▸ hat⟩
  · rintro ⟨hto, hat⟩
    exact ⟨harmed.trans hto, hdue.trans hat⟩

theorem told_congr (hdeltat : s'.deltat e = s.deltat e) (harmed : m'.armed e = m.armed e)
    (hdue : m'.due e = m.due e) :
    Told granularity s' m' e ev ↔ Told granularity s m e ev := by
  unfold Told
  rw [hdeltat, armed_congr harmed hdue, unarmed_congr harmed hdue]

theorem due_congr (htick : s'.tickmod = s.tickmod) (hnow : m'.now = m.now)
    (hdue : m'.due e = m.due e) {q turns : ℕ} : Due s' m' e q turns ↔ Due s m e q turns := by
  have hlook : s'.nextLook q = s.nextLook q := by
    unfold Sys.nextLook
    rw [htick]
  constructor
  · rintro ⟨hat, hlater⟩
    exact ⟨by rw [← hdue, hat, hnow, hlook], fun hq => hlater (hq.trans htick.symm)⟩
  · rintro ⟨hat, hlater⟩
    exact ⟨by rw [hdue, hat, hnow, hlook], fun hq => hlater (hq.trans htick)⟩

/-- What holds where a thread stands depends on its event only, and on the time when it is
about to put the event into a bucket. -/
theorem PcOk.congr (h : PcOk granularity s m e ev pc) (hdeltat : s'.deltat e = s.deltat e)
    (hsame : m.Same m' e)
    (hdue : ∀ q, pc = .insque q → Due s m e q (s.deltat e) → Due s' m' e q (s.deltat e)) :
    PcOk granularity s' m' e ev pc := by
  cases pc with
  | insque q =>
    obtain ⟨hquiet, harmed, hstate, hq, hat⟩ := h
    refine ⟨hquiet, by rwa [hsame.armed], hstate, hq, ?_⟩
    rw [hdeltat]
    exact hdue q rfl hat
  | _ =>
    simpa only [PcOk, told_congr hdeltat hsame.armed hsame.due, hdeltat, hsame.starting,
      armed_congr hsame.armed hsame.due, unarmed_congr hsame.armed hsame.due] using h

/-- An event stays in its place. -/
theorem Placed.congr (h : Placed granularity s m e) (hmem : s'.mem e = s.mem e)
    (hdeltat : s.Unlisted e → s'.deltat e = s.deltat e)
    (hthreads : ∀ t pc, s'.threads t = some (e, pc) ↔ s.threads t = some (e, pc))
    (hlisted : ∀ q, e ∈ s'.evhead q ↔ e ∈ s.evhead q) (hsame : m.Same m' e)
    (hdue : ∀ t q, s.threads t = some (e, .insque q) → Due s m e q (s.deltat e) →
      Due s' m' e q (s.deltat e)) :
    Placed granularity s' m' e := by
  have hunattended : s.Unattended e → s'.Unattended e := fun hun t pc =>
    (hthreads t pc).not.mpr (hun t pc)
  have hunlisted : s.Unlisted e → s'.Unlisted e := fun hun q => (hlisted q).not.mpr (hun q)
  have hknown {ev : Event Call} (h : Known m e ev) : Known m' e ev :=
    ⟨hsame.live.trans h.live, hsame.detached.trans h.detached⟩
  cases h with
  | dead mem live unattended unlisted =>
    exact .dead (hmem.trans mem) (hsame.live.trans live) (hunattended unattended)
      (hunlisted unlisted)
  | idle ev mem known state quiet kept unarmed unattended unlisted =>
    exact .idle ev (hmem.trans mem) (hknown known) state quiet kept
      ((unarmed_congr hsame.armed hsame.due).mpr unarmed) (hunattended unattended)
      (hunlisted unlisted)
  | attended ev mem known t pc thread only ok unlisted =>
    exact .attended ev (hmem.trans mem) (hknown known) t pc ((hthreads t pc).mpr thread)
      (fun t' pc' h => only t' pc' ((hthreads t' pc').mp h))
      (ok.congr (hdeltat unlisted) hsame (by rintro q rfl; exact hdue t q thread))
      (hunlisted unlisted)
  | listed ev mem known state quiet armed q bucket mem_bucket only unattended =>
    exact .listed ev (hmem.trans mem) (hknown known) state quiet (by rwa [hsame.armed]) q bucket
      ((hlisted q).mpr mem_bucket) (fun q' h => only q' ((hlisted q').mp h))
      (hunattended unattended)

/-- Nothing but one event was changed. -/
structure Only (s s' : Sys E Call) (m m' : Contract E Call) (e : E) : Prop where
  mem : ∀ e' ≠ e, s'.mem e' = s.mem e'
  deltat : ∀ e' ≠ e, s'.deltat e' = s.deltat e'
  evhead : s'.evhead = s.evhead
  tickmod : s'.tickmod = s.tickmod
  threads : ∀ e' ≠ e, ∀ t pc, s'.threads t = some (e', pc) ↔ s.threads t = some (e', pc)
  same : ∀ e' ≠ e, m.Same m' e'
  now : m'.now = m.now

variable {moving moving' : E → Prop}

/-- The invariant stays, if the event has a place again or is moving. -/
theorem Inv.change (h : Inv granularity s m moving) (honly : Only s s' m m' e)
    (hfresh : ∀ t, s'.created ≤ t → s'.threads t = none)
    (htimed : ∀ q, e ∈ s.evhead q → s'.deltat e = s.deltat e ∧ m'.due e = m.due e)
    (hmoving : ∀ e' ≠ e, moving' e' ↔ moving e')
    (hplaced : ¬ moving' e → Placed granularity s' m' e)
    (hmoves : moving' e → s'.Unattended e ∧ s'.Unlisted e) : Inv granularity s' m' moving' := by
  refine ⟨?_, hfresh, ?_, ?_, ?_, ?_⟩
  · rw [honly.now, honly.tickmod]
    exact h.now
  · rw [honly.evhead]
    exact h.nodup
  · intro q
    obtain ⟨turns, hat, hdue⟩ := h.timed q
    have hthere : ∀ b ∈ s.evhead q, s'.deltat b = s.deltat b ∧ m'.due b = m.due b := by
      intro b hb
      by_cases hbe : b = e
      · rw [hbe] at hb ⊢
        exact htimed q hb
      · exact ⟨honly.deltat b hbe, (honly.same b hbe).due⟩
    rw [honly.evhead]
    exact ⟨turns, hat.congr (fun b hb => (hthere b hb).1) fun _ _ => rfl, fun b hb =>
      (due_congr honly.tickmod honly.now (hthere b hb).2).mpr (hdue b hb)⟩
  · intro e' hstays
    by_cases heq : e' = e
    · rw [heq] at hstays ⊢
      exact hplaced hstays
    · exact (h.placed e' ((hmoving e' heq).not.mp hstays)).congr (honly.mem e' heq)
        (fun _ => honly.deltat e' heq) (honly.threads e' heq) (fun q => by rw [honly.evhead])
        (honly.same e' heq)
        fun _ _ _ => (due_congr honly.tickmod honly.now (honly.same e' heq).due).mpr
  · intro e' hmoves'
    by_cases heq : e' = e
    · rw [heq] at hmoves' ⊢
      exact hmoves hmoves'
    · obtain ⟨hunattended, hunlisted⟩ := h.moving e' ((hmoving e' heq).mp hmoves')
      refine ⟨fun t pc => (honly.threads e' heq t pc).not.mpr (hunattended t pc), fun q => ?_⟩
      rw [honly.evhead]
      exact hunlisted q

/-- An event at which a thread stands. -/
theorem Inv.attended {t : ℕ} (h : Inv granularity s m moving) (ht : s.threads t = some (e, pc)) :
    ∃ ev, s.mem e = some ev ∧ Known m e ev ∧ (∀ t' pc', s.threads t' = some (e, pc') → t' = t) ∧
      PcOk granularity s m e ev pc ∧ s.Unlisted e ∧ ¬ moving e := by
  have hstays : ¬ moving e := fun hmoves => (h.moving e hmoves).1 t pc ht
  cases h.placed e hstays with
  | dead mem live unattended unlisted => exact absurd ht (unattended t pc)
  | idle ev mem known state quiet kept unarmed unattended unlisted =>
    exact absurd ht (unattended t pc)
  | attended ev mem known t' pc' thread only ok unlisted =>
    obtain rfl := only t pc ht
    cases Option.some.inj (thread.symm.trans ht)
    exact ⟨ev, mem, known, only, ok, unlisted, hstays⟩
  | listed ev mem known state quiet armed q bucket mem_bucket only unattended =>
    exact absurd ht (unattended t pc)

end Congr

variable {E Call : Type*} {granularity : ℕ} {s s' : Sys E Call}
  {m m' : Contract E Call} {e : E} {ev ev' : Event Call} {pc pc' : Pc} {t : ℕ}
  {moving : E → Prop}

/-- What another thread does is not seen at an event. -/
theorem threads_update {x : Option (E × Pc)} (ht : s.threads t = some (e, pc))
    (hx : ∀ y ∈ x, y.1 = e) : ∀ e' ≠ e, ∀ t' pc',
      update s.threads t x t' = some (e', pc') ↔ s.threads t' = some (e', pc') := by
  intro e' hne t' pc'
  by_cases htt : t' = t
  · rw [htt, update_self, ht]
    refine iff_of_false ?_ ?_
    · rintro rfl
      exact hne (hx _ rfl)
    · rintro ⟨⟩
      exact hne rfl
  · rw [update_of_ne htt]

/-- A thread goes on with its event. -/
theorem Inv.goes_on (h : Inv granularity s m moving) (ht : s.threads t = some (e, pc))
    (hmem : s'.mem e = some ev')
    (hothers : ∀ e' ≠ e, s'.mem e' = s.mem e' ∧ s'.deltat e' = s.deltat e' ∧ m.Same m' e')
    (hevhead : s'.evhead = s.evhead) (htick : s'.tickmod = s.tickmod)
    (hcreated : s'.created = s.created)
    (hthreads : s'.threads = update s.threads t (some (e, pc'))) (hnow : m'.now = m.now)
    (hknown : Known m' e ev') (hok : PcOk granularity s' m' e ev' pc') :
    Inv granularity s' m' moving := by
  obtain ⟨ev, -, -, honly, -, hunlisted, hstays⟩ := h.attended ht
  refine h.change ⟨fun e' hne => (hothers e' hne).1, fun e' hne => (hothers e' hne).2.1, hevhead,
    htick, ?_, fun e' hne => (hothers e' hne).2.2, hnow⟩ ?_ (fun q hq => absurd hq (hunlisted q))
    (fun _ _ => Iff.rfl) (fun _ => ?_) fun hmoves => absurd hmoves hstays
  · rw [hthreads]
    exact threads_update ht fun y hy => by cases hy; rfl
  · intro t' ht'
    rw [hcreated] at ht'
    have hfresh := h.fresh t' ht'
    rw [hthreads, update_of_ne]
    · exact hfresh
    · rintro rfl
      rw [hfresh] at ht
      cases ht
  · refine .attended ev' hmem hknown t pc' ?_ ?_ hok ?_
    · rw [hthreads, update_self]
    · intro t' pc'' ht'
      by_contra hne
      rw [hthreads, update_of_ne hne] at ht'
      exact hne (honly t' pc'' ht')
    · unfold Sys.Unlisted
      rw [hevhead]
      exact hunlisted

/-- A thread ends; its event rests or is freed. -/
theorem Inv.ends (h : Inv granularity s m moving) (ht : s.threads t = some (e, pc))
    (hothers : ∀ e' ≠ e, s'.mem e' = s.mem e' ∧ s'.deltat e' = s.deltat e' ∧ m.Same m' e')
    (hevhead : s'.evhead = s.evhead) (htick : s'.tickmod = s.tickmod)
    (hcreated : s'.created = s.created)
    (hthreads : s'.threads = update s.threads t none) (hnow : m'.now = m.now)
    (hrest : s'.mem e = none ∧ m'.live e = false ∨
      ∃ ev, s'.mem e = some ev ∧ Known m' e ev ∧ (ev.state = .init ∨ ev.state = .finished) ∧
        Quiet ev ∧ ev.detached = false ∧ Unarmed m' e) :
    Inv granularity s' m' moving := by
  obtain ⟨ev, -, -, honly, -, hunlisted, hstays⟩ := h.attended ht
  have hunattended : s'.Unattended e := by
    intro t' pc' ht'
    rw [hthreads] at ht'
    by_cases htt : t' = t
    · rw [htt, update_self] at ht'
      cases ht'
    · rw [update_of_ne htt] at ht'
      exact htt (honly t' pc' ht')
  have hunlisted' : s'.Unlisted e := by
    unfold Sys.Unlisted
    rw [hevhead]
    exact hunlisted
  refine h.change ⟨fun e' hne => (hothers e' hne).1, fun e' hne => (hothers e' hne).2.1, hevhead,
    htick, ?_, fun e' hne => (hothers e' hne).2.2, hnow⟩ ?_ (fun q hq => absurd hq (hunlisted q))
    (fun _ _ => Iff.rfl) (fun _ => ?_) fun hmoves => absurd hmoves hstays
  · rw [hthreads]
    exact threads_update ht fun y hy => by cases hy
  · intro t' ht'
    rw [hcreated] at ht'
    rw [hthreads, update_apply, h.fresh t' ht', ite_self]
  · rcases hrest with ⟨hmem, hlive⟩ | ⟨ev', hmem, hknown, hstate, hquiet, hkept, hunarmed⟩
    · exact .dead hmem hlive hunattended hunlisted'
    · exact .idle ev' hmem hknown hstate hquiet hkept hunarmed hunattended hunlisted'

end XEvent

end MachVirtuTerm
