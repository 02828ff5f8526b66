import MachVirtuTerm.Xkern.EventCalls
import MachVirtuTerm.Lib.Run

/-!
# The clock of events

At a tick the next bucket is looked at. The events of it that are due leave it, and a process
is created for each.
-/

open List Function

namespace MachVirtuTerm

namespace XEvent

variable {E Call : Type*} {granularity : ℕ} {s s' : Sys E Call} {m m' : Contract E Call}
  {e : E} {q turns : ℕ} {moving : E → Prop}

/-- The time passes. -/
def Contract.tick (m : Contract E Call) : Contract E Call := { m with now := m.now + 1 }

/-- The delays of the bucket that was looked at last become shorter by one turn. -/
theorem Due.last (h : Due s m e s.tickmod turns) (hlt : s.tickmod < bigN)
    (htick : s'.tickmod = (s.tickmod + 1) % bigN) :
    Due s' m.tick e s.tickmod (turns - 1) := by
  have hpos : 0 < turns := h.later rfl
  have hnext : (s.tickmod + 1) % bigN ≠ s.tickmod := by
    unfold bigN at hlt ⊢
    omega
  refine ⟨?_, fun hq => absurd (hq.trans htick).symm hnext⟩
  have hdue := h.due
  unfold Sys.nextLook at hdue ⊢
  change m.due e = some (m.now + 1 + (s.tickmod + bigN - s'.tickmod) % bigN + bigN * (turns - 1))
  rw [hdue, htick]
  congr 1
  unfold bigN at hlt ⊢
  omega

/-- All others come nearer, as long as one is not due in the bucket to be looked at. -/
theorem Due.other (h : Due s m e q turns) (hlt : s.tickmod < bigN) (hq : q < bigN)
    (hne : q ≠ s.tickmod) (htick : s'.tickmod = (s.tickmod + 1) % bigN)
    (hpos : q = (s.tickmod + 1) % bigN → 0 < turns) : Due s' m.tick e q turns := by
  refine ⟨?_, fun hlook => hpos (hlook.trans htick)⟩
  have hdue := h.due
  unfold Sys.nextLook at hdue ⊢
  change m.due e = some (m.now + 1 + (q + bigN - s'.tickmod) % bigN + bigN * turns)
  rw [hdue, htick]
  congr 1
  unfold bigN at hlt hq ⊢
  omega

/-- The event that is due in the bucket to be looked at is due now. -/
theorem Due.now (h : Due s m e ((s.tickmod + 1) % bigN) 0) (hlt : s.tickmod < bigN) :
    m.tick.due e = some m.tick.now := by
  have hdue := h.due
  unfold Sys.nextLook at hdue
  change m.due e = some (m.now + 1)
  rw [hdue]
  congr 1
  unfold bigN at hlt ⊢
  omega

/-- An event in a bucket is pending. -/
theorem Inv.listed (h : Inv granularity s m moving) (he : e ∈ s.evhead q) :
    q < bigN ∧ ∃ ev, s.mem e = some ev ∧ Known m e ev ∧ ev.state = .pending ∧ Quiet ev ∧
      (∃ call delay, m.armed e = some (call, delay) ∧ ev.call = some call) ∧ s.Unattended e := by
  have hstays : ¬ moving e := fun hmoves => (h.moving e hmoves).2 q he
  cases h.placed e hstays with
  | dead mem live unattended unlisted => exact absurd he (unlisted q)
  | idle ev mem known state quiet kept unarmed unattended unlisted => exact absurd he (unlisted q)
  | attended ev mem known t pc thread only ok unlisted => exact absurd he (unlisted q)
  | listed ev mem known state quiet armed q' bucket mem_bucket only unattended =>
    obtain rfl := only q he
    exact ⟨bucket, ev, mem, known, state, quiet, armed, unattended⟩

variable [DecidableEq E]

/-- A tick, before processes are created. -/
def Sys.ticked (s : Sys E Call) : Sys E Call :=
  let deltat :=
    match s.evhead s.tickmod with
    | [] => s.deltat
    | e :: _ =>
      update s.deltat e (if s.deltat e = 0 then 2 ^ 32 - 1 else s.deltat e - 1)
  let tickmod := (s.tickmod + 1) % bigN
  let evhead := update s.evhead tickmod ((s.evhead tickmod).dropWhile (deltat · = 0))
  { s with deltat := deltat, tickmod := tickmod, evhead := evhead }

/-- The events for which processes are created. -/
def Sys.expiring (s : Sys E Call) : List E :=
  (s.evhead ((s.tickmod + 1) % bigN)).takeWhile (s.ticked.deltat · = 0)

theorem Sys.evClock_eq (s : Sys E Call) :
    s.evClock = ((expire s.expiring s.ticked).1, .tick :: (expire s.expiring s.ticked).2) := rfl

/-- Only one delta changes, of the bucket that was looked at last. -/
theorem Sys.ticked_deltat (he : e ∉ s.evhead s.tickmod) : s.ticked.deltat e = s.deltat e := by
  unfold Sys.ticked
  dsimp only
  cases hl : s.evhead s.tickmod with
  | nil => rfl
  | cons b l =>
    rw [hl, mem_cons, not_or] at he
    exact update_of_ne he.1 _ _

/-- All events of that bucket are one turn nearer. -/
theorem Inv.ticked_last (h : Inv granularity s m moving) :
    ∃ turns, DeltaList.At s.ticked.deltat turns 0 (s.evhead s.tickmod) ∧
      ∀ e ∈ s.evhead s.tickmod, Due s.ticked m.tick e s.tickmod (turns e) := by
  obtain ⟨turns, hat, hdue⟩ := h.timed s.tickmod
  refine ⟨fun e => turns e - 1, ?_, fun e he => (hdue e he).last h.tickmod_lt rfl⟩
  have hnodup := h.nodup s.tickmod
  unfold Sys.ticked
  dsimp only
  cases hl : s.evhead s.tickmod with
  | nil => trivial
  | cons b l =>
    rw [hl] at hat hdue hnodup
    have hpos : 0 < turns b := (hdue b mem_cons_self).later rfl
    have hdelta : 0 < s.deltat b := by
      have hplace := hat.1
      omega
    have hnearer := hat.head_nearer hnodup hdelta
    dsimp only
    rwa [if_neg (Nat.ne_of_gt hdelta)]

/-- What is in the buckets after a tick. -/
theorem Sys.mem_ticked (hstays : e ∉ s.expiring) (q : ℕ) :
    e ∈ s.ticked.evhead q ↔ e ∈ s.evhead q := by
  change e ∈ update s.evhead ((s.tickmod + 1) % bigN) _ q ↔ _
  by_cases hq : q = (s.tickmod + 1) % bigN
  · rw [hq, update_self]
    have happ := takeWhile_append_dropWhile (p := fun b => decide (s.ticked.deltat b = 0))
      (l := s.evhead ((s.tickmod + 1) % bigN))
    constructor
    · exact fun hmem => (dropWhile_sublist _).mem hmem
    · intro hmem
      rw [← happ, mem_append] at hmem
      exact hmem.resolve_left hstays
  · rw [update_of_ne hq]

/-- No thread is about to put an event where it would be missed or be late. -/
def Sys.MayTick (s : Sys E Call) : Prop :=
  ∀ t e q, s.threads t = some (e, .insque q) →
    q ≠ s.tickmod ∧ (q = (s.tickmod + 1) % bigN → s.deltat e ≠ 0)

/-- Before processes are created the events that are due are on their way. -/
theorem Inv.ticked (h : Inv granularity s m fun _ => False) (hmay : s.MayTick) :
    Inv granularity s.ticked m.tick (· ∈ s.expiring) := by
  have hlt := h.tickmod_lt
  have hnext : s.tickmod ≠ (s.tickmod + 1) % bigN := by
    unfold bigN at hlt ⊢
    omega
  have hexpiring : ∀ e ∈ s.expiring, e ∈ s.evhead ((s.tickmod + 1) % bigN) := fun e he =>
    (takeWhile_sublist _).mem he
  have hunmoved : ∀ q ≠ s.tickmod, ∀ e ∈ s.evhead q, s.ticked.deltat e = s.deltat e :=
    fun q hq e he => Sys.ticked_deltat fun hlast => hq (h.disjoint hlast he)
  refine ⟨?_, h.fresh, ?_, ?_, ?_, ?_⟩
  · have hnow := h.now
    change (m.now + 1) % bigN = (s.tickmod + 1) % bigN
    unfold bigN at hnow ⊢
    omega
  · intro q
    change (update s.evhead ((s.tickmod + 1) % bigN) _ q).Nodup
    by_cases hq : q = (s.tickmod + 1) % bigN
    · rw [hq, update_self]
      exact (h.nodup _).sublist (dropWhile_sublist _)
    · rw [update_of_ne hq]
      exact h.nodup q
  · intro q
    change ∃ turns, DeltaList.At s.ticked.deltat turns 0
        (update s.evhead ((s.tickmod + 1) % bigN) _ q) ∧
      ∀ e ∈ update s.evhead ((s.tickmod + 1) % bigN) _ q, Due s.ticked m.tick e q (turns e)
    by_cases hq : q = (s.tickmod + 1) % bigN
    · rw [hq, update_self]
      obtain ⟨turns, hat, hdue⟩ := h.timed ((s.tickmod + 1) % bigN)
      have hat' : DeltaList.At s.ticked.deltat turns 0 (s.evhead ((s.tickmod + 1) % bigN)) :=
        hat.congr (fun e he => hunmoved _ (Ne.symm hnext) e he) fun _ _ => rfl
      refine ⟨turns, hat'.dropWhile.1, fun e he => ?_⟩
      have he' := (dropWhile_sublist _).mem he
      exact (hdue e he').other hlt (h.listed he').1 (Ne.symm hnext) rfl fun _ =>
        hat'.dropWhile.2 e he
    · rw [update_of_ne hq]
      by_cases hlast : q = s.tickmod
      · rw [hlast]
        exact h.ticked_last
      · obtain ⟨turns, hat, hdue⟩ := h.timed q
        exact ⟨turns, hat.congr (fun e he => hunmoved q hlast e he) fun _ _ => rfl, fun e he =>
          (hdue e he).other hlt (h.listed he).1 hlast rfl fun hlook => absurd hlook hq⟩
  · intro e hstays
    refine (h.placed e id).congr rfl (fun hunlisted => Sys.ticked_deltat (hunlisted _))
      (fun _ _ => Iff.rfl) (Sys.mem_ticked hstays) ⟨rfl, rfl, rfl, rfl, rfl⟩ ?_
    intro t q ht hdue
    obtain ⟨ev, -, -, -, hok, -⟩ := h.attended ht
    obtain ⟨hlast, hlook⟩ := hmay t e q ht
    exact hdue.other hlt hok.2.2.2.1 hlast rfl fun hq => Nat.pos_of_ne_zero (hlook hq)
  · intro e hmoves
    have he := hexpiring e hmoves
    obtain ⟨-, ev, -, -, -, -, -, hunattended⟩ := h.listed he
    refine ⟨hunattended, fun q hq => ?_⟩
    change e ∈ update s.evhead ((s.tickmod + 1) % bigN) _ q at hq
    by_cases hlook : q = (s.tickmod + 1) % bigN
    · rw [hlook, update_self] at hq
      have hnodup := h.nodup ((s.tickmod + 1) % bigN)
      rw [← takeWhile_append_dropWhile (p := fun b => decide (s.ticked.deltat b = 0))
        (l := s.evhead ((s.tickmod + 1) % bigN)), nodup_append] at hnodup
      exact hnodup.2.2 e hmoves e hq rfl
    · rw [update_of_ne hlook] at hq
      exact hlook (h.disjoint he hq)

/-- What is known of an event on its way out of the buckets. -/
structure Expiring (s : Sys E Call) (m : Contract E Call) (e : E) : Prop where
  event : ∃ ev, s.mem e = some ev ∧ Known m e ev ∧ Quiet ev ∧
    ∃ call delay, m.armed e = some (call, delay) ∧ ev.call = some call
  due : m.due e = some m.now

theorem Inv.expiring (h : Inv granularity s m fun _ => False) :
    ∀ e ∈ s.expiring, Expiring s.ticked m.tick e := by
  intro e he
  have hmem := (takeWhile_sublist _).mem he
  obtain ⟨-, ev, mem, known, -, quiet, armed, -⟩ := h.listed hmem
  obtain ⟨turns, hat, hdue⟩ := h.timed ((s.tickmod + 1) % bigN)
  have hlt := h.tickmod_lt
  have hnext : (s.tickmod + 1) % bigN ≠ s.tickmod := by
    unfold bigN at hlt ⊢
    omega
  have hat' : DeltaList.At s.ticked.deltat turns 0 (s.evhead ((s.tickmod + 1) % bigN)) :=
    hat.congr (fun b hb => Sys.ticked_deltat fun hlast => hnext (h.disjoint hlast hb))
      fun _ _ => rfl
  have hdue' := hdue e hmem
  rw [hat'.takeWhile e he] at hdue'
  exact ⟨⟨ev, mem, ⟨known.live, known.detached⟩, quiet, armed⟩, hdue'.now hlt⟩

variable [DecidableEq Call]

/-- A process is created for each event. -/
theorem expire_spec {events : List E} (h : Inv granularity s m (· ∈ events)) (hnodup : events.Nodup)
    (hexpiring : ∀ e ∈ events, Expiring s m e) :
    ∃ m', m.run granularity (Sys.expire events s).2 = some m' ∧
      Inv granularity (Sys.expire events s).1 m' fun _ => False := by
  induction events generalizing s m with
  | nil => exact ⟨m, rfl, h.moving_congr fun e => iff_of_false id not_mem_nil⟩
  | cons e events ih =>
    obtain ⟨⟨ev, hmem, hknown, hquiet, call, delay, harmed, hcall⟩, hdue⟩ :=
      hexpiring e mem_cons_self
    obtain ⟨he, hevents⟩ := nodup_cons.mp hnodup
    have hspawn : Inv granularity ((s.put e { ev with state := .scheduled }).spawn e .stub)
        (m.set e (some (call, 0)) none) fun e' => e' ∈ e :: events ∧ e' ≠ e := by
      refine h.spawn mem_cons_self (update_self _ _ _)
        (fun e' hne => ⟨update_of_ne hne _ _, rfl, Contract.same_set hne⟩) rfl rfl rfl rfl
        rfl ⟨hknown.live, hknown.detached⟩ ⟨rfl, ?_⟩
      dsimp only
      rw [hquiet.rescheduled, hquiet.cancelled]
      exact ⟨⟨call, update_self _ _ _, hcall⟩, update_self _ _ _⟩
    have hmoving : ∀ e', e' ∈ events ↔ e' ∈ e :: events ∧ e' ≠ e := by
      intro e'
      rw [mem_cons]
      constructor
      · exact fun hmem' => ⟨.inr hmem', ne_of_mem_of_not_mem hmem' he⟩
      · exact fun hand => hand.1.resolve_left hand.2
    have hrest : ∀ e' ∈ events, Expiring ((s.put e { ev with state := .scheduled }).spawn e .stub)
        (m.set e (some (call, 0)) none) e' := by
      intro e' he'
      have hne : e' ≠ e := ne_of_mem_of_not_mem he' he
      obtain ⟨⟨ev', hmem', hknown', hquiet', harmed'⟩, hdue'⟩ :=
        hexpiring e' (mem_cons_of_mem _ he')
      refine ⟨⟨ev', (update_of_ne hne _ _).trans hmem', ⟨hknown'.live, hknown'.detached⟩,
        hquiet', ?_⟩, (update_of_ne hne _ _).trans hdue'⟩
      change ∃ call delay, update m.armed e _ e' = some (call, delay) ∧ _
      rwa [update_of_ne hne]
    obtain ⟨m', hrun, hinv⟩ := ih (hspawn.moving_congr hmoving) hevents hrest
    unfold Sys.expire
    rw [hmem]
    refine ⟨m', (Contract.run_cons ?_).trans hrun, hinv⟩
    unfold Contract.step
    dsimp only
    rw [if_pos hdue, harmed, Option.map_some]

/-- `evClock`. -/
theorem evClock_spec (h : Inv granularity s m fun _ => False) (hmay : s.MayTick) :
    ∃ m', m.run granularity s.evClock.2 = some m' ∧
      Inv granularity s.evClock.1 m' fun _ => False := by
  rw [Sys.evClock_eq]
  have hnodup : s.expiring.Nodup := (h.nodup _).sublist (takeWhile_sublist _)
  obtain ⟨m', hrun, hinv⟩ := expire_spec (h.ticked hmay) hnodup h.expiring
  exact ⟨m', (@Contract.run_cons E Call _ m m.tick _ granularity .tick _ rfl).trans hrun, hinv⟩

end XEvent

end MachVirtuTerm

/-!
# Runs of the events

When every call and every tick comes where it is right, events keep what they promise, in
every run. Without the condition a tick between the reading of `tickmod` and `e_insque`
makes an event late.
-/

namespace MachVirtuTerm

namespace XEvent

variable {E Call : Type*} {granularity : ℕ} {s s' : Sys E Call} {m : Contract E Call}
  {action : Action E Call} {outs : List (Out E Call)}

/-- Only events that are allocated are used in calls. -/
def Sys.Allowed (s : Sys E Call) : Action E Call → Prop
  | .schedule e _ _ | .cancel e | .detach e => s.mem e ≠ none
  | _ => True

/-- No call and no tick comes between two steps of a thread that must not be parted, and no delay
is so long that its conversion into ticks wraps around. -/
def Sys.Meets (granularity : ℕ) (s : Sys E Call) : Action E Call → Prop
  | .schedule e _ time => time + 500 * granularity < 2 ^ 32 ∧
    ∀ t pc, s.threads t = some (e, pc) → MaySchedule pc
  | .cancel e => ∀ ev t pc, s.mem e = some ev → s.threads t = some (e, pc) → MayCancel ev pc
  | .detach e => ∀ ev t pc, s.mem e = some ev → s.threads t = some (e, pc) → MayDetach ev pc
  | .tick => s.MayTick
  | _ => True

theorem Sys.init_inv : Inv granularity (Sys.init : Sys E Call) .init fun _ => False where
  now := rfl
  fresh := fun _ _ => rfl
  nodup := fun _ => nodup_nil
  timed := fun _ => ⟨fun _ => 0, trivial, fun _ he => absurd he not_mem_nil⟩
  placed := fun _ _ => .dead rfl rfl (fun _ _ => nofun) fun _ => not_mem_nil
  moving := fun _ => False.elim

variable [DecidableEq E] [DecidableEq Call]

/-- Every step. -/
theorem Sys.step_spec (h : Inv granularity s m fun _ => False) (hallowed : s.Allowed action)
    (hmeets : s.Meets granularity action) (hstep : s.step granularity action = some (s', outs)) :
    ∃ m', m.run granularity outs = some m' ∧ Inv granularity s' m' fun _ => False := by
  cases action with
  | alloc e => exact evAlloc_spec h hstep
  | schedule e call time =>
    have hspec : ∃ m', m.run granularity (s.evSchedule e call time).2 = some m' ∧
        Inv granularity (s.evSchedule e call time).1 m' fun _ => False :=
      evSchedule_spec h hallowed hmeets.2 hmeets.1
    rwa [show s.evSchedule e call time = (s', outs) from Option.some.inj hstep] at hspec
  | cancel e =>
    have hspec := evCancel_spec h hallowed hmeets
    rwa [show s.evCancel e = (s', outs) from Option.some.inj hstep] at hspec
  | detach e =>
    have hspec := evDetach_spec h hallowed hmeets
    rwa [show s.evDetach e = (s', outs) from Option.some.inj hstep] at hspec
  | tick =>
    have hspec := evClock_spec h hmeets
    rwa [show s.evClock = (s', outs) from Option.some.inj hstep] at hspec
  | run t =>
    obtain ⟨⟨e, pc⟩, ht, hrun⟩ := Option.map_eq_some_iff.mp hstep
    have hspec := run_spec h ht
    rwa [show s.run granularity t e pc = (s', outs) from hrun] at hspec

/-! ## Runs -/

variable {trace : List (Sys E Call × Action E Call × List (Out E Call))}

/-- What was shown, in order. -/
def shown (trace : List (Sys E Call × Action E Call × List (Out E Call))) : List (Out E Call) :=
  trace.reverse.flatMap fun x => x.2.2

end XEvent

end MachVirtuTerm
