import MachVirtuTerm.Xkern.EventInv

/-!
# The threads of events

Every step of a thread shows what the contract allows, and leaves every event in a place.
-/

open Function List

namespace MachVirtuTerm

namespace XEvent

variable {E Call : Type*} {granularity : ℕ} {s s' : Sys E Call} {m m' : Contract E Call}
  {e : E} {ev : Event Call} {pc : Pc} {moving moving' : E → Prop} {q t : ℕ}

section

variable (h : Inv granularity s m moving)

include h

/-- An event lies in one bucket. -/
theorem Inv.disjoint {q' : ℕ} (hq : e ∈ s.evhead q) (hq' : e ∈ s.evhead q') : q' = q := by
  have hstays : ¬ moving e := fun hmoves => (h.moving e hmoves).2 q hq
  cases h.placed e hstays with
  | dead mem live unattended unlisted => exact absurd hq (unlisted q)
  | idle ev mem known state quiet kept unarmed unattended unlisted => exact absurd hq (unlisted q)
  | attended ev mem known t pc thread only ok unlisted => exact absurd hq (unlisted q)
  | listed ev mem known state quiet armed q₁ bucket mem_bucket only unattended =>
    exact (only q' hq').trans (only q hq).symm

theorem Inv.tickmod_lt : s.tickmod < bigN := by
  rw [← h.now]
  exact Nat.mod_lt _ (by decide)

theorem Inv.moving_congr (hiff : ∀ e, moving' e ↔ moving e) : Inv granularity s m moving' :=
  ⟨h.now, h.fresh, h.nodup, h.timed, fun e he => h.placed e ((hiff e).not.mp he),
    fun e he => h.moving e ((hiff e).mp he)⟩

end

/-- One bucket is changed, and with it the deltas of its events. -/
theorem Inv.rebucket {deltat : E → ℕ} {events : List E} {threads : ℕ → Option (E × Pc)}
    (h : Inv granularity s m moving)
    (hs' : s' = { s with
      deltat := deltat, evhead := update s.evhead q events, threads := threads })
    (hfresh : ∀ t, s.created ≤ t → threads t = none)
    (hdeltat : ∀ e', e' ∉ s.evhead q → e' ≠ e → deltat e' = s.deltat e')
    (hnodup : events.Nodup) (hevents : ∀ e' ≠ e, e' ∈ events ↔ e' ∈ s.evhead q)
    (honly : ∀ q' ≠ q, e ∉ s.evhead q')
    (hthreads : ∀ e' ≠ e, ∀ t pc, threads t = some (e', pc) ↔ s.threads t = some (e', pc))
    (htimed : ∃ turns, DeltaList.At deltat turns 0 events ∧
      ∀ e' ∈ events, Due s m e' q (turns e'))
    (hmoving : ∀ e' ≠ e, moving' e' ↔ moving e') (hplaced : ¬ moving' e → Placed granularity s' m e)
    (hmoves : moving' e → s'.Unattended e ∧ s'.Unlisted e) : Inv granularity s' m moving' := by
  have hmem : ∀ e' ≠ e, ∀ q', e' ∈ s'.evhead q' ↔ e' ∈ s.evhead q' := by
    intro e' hne q'
    rw [hs']
    change e' ∈ update s.evhead q events q' ↔ _
    by_cases hq : q' = q
    · rw [hq, update_self]
      exact hevents e' hne
    · rw [update_of_ne hq]
  refine ⟨?_, ?_, ?_, ?_, ?_, ?_⟩
  · rw [hs']
    exact h.now
  · rw [hs']
    exact hfresh
  · intro q'
    rw [hs']
    change (update s.evhead q events q').Nodup
    by_cases hq : q' = q
    · rw [hq, update_self]
      exact hnodup
    · rw [update_of_ne hq]
      exact h.nodup q'
  · intro q'
    have htick : s'.tickmod = s.tickmod := by rw [hs']
    have hevhead : s'.evhead q' = update s.evhead q events q' := by rw [hs']
    have hdelta : s'.deltat = deltat := by rw [hs']
    rw [hevhead, hdelta]
    by_cases hq : q' = q
    · rw [hq, update_self]
      obtain ⟨turns, hat, hdue⟩ := htimed
      exact ⟨turns, hat, fun e' he' => (due_congr htick rfl rfl).mpr (hdue e' he')⟩
    · rw [update_of_ne hq]
      obtain ⟨turns, hat, hdue⟩ := h.timed q'
      refine ⟨turns, hat.congr (fun b hb => hdeltat b (fun hb' => hq (h.disjoint hb' hb)) ?_)
        fun _ _ => rfl, fun e' he' => (due_congr htick rfl rfl).mpr (hdue e' he')⟩
      rintro rfl
      exact honly q' hq hb
  · intro e' hstays
    by_cases heq : e' = e
    · rw [heq] at hstays ⊢
      exact hplaced hstays
    · have htick : s'.tickmod = s.tickmod := by rw [hs']
      refine (h.placed e' ((hmoving e' heq).not.mp hstays)).congr ?_ ?_ ?_ (hmem e' heq)
        (.refl m e') fun _ _ _ => (due_congr htick rfl rfl).mpr
      · rw [hs']
      · intro hunlisted
        rw [hs']
        exact hdeltat e' (hunlisted q) heq
      · rw [hs']
        exact hthreads e' heq
  · intro e' hmoves'
    by_cases heq : e' = e
    · rw [heq] at hmoves' ⊢
      exact hmoves hmoves'
    · obtain ⟨hunattended, hunlisted⟩ := h.moving e' ((hmoving e' heq).mp hmoves')
      refine ⟨fun t pc => ?_, fun q' => (hmem e' heq q').not.mpr (hunlisted q')⟩
      rw [hs']
      exact (hthreads e' heq t pc).not.mpr (hunattended t pc)

/-- A thread begins at an event on its way. -/
theorem Inv.spawn (h : Inv granularity s m moving) (hmoves : moving e) (hmem : s'.mem e = some ev)
    (hothers : ∀ e' ≠ e, s'.mem e' = s.mem e' ∧ s'.deltat e' = s.deltat e' ∧ m.Same m' e')
    (hevhead : s'.evhead = s.evhead) (htick : s'.tickmod = s.tickmod)
    (hcreated : s'.created = s.created + 1)
    (hthreads : s'.threads = update s.threads s.created (some (e, pc)))
    (hnow : m'.now = m.now) (hknown : Known m' e ev) (hok : PcOk granularity s' m' e ev pc) :
    Inv granularity s' m' fun e' => moving e' ∧ e' ≠ e := by
  obtain ⟨hunattended, hunlisted⟩ := h.moving e hmoves
  refine h.change ⟨fun e' hne => (hothers e' hne).1, fun e' hne => (hothers e' hne).2.1, hevhead,
    htick, ?_, fun e' hne => (hothers e' hne).2.2, hnow⟩ ?_ (fun q hq => absurd hq (hunlisted q))
    (fun e' hne => and_iff_left hne) (fun _ => ?_) fun hmoves' => absurd rfl hmoves'.2
  · intro e' hne t' pc'
    rw [hthreads, update_apply]
    split
    next htt =>
      rw [htt, h.fresh _ (Nat.le_refl _)]
      simp [Ne.symm hne]
    next => exact Iff.rfl
  · intro t' ht'
    rw [hcreated] at ht'
    rw [hthreads, update_of_ne (by omega)]
    exact h.fresh t' (by omega)
  · refine .attended ev hmem hknown s.created pc ?_ ?_ hok ?_
    · rw [hthreads, update_self]
    · intro t' pc' ht'
      by_contra hne
      rw [hthreads, update_of_ne hne] at ht'
      exact hunattended t' pc' ht'
    · unfold Sys.Unlisted
      rw [hevhead]
      exact hunlisted

/-- An event without a thread and outside of the buckets may be on its way. -/
theorem Inv.depart (h : Inv granularity s m fun _ => False) (hunattended : s.Unattended e)
    (hunlisted : s.Unlisted e) : Inv granularity s m (· = e) :=
  ⟨h.now, h.fresh, h.nodup, h.timed, fun e' _ => h.placed e' id,
    fun e' heq => by rw [heq]; exact ⟨hunattended, hunlisted⟩⟩

/-- What the stub was told does not depend on the state of the event. -/
theorem Told.put {ev' : Event Call} (h : Told granularity s m e ev) (hcall : ev'.call = ev.call)
    (hcancelled : ev'.cancelled = ev.cancelled) (hre : ev'.rescheduled = ev.rescheduled)
    (hdeltat : s'.deltat e = s.deltat e) : Told granularity s' m e ev' := by
  unfold Told at h ⊢
  rw [hre, hcancelled, hdeltat]
  split
  next hset =>
    rw [if_pos hset] at h
    obtain ⟨hquiet, ⟨call, harmed, hev⟩, hdue⟩ := h
    exact ⟨hquiet, ⟨call, harmed, hcall.trans hev⟩, hdue⟩
  next hset =>
    rw [if_neg hset] at h
    exact h

variable [DecidableEq E]

/-- `e_insque` puts the event where it is due. -/
theorem Inv.eInsque (h : Inv granularity s m moving) (ht : s.threads t = some (e, .insque q)) :
    Inv granularity ((s.exit t).eInsque q e) m moving := by
  obtain ⟨ev, hmem, hknown, honly, hok, hunlisted, hstays⟩ := h.attended ht
  obtain ⟨hquiet, harmed, hstate, hq, hdue⟩ := hok
  have hperm := DeltaList.insert_perm e s.deltat (s.evhead q)
  have hnodup : (e :: s.evhead q).Nodup := nodup_cons.mpr ⟨hunlisted q, h.nodup q⟩
  have hevents : ∀ e', e' ∈ (DeltaList.insert e s.deltat (s.evhead q)).2 ↔
      e' = e ∨ e' ∈ s.evhead q := fun e' => by rw [hperm.mem_iff, mem_cons]
  refine h.rebucket (q := q) rfl ?_ (fun e' he' hne => DeltaList.insert_of_notMem he' hne)
    (hperm.nodup_iff.mpr hnodup) (fun e' hne => ?_) (fun q' _ => hunlisted q')
    (threads_update ht fun y hy => by cases hy) ?_ (fun _ _ => Iff.rfl) (fun _ => ?_)
    fun hmoves => absurd hmoves hstays
  · intro t' ht'
    change update s.threads t none t' = none
    rw [update_apply, h.fresh t' ht', ite_self]
  · exact (hevents e').trans (or_iff_right hne)
  · obtain ⟨turns, hat, hdue'⟩ := h.timed q
    refine ⟨update turns e (s.deltat e), ?_, fun e' he' => ?_⟩
    · refine DeltaList.At.insert (hat.congr (fun _ _ => rfl) fun b hb => ?_) hnodup ?_
      · exact update_of_ne (ne_of_mem_of_not_mem hb (hunlisted q)) _ _
      · rw [update_self, Nat.zero_add]
        rfl
    · rcases (hevents e').mp he' with rfl | he'
      · rw [update_self]
        exact hdue
      · rw [update_of_ne (ne_of_mem_of_not_mem he' (hunlisted q))]
        exact hdue' e' he'
  · refine .listed ev hmem hknown hstate hquiet harmed q hq ?_ ?_ ?_
    · change e ∈ update s.evhead q _ q
      rw [update_self]
      exact (hevents e).mpr (.inl rfl)
    · intro q' hq'
      by_contra hne
      change e ∈ update s.evhead q _ q' at hq'
      rw [update_of_ne hne] at hq'
      exact hunlisted q' hq'
    · intro t' pc' ht'
      change update s.threads t none t' = _ at ht'
      by_cases htt : t' = t
      · rw [htt, update_self] at ht'
        cases ht'
      · rw [update_of_ne htt] at ht'
        exact htt (honly t' pc' ht')

/-- `e_remque` takes a pending event from its bucket. -/
theorem Inv.eRemque (h : Inv granularity s m fun _ => False) (hbucket : q < bigN)
    (he : e ∈ s.evhead q) (hunattended : s.Unattended e) :
    ∃ s', s.eRemque e = some s' ∧ Inv granularity s' m (· = e) ∧ s'.mem = s.mem := by
  obtain ⟨q', hfind⟩ : ∃ q', (List.range bigN).find? (fun q => e ∈ s.evhead q) = some q' := by
    rw [← Option.isSome_iff_exists, find?_isSome]
    exact ⟨q, mem_range.mpr hbucket, by simpa using he⟩
  have he' : e ∈ s.evhead q' := by simpa using find?_some hfind
  obtain rfl := h.disjoint he he'
  unfold Sys.eRemque
  rw [hfind, Option.map_some]
  have herase := DeltaList.remove_snd e s.deltat (s.evhead q')
  refine ⟨_, rfl, h.rebucket (q := q') (e := e) rfl h.fresh
    (fun b hb _ => DeltaList.remove_of_notMem hb) ?_ (fun b hne => ?_)
    (fun q hne hq => hne (h.disjoint he' hq)) (fun _ _ _ _ => Iff.rfl) ?_
    (fun b hne => iff_of_false hne id) (fun hstays => absurd rfl hstays) fun _ => ⟨hunattended, ?_⟩,
    rfl⟩
  · rw [herase]
    exact (h.nodup q').erase e
  · rw [herase, mem_erase_of_ne hne]
  · obtain ⟨turns, hat, hdue⟩ := h.timed q'
    refine ⟨turns, hat.remove (h.nodup q') e, fun b hb => hdue b ?_⟩
    rw [herase] at hb
    exact mem_of_mem_erase hb
  · intro q hq
    change e ∈ update s.evhead q' _ q at hq
    by_cases hne : q = q'
    · rw [hne, update_self, herase] at hq
      exact (h.nodup q').not_mem_erase hq
    · rw [update_of_ne hne] at hq
      exact hne (h.disjoint he' hq)

section Threads

variable [DecidableEq Call]

/-- A thread ends that has freed its event. -/
theorem freed_spec (h : Inv granularity s m fun _ => False) (ht : s.threads t = some (e, pc))
    (hknown : Known m e ev) (hdetached : ev.detached = true) (hunarmed : Unarmed m e) :
    ∃ m', m.run granularity [.freed e] = some m' ∧
      Inv granularity ((s.free e).exit t) m' fun _ => False := by
  have hdetached' : m.detached e = true := hknown.detached.trans hdetached
  exact ⟨_, Contract.run_freed hknown.live hdetached' hunarmed, h.ends ht
    (fun e' hne => ⟨update_of_ne hne _ _, rfl, update_of_ne hne _ _, rfl, rfl, rfl,
      rfl⟩) rfl rfl rfl rfl rfl (.inl ⟨update_self _ _ _, update_self _ _ _⟩)⟩

/-- Every step of a thread. -/
theorem run_spec (h : Inv granularity s m fun _ => False) (ht : s.threads t = some (e, pc)) :
    ∃ m', m.run granularity (s.run granularity t e pc).2 = some m' ∧
      Inv granularity (s.run granularity t e pc).1 m' fun _ => False := by
  obtain ⟨ev, hmem, hknown, honly, hok, hunlisted, -⟩ := h.attended ht
  have hothers {ev : Event Call} {x : Option (Event Call)} : ∀ e' ≠ e,
      update s.mem e x e' = s.mem e' ∧ s.deltat e' = s.deltat e' ∧ m.Same m e' :=
    fun e' hne => ⟨update_of_ne hne _ _, rfl, .refl m e'⟩
  have hnothing : ∀ e' ≠ e, s.mem e' = s.mem e' ∧ s.deltat e' = s.deltat e' ∧ m.Same m e' :=
    fun e' _ => ⟨rfl, rfl, .refl m e'⟩
  unfold Sys.run
  rw [hmem]
  cases pc with
  | schedule time =>
    obtain ⟨hquiet, harmed⟩ := hok
    refine ⟨m, rfl, h.goes_on ht hmem
      (fun e' hne => ⟨rfl, update_of_ne hne _ _, .refl m e'⟩) rfl rfl rfl rfl rfl hknown
      ?_⟩
    by_cases hzero : Sys.ticks granularity time = 0
    · rw [if_pos hzero]
      rw [hzero] at harmed
      exact ⟨hquiet, harmed⟩
    · rw [if_neg hzero]
      exact ⟨hquiet, harmed, update_self _ _ _, hzero⟩
  | setScheduled =>
    obtain ⟨hquiet, harmed⟩ := hok
    have hstub : PcOk granularity
        ((s.put e { ev with state := .scheduled }).goto t e .createProcess) m e { ev with state := .scheduled } .createProcess := by
      refine ⟨rfl, ?_⟩
      dsimp only
      rw [hquiet.rescheduled, hquiet.cancelled]
      exact ⟨harmed.1, harmed.2⟩
    exact ⟨m, rfl, h.goes_on ht (update_self _ _ _) (@hothers ev _) rfl rfl rfl rfl rfl
      ⟨hknown.live, hknown.detached⟩ hstub⟩
  | createProcess =>
    have hgone : Inv granularity (s.exit t) m (· = e) := by
      refine h.change ⟨fun _ _ => rfl, fun _ _ => rfl, rfl, rfl,
        threads_update ht (fun y hy => by cases hy), fun e' _ => .refl m e', rfl⟩ ?_
        (fun q hq => absurd hq (hunlisted q)) (fun e' hne => iff_of_false hne id)
        (fun hstays => absurd rfl hstays) fun _ => ⟨?_, hunlisted⟩
      · intro t' ht'
        change update s.threads t none t' = none
        rw [update_apply, h.fresh t' ht', ite_self]
      · intro t' pc' ht'
        change update s.threads t none t' = _ at ht'
        by_cases htt : t' = t
        · rw [htt, update_self] at ht'
          cases ht'
        · rw [update_of_ne htt] at ht'
          exact htt (honly t' pc' ht')
    have hspawn : Inv granularity ((s.exit t).spawn e .stub) m fun e' => e' = e ∧ e' ≠ e :=
      hgone.spawn rfl hmem hnothing rfl rfl rfl rfl rfl hknown hok
    exact ⟨m, rfl, hspawn.moving_congr fun e' => iff_of_false id fun hand => hand.2 hand.1⟩
  | setPending delt =>
    obtain ⟨hquiet, harmed, hdelta, hne⟩ := hok
    exact ⟨m, rfl, h.goes_on ht (update_self _ _ _) (@hothers ev _) rfl rfl rfl rfl rfl
      ⟨hknown.live, hknown.detached⟩
      ⟨⟨hquiet.1, hquiet.2⟩, ⟨harmed.1, harmed.2⟩, hdelta, hne, rfl⟩⟩
  | readTickmod delt =>
    obtain ⟨hquiet, ⟨⟨call, harmed, hcall⟩, hdue⟩, hdelta, hne, hstate⟩ := hok
    have hlt := h.tickmod_lt
    refine ⟨m.set e (m.armed e) (some (m.now + delt)), ?_, h.goes_on ht hmem
      (fun e' hne => ⟨rfl, rfl, Contract.same_set hne⟩) rfl rfl rfl rfl rfl
      ⟨hknown.live, hknown.detached⟩ ⟨hquiet, ⟨call, delt, ?_, hcall⟩, hstate,
        Nat.mod_lt _ (by decide), ⟨?_, fun hq => ?_⟩⟩⟩
    · refine Contract.run_cons ?_
      unfold Contract.step
      dsimp only
      rw [harmed]
      exact if_pos ⟨rfl, hdue⟩
    · rw [Contract.set_armed, harmed]
    · rw [Contract.set_due]
      change some (m.now + delt) = some (m.now + ((s.tickmod + delt) % bigN + bigN - s.tickmod) %
        bigN + bigN * s.deltat e)
      rw [hdelta]
      congr 1
      unfold bigN at hlt ⊢
      omega
    · change (s.tickmod + delt) % bigN = s.tickmod at hq
      change 0 < s.deltat e
      rw [hdelta]
      unfold bigN at hlt hq ⊢
      omega
  | insque q => exact ⟨m, rfl, h.eInsque ht⟩
  | stub =>
    obtain ⟨hstate, htold⟩ := hok
    refine ⟨m, rfl, h.goes_on ht hmem hnothing rfl rfl rfl rfl rfl hknown ?_⟩
    by_cases hre : ev.rescheduled = true
    · rw [if_pos hre] at htold ⊢
      exact ⟨hre, htold⟩
    · rw [if_neg hre] at htold ⊢
      exact ⟨hstate, by simpa using hre, htold⟩
  | clearRescheduled =>
    obtain ⟨hre, htold⟩ := hok
    unfold Told at htold
    rw [if_pos hre] at htold
    exact ⟨m, rfl, h.goes_on ht (update_self _ _ _) (@hothers ev _) rfl rfl rfl rfl rfl
      ⟨hknown.live, hknown.detached⟩ ⟨⟨htold.1, rfl⟩, ⟨htold.2.1, htold.2.2⟩⟩⟩
  | reschedule =>
    exact ⟨m, rfl, h.goes_on ht hmem hnothing rfl rfl rfl rfl rfl hknown hok⟩
  | testCancelled =>
    obtain ⟨hstate, hre, hif⟩ := hok
    refine ⟨m, rfl, h.goes_on ht hmem hnothing rfl rfl rfl rfl rfl hknown ?_⟩
    by_cases hcancelled : ev.cancelled = true
    · rw [if_pos hcancelled] at hif ⊢
      exact ⟨hstate, hre, hif⟩
    · rw [if_neg hcancelled] at hif ⊢
      exact ⟨hstate, ⟨by simpa using hcancelled, hre⟩, hif⟩
  | testDetached =>
    obtain ⟨hstate, hre, hunarmed⟩ := hok
    dsimp only
    by_cases hdetached : ev.detached = true
    · rw [if_pos hdetached]
      exact freed_spec h ht hknown hdetached hunarmed
    · rw [if_neg hdetached]
      exact ⟨m, rfl, h.goes_on ht hmem hnothing rfl rfl rfl rfl rfl hknown
        ⟨hstate, hre, by simpa using hdetached, hunarmed⟩⟩
  | setInit =>
    obtain ⟨-, hre, hkept, hunarmed⟩ := hok
    exact ⟨m, rfl, h.goes_on ht (update_self _ _ _) (@hothers ev _) rfl rfl rfl rfl rfl
      ⟨hknown.live, hknown.detached⟩ ⟨rfl, hre, hkept, hunarmed⟩⟩
  | clearCancelled =>
    obtain ⟨hstate, hre, hkept, hunarmed⟩ := hok
    exact ⟨m, rfl, h.ends ht (@hothers ev _) rfl rfl rfl rfl rfl (.inr ⟨_,
      update_self _ _ _, ⟨hknown.live, hknown.detached⟩, .inl hstate, ⟨rfl, hre⟩, hkept, hunarmed⟩)⟩
  | setRunning =>
    obtain ⟨-, hquiet, ⟨call, harmed, hcall⟩, hdue⟩ := hok
    refine ⟨{ m.set e none none with starting := update m.starting e (some call) }, ?_,
      h.goes_on ht (update_self _ _ _) (fun e' hne => ⟨update_of_ne hne _ _, rfl,
        ?_⟩) rfl rfl rfl rfl rfl ⟨hknown.live, hknown.detached⟩ ⟨rfl, ?_, call,
        update_self _ _ _, hcall⟩⟩
    · refine Contract.run_cons ?_
      unfold Contract.step
      dsimp only
      rw [harmed]
      exact if_pos ⟨rfl, hdue⟩
    · exact ⟨rfl, rfl, update_of_ne hne _ _, update_of_ne hne _ _, update_of_ne hne _ _⟩
    · unfold Told
      dsimp only
      rw [hquiet.rescheduled]
      exact ⟨update_self _ _ _, update_self _ _ _⟩
  | call =>
    obtain ⟨hstate, htold, call, hstarting, hcall⟩ := hok
    have hrest : Told granularity (s.goto t e .running)
          { m with starting := update m.starting e none } e ev ↔
        Told granularity s m e ev := told_congr rfl rfl rfl
    refine ⟨{ m with starting := update m.starting e none }, ?_, h.goes_on ht hmem
      (fun e' hne => ⟨rfl, rfl, rfl, rfl, rfl, rfl, update_of_ne hne _ _⟩) rfl rfl rfl rfl
      rfl ⟨hknown.live, hknown.detached⟩ ⟨hstate, hrest.mpr htold⟩⟩
    refine Contract.run_cons ?_
    unfold Contract.step
    dsimp only
    rw [hstarting]
    exact if_pos hcall
  | running =>
    obtain ⟨-, htold⟩ := hok
    exact ⟨m, rfl, h.goes_on ht (update_self _ _ _) (@hothers ev _) rfl rfl rfl rfl rfl
      ⟨hknown.live, hknown.detached⟩ ⟨rfl, htold.put rfl rfl rfl rfl⟩⟩
  | testRescheduled =>
    obtain ⟨hstate, htold⟩ := hok
    refine ⟨m, rfl, h.goes_on ht hmem hnothing rfl rfl rfl rfl rfl hknown ?_⟩
    by_cases hre : ev.rescheduled = true
    · rw [if_pos hre]
      exact ⟨hre, htold⟩
    · unfold Told at htold
      rw [if_neg hre] at htold ⊢
      exact ⟨hstate, by simpa using hre, htold⟩
  | finish =>
    obtain ⟨hstate, hre, hunarmed⟩ := hok
    dsimp only
    by_cases hdetached : ev.detached = true
    · rw [if_pos hdetached]
      exact freed_spec h ht hknown hdetached hunarmed
    · rw [if_neg hdetached]
      exact ⟨m, rfl, h.ends ht (@hothers ev _) rfl rfl rfl rfl rfl (.inr ⟨_,
        update_self _ _ _, ⟨hknown.live, hknown.detached⟩, .inr hstate, ⟨rfl, hre⟩,
        by simpa using hdetached, hunarmed⟩)⟩

end Threads

end XEvent

end MachVirtuTerm
