import MachVirtuTerm.Kern.LockSet

/-!
# What a ulock knows of threads

To a ulock a thread is in one of a few roles: it accepts the ulock, waits in its queue or in its
hand-off, was granted it, or had its operation finished otherwise. The state of a ulock and the
roles of the threads agree while the lock set is locked by nobody.
-/

open List

namespace MachVirtuTerm

/-- What a thread is to a ulock. -/
inductive UlockRole
  | none
  /-- It is about to set `ho_thread`. -/
  | accepting
  /-- It waits, and nothing was decided. -/
  | waits (wait : UlockWait)
  /-- It was passed the ulock and has not returned; `accepts` tells whether it waits to accept it. -/
  | granted (accepts : Bool)
  /-- Its operation is finished, and it was not passed the ulock. -/
  | finished
  deriving DecidableEq

/-- The role of a thread that waits. -/
def UlockWait.role (wait : UlockWait) : Option ℕ → UlockRole
  | .none => .waits wait
  | .some code =>
    if wait ≠ .handoff ∧ obtainedCode code = true then .granted (wait = .accept) else .finished

/-- The role of a thread to a ulock. -/
def UlockThread.role {Thread Id : Type*} [DecidableEq Id] (x : UlockThread Thread Id) (id : Id) :
    UlockRole :=
  match x.pc with
  | .idle => .none
  | .accepting id' => if id' = id then .accepting else .none
  | .parked wait id' => if id' = id then wait.role x.promised else .none
  | .asleep wait id' => if id' = id then wait.role x.promised else .none
  | .woken wait id' => if id' = id then wait.role x.promised else .none
  | .aborting wait id' => if id' = id then wait.role x.promised else .none
  | .complete pass id' _ _ => if id' = id ∧ pass = .accept then .granted false else .none
  | .clearWait pass id' _ _ => if id' = id ∧ pass = .accept then .granted false else .none

/-- A thread in a role, and a ulock. -/
def RoleOk {Thread : Type*} (active : Bool) (u : Ulock Thread) (t : Thread) : UlockRole → Prop
  | .none => True
  | .accepting => active = true ∧ u.locked = true ∧ u.hoThread = none
  | .waits .acquire => active = true ∧ t ∈ u.blockedThreads
  | .waits .handoff => active = true ∧ u.hoThread = some t ∧ u.owner = some t
  | .waits .accept => active = true ∧ u.hoThread = some t
  | .granted accepts =>
    active = true → u.owner = some t ∧ (accepts = true → u.hoThread ≠ some t)
  | .finished => active = true → u.hoThread ≠ some t

/-- A thread and a ulock. -/
structure UlockThreadOk {Thread : Type*} (active : Bool) (u : Ulock Thread) (t : Thread)
    (r : UlockRole) (o : Bool) : Prop where
  role : RoleOk active u t r
  /-- Only who waits for the ulock is in its queue. -/
  blocked : t ∈ u.blockedThreads → r = .waits .acquire
  obtained : o = true → u.owner = some t
  /-- The owner has obtained the ulock or is about to return with it. -/
  owner : u.owner = some t → o = true ∨ ∃ accepts, r = .granted accepts

/-- A ulock, the lists of the lock set and the roles of all threads. -/
structure UlockOk {Thread : Type*} (active : Bool) (u : Ulock Thread) (isHeld handedOff : Prop)
    (role : Thread → UlockRole) (obtained : Thread → Bool) : Prop where
  held : active = true → (isHeld ↔ u.owner ≠ none) ∧ (u.held = true ↔ u.owner ≠ none)
  handoff : active = true → (handedOff ↔ u.hoThread ≠ none ∨ u.locked = true)
  nodup : u.blockedThreads.Nodup
  count : u.blockedCount = u.blockedThreads.length
  /-- Nobody is in the queue of a ulock that is free. -/
  blocked : active = true → u.blockedThreads ≠ [] → u.owner ≠ none
  inactive : active = false → u.owner = none
  unique : ∀ t t', role t = .accepting → role t' = .accepting → t = t'
  thread : ∀ t, UlockThreadOk active u t (role t) (obtained t)

section Ulock

variable {Thread : Type*} {active : Bool} {u u' : Ulock Thread} {t v : Thread}
  {isHeld handedOff isHeld' handedOff' : Prop} {role role' : Thread → UlockRole}
  {obtained obtained' : Thread → Bool}

/-- A ulock that changes, but not what a thread sees of it. -/
theorem UlockThreadOk.congr {r : UlockRole} {o : Bool} (h : UlockThreadOk active u v r o)
    (hblocked : v ∈ u'.blockedThreads ↔ v ∈ u.blockedThreads)
    (hho : u'.hoThread = some v ↔ u.hoThread = some v)
    (howner : u'.owner = some v ↔ u.owner = some v)
    (hlocked : r = .accepting → u'.locked = true ∧ u'.hoThread = none) :
    UlockThreadOk active u' v r o := by
  refine ⟨?_, fun hv => h.blocked (hblocked.mp hv), fun ho => howner.mpr (h.obtained ho),
    fun ho => h.owner (howner.mp ho)⟩
  have hrole := h.role
  cases r with
  | none => trivial
  | accepting => exact ⟨hrole.1, hlocked rfl⟩
  | waits wait =>
    cases wait with
    | acquire => exact ⟨hrole.1, hblocked.mpr hrole.2⟩
    | handoff => exact ⟨hrole.1, hho.mpr hrole.2.1, howner.mpr hrole.2.2⟩
    | accept => exact ⟨hrole.1, hho.mpr hrole.2⟩
  | granted accepts =>
    intro hactive
    obtain ⟨ho, hne⟩ := hrole hactive
    exact ⟨howner.mpr ho, fun haccepts hv => hne haccepts (hho.mp hv)⟩
  | finished =>
    intro hactive hv
    exact hrole hactive (hho.mp hv)

/-- A ulock to which everybody is what he was. -/
theorem UlockOk.congr (h : UlockOk active u isHeld handedOff role obtained)
    (hheld : isHeld ↔ isHeld') (hhandoff : handedOff ↔ handedOff')
    (hrole : ∀ t, role' t = role t) (hobtained : ∀ t, obtained' t = obtained t) :
    UlockOk active u isHeld' handedOff' role' obtained' := by
  obtain rfl : role' = role := funext hrole
  obtain rfl : obtained' = obtained := funext hobtained
  rw [← propext hheld, ← propext hhandoff]
  exact h

/-- A thread with no role is not in the queue. -/
theorem UlockThreadOk.not_blocked {o : Bool} (h : UlockThreadOk active u t .none o) :
    t ∉ u.blockedThreads := by
  intro hmem
  cases h.blocked hmem

/-- Somebody is about to set `ho_thread`. -/
theorem UlockThreadOk.locked {r : UlockRole} {o : Bool} (h : UlockThreadOk active u v r o)
    (hr : r = .accepting) : u.locked = true ∧ u.hoThread = none := by
  subst hr
  exact h.role.2

section

variable (h : UlockOk active u isHeld handedOff role obtained)

include h

/-- Who has another role than accepting does not make anybody accept. -/
theorem UlockOk.unique_of
    (ht : role' t ≠ .accepting) (hother : ∀ v, v ≠ t → role' v = role v) (v v' : Thread)
    (hv : role' v = .accepting) (hv' : role' v' = .accepting) : v = v' := by
  have hnot : ∀ w, role' w = .accepting → w ≠ t := by
    rintro w hw rfl
    exact ht hw
  exact h.unique v v' ((hother v (hnot v hv)).symm.trans hv) ((hother v' (hnot v' hv')).symm.trans hv')

/-- A thread leaves that neither is in the queue nor was granted the ulock. -/
theorem UlockOk.leave
    (hacquire : role t ≠ .waits .acquire) (hgranted : ∀ accepts, role t ≠ .granted accepts)
    (ht : role' t = .none) (hother : ∀ v, v ≠ t → role' v = role v) :
    UlockOk active u isHeld handedOff role' obtained := by
  refine ⟨h.held, h.handoff, h.nodup, h.count, h.blocked, h.inactive,
    h.unique_of (by simp [ht]) hother, fun v => ?_⟩
  · by_cases hv : v = t
    · subst hv
      have hold := h.thread v
      rw [ht]
      refine ⟨trivial, fun hmem => absurd (hold.blocked hmem) hacquire, hold.obtained, fun ho => ?_⟩
      refine Or.inl ((hold.owner ho).resolve_right ?_)
      rintro ⟨accepts, hr⟩
      exact hgranted accepts hr
    · rw [hother v hv]
      exact h.thread v

/-- A thread that was granted the ulock returns with it. -/
theorem UlockOk.obtain {accepts : Bool} (hrole : role t = .granted accepts) (ht : role' t = .none)
    (hother : ∀ v, v ≠ t → role' v = role v) (ho : obtained' t = (obtained t || active))
    (hoother : ∀ v, v ≠ t → obtained' v = obtained v) :
    UlockOk active u isHeld handedOff role' obtained' := by
  refine ⟨h.held, h.handoff, h.nodup, h.count, h.blocked, h.inactive,
    h.unique_of (by simp [ht]) hother, fun v => ?_⟩
  · by_cases hv : v = t
    · subst hv
      have hold := h.thread v
      rw [hrole] at hold
      rw [ht, ho]
      refine ⟨trivial, (fun hmem => nomatch hold.blocked hmem), fun hobtained => ?_, fun howner => ?_⟩
      · rcases (Bool.or_eq_true _ _).mp hobtained with hbefore | hactive
        · exact hold.obtained hbefore
        · exact (hold.role hactive).1
      · left
        cases hactive : active with
        | true => exact Bool.or_true _
        | false =>
          rw [h.inactive hactive] at howner
          cases howner
    · rw [hother v hv, hoother v hv]
      exact h.thread v

end

section

variable (h : UlockOk true u isHeld handedOff role obtained)

include h

/-- A thread enters the queue. -/
theorem UlockOk.enqueue {q : List Thread}
    (hq : q.Perm (t :: u.blockedThreads)) (hheld : u.held = true) (hrole : role t = .none)
    (ht : role' t = .waits .acquire) (hother : ∀ v, v ≠ t → role' v = role v) :
    UlockOk true { u with
      blockedThreads := q
      blockedCount := u.blockedCount + 1 } isHeld handedOff role' obtained := by
  have hold := h.thread t
  rw [hrole] at hold
  refine ⟨h.held, h.handoff, ?_, ?_, fun _ _ => ((h.held rfl).2.mp hheld), h.inactive,
    h.unique_of (by simp [ht]) hother, fun v => ?_⟩
  · exact hq.nodup_iff.mpr (nodup_cons.mpr ⟨hold.not_blocked, h.nodup⟩)
  · change u.blockedCount + 1 = (q.length : ℤ)
    rw [hq.length_eq, length_cons, h.count]
    push_cast
    rfl
  · by_cases hv : v = t
    · subst hv
      rw [ht]
      refine ⟨⟨rfl, hq.mem_iff.mpr (mem_cons_self ..)⟩, fun _ => rfl, hold.obtained, fun ho => ?_⟩
      exact Or.inl ((hold.owner ho).resolve_right fun hex => nomatch hex.choose_spec)
    · rw [hother v hv]
      refine (h.thread v).congr ?_ Iff.rfl Iff.rfl (h.thread v).locked
      rw [hq.mem_iff, mem_cons, or_iff_right hv]

/-- A ulock that is free is taken. -/
theorem UlockOk.take (hheld : ¬u.held = true)
    (hrole : role t = .none) (hisHeld : isHeld') (ho : obtained' t = true)
    (hoother : ∀ v, v ≠ t → obtained' v = obtained v) :
    UlockOk true { u with
      owner := some t
      held := true } isHeld' handedOff role obtained' := by
  have hfree : u.owner = none := by
    by_contra howner
    exact hheld ((h.held rfl).2.mpr howner)
  refine ⟨fun _ => ?_, h.handoff, h.nodup, h.count, fun _ _ => ?_, (fun hfalse => nomatch hfalse),
    h.unique, fun v => ?_⟩
  · exact ⟨iff_of_true hisHeld (by simp), iff_of_true rfl (by simp)⟩
  · simp
  · by_cases hv : v = t
    · subst hv
      have hold := h.thread v
      rw [hrole] at hold
      rw [hrole, ho]
      exact ⟨trivial, fun hmem => absurd hmem hold.not_blocked, fun _ => rfl, fun _ => Or.inl rfl⟩
    · rw [hoother v hv]
      refine (h.thread v).congr Iff.rfl Iff.rfl ?_ (h.thread v).locked
      rw [hfree]
      simp [Ne.symm hv]

/-- The owner passes the ulock on to the first thread in the queue. -/
theorem UlockOk.release {a : Thread}
    {rest : List Thread} (howner : u.owner = some t) (hrole : role t = .none)
    (hblocked : u.blockedThreads = a :: rest) (ha : role' a = .granted false)
    (hother : ∀ v, v ≠ a → role' v = role v) (ho : obtained' t = false)
    (hoother : ∀ v, v ≠ t → obtained' v = obtained v) :
    UlockOk true { u with
      owner := some a
      blockedThreads := rest
      blockedCount := u.blockedCount - 1 } isHeld handedOff role' obtained' := by
  have hold := h.thread t
  rw [hrole] at hold
  have hamem : a ∈ u.blockedThreads := hblocked ▸ mem_cons_self ..
  have hne : a ≠ t := by
    rintro rfl
    exact hold.not_blocked hamem
  have hnodup := h.nodup
  rw [hblocked] at hnodup
  obtain ⟨hnot, hrest⟩ := nodup_cons.mp hnodup
  have hheld := h.held rfl
  rw [howner] at hheld
  refine ⟨fun _ => ?_, h.handoff, hrest, ?_, fun _ _ => by simp, (fun hfalse => nomatch hfalse),
    h.unique_of (by simp [ha]) hother, fun v => ?_⟩
  · simpa using hheld
  · change u.blockedCount - 1 = (rest.length : ℤ)
    rw [h.count, hblocked, length_cons]
    push_cast
    exact add_sub_cancel_right _ _
  by_cases hva : v = a
  · subst hva
    rw [ha, hoother v hne]
    refine ⟨fun _ => ⟨rfl, fun hfalse => nomatch hfalse⟩, fun hmem => absurd hmem hnot, fun _ => rfl,
      fun _ => Or.inr ⟨false, rfl⟩⟩
  · rw [hother v hva]
    have hmem : v ∈ rest ↔ v ∈ u.blockedThreads := by
      rw [hblocked, mem_cons, or_iff_right hva]
    by_cases hvt : v = t
    · subst hvt
      rw [hrole, ho]
      refine ⟨trivial, fun hv => absurd (hmem.mp hv) hold.not_blocked, (fun hfalse => nomatch hfalse),
        fun hfalse => ?_⟩
      exact absurd (Option.some.inj hfalse) hne
    · rw [hoother v hvt]
      refine (h.thread v).congr hmem Iff.rfl ?_ (h.thread v).locked
      rw [howner]
      simp [Ne.symm hva, Ne.symm hvt]

/-- The owner lets a ulock go that nobody waits for. -/
theorem UlockOk.free
    (howner : u.owner = some t) (hrole : role t = .none) (hblocked : u.blockedThreads = [])
    (hisHeld : ¬isHeld') (ho : obtained' t = false)
    (hoother : ∀ v, v ≠ t → obtained' v = obtained v) :
    UlockOk true { u with
      owner := none
      held := false } isHeld' handedOff role obtained' := by
  refine ⟨fun _ => ?_, h.handoff, h.nodup, h.count, fun _ hne => absurd hblocked hne, fun _ => rfl,
    h.unique, fun v => ?_⟩
  · exact ⟨iff_of_false hisHeld (by simp), iff_of_false (by simp) (by simp)⟩
  have hold := h.thread v
  by_cases hvt : v = t
  · subst hvt
    rw [hrole] at hold
    rw [hrole, ho]
    exact ⟨trivial, fun hv => absurd hv hold.not_blocked, (fun hfalse => nomatch hfalse),
      fun hfalse => nomatch hfalse⟩
  · rw [hoother v hvt]
    refine hold.congr Iff.rfl Iff.rfl ?_ hold.locked
    rw [howner]
    simp [Ne.symm hvt]

/-- The owner hands the ulock off to the thread that waits to accept it. -/
theorem UlockOk.handOff {a : Thread}
    (howner : u.owner = some t) (hrole : role t = .none) (hlocked : u.locked = false)
    (hho : u.hoThread = some a) (hwaits : role a = .waits .accept) (ha : role' a = .granted true)
    (hother : ∀ v, v ≠ a → role' v = role v) (ho : obtained' t = false)
    (hoother : ∀ v, v ≠ t → obtained' v = obtained v) (hhandedOff : ¬handedOff') :
    UlockOk true { u with
      owner := some a
      hoThread := none } isHeld handedOff' role' obtained' := by
  have hne : a ≠ t := by
    rintro rfl
    rw [hrole] at hwaits
    cases hwaits
  have hheld := h.held rfl
  rw [howner] at hheld
  refine ⟨fun _ => by simpa using hheld, fun _ => iff_of_false hhandedOff (by simp [hlocked]),
    h.nodup, h.count, fun _ _ => by simp, (fun hfalse => nomatch hfalse),
    h.unique_of (by simp [ha]) hother, fun v => ?_⟩
  have hold := h.thread v
  by_cases hva : v = a
  · subst hva
    rw [hwaits] at hold
    rw [ha, hoother v hne]
    refine ⟨fun _ => ⟨rfl, fun _ hfalse => nomatch hfalse⟩, (fun hv => nomatch hold.blocked hv),
      fun _ => rfl, fun _ => Or.inr ⟨true, rfl⟩⟩
  · rw [hother v hva]
    by_cases hvt : v = t
    · subst hvt
      rw [hrole] at hold
      rw [hrole, ho]
      refine ⟨trivial, fun hv => absurd hv hold.not_blocked, (fun hfalse => nomatch hfalse),
        fun hfalse => ?_⟩
      exact absurd (Option.some.inj hfalse) hne
    · rw [hoother v hvt]
      refine hold.congr Iff.rfl ?_ ?_ fun hacc => ?_
      · rw [hho]
        simp [Ne.symm hva]
      · rw [howner]
        simp [Ne.symm hva, Ne.symm hvt]
      · exact absurd (hlocked.symm.trans (hold.locked hacc).1) Bool.noConfusion

/-- The owner waits for a thread that accepts the ulock. -/
theorem UlockOk.parkHandoff
    (howner : u.owner = some t) (hrole : role t = .none) (hlocked : u.locked = false)
    (hho : u.hoThread = none) (ht : role' t = .waits .handoff)
    (hother : ∀ v, v ≠ t → role' v = role v) (hhandedOff : handedOff') :
    UlockOk true { u with hoThread := some t } isHeld handedOff' role' obtained := by
  refine ⟨h.held, fun _ => iff_of_true hhandedOff (by simp), h.nodup, h.count, h.blocked, h.inactive,
    h.unique_of (by simp [ht]) hother, fun v => ?_⟩
  have hold := h.thread v
  by_cases hvt : v = t
  · subst hvt
    rw [hrole] at hold
    rw [ht]
    refine ⟨⟨rfl, rfl, howner⟩, fun hv => absurd hv hold.not_blocked, hold.obtained, fun ho => ?_⟩
    exact Or.inl ((hold.owner ho).resolve_right fun hex => nomatch hex.choose_spec)
  · rw [hother v hvt]
    refine hold.congr Iff.rfl ?_ Iff.rfl fun hacc => ?_
    · rw [hho]
      simp [Ne.symm hvt]
    · exact absurd (hlocked.symm.trans (hold.locked hacc).1) Bool.noConfusion

/-- A thread accepts the ulock that another hands off. -/
theorem UlockOk.accept {a : Thread}
    (howner : u.owner = some a) (hrole : role t = .none) (hlocked : u.locked = false)
    (hho : u.hoThread = some a) (hwaits : role a = .waits .handoff) (ha : role' a = .finished)
    (ht : role' t = .granted false) (hother : ∀ v, v ≠ a → v ≠ t → role' v = role v)
    (ho : obtained' a = false) (hoother : ∀ v, v ≠ a → obtained' v = obtained v)
    (hhandedOff : ¬handedOff') :
    UlockOk true { u with
      owner := some t
      hoThread := none } isHeld handedOff' role' obtained' := by
  have hne : a ≠ t := by
    rintro rfl
    rw [hrole] at hwaits
    cases hwaits
  have hheld := h.held rfl
  rw [howner] at hheld
  refine ⟨fun _ => by simpa using hheld, fun _ => iff_of_false hhandedOff (by simp [hlocked]),
    h.nodup, h.count, fun _ _ => by simp, (fun hfalse => nomatch hfalse), fun v v' hv hv' => ?_,
    fun v => ?_⟩
  · have hnot : ∀ w, role' w = .accepting → role w = .accepting := by
      intro w hw
      rw [← hother w (by rintro rfl; rw [ha] at hw; cases hw) (by rintro rfl; rw [ht] at hw; cases hw)]
      exact hw
    exact h.unique v v' (hnot v hv) (hnot v' hv')
  have hold := h.thread v
  by_cases hva : v = a
  · subst hva
    rw [hwaits] at hold
    rw [ha, ho]
    refine ⟨(fun _ hfalse => nomatch hfalse), (fun hv => nomatch hold.blocked hv),
      (fun hfalse => nomatch hfalse), fun hfalse => ?_⟩
    exact absurd (Option.some.inj hfalse).symm hne
  · rw [hoother v hva]
    by_cases hvt : v = t
    · subst hvt
      rw [hrole] at hold
      rw [ht]
      exact ⟨fun _ => ⟨rfl, fun hfalse => nomatch hfalse⟩, fun hv => absurd hv hold.not_blocked,
        fun _ => rfl, fun _ => Or.inr ⟨false, rfl⟩⟩
    · rw [hother v hva hvt]
      refine hold.congr Iff.rfl ?_ ?_ fun hacc => ?_
      · rw [hho]
        simp [Ne.symm hva]
      · rw [howner]
        simp [Ne.symm hva, Ne.symm hvt]
      · exact absurd (hlocked.symm.trans (hold.locked hacc).1) Bool.noConfusion

/-- A thread that finds nobody to accept the ulock from keeps it locked. -/
theorem UlockOk.startAccept
    (hrole : role t = .none) (hlocked : u.locked = false) (hho : u.hoThread = none)
    (ht : role' t = .accepting) (hother : ∀ v, v ≠ t → role' v = role v) (hhandedOff : handedOff') :
    UlockOk true { u with locked := true } isHeld handedOff' role' obtained := by
  have hnone : ∀ v, v ≠ t → role' v ≠ .accepting := by
    intro v hvt hacc
    rw [hother v hvt] at hacc
    exact absurd (hlocked.symm.trans ((h.thread v).locked hacc).1) Bool.noConfusion
  refine ⟨h.held, fun _ => iff_of_true hhandedOff (by simp), h.nodup, h.count, h.blocked, h.inactive,
    fun v v' hv hv' => ?_, fun v => ?_⟩
  · rw [not_not.mp fun hvt => hnone v hvt hv, not_not.mp fun hvt => hnone v' hvt hv']
  have hold := h.thread v
  by_cases hvt : v = t
  · subst hvt
    rw [hrole] at hold
    rw [ht]
    refine ⟨⟨rfl, rfl, hho⟩, fun hv => absurd hv hold.not_blocked, hold.obtained, fun ho => ?_⟩
    exact Or.inl ((hold.owner ho).resolve_right fun hex => nomatch hex.choose_spec)
  · rw [hother v hvt]
    exact hold.congr Iff.rfl Iff.rfl Iff.rfl fun hacc => ⟨rfl, hho⟩

end

/-- It waits for a thread that hands the ulock off. -/
theorem UlockOk.setHoThread (h : UlockOk active u isHeld handedOff role obtained)
    (hrole : role t = .accepting) (ht : role' t = .waits .accept)
    (hother : ∀ v, v ≠ t → role' v = role v) :
    UlockOk active { u with
      hoThread := some t
      locked := false } isHeld handedOff role' obtained := by
  have hself := h.thread t
  rw [hrole] at hself
  obtain ⟨hactive, hlocked, hho⟩ := hself.role
  have hhandedOff := (h.handoff hactive).mpr (Or.inr hlocked)
  refine ⟨h.held, fun _ => iff_of_true hhandedOff (by simp), h.nodup, h.count, h.blocked, h.inactive,
    h.unique_of (by simp [ht]) hother, fun v => ?_⟩
  have hold := h.thread v
  by_cases hvt : v = t
  · subst hvt
    rw [ht]
    refine ⟨⟨hactive, rfl⟩, (fun hv => nomatch hself.blocked hv), hself.obtained, fun ho => ?_⟩
    exact Or.inl ((hself.owner ho).resolve_right fun hex => nomatch hex.choose_spec)
  · rw [hother v hvt]
    refine hold.congr Iff.rfl ?_ Iff.rfl fun hacc => ?_
    · rw [hho]
      simp [Ne.symm hvt]
    · exact absurd (h.unique v t hacc hrole) hvt

/-- A thread whose operation was aborted takes itself off the queue. -/
theorem UlockOk.abortAcquire [DecidableEq Thread] (h : UlockOk active u isHeld handedOff role obtained)
    (hrole : role t = .waits .acquire) (ht : role' t = .none)
    (hother : ∀ v, v ≠ t → role' v = role v) :
    UlockOk active { u with
      blockedThreads := u.blockedThreads.erase t
      blockedCount := u.blockedCount - 1 } isHeld handedOff role' obtained := by
  have hself := h.thread t
  rw [hrole] at hself
  have hmem : t ∈ u.blockedThreads := hself.role.2
  refine ⟨h.held, h.handoff, h.nodup.erase t, ?_, fun hactive hne => ?_, h.inactive,
    h.unique_of (by simp [ht]) hother, fun v => ?_⟩
  · have hlength := length_erase_of_mem hmem
    have hpos := length_pos_of_mem hmem
    change u.blockedCount - 1 = ((u.blockedThreads.erase t).length : ℤ)
    rw [h.count]
    omega
  · apply h.blocked hactive
    rintro hempty
    rw [hempty] at hmem
    cases hmem
  have hold := h.thread v
  by_cases hvt : v = t
  · subst hvt
    rw [ht]
    refine ⟨trivial, fun hv => absurd rfl (h.nodup.mem_erase_iff.mp hv).1, hself.obtained, fun ho => ?_⟩
    exact Or.inl ((hself.owner ho).resolve_right fun hex => nomatch hex.choose_spec)
  · rw [hother v hvt]
    exact hold.congr (mem_erase_of_ne hvt) Iff.rfl Iff.rfl hold.locked

/-- A thread whose operation was aborted ends the hand-off. -/
theorem UlockOk.abortHandoff (h : UlockOk active u isHeld handedOff role obtained) {wait : UlockWait}
    (hrole : role t = .waits wait) (hwait : wait ≠ .acquire) (hlocked : u.locked = false)
    (ht : role' t = .none) (hother : ∀ v, v ≠ t → role' v = role v) (hhandedOff : ¬handedOff') :
    UlockOk active { u with hoThread := none } isHeld handedOff' role' obtained := by
  have hself := h.thread t
  rw [hrole] at hself
  have hho : u.hoThread = some t := by
    have hr := hself.role
    cases wait with
    | acquire => exact absurd rfl hwait
    | handoff => exact hr.2.1
    | accept => exact hr.2
  refine ⟨h.held, fun _ => iff_of_false hhandedOff (by simp [hlocked]), h.nodup, h.count, h.blocked,
    h.inactive, h.unique_of (by simp [ht]) hother, fun v => ?_⟩
  have hold := h.thread v
  by_cases hvt : v = t
  · subst hvt
    rw [ht]
    refine ⟨trivial, fun hv => ?_, hself.obtained, fun ho => ?_⟩
    · exact absurd (UlockRole.waits.inj (hself.blocked hv)) hwait
    · exact Or.inl ((hself.owner ho).resolve_right fun hex => nomatch hex.choose_spec)
  · rw [hother v hvt]
    refine hold.congr Iff.rfl ?_ Iff.rfl fun hacc => ?_
    · rw [hho]
      simp [Ne.symm hvt]
    · exact absurd (hlocked.symm.trans (hold.locked hacc).1) Bool.noConfusion

/-- The ulock is made stable or unstable. -/
theorem UlockOk.setStable (h : UlockOk active u isHeld handedOff role obtained) (stable : Bool) :
    UlockOk active { u with stable := stable } isHeld handedOff role obtained :=
  ⟨h.held, h.handoff, h.nodup, h.count, h.blocked, h.inactive, h.unique,
    fun v => (h.thread v).congr Iff.rfl Iff.rfl Iff.rfl (h.thread v).locked⟩

/-- The lock set is destroyed. -/
theorem ulockOk_destroyed (hblocked : u.blockedThreads = []) (hcount : u.blockedCount = 0)
    (howner : u.owner = none) (hwaits : ∀ v wait, role v ≠ .waits wait)
    (haccepting : ∀ v, role v ≠ .accepting) :
    UlockOk false u isHeld handedOff role fun _ => false := by
  refine ⟨(fun hfalse => nomatch hfalse), (fun hfalse => nomatch hfalse), hblocked ▸ nodup_nil, ?_,
    (fun hfalse => nomatch hfalse), fun _ => howner, fun v v' hv => absurd hv (haccepting v),
    fun v => ?_⟩
  · rw [hcount, hblocked]
    rfl
  constructor
  · cases hr : role v with
    | none => trivial
    | accepting => exact absurd hr (haccepting v)
    | waits wait => exact absurd hr (hwaits v wait)
    | granted accepts => exact fun hfalse => nomatch hfalse
    | finished => exact fun hfalse => nomatch hfalse
  · intro hmem
    rw [hblocked] at hmem
    cases hmem
  · intro hfalse
    cases hfalse
  · intro hfalse
    rw [howner] at hfalse
    cases hfalse

end Ulock

end MachVirtuTerm
