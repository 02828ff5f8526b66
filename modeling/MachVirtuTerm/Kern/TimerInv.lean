import Mathlib.Algebra.BigOperators.Group.Multiset.Basic
import MachVirtuTerm.Kern.Timer

/-!
# What becomes of a timer

The chain has the elements that are set, in the order in which they expire. Every timer that
is set is either reset or has its function called once, and not before its tick. The
references of timers to threads are kept count of as long as nobody resets or sets a timer
whose function is pending: `thread_timeout` then finds that its work was taken away, and the
reference is not dropped by anybody.
-/

open List Function Option

namespace MachVirtuTerm

open BitVec

variable {Thread : Type*}

/-- The chain has the elements that are set, the first to expire first. -/
structure ChainInv (chain : List (TimerId Thread)) (elt : TimerId Thread → TimerElt Thread) :
    Prop where
  nodup : chain.Nodup
  mem_iff : ∀ id, id ∈ chain ↔ (elt id).set = .set
  sorted : chain.Pairwise fun a b => (elt a).ticks ≤ (elt b).ticks

namespace ChainInv

variable [DecidableEq Thread] {chain : List (TimerId Thread)}
  {elt elt' : TimerId Thread → TimerElt Thread} {id : TimerId Thread}

variable (h : ChainInv chain elt)

include h

/-- An element that is not on the chain changes. -/
theorem update_off (hid : id ∉ chain) {x : TimerElt Thread}
    (hx : x.set ≠ .set) : ChainInv chain (Function.update elt id x) := by
  have hother : ∀ a ∈ chain, Function.update elt id x a = elt a := fun a ha =>
    update_of_ne (by rintro rfl; exact hid ha) _ _
  refine ⟨h.nodup, fun a => ?_, h.sorted.imp_of_mem fun ha hb hle => ?_⟩
  · by_cases haid : a = id
    · subst haid
      rw [update_self]
      exact iff_of_false hid hx
    · rw [update_of_ne haid]
      exact h.mem_iff a
  · rw [hother _ ha, hother _ hb]
    exact hle

/-- An element goes off the chain. -/
theorem erase {x : TimerElt Thread} (hx : x.set ≠ .set) :
    ChainInv (chain.erase id) (Function.update elt id x) := by
  have hnotMem : id ∉ chain.erase id := h.nodup.not_mem_erase
  have hother : ∀ a ∈ chain.erase id, Function.update elt id x a = elt a := fun a ha =>
    update_of_ne (by rintro rfl; exact hnotMem ha) _ _
  refine ⟨h.nodup.erase id, fun a => ?_,
    (h.sorted.sublist erase_sublist).imp_of_mem fun ha hb hle => ?_⟩
  · by_cases haid : a = id
    · subst haid
      rw [update_self]
      exact iff_of_false hnotMem hx
    · rw [update_of_ne haid, mem_erase_of_ne haid]
      exact h.mem_iff a
  · rw [hother _ ha, hother _ hb]
    exact hle

/-- An element comes onto the chain in its place. -/
theorem insert (hid : (elt id).set ≠ .set) {x : TimerElt Thread} (hx : x.set = .set) :
    ChainInv (chain.orderedInsert (fun a b => (Function.update elt id x a).ticks ≤
      (Function.update elt id x b).ticks) id) (Function.update elt id x) := by
  have hnotMem : id ∉ chain := fun hmem => hid ((h.mem_iff id).mp hmem)
  have hother : ∀ a ∈ chain, Function.update elt id x a = elt a := fun a ha =>
    update_of_ne (by rintro rfl; exact hnotMem ha) _ _
  have htotal : Std.Total fun a b : TimerId Thread => (Function.update elt id x a).ticks ≤
      (Function.update elt id x b).ticks := ⟨fun a b => le_total _ _⟩
  have htrans : IsTrans (TimerId Thread) fun a b => (Function.update elt id x a).ticks ≤
      (Function.update elt id x b).ticks := ⟨fun a b c => le_trans⟩
  refine ⟨?_, fun a => ?_, ?_⟩
  · rw [(perm_orderedInsert _ id chain).nodup_iff]
    exact nodup_cons.mpr ⟨hnotMem, h.nodup⟩
  · rw [mem_orderedInsert]
    by_cases haid : a = id
    · subst haid
      rw [update_self]
      exact iff_of_true (Or.inl rfl) hx
    · rw [or_iff_right haid, update_of_ne haid]
      exact h.mem_iff a
  · refine List.Pairwise.orderedInsert id chain (h.sorted.imp_of_mem fun ha hb hle => ?_)
    rw [hother _ ha, hother _ hb]
    exact hle

end ChainInv

namespace TimerState

variable {s s' : TimerState Thread} {l : TimerAction Thread × TimerOutput Thread}

/-- What holds of the chain and the softclock thread. -/
structure Inv (s : TimerState Thread) : Prop where
  chain : ChainInv s.chain s.elt
  below : ∀ id ∈ s.chain, (s.elt id).ticks < allOnes 32
  ticks : s.timeoutTicks < allOnes 32
  calling : ∀ r, s.softclock = .calling r → r.ticks ≤ s.timeoutTicks
  punctual : s.softclock = .asleep → s.wakeup = false → ∀ id ∈ s.chain,
    s.timeoutTicks ≤ (s.elt id).ticks

/-- The first of the chain expires before all others. -/
theorem Inv.firstTicks_le (h : s.Inv) : ∀ id ∈ s.chain, s.firstTicks ≤ (s.elt id).ticks := by
  intro id hid
  have hsorted := h.chain.sorted
  unfold firstTicks
  cases hchain : s.chain with
  | nil =>
    rw [hchain] at hid
    cases hid
  | cons a chain =>
    rw [hchain] at hid hsorted
    rcases mem_cons.mp hid with rfl | hid
    · exact le_rfl
    · exact (pairwise_cons.mp hsorted).1 id hid

/-- How far a section looks ahead of the clock. -/
def interval : TimerAction Thread → ℕ
  | .setTimeout _ interval => interval.toNat
  | .timeoutSet _ interval => interval.toNat
  | .timeoutTick => 1
  | _ => 0

/-- The ticks, and the intervals that are asked for, stay below the largest number. -/
def InRange (s : TimerState Thread) (l : TimerAction Thread × TimerOutput Thread) : Prop :=
  interval l.1 + s.timeoutTicks.toNat < 2 ^ 32 - 1

instance (s : TimerState Thread) (l : TimerAction Thread × TimerOutput Thread) :
    Decidable (s.InRange l) := inferInstanceAs (Decidable (_ < _))

/-- Sums in range do not wrap. -/
theorem add_of_inRange {a b : BitVec 32} (h : a.toNat + b.toNat < 2 ^ 32 - 1) :
    b ≤ a + b ∧ a + b < allOnes 32 := by
  have hsum : (a + b).toNat = a.toNat + b.toNat := by
    rw [toNat_add]
    omega
  constructor
  · rw [le_def, hsum]
    omega
  · rw [lt_def, hsum, toNat_allOnes]
    exact h

/-- A tick. -/
theorem Inv.timeoutTick (h : s.Inv) (hrange : 1 + s.timeoutTicks.toNat < 2 ^ 32 - 1) :
    s.timeoutTick.Inv := by
  obtain ⟨hle, hlt⟩ := @add_of_inRange 1 s.timeoutTicks hrange
  rw [add_comm] at hle hlt
  refine ⟨h.chain, h.below, hlt, fun r hr => (h.calling r hr).trans hle, fun _ hwakeup id hid => ?_⟩
  have hdue : ¬s.firstTicks ≤ s.timeoutTicks + 1 :=
    of_decide_eq_false (Bool.or_eq_false_iff.mp hwakeup).2
  exact (not_le.mp hdue).le.trans (h.firstTicks_le id hid)

/-- What holds at first. -/
theorem inv_init (otherRefs : Thread → ℕ) : (init otherRefs).Inv := by
  refine ⟨⟨nodup_nil, fun id => ?_, List.Pairwise.nil⟩, fun _ hid => (by cases hid), by simp [init],
    fun r hr => (by cases hr), fun _ _ _ hid => (by cases hid)⟩
  refine iff_of_false (not_mem_nil) ?_
  cases id <;> simp [init]

variable [DecidableEq Thread]

section

variable (h : s.Inv)

include h

/-- A timer is set. -/
theorem Inv.setTimeout {id : TimerId Thread} {interval : BitVec 32} (hid : (s.elt id).set ≠ .set)
    (hrange : interval.toNat + s.timeoutTicks.toNat < 2 ^ 32 - 1) :
    (s.setTimeout id interval).1.Inv := by
  obtain ⟨hle, hlt⟩ := add_of_inRange hrange
  have hchain := h.chain.insert hid (x := { s.elt id with ticks := interval + s.timeoutTicks, set := .set }) rfl
  have hmem : ∀ a ∈ (s.setTimeout id interval).1.chain,
      a = id ∨ a ∈ s.chain ∧ (s.setTimeout id interval).1.elt a = s.elt a := by
    intro a ha
    by_cases haid : a = id
    · exact Or.inl haid
    · exact Or.inr ⟨((mem_orderedInsert _).mp ha).resolve_left haid, update_of_ne haid _ _⟩
  have hself : ((s.setTimeout id interval).1.elt id).ticks = interval + s.timeoutTicks := by
    simp [TimerState.setTimeout]
  refine ⟨hchain, fun a ha => ?_, h.ticks, h.calling, fun hasleep hwakeup a ha => ?_⟩
  · rcases hmem a ha with rfl | ⟨ha, heq⟩
    · rw [hself]
      exact hlt
    · rw [heq]
      exact h.below a ha
  · rcases hmem a ha with rfl | ⟨ha, heq⟩
    · rw [hself]
      exact hle
    · rw [heq]
      exact h.punctual hasleep hwakeup a ha

/-- An element goes off the chain, whatever becomes of it. -/
theorem Inv.erase (id : TimerId Thread) {x : TimerElt Thread} (hx : x.set ≠ .set)
    (refCount : Thread → ℤ) : Inv { s with
      elt := Function.update s.elt id x
      chain := s.chain.erase id
      refCount := refCount } := by
  have hmem : ∀ a ∈ s.chain.erase id, a ∈ s.chain ∧ Function.update s.elt id x a = s.elt a :=
    fun a ha => ⟨mem_of_mem_erase ha, update_of_ne (by
      rintro rfl
      exact h.chain.nodup.not_mem_erase ha) _ _⟩
  refine ⟨h.chain.erase hx, fun a ha => ?_, h.ticks, h.calling, fun hasleep hwakeup a ha => ?_⟩
  · obtain ⟨ha, heq⟩ := hmem a ha
    dsimp only
    rw [heq]
    exact h.below a ha
  · obtain ⟨ha, heq⟩ := hmem a ha
    dsimp only
    rw [heq]
    exact h.punctual hasleep hwakeup a ha

/-- An element that is not set changes. -/
theorem Inv.update_off (id : TimerId Thread) (x : TimerElt Thread)
    (hid : (s.elt id).set ≠ .set) (hx : x.set ≠ .set) :
    Inv { s with elt := Function.update s.elt id x } := by
  have hnotMem : id ∉ s.chain := fun hmem => hid ((h.chain.mem_iff id).mp hmem)
  have hother : ∀ a ∈ s.chain, Function.update s.elt id x a = s.elt a := fun a ha =>
    update_of_ne (by rintro rfl; exact hnotMem ha) _ _
  refine ⟨h.chain.update_off hnotMem hx, fun a ha => ?_, h.ticks, h.calling,
    fun hasleep hwakeup a ha => ?_⟩
  · dsimp only
    rw [hother a ha]
    exact h.below a ha
  · dsimp only
    rw [hother a ha]
    exact h.punctual hasleep hwakeup a ha

/-- What happens to a timer that is reset. -/
theorem Inv.resetTimeout {id : TimerId Thread} : (s.resetTimeout id).1.Inv := by
  unfold TimerState.resetTimeout
  split
  · exact h.erase id (by simp) _
  split
  · rename_i hpending
    exact h.update_off _ _ (by simp [hpending]) (by simp)
  · exact h

/-- A timer that is found is reset. -/
theorem Inv.untimeout {call : TimeoutCall Thread} : (s.untimeout call).1.Inv := by
  unfold TimerState.untimeout
  split
  · exact h.erase _ (by simp) _
  · exact h

/-- The softclock thread does its next step. -/
theorem Inv.softclockStep {r : TimerState Thread × TimerOutput Thread}
    (hstep : s.softclockStep = some r) : r.1.Inv := by
  unfold TimerState.softclockStep at hstep
  split at hstep
  · split at hstep
    · rename_i hfirst
      cases hstep
      refine ⟨h.chain, h.below, h.ticks, fun r hr => (by cases hr), fun _ _ id hid => ?_⟩
      exact hfirst.le.trans (h.firstTicks_le id hid)
    · rename_i hdue
      split at hstep
      · cases hstep
      · rename_i id chain hchain
        cases hstep
        have hfirst : s.firstTicks = (s.elt id).ticks := by
          unfold firstTicks
          rw [hchain]
        have herase : s.chain.erase id = chain := by rw [hchain, erase_cons_head]
        have hx : expired (s.elt id).call ≠ .set := by
          unfold expired
          split <;> decide
        have hinv := h.erase id (x := { s.elt id with set := expired (s.elt id).call }) hx s.refCount
        rw [herase] at hinv
        refine ⟨hinv.chain, hinv.below, h.ticks, ?_, fun hasleep => (by cases hasleep)⟩
        rintro _ ⟨⟩
        rw [hfirst, not_lt] at hdue
        exact hdue
  · cases hstep
  · rename_i r hr
    split at hstep
    · rename_i t hcall
      cases hstep
      dsimp only
      unfold TimerState.threadTimeout
      split
      · rename_i hpending
        have hinv := h.update_off (.thread t) { s.elt (.thread t) with set := .unset }
          (by simp [hpending]) (by simp)
        exact ⟨hinv.chain, hinv.below, h.ticks, fun r hr => (by cases hr), fun hasleep => (by cases hasleep)⟩
      · exact ⟨h.chain, h.below, h.ticks, fun r hr => (by cases hr), fun hasleep => (by cases hasleep)⟩
    · cases hstep
      exact ⟨h.chain, h.below, h.ticks, fun r hr => (by cases hr), fun hasleep => (by cases hasleep)⟩
  · cases hstep
    exact ⟨h.chain, h.below, h.ticks, fun r hr => (by cases hr), fun hasleep => (by cases hasleep)⟩

/-- One section keeps the chain in order. -/
theorem Inv.step (hrange : s.InRange l) (hstep : s.Step l s') : s'.Inv := by
  obtain ⟨action, o⟩ := l
  unfold Step TimerState.step at hstep
  cases action with
  | setup i fcn param =>
    obtain ⟨hset, heq⟩ := ite_none_left_eq_some.mp hstep
    cases heq
    exact h.update_off _ _ hset (by simp)
  | setTimeout id interval =>
    obtain ⟨⟨-, hset⟩, heq⟩ := ite_none_right_eq_some.mp hstep
    cases heq
    exact h.setTimeout hset hrange
  | resetTimeout id =>
    obtain ⟨-, heq⟩ := ite_none_right_eq_some.mp hstep
    obtain ⟨rfl, -⟩ := Prod.ext_iff.mp (Option.some.inj heq)
    exact h.resetTimeout
  | timeout call =>
    obtain ⟨s₁, hs₁, heq⟩ := map_eq_some_iff.mp hstep
    cases heq
    obtain ⟨i, hi, heq⟩ := map_eq_some_iff.mp hs₁
    cases heq
    have hunset := find?_some hi
    exact h.update_off _ _ (by simp [of_decide_eq_true hunset]) (by simp)
  | timeoutSet i interval =>
    obtain ⟨hset, heq⟩ := ite_none_right_eq_some.mp hstep
    cases heq
    exact h.setTimeout (by simp [hset]) hrange
  | untimeout call =>
    obtain ⟨rfl, -⟩ := Prod.ext_iff.mp (Option.some.inj hstep)
    exact h.untimeout
  | timeoutTick =>
    cases hstep
    exact h.timeoutTick hrange
  | threadWakeup =>
    obtain ⟨-, heq⟩ := ite_none_right_eq_some.mp hstep
    cases heq
    refine ⟨h.chain, h.below, h.ticks, fun r hr => ?_, fun hasleep => ?_⟩
    · dsimp only at hr
      split at hr
      · cases hr
      · exact h.calling r hr
    · dsimp only at hasleep
      split at hasleep
      · cases hasleep
      · rename_i hne
        exact absurd hasleep hne
  | softclock => exact h.softclockStep hstep
  | threadReference t =>
    cases hstep
    exact ⟨h.chain, h.below, h.ticks, h.calling, h.punctual⟩
  | threadDeallocate t =>
    obtain ⟨-, heq⟩ := ite_none_left_eq_some.mp hstep
    cases heq
    exact ⟨h.chain, h.below, h.ticks, h.calling, h.punctual⟩

end

/-- The timer that the softclock thread is about to call. -/
def expiring : SoftclockPc Thread → Multiset (TimerSetting Thread)
  | .calling r => {r}
  | _ => 0

/-- The timers that are set, and the one that is about to be called. -/
def held (s : TimerState Thread) : Multiset (TimerSetting Thread) :=
  ↑(s.chain.map s.setting) + expiring s.softclock

/-- The references that a timer of a thread holds in a state. -/
def setRefs : TeltSet → ℤ
  | .set => 1
  | .pending => 1
  | .unset => 0
  | .alloc => 0

/-- The references to a thread that `thread_timeout` is about to drop. -/
def droppedRefs (pc : SoftclockPc Thread) (t : Thread) : ℤ := if pc = .deallocating t then 1 else 0

/-- The references to a thread for its timer. -/
def timerRefs (s : TimerState Thread) (t : Thread) : ℤ :=
  setRefs (s.elt (.thread t)).set + droppedRefs s.softclock t

/-- References to threads are counted, and only a thread's own timer is for `thread_timeout`. -/
structure RefInv (s : TimerState Thread) : Prop where
  refs : ∀ t, s.refCount t = s.otherRefs t + s.timerRefs t
  own : ∀ t, (s.elt (.thread t)).call = .threadTimeout t
  other : ∀ id t, (s.elt id).call = .threadTimeout t → id = .thread t

/-- Nobody sets or resets a timer whose function is pending, and a device asks for another
function than `thread_timeout`. -/
def NotPending (s : TimerState Thread) (l : TimerAction Thread × TimerOutput Thread) : Bool :=
  match l.1 with
  | .setTimeout id _ => (s.elt id).set ≠ .pending
  | .resetTimeout id => (s.elt id).set ≠ .pending
  | .timeout (.threadTimeout _) => false
  | _ => true

section

variable (h : s.RefInv)

include h

/-- Only the count of the thread of a timer changes with it. -/
theorem RefInv.addRef (id : TimerId Thread) (n : ℤ) (t : Thread) :
    s.addRef (s.elt id).call n t = s.refCount t + if id = .thread t then n else 0 := by
  unfold TimerState.addRef
  cases hcall : (s.elt id).call with
  | threadTimeout u =>
    have hid := h.other id u hcall
    subst hid
    dsimp only
    by_cases htu : t = u
    · subst htu
      rw [update_self, if_pos rfl]
    · rw [update_of_ne htu, if_neg (by simp [Ne.symm htu]), add_zero]
  | other fcn param =>
    dsimp only
    rw [if_neg, add_zero]
    rintro rfl
    rw [h.own t] at hcall
    cases hcall

/-- An element changes its state, and what it calls stays. -/
theorem RefInv.update (id : TimerId Thread) (x : TimerElt Thread) (hx : x.call = (s.elt id).call) :
    (∀ t, (Function.update s.elt id x (.thread t)).call = .threadTimeout t) ∧
      ∀ a t, (Function.update s.elt id x a).call = .threadTimeout t → a = .thread t := by
  have hcall : ∀ a, (Function.update s.elt id x a).call = (s.elt a).call := by
    intro a
    by_cases haid : a = id
    · subst haid
      rw [update_self, hx]
    · rw [update_of_ne haid]
  exact ⟨fun t => (hcall _).trans (h.own t), fun a t ha => h.other a t ((hcall a).symm.trans ha)⟩

/-- A timer is set. -/
theorem RefInv.setTimeout {id : TimerId Thread} {interval : BitVec 32}
    (hset : (s.elt id).set ≠ .set) (hpending : (s.elt id).set ≠ .pending) :
    (s.setTimeout id interval).1.RefInv := by
  obtain ⟨hown, hother⟩ := h.update id
    { s.elt id with ticks := interval + s.timeoutTicks, set := .set } rfl
  refine ⟨fun t => ?_, hown, hother⟩
  change s.addRef (s.elt id).call 1 t = _
  rw [h.addRef, h.refs t, add_assoc]
  congr 1
  unfold timerRefs TimerState.setTimeout
  dsimp only
  by_cases hid : TimerId.thread t = id
  · subst hid
    have hfree : setRefs (s.elt (.thread t)).set = 0 := by
      cases hs : (s.elt (.thread t)).set with
      | unset => rfl
      | alloc => rfl
      | set => exact absurd hs hset
      | pending => exact absurd hs hpending
    rw [update_self, if_pos rfl, hfree]
    change 0 + _ + 1 = 1 + _
    omega
  · rw [update_of_ne hid, if_neg (Ne.symm hid)]
    omega

/-- A timer goes off the chain. -/
theorem RefInv.remove {id : TimerId Thread} (hset : (s.elt id).set = .set) :
    (s.remove id).1.RefInv := by
  obtain ⟨hown, hother⟩ := h.update id { s.elt id with set := .unset } rfl
  refine ⟨fun t => ?_, hown, hother⟩
  change s.addRef (s.elt id).call (-1) t = _
  rw [h.addRef, h.refs t, add_assoc]
  congr 1
  unfold timerRefs TimerState.remove
  dsimp only
  by_cases hid : TimerId.thread t = id
  · subst hid
    rw [update_self, if_pos rfl, hset]
    change 1 + _ + -1 = 0 + _
    omega
  · rw [update_of_ne hid, if_neg (Ne.symm hid)]
    omega

/-- The softclock thread does its next step. -/
theorem RefInv.softclockStep (hinv : s.Inv)
    {r : TimerState Thread × TimerOutput Thread} (hstep : s.softclockStep = some r) : r.1.RefInv := by
  have hkeep : ∀ pc : SoftclockPc Thread, (∀ t, pc ≠ .deallocating t) →
      (∀ t, s.softclock ≠ .deallocating t) → RefInv { s with softclock := pc } := by
    intro pc hpc hs
    refine ⟨fun t => (h.refs t).trans ?_, h.own, h.other⟩
    unfold timerRefs droppedRefs
    rw [if_neg (hs t), if_neg (hpc t)]
  unfold TimerState.softclockStep at hstep
  split at hstep
  · rename_i hrunning
    split at hstep
    · cases hstep
      exact hkeep .asleep (by simp) (by simp [hrunning])
    split at hstep
    · cases hstep
    rename_i id chain hchain
    cases hstep
    obtain ⟨hown, hother⟩ := h.update id { s.elt id with set := expired (s.elt id).call } rfl
    have hset : (s.elt id).set = .set :=
      (hinv.chain.mem_iff id).mp (by rw [hchain]; exact mem_cons_self ..)
    refine ⟨fun t => (h.refs t).trans ?_, hown, hother⟩
    have hdrop : droppedRefs (s.pop id chain).softclock t = droppedRefs s.softclock t := by
      unfold droppedRefs
      rw [if_neg (by simp [TimerState.pop] : ¬(s.pop id chain).softclock = .deallocating t),
        if_neg (by simp [hrunning] : ¬s.softclock = .deallocating t)]
    unfold timerRefs
    rw [hdrop]
    unfold TimerState.pop
    dsimp only
    by_cases hid : TimerId.thread t = id
    · subst hid
      rw [update_self, hset, h.own t]
      rfl
    · rw [update_of_ne hid]
  · cases hstep
  · rename_i r hr
    split at hstep
    · rename_i u hcall
      cases hstep
      dsimp only
      unfold TimerState.threadTimeout
      split
      · rename_i hpending
        obtain ⟨hown, hother⟩ := h.update (.thread u) { s.elt (.thread u) with set := .unset } rfl
        refine ⟨fun t => (h.refs t).trans ?_, hown, hother⟩
        unfold timerRefs droppedRefs
        dsimp only
        rw [if_neg (by simp [hr] : ¬s.softclock = .deallocating t)]
        by_cases htu : t = u
        · subst htu
          rw [update_self, hpending, if_pos rfl]
          rfl
        · rw [update_of_ne (by simp [htu]),
            if_neg (by simp [Ne.symm htu] : ¬SoftclockPc.deallocating u = .deallocating t)]
      · exact hkeep .running (by simp) (by simp [hr])
    · cases hstep
      exact hkeep .running (by simp) (by simp [hr])
  · rename_i u hu
    cases hstep
    refine ⟨fun t => ?_, h.own, h.other⟩
    have hrefs := h.refs t
    unfold timerRefs droppedRefs at hrefs ⊢
    dsimp only
    rw [hu] at hrefs
    rw [if_neg (by simp : ¬SoftclockPc.running = .deallocating t)]
    by_cases htu : t = u
    · subst htu
      rw [if_pos rfl] at hrefs
      rw [update_self]
      omega
    · rw [if_neg (by simp [Ne.symm htu] : ¬SoftclockPc.deallocating u = .deallocating t)] at hrefs
      rw [update_of_ne htu]
      exact hrefs

/-- One section keeps count of the references, if it takes no pending timer's work away. -/
theorem RefInv.step (hinv : s.Inv) (hpending : s.NotPending l = true)
    (hstep : s.Step l s') : s'.RefInv := by
  obtain ⟨action, o⟩ := l
  unfold Step TimerState.step at hstep
  have hoff : ∀ {id : TimerId Thread} {x : TimerElt Thread}, (∀ t, id ≠ .thread t) →
      (∀ t, x.call ≠ .threadTimeout t) → RefInv { s with elt := Function.update s.elt id x } := by
    intro id x hid hx
    have hthread : ∀ t, Function.update s.elt id x (.thread t) = s.elt (.thread t) :=
      fun t => update_of_ne (hid t).symm _ _
    refine ⟨fun t => (h.refs t).trans ?_, fun t => ?_, fun a t ha => ?_⟩
    · unfold timerRefs
      dsimp only
      rw [hthread]
    · dsimp only
      rw [hthread]
      exact h.own t
    · by_cases haid : a = id
      · subst haid
        dsimp only at ha
        rw [update_self] at ha
        exact absurd ha (hx t)
      · dsimp only at ha
        rw [update_of_ne haid] at ha
        exact h.other a t ha
  cases action with
  | setup i fcn param =>
    obtain ⟨-, heq⟩ := ite_none_left_eq_some.mp hstep
    cases heq
    exact hoff (by simp) (by simp)
  | setTimeout id interval =>
    obtain ⟨⟨-, hset⟩, heq⟩ := ite_none_right_eq_some.mp hstep
    cases heq
    exact h.setTimeout hset (of_decide_eq_true hpending)
  | resetTimeout id =>
    obtain ⟨-, heq⟩ := ite_none_right_eq_some.mp hstep
    obtain ⟨rfl, -⟩ := Prod.ext_iff.mp (Option.some.inj heq)
    unfold TimerState.resetTimeout
    split
    · rename_i hset
      exact h.remove hset
    · rw [if_neg (of_decide_eq_true hpending)]
      exact h
  | timeout call =>
    obtain ⟨s₁, hs₁, heq⟩ := map_eq_some_iff.mp hstep
    cases heq
    obtain ⟨i, -, heq⟩ := map_eq_some_iff.mp hs₁
    cases heq
    refine hoff (by simp) fun t hcall => ?_
    obtain rfl : call = .threadTimeout t := hcall
    cases hpending
  | timeoutSet i interval =>
    obtain ⟨hset, heq⟩ := ite_none_right_eq_some.mp hstep
    cases heq
    exact h.setTimeout (by simp [hset]) (by simp [hset])
  | untimeout call =>
    obtain ⟨rfl, -⟩ := Prod.ext_iff.mp (Option.some.inj hstep)
    unfold TimerState.untimeout
    split
    · rename_i id hfind
      exact h.remove ((hinv.chain.mem_iff id).mp (mem_of_find?_eq_some hfind))
    · exact h
  | timeoutTick =>
    cases hstep
    exact ⟨h.refs, h.own, h.other⟩
  | threadWakeup =>
    obtain ⟨-, heq⟩ := ite_none_right_eq_some.mp hstep
    cases heq
    refine ⟨fun t => (h.refs t).trans ?_, h.own, h.other⟩
    unfold timerRefs
    dsimp only
    split
    · rename_i hasleep
      rw [hasleep]
      rfl
    · rfl
  | softclock => exact h.softclockStep hinv hstep
  | threadReference u =>
    cases hstep
    refine ⟨fun t => ?_, h.own, h.other⟩
    have hrefs := h.refs t
    change Function.update s.refCount u (s.refCount u + 1) t =
      (Function.update s.otherRefs u (s.otherRefs u + 1) t : ℕ) + s.timerRefs t
    by_cases htu : t = u
    · subst htu
      rw [update_self, update_self]
      omega
    · rw [update_of_ne htu, update_of_ne htu]
      exact hrefs
  | threadDeallocate u =>
    obtain ⟨hpos, heq⟩ := ite_none_left_eq_some.mp hstep
    cases heq
    refine ⟨fun t => ?_, h.own, h.other⟩
    have hrefs := h.refs t
    change Function.update s.refCount u (s.refCount u - 1) t =
      (Function.update s.otherRefs u (s.otherRefs u - 1) t : ℕ) + s.timerRefs t
    by_cases htu : t = u
    · subst htu
      rw [update_self, update_self]
      omega
    · rw [update_of_ne htu, update_of_ne htu]
      exact hrefs

end

/-- A thread's timer is set, expires and has its function called. -/
def expire : List (TimerAction ℕ) :=
  [.softclock, .softclock, .softclock, .timeoutTick, .setTimeout (.thread 0) 1]

end TimerState

end MachVirtuTerm
