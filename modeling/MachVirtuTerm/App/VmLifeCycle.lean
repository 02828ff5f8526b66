import MachVirtuTerm.Lib.Run

/-!
# The life cycle of the VM

`nativeInitVM`, `nativeStartCPU` and `nativeStopCPU` of `jni_bridge.cpp`, called by any number of
Java threads, and the threads in `cpu_loop` that they start. A step is one access to `g_vm` or to
a `VMContext`. Who dereferences a NULL `g_vm` ends the process: there is no such step.
-/

open Function

namespace MachVirtuTerm

namespace Vm

/-- The fields of a `VMContext` that say what state it is in, and whether it was freed. -/
structure VMContext where
  initialized : Bool
  running : Bool
  freed : Bool

/-- What `calloc` gives. -/
def VMContext.zero : VMContext := ⟨false, false, false⟩

/-- Where a Java thread is. -/
inductive Call where
  | idle
  /-- In `nativeInitVM`, before `munmap` of the old image. -/
  | unmapping
  /-- Before `free` of the old context. -/
  | freeing
  /-- Before `g_vm = NULL`. -/
  | clearing
  /-- Before `calloc`. -/
  | allocating
  /-- With a context of its own, before it is published. -/
  | filling (vm : ℕ)
  /-- In `nativeStartCPU`, before it reads `running`. -/
  | testing
  /-- Before it reads `g_vm` for the thread. -/
  | creating
  /-- Before `pthread_create`. -/
  | spawning (arg : Option ℕ)
  /-- Before it tests `g_vm` once more. -/
  | spawned
  /-- Before it sets `running`. -/
  | marking
  /-- In `nativeStopCPU`, before it clears `running`. -/
  | stopping
  deriving DecidableEq

/-- The context it creates a thread for. -/
def Call.arg : Call → Option ℕ
  | .spawning arg => arg
  | _ => none

/-- Where a thread in `cpu_loop` is. -/
inductive CpuPhase where
  | absent
  /-- Before it reads its context. -/
  | booting
  /-- Before it clears `running`. -/
  | printing
  /-- Before it returns. -/
  | leaving
  | finished
  deriving DecidableEq

/-- A thread in `cpu_loop` and its argument. -/
structure CpuThread where
  vm : Option ℕ
  phase : CpuPhase

/-- It was created and has not returned. -/
def CpuThread.Live (t : CpuThread) : Prop := t.phase ≠ .absent ∧ t.phase ≠ .finished

/-- It will still access this context. -/
def CpuThread.Needs (t : CpuThread) (c : ℕ) : Prop :=
  (t.phase = .booting ∨ t.phase = .printing) ∧ t.vm = some c

instance (t : CpuThread) : Decidable t.Live := inferInstanceAs (Decidable (_ ∧ _))

instance (t : CpuThread) (c : ℕ) : Decidable (t.Needs c) := inferInstanceAs (Decidable (_ ∧ _))

/-- A step. -/
inductive Action (J : Type*) where
  /-- `nativeInitVM` is called. -/
  | initVM (j : J)
  | unmapOld (j : J)
  | freeOld (j : J)
  | clear (j : J)
  | alloc (j : J) (ok : Bool)
  /-- The paths and the image are good, or not. -/
  | fill (j : J) (ok : Bool)
  /-- `nativeStartCPU` is called. -/
  | startCPU (j : J)
  | readRunning (j : J) (running : Bool)
  | readArg (j : J)
  | spawn (j : J) (ok : Bool)
  | check (j : J)
  | mark (j : J)
  /-- `nativeStopCPU` is called. -/
  | stopCPU (j : J)
  | unmark (j : J)
  /-- A thread in `cpu_loop` reads its context. -/
  | cpuBoot (t : ℕ)
  /-- It clears `running`. -/
  | cpuStop (t : ℕ)
  /-- It returns. -/
  | cpuExit (t : ℕ)
  deriving DecidableEq

/-- The contexts, `g_vm`, and the threads, those in `cpu_loop` numbered as they are created. -/
structure State (J : Type*) where
  vm : ℕ → VMContext
  allocated : ℕ
  gVm : Option ℕ
  call : J → Call
  cpu : ℕ → CpuThread
  spawned : ℕ

variable {J : Type*}

/-- No context and no call. -/
def State.init : State J :=
  ⟨fun _ => .zero, 0, none, fun _ => .idle, fun _ => ⟨none, .absent⟩, 0⟩

/-- A context is another one. -/
def State.setVm (s : State J) (c : ℕ) (vm : VMContext) : State J :=
  { s with vm := update s.vm c vm }

/-- A thread in `cpu_loop` goes on. -/
def State.setPhase (s : State J) (t : ℕ) (phase : CpuPhase) : State J :=
  { s with cpu := update s.cpu t { s.cpu t with phase := phase } }

/-- An address of the context is in `g_vm`, or has been read from it for a thread. -/
def State.Known (s : State J) (c : ℕ) : Prop :=
  s.gVm = some c ∨ (∃ j, s.call j = .spawning (some c)) ∨ ∃ t, (s.cpu t).vm = some c

/-- What is allocated and created, whatever the threads do. -/
structure State.Placed (s : State J) : Prop where
  known_lt : ∀ c, s.Known c → c < s.allocated
  filling_lt : ∀ j c, s.call j = .filling c → c < s.allocated
  filling_unknown : ∀ j c, s.call j = .filling c → ¬ s.Known c
  filling_inj : ∀ j j' c, s.call j = .filling c → s.call j' = .filling c → j = j'
  absent : ∀ t, s.spawned ≤ t → (s.cpu t).phase = .absent

/-- One thread at most is in `cpu_loop`, what it needs is not freed, and it will clear `running`
where that is set. -/
structure State.Safe (s : State J) : Prop where
  one : ∀ t t', (s.cpu t).Live → (s.cpu t').Live → t = t'
  intact : ∀ t c, (s.cpu t).Needs c → (s.vm c).freed = false
  running : ∀ c, (s.vm c).running = true → ∃ t, (s.cpu t).Needs c

/-- A thread is created only if none is live and its context is not freed, a context is freed only
if no thread needs it, and `running` is set only if a thread will clear it. -/
def State.Careful (s : State J) : Action J → Prop
  | .freeOld _ => ∀ c ∈ s.gVm, ∀ t < s.spawned, ¬ (s.cpu t).Needs c
  | .spawn j _ =>
    (∀ t < s.spawned, ¬ (s.cpu t).Live) ∧ ∀ c ∈ (s.call j).arg, (s.vm c).freed = false
  | .mark _ => ∀ c ∈ s.gVm, ∃ t < s.spawned, (s.cpu t).Needs c
  | _ => True

instance (s : State J) (a : Action J) : Decidable (s.Careful a) := by
  cases a <;> unfold State.Careful <;> infer_instance

/-- The step of a thread in `cpu_loop` reads or writes the context. -/
def State.Accesses (s : State J) (c : ℕ) : Action J → Prop
  | .cpuBoot t | .cpuStop t => (s.cpu t).vm = some c
  | _ => False

section Invariants

variable {s s' : State J}

theorem State.init_placed : (State.init : State J).Placed where
  known_lt c h := by simp [Known, init] at h
  filling_lt j c h := by simp [init] at h
  filling_unknown j c h := by simp [init] at h
  filling_inj j j' c h := by simp [init] at h
  absent _ _ := rfl

theorem State.init_safe : (State.init : State J).Safe where
  one t t' h := absurd rfl h.1
  intact _ _ _ := rfl
  running c h := by simp [init, VMContext.zero] at h

theorem CpuThread.Needs.live {t : CpuThread} {c : ℕ} (h : t.Needs c) : t.Live := by
  constructor
  · intro heq
    rcases h.1 with hphase | hphase <;> rw [heq] at hphase <;> cases hphase
  · intro heq
    rcases h.1 with hphase | hphase <;> rw [heq] at hphase <;> cases hphase

theorem State.Placed.lt_of_live (h : s.Placed) {t : ℕ} (ht : (s.cpu t).Live) : t < s.spawned := by
  by_contra hle
  exact ht.1 (h.absent t (Nat.le_of_not_lt hle))

theorem State.Placed.mono (h : s.Placed) (hallocated : s.allocated ≤ s'.allocated)
    (hknown : ∀ c, s'.Known c → s.Known c)
    (hfilling : ∀ j c, s'.call j = .filling c → s.call j = .filling c)
    (habsent : ∀ t, s'.spawned ≤ t → (s'.cpu t).phase = .absent) : s'.Placed where
  known_lt c hc := Nat.lt_of_lt_of_le (h.known_lt c (hknown c hc)) hallocated
  filling_lt j c hj := Nat.lt_of_lt_of_le (h.filling_lt j c (hfilling j c hj)) hallocated
  filling_unknown j c hj hc := h.filling_unknown j c (hfilling j c hj) (hknown c hc)
  filling_inj j j' c hj hj' := h.filling_inj j j' c (hfilling j c hj) (hfilling j' c hj')
  absent := habsent

theorem State.Safe.mono (h : s.Safe) (hlive : ∀ t, (s'.cpu t).Live → (s.cpu t).Live)
    (hneeds : ∀ t c, (s'.cpu t).Needs c → (s.cpu t).Needs c)
    (hfreed : ∀ t c, (s'.cpu t).Needs c → (s.vm c).freed = false → (s'.vm c).freed = false)
    (hrunning : ∀ c, (s'.vm c).running = true → ∃ t, (s'.cpu t).Needs c) : s'.Safe where
  one t t' ht ht' := h.one t t' (hlive t ht) (hlive t' ht')
  intact t c ht := hfreed t c ht (h.intact t c (hneeds t c ht))
  running := hrunning

/-- A context changes. -/
theorem State.Safe.setVm (h : s.Safe) (c : ℕ) (vm : VMContext)
    (hfreed : vm.freed = (s.vm c).freed ∨ ∀ t, ¬ (s.cpu t).Needs c)
    (hrunning : vm.running = true → ∃ t, (s.cpu t).Needs c) : (s.setVm c vm).Safe := by
  apply h.mono
  · exact fun _ ht => ht
  · exact fun _ _ ht => ht
  · intro t c' ht hc'
    change (update s.vm c vm c').freed = false
    rcases eq_or_ne c' c with rfl | hne
    · rw [update_self]
      rcases hfreed with heq | hno
      · rw [heq, hc']
      · exact absurd ht (hno t)
    · rw [update_of_ne hne, hc']
  · intro c' hc'
    change (update s.vm c vm c').running = true at hc'
    rcases eq_or_ne c' c with rfl | hne
    · rw [update_self] at hc'
      exact hrunning hc'
    · rw [update_of_ne hne] at hc'
      exact h.running c' hc'

theorem State.Placed.setVm (h : s.Placed) (c : ℕ) (vm : VMContext) : (s.setVm c vm).Placed :=
  ⟨h.known_lt, h.filling_lt, h.filling_unknown, h.filling_inj, h.absent⟩

theorem State.Placed.clear (h : s.Placed) : ({ s with gVm := none } : State J).Placed := by
  apply h.mono
  · exact Nat.le_refl _
  · rintro c (hc | hc)
    · cases hc
    · exact .inr hc
  · exact fun _ _ hj => hj
  · exact h.absent

theorem State.Placed.setPhase (h : s.Placed) {t : ℕ} {phase : CpuPhase}
    (ht : (s.cpu t).phase ≠ .absent) : (s.setPhase t phase).Placed := by
  have hcpu : ∀ t', ((s.setPhase t phase).cpu t').vm = (s.cpu t').vm := by
    intro t'
    change (update s.cpu t _ t').vm = _
    rcases eq_or_ne t' t with rfl | hne
    · rw [update_self]
    · rw [update_of_ne hne]
  apply h.mono
  · exact Nat.le_refl _
  · rintro c (hc | hc | ⟨t', ht'⟩)
    · exact .inl hc
    · exact .inr (.inl hc)
    · exact .inr (.inr ⟨t', (hcpu t').symm.trans ht'⟩)
  · exact fun _ _ hj => hj
  · intro t' hle
    have hne : t' ≠ t := by
      rintro rfl
      exact ht (h.absent t' hle)
    change (update s.cpu t _ t').phase = _
    rw [update_of_ne hne]
    exact h.absent t' hle

/-- A thread in `cpu_loop` goes on, and does not need less than `running` asks for. -/
theorem State.Safe.setPhase (h : s.Safe) {t : ℕ} {phase : CpuPhase}
    (hlive : (s.cpu t).Live) (hneeds : ∀ c, CpuThread.Needs ⟨(s.cpu t).vm, phase⟩ c →
      (s.cpu t).Needs c)
    (hrunning : ∀ c, (s.cpu t).Needs c → (s.vm c).running = true →
      CpuThread.Needs ⟨(s.cpu t).vm, phase⟩ c) : (s.setPhase t phase).Safe := by
  have hself : (s.setPhase t phase).cpu t = ⟨(s.cpu t).vm, phase⟩ := update_self ..
  have hother : ∀ t', t' ≠ t → (s.setPhase t phase).cpu t' = s.cpu t' := fun t' hne =>
    update_of_ne hne ..
  apply h.mono
  · intro t' ht'
    rcases eq_or_ne t' t with rfl | hne
    · exact hlive
    · rwa [hother t' hne] at ht'
  · intro t' c ht'
    rcases eq_or_ne t' t with rfl | hne
    · rw [hself] at ht'
      exact hneeds c ht'
    · rwa [hother t' hne] at ht'
  · exact fun _ _ _ hc => hc
  · intro c hc
    obtain ⟨t', ht'⟩ := h.running c hc
    refine ⟨t', ?_⟩
    rcases eq_or_ne t' t with rfl | hne
    · rw [hself]
      exact hrunning c ht' hc
    · rwa [hother t' hne]

end Invariants

variable [DecidableEq J]

/-- A Java thread goes on. -/
def State.setCall (s : State J) (j : J) (call : Call) : State J :=
  { s with call := update s.call j call }

/-- The next step of a thread, if it can take it. What is read of a freed context may be
anything. -/
def step (s : State J) : Action J → Option (State J)
  | .initVM j =>
    if s.call j = .idle then
      match s.gVm with
      | some _ => some (s.setCall j .unmapping)
      | none => some (s.setCall j .allocating)
    else none
  | .unmapOld j =>
    if s.call j = .unmapping then
      match s.gVm with
      | some _ => some (s.setCall j .freeing)
      | none => none
    else none
  | .freeOld j =>
    if s.call j = .freeing then
      match s.gVm with
      | some c => some ((s.setVm c { s.vm c with freed := true }).setCall j .clearing)
      | none => some (s.setCall j .clearing)
    else none
  | .clear j =>
    if s.call j = .clearing then some { s.setCall j .allocating with gVm := none } else none
  | .alloc j ok =>
    if s.call j = .allocating then
      if ok then
        some { (s.setVm s.allocated .zero).setCall j (.filling s.allocated) with
          allocated := s.allocated + 1 }
      else some (s.setCall j .idle)
    else none
  | .fill j ok =>
    match s.call j with
    | .filling c =>
      if ok then
        some { (s.setVm c { s.vm c with initialized := true }).setCall j .idle with gVm := some c }
      else some ((s.setVm c { s.vm c with freed := true }).setCall j .idle)
    | _ => none
  | .startCPU j =>
    if s.call j = .idle then
      match s.gVm with
      | some _ => some (s.setCall j .testing)
      | none => some (s.setCall j .creating)
    else none
  | .readRunning j running =>
    if s.call j = .testing then
      match s.gVm with
      | some c =>
        if running = (s.vm c).running ∨ (s.vm c).freed = true then
          some (s.setCall j (if running then .idle else .creating))
        else none
      | none => none
    else none
  | .readArg j => if s.call j = .creating then some (s.setCall j (.spawning s.gVm)) else none
  | .spawn j ok =>
    match s.call j with
    | .spawning arg =>
      if ok then
        some { s.setCall j .spawned with
          cpu := update s.cpu s.spawned ⟨arg, .booting⟩
          spawned := s.spawned + 1 }
      else some (s.setCall j .idle)
    | _ => none
  | .check j =>
    if s.call j = .spawned then
      match s.gVm with
      | some _ => some (s.setCall j .marking)
      | none => some (s.setCall j .idle)
    else none
  | .mark j =>
    if s.call j = .marking then
      match s.gVm with
      | some c => some ((s.setVm c { s.vm c with running := true }).setCall j .idle)
      | none => none
    else none
  | .stopCPU j =>
    if s.call j = .idle then
      match s.gVm with
      | some _ => some (s.setCall j .stopping)
      | none => some s
    else none
  | .unmark j =>
    if s.call j = .stopping then
      match s.gVm with
      | some c => some ((s.setVm c { s.vm c with running := false }).setCall j .idle)
      | none => none
    else none
  | .cpuBoot t => if (s.cpu t).phase = .booting then some (s.setPhase t .printing) else none
  | .cpuStop t =>
    if (s.cpu t).phase = .printing then
      match (s.cpu t).vm with
      | some c => some ((s.setVm c { s.vm c with running := false }).setPhase t .leaving)
      | none => some (s.setPhase t .leaving)
    else none
  | .cpuExit t => if (s.cpu t).phase = .leaving then some (s.setPhase t .finished) else none

section Steps

variable {s s' : State J} {j : J}

theorem State.Safe.setCall (h : s.Safe) (j : J) (call : Call) : (s.setCall j call).Safe :=
  ⟨h.one, h.intact, h.running⟩

theorem State.Placed.setCall (h : s.Placed) (j : J) {call : Call}
    (hfilling : ∀ c, call ≠ .filling c) (hspawning : ∀ c, call = .spawning (some c) → s.Known c) :
    (s.setCall j call).Placed := by
  have hcall : ∀ j', (s.setCall j call).call j' = call ∨
      (s.setCall j call).call j' = s.call j' := by
    intro j'
    change update s.call j call j' = _ ∨ update s.call j call j' = _
    rcases eq_or_ne j' j with rfl | hne
    · exact .inl (update_self ..)
    · exact .inr (update_of_ne hne ..)
  apply h.mono
  · exact Nat.le_refl _
  · rintro c (hc | ⟨j', hj'⟩ | hc)
    · exact .inl hc
    · rcases hcall j' with heq | heq
      · exact hspawning c (heq.symm.trans hj')
      · exact .inr (.inl ⟨j', heq.symm.trans hj'⟩)
    · exact .inr (.inr hc)
  · intro j' c hj'
    rcases hcall j' with heq | heq
    · exact absurd (heq.symm.trans hj') (hfilling c)
    · exact heq.symm.trans hj'
  · exact h.absent

/-- A Java thread goes on without an address of its own. -/
theorem State.Placed.setCall_plain (h : s.Placed) (j : J) {call : Call}
    (hfilling : ∀ c, call ≠ .filling c) (hspawning : ∀ c, call ≠ .spawning (some c)) :
    (s.setCall j call).Placed :=
  h.setCall j hfilling fun c heq => absurd heq (hspawning c)

theorem State.Placed.alloc (h : s.Placed) (j : J) :
    ({ (s.setVm s.allocated .zero).setCall j (.filling s.allocated) with
      allocated := s.allocated + 1 } : State J).Placed := by
  have hknown : ∀ c, ({ (s.setVm s.allocated .zero).setCall j (.filling s.allocated) with
      allocated := s.allocated + 1 } : State J).Known c → s.Known c := by
    rintro c (hc | ⟨j', hj'⟩ | hc)
    · exact .inl hc
    · change update s.call j _ j' = _ at hj'
      rcases eq_or_ne j' j with rfl | hne
      · rw [update_self] at hj'
        cases hj'
      · rw [update_of_ne hne] at hj'
        exact .inr (.inl ⟨j', hj'⟩)
    · exact .inr (.inr hc)
  have hfilling : ∀ j' c, update s.call j (.filling s.allocated) j' = .filling c →
      j' = j ∧ c = s.allocated ∨ s.call j' = .filling c := by
    intro j' c hj'
    rcases eq_or_ne j' j with rfl | hne
    · rw [update_self] at hj'
      exact .inl ⟨rfl, (Call.filling.inj hj').symm⟩
    · rw [update_of_ne hne] at hj'
      exact .inr hj'
  constructor
  · intro c hc
    exact Nat.lt_succ_of_lt (h.known_lt c (hknown c hc))
  · intro j' c hj'
    rcases hfilling j' c hj' with ⟨-, rfl⟩ | hj'
    · exact Nat.lt_succ_self _
    · exact Nat.lt_succ_of_lt (h.filling_lt j' c hj')
  · intro j' c hj' hc
    rcases hfilling j' c hj' with ⟨-, rfl⟩ | hj'
    · exact Nat.lt_irrefl _ (h.known_lt _ (hknown _ hc))
    · exact h.filling_unknown j' c hj' (hknown c hc)
  · intro j₁ j₂ c h₁ h₂
    rcases hfilling j₁ c h₁ with ⟨rfl, rfl⟩ | hcall₁
    · rcases hfilling j₂ _ h₂ with ⟨rfl, -⟩ | hcall₂
      · rfl
      · exact absurd (h.filling_lt j₂ _ hcall₂) (Nat.lt_irrefl _)
    · rcases hfilling j₂ c h₂ with ⟨rfl, rfl⟩ | hcall₂
      · exact absurd (h.filling_lt j₁ _ hcall₁) (Nat.lt_irrefl _)
      · exact h.filling_inj j₁ j₂ c hcall₁ hcall₂
  · exact h.absent

theorem State.Placed.publish {c : ℕ} (h : s.Placed) (hcall : s.call j = .filling c) :
    ({ s.setCall j .idle with gVm := some c } : State J).Placed := by
  have hother : ∀ j', j' ≠ j → update s.call j .idle j' = s.call j' := fun j' hne =>
    update_of_ne hne ..
  have hknown : ∀ c', ({ s.setCall j .idle with gVm := some c } : State J).Known c' →
      c' = c ∨ s.Known c' := by
    rintro c' (hc | ⟨j', hj'⟩ | hc)
    · exact .inl (Option.some.inj hc).symm
    · change update s.call j _ j' = _ at hj'
      rcases eq_or_ne j' j with rfl | hne
      · rw [update_self] at hj'
        cases hj'
      · rw [hother j' hne] at hj'
        exact .inr (.inr (.inl ⟨j', hj'⟩))
    · exact .inr (.inr (.inr hc))
  have hfilling : ∀ j' c', update s.call j .idle j' = .filling c' →
      j' ≠ j ∧ s.call j' = .filling c' := by
    intro j' c' hj'
    rcases eq_or_ne j' j with rfl | hne
    · rw [update_self] at hj'
      cases hj'
    · rw [hother j' hne] at hj'
      exact ⟨hne, hj'⟩
  constructor
  · intro c' hc'
    rcases hknown c' hc' with rfl | hc'
    · exact h.filling_lt j _ hcall
    · exact h.known_lt c' hc'
  · intro j' c' hj'
    exact h.filling_lt j' c' (hfilling j' c' hj').2
  · intro j' c' hj' hc'
    obtain ⟨hne, hcall'⟩ := hfilling j' c' hj'
    rcases hknown c' hc' with rfl | hold
    · exact hne (h.filling_inj j' j _ hcall' hcall)
    · exact h.filling_unknown j' c' hcall' hold
  · intro j₁ j₂ c' h₁ h₂
    exact h.filling_inj j₁ j₂ c' (hfilling j₁ c' h₁).2 (hfilling j₂ c' h₂).2
  · exact h.absent

theorem State.Placed.spawn {arg : Option ℕ} (h : s.Placed) (hcall : s.call j = .spawning arg) :
    ({ s.setCall j .spawned with
      cpu := update s.cpu s.spawned ⟨arg, .booting⟩
      spawned := s.spawned + 1 } : State J).Placed := by
  apply h.mono
  · exact Nat.le_refl _
  · rintro c (hc | ⟨j', hj'⟩ | ⟨t, ht⟩)
    · exact .inl hc
    · change update s.call j _ j' = _ at hj'
      rcases eq_or_ne j' j with rfl | hne
      · rw [update_self] at hj'
        cases hj'
      · rw [update_of_ne hne] at hj'
        exact .inr (.inl ⟨j', hj'⟩)
    · change (update s.cpu s.spawned _ t).vm = _ at ht
      rcases eq_or_ne t s.spawned with rfl | hne
      · rw [update_self] at ht
        exact .inr (.inl ⟨j, hcall.trans (congrArg _ ht)⟩)
      · rw [update_of_ne hne] at ht
        exact .inr (.inr ⟨t, ht⟩)
  · intro j' c hj'
    change update s.call j _ j' = _ at hj'
    rcases eq_or_ne j' j with rfl | hne
    · rw [update_self] at hj'
      cases hj'
    · rwa [update_of_ne hne] at hj'
  · intro t hle
    change (update s.cpu s.spawned _ t).phase = _
    have hlt : s.spawned < t := hle
    rw [update_of_ne (Nat.ne_of_gt hlt)]
    exact h.absent t (Nat.le_of_lt hlt)

/-- What the steps do to the memory and the Java threads. -/
theorem State.Placed.step {a : Action J} (h : s.Placed) (hstep : Vm.step s a = some s') :
    s'.Placed := by
  cases a with
  | initVM j =>
    simp only [Vm.step] at hstep
    split_ifs at hstep
    split at hstep <;> cases hstep
    · exact h.setCall_plain j (by simp) (by simp)
    · exact h.setCall_plain j (by simp) (by simp)
  | unmapOld j =>
    simp only [Vm.step] at hstep
    split_ifs at hstep
    split at hstep <;> cases hstep
    exact h.setCall_plain j (by simp) (by simp)
  | freeOld j =>
    simp only [Vm.step] at hstep
    split_ifs at hstep
    split at hstep <;> cases hstep
    · exact (h.setVm _ _).setCall_plain j (by simp) (by simp)
    · exact h.setCall_plain j (by simp) (by simp)
  | clear j =>
    simp only [Vm.step] at hstep
    split_ifs at hstep
    cases hstep
    exact h.clear.setCall_plain j (by simp) (by simp)
  | alloc j ok =>
    simp only [Vm.step] at hstep
    split_ifs at hstep <;> cases hstep
    · exact h.alloc j
    · exact h.setCall_plain j (by simp) (by simp)
  | fill j ok =>
    simp only [Vm.step] at hstep
    split at hstep
    next c hcall =>
      split_ifs at hstep <;> cases hstep
      · exact (h.setVm c _).publish hcall
      · exact (h.setVm _ _).setCall_plain j (by simp) (by simp)
    next => cases hstep
  | startCPU j =>
    simp only [Vm.step] at hstep
    split_ifs at hstep
    split at hstep <;> cases hstep
    · exact h.setCall_plain j (by simp) (by simp)
    · exact h.setCall_plain j (by simp) (by simp)
  | readRunning j running =>
    simp only [Vm.step] at hstep
    split at hstep
    next =>
      split at hstep
      next =>
        split at hstep
        next =>
          cases hstep
          cases running
          · exact h.setCall_plain j (by simp) (by simp)
          · exact h.setCall_plain j (by simp) (by simp)
        next => cases hstep
      next => cases hstep
    next => cases hstep
  | readArg j =>
    simp only [Vm.step] at hstep
    split_ifs at hstep
    cases hstep
    apply h.setCall j (by simp)
    intro c heq
    exact .inl (Call.spawning.inj heq)
  | spawn j ok =>
    simp only [Vm.step] at hstep
    split at hstep
    next arg hcall =>
      split_ifs at hstep <;> cases hstep
      · exact h.spawn hcall
      · exact h.setCall_plain j (by simp) (by simp)
    next => cases hstep
  | check j =>
    simp only [Vm.step] at hstep
    split_ifs at hstep
    split at hstep <;> cases hstep
    · exact h.setCall_plain j (by simp) (by simp)
    · exact h.setCall_plain j (by simp) (by simp)
  | mark j =>
    simp only [Vm.step] at hstep
    split_ifs at hstep
    split at hstep <;> cases hstep
    exact (h.setVm _ _).setCall_plain j (by simp) (by simp)
  | stopCPU j =>
    simp only [Vm.step] at hstep
    split_ifs at hstep
    split at hstep <;> cases hstep
    · exact h.setCall_plain j (by simp) (by simp)
    · exact h
  | unmark j =>
    simp only [Vm.step] at hstep
    split_ifs at hstep
    split at hstep <;> cases hstep
    exact (h.setVm _ _).setCall_plain j (by simp) (by simp)
  | cpuBoot t =>
    simp only [Vm.step] at hstep
    split_ifs at hstep with hphase
    cases hstep
    exact h.setPhase (by rw [hphase]; decide)
  | cpuStop t =>
    simp only [Vm.step] at hstep
    split_ifs at hstep with hphase
    split at hstep <;> cases hstep
    · exact (h.setVm _ _).setPhase (by change (s.cpu t).phase ≠ _; rw [hphase]; decide)
    · exact h.setPhase (by rw [hphase]; decide)
  | cpuExit t =>
    simp only [Vm.step] at hstep
    split_ifs at hstep with hphase
    cases hstep
    exact h.setPhase (by rw [hphase]; decide)

theorem State.Safe.spawn {arg : Option ℕ} (h : s.Safe) (hplaced : s.Placed) (hcall : s.call j = .spawning arg)
    (hcareful : s.Careful (.spawn j true)) :
    ({ s.setCall j .spawned with
      cpu := update s.cpu s.spawned ⟨arg, .booting⟩
      spawned := s.spawned + 1 } : State J).Safe := by
  obtain ⟨hnone, harg⟩ := hcareful
  have hlive : ∀ t, (update s.cpu s.spawned ⟨arg, .booting⟩ t).Live → t = s.spawned := by
    intro t ht
    by_contra hne
    rw [update_of_ne hne] at ht
    exact hnone t (hplaced.lt_of_live ht) ht
  constructor
  · intro t t' ht ht'
    exact (hlive t ht).trans (hlive t' ht').symm
  · intro t c ht
    obtain rfl := hlive t ht.live
    change (update s.cpu s.spawned _ s.spawned).Needs c at ht
    rw [update_self] at ht
    apply harg c
    rw [hcall]
    exact ht.2
  · intro c hc
    obtain ⟨t, ht⟩ := h.running c hc
    exact absurd ht.live (hnone t (hplaced.lt_of_live ht.live))

/-- A careful step keeps to one thread that needs nothing freed. -/
theorem State.Safe.step {a : Action J} (h : s.Safe) (hplaced : s.Placed) (hcareful : s.Careful a)
    (hstep : Vm.step s a = some s') : s'.Safe := by
  cases a with
  | initVM j =>
    simp only [Vm.step] at hstep
    split_ifs at hstep
    split at hstep <;> cases hstep
    · exact h.setCall j _
    · exact h.setCall j _
  | unmapOld j =>
    simp only [Vm.step] at hstep
    split_ifs at hstep
    split at hstep <;> cases hstep
    exact h.setCall j _
  | freeOld j =>
    simp only [Vm.step] at hstep
    split_ifs at hstep
    split at hstep <;> cases hstep
    next c hvm =>
      have hunneeded : ∀ t, ¬ (s.cpu t).Needs c := fun t ht =>
        hcareful c hvm t (hplaced.lt_of_live ht.live) ht
      apply State.Safe.setCall
      exact h.setVm c _ (.inr hunneeded) (h.running c)
    next => exact h.setCall j _
  | clear j =>
    simp only [Vm.step] at hstep
    split_ifs at hstep
    cases hstep
    exact ⟨h.one, h.intact, h.running⟩
  | alloc j ok =>
    simp only [Vm.step] at hstep
    split_ifs at hstep <;> cases hstep
    · have hunknown : ∀ t, ¬ (s.cpu t).Needs s.allocated := fun t ht =>
        Nat.lt_irrefl _ (hplaced.known_lt _ (.inr (.inr ⟨t, ht.2⟩)))
      have hzero := h.setVm s.allocated .zero (.inr hunknown) nofun
      exact ⟨hzero.one, hzero.intact, hzero.running⟩
    · exact h.setCall j _
  | fill j ok =>
    simp only [Vm.step] at hstep
    split at hstep
    next c hcall =>
      have hunknown : ∀ t, ¬ (s.cpu t).Needs c := fun t ht =>
        hplaced.filling_unknown j c hcall (.inr (.inr ⟨t, ht.2⟩))
      split_ifs at hstep <;> cases hstep
      · have hfilled := h.setVm c { s.vm c with initialized := true } (.inr hunknown) (h.running c)
        exact ⟨hfilled.one, hfilled.intact, hfilled.running⟩
      · apply State.Safe.setCall
        exact h.setVm c _ (.inr hunknown) (h.running c)
    next => cases hstep
  | startCPU j =>
    simp only [Vm.step] at hstep
    split_ifs at hstep
    split at hstep <;> cases hstep
    · exact h.setCall j _
    · exact h.setCall j _
  | readRunning j running =>
    simp only [Vm.step] at hstep
    split at hstep
    next =>
      split at hstep
      next =>
        split at hstep
        next =>
          cases hstep
          exact h.setCall j _
        next => cases hstep
      next => cases hstep
    next => cases hstep
  | readArg j =>
    simp only [Vm.step] at hstep
    split_ifs at hstep
    cases hstep
    exact h.setCall j _
  | spawn j ok =>
    simp only [Vm.step] at hstep
    split at hstep
    next arg hcall =>
      split_ifs at hstep <;> cases hstep
      · exact h.spawn hplaced hcall hcareful
      · exact h.setCall j _
    next => cases hstep
  | check j =>
    simp only [Vm.step] at hstep
    split_ifs at hstep
    split at hstep <;> cases hstep
    · exact h.setCall j _
    · exact h.setCall j _
  | mark j =>
    simp only [Vm.step] at hstep
    split_ifs at hstep
    split at hstep <;> cases hstep
    next c hvm =>
      obtain ⟨t, -, ht⟩ := hcareful c hvm
      apply State.Safe.setCall
      exact h.setVm c _ (.inl rfl) fun _ => ⟨t, ht⟩
  | stopCPU j =>
    simp only [Vm.step] at hstep
    split_ifs at hstep
    split at hstep <;> cases hstep
    · exact h.setCall j _
    · exact h
  | unmark j =>
    simp only [Vm.step] at hstep
    split_ifs at hstep
    split at hstep <;> cases hstep
    apply State.Safe.setCall
    exact h.setVm _ _ (.inl rfl) nofun
  | cpuBoot t =>
    simp only [Vm.step] at hstep
    split_ifs at hstep with hphase
    cases hstep
    have hlive : (s.cpu t).Live := by simp [CpuThread.Live, hphase]
    apply h.setPhase hlive
    · exact fun c hc => ⟨.inl hphase, hc.2⟩
    · exact fun c hc _ => ⟨.inr rfl, hc.2⟩
  | cpuStop t =>
    simp only [Vm.step] at hstep
    split_ifs at hstep with hphase
    have hlive : (s.cpu t).Live := by simp [CpuThread.Live, hphase]
    split at hstep <;> cases hstep
    next c hvm =>
      have hcleared := h.setVm c { s.vm c with running := false } (.inl rfl) nofun
      apply hcleared.setPhase hlive
      · exact fun c' hc' => ⟨.inr hphase, hc'.2⟩
      · intro c' hc' hrunning
        obtain rfl : c = c' := Option.some.inj (hvm.symm.trans hc'.2)
        change (update s.vm c _ c).running = true at hrunning
        rw [update_self] at hrunning
        cases hrunning
    next hvm =>
      apply h.setPhase hlive
      · exact fun c hc => ⟨.inr hphase, hc.2⟩
      · intro c hc _
        have hsome := hc.2
        rw [hvm] at hsome
        cases hsome
  | cpuExit t =>
    simp only [Vm.step] at hstep
    split_ifs at hstep with hphase
    cases hstep
    have hlive : (s.cpu t).Live := by simp [CpuThread.Live, hphase]
    apply h.setPhase hlive
    · rintro c ⟨hc | hc, -⟩ <;> cases hc
    · rintro c ⟨hc | hc, -⟩ _ <;> rw [hphase] at hc <;> cases hc

/-- Where every step is careful, at most one thread is in `cpu_loop`, no thread there accesses a
freed context, and `running` is not set when all threads have returned and no call is in
progress. -/
theorem life_cycle {trace : List (State J × Action J)}
    (hrun : Run (fun s a s' => Vm.step s a = some s') .init trace s)
    (hcareful : ∀ x ∈ trace, x.1.Careful x.2) :
    (∀ t t', (s.cpu t).Live → (s.cpu t').Live → t = t') ∧
      (∀ x ∈ trace, ∀ c, x.1.Accesses c x.2 → (x.1.vm c).freed = false) ∧
      ((∀ t < s.spawned, (s.cpu t).phase = .finished) → (∀ j, s.call j = .idle) →
        ∀ c, s.gVm = some c → (s.vm c).running = false) := by
  have hpreserved : ∀ (s : State J) (a : Action J) (s' : State J), s.Placed ∧ s.Safe →
      s.Careful a → Vm.step s a = some s' → s'.Placed ∧ s'.Safe := fun s a s' h hok hstep =>
    ⟨h.1.step hstep, h.2.step h.1 hok hstep⟩
  have hinit : (State.init : State J).Placed ∧ (State.init : State J).Safe :=
    ⟨State.init_placed, State.init_safe⟩
  have hinv := hrun.invariant (fun s => s.Placed ∧ s.Safe) hcareful hinit hpreserved
  refine ⟨hinv.2.one, ?_, ?_⟩
  · intro x hx c haccess
    have hmem := hrun.invariant_of_mem (fun s => s.Placed ∧ s.Safe) hcareful hinit hpreserved hx
    obtain ⟨⟨-, hsafe⟩, -, s', hstep⟩ := hmem
    obtain ⟨s, a⟩ := x
    cases a with
    | cpuBoot t =>
      simp only [Vm.step] at hstep
      split_ifs at hstep with hphase
      exact hsafe.intact t c ⟨.inl hphase, haccess⟩
    | cpuStop t =>
      simp only [Vm.step] at hstep
      split_ifs at hstep with hphase
      exact hsafe.intact t c ⟨.inr hphase, haccess⟩
    | _ => cases haccess
  · intro hfinished _ c _
    by_contra hrunning
    obtain ⟨t, ht⟩ := hinv.2.running c ((Bool.not_eq_false _).mp hrunning)
    exact ht.live.2 (hfinished t (hinv.1.lt_of_live ht.live))

/-- The VM is made, started and stopped; when its thread has returned it is made and started once
more, and that thread runs to its end. -/
theorem started_once : ∃ (trace : List (State Unit × Action Unit)) (s : State Unit),
    Run (fun s a s' => Vm.step s a = some s') .init trace s ∧ s.gVm = some 1 ∧ s.spawned = 2 ∧
      (s.vm 1).running = false := by
  have hfollow := @Run.of_follow (State Unit) (Action Unit) step .init
    [.initVM (), .alloc () true, .fill () true, .startCPU (), .readRunning () false, .readArg (),
      .spawn () true, .cpuBoot 0, .check (), .mark (), .stopCPU (), .unmark (), .cpuStop 0,
      .cpuExit 0, .initVM (), .unmapOld (), .freeOld (), .clear (), .alloc () true,
      .fill () true, .startCPU (), .readRunning () false, .readArg (), .spawn () true, .check (),
      .mark (), .cpuBoot 1, .cpuStop 1, .cpuExit 1]
    (fun trace s => (∀ x ∈ trace, x.1.Careful x.2) ∧
      (∀ t < s.spawned, (s.cpu t).phase = .finished) ∧ s.call () = .idle ∧ s.gVm = some 1 ∧
        s.spawned = 2)
    (by decide +kernel)
  obtain ⟨trace, s, hrun, hcareful, hfinished, hidle, hvm, hspawned⟩ := hfollow
  have hrunning := (life_cycle hrun hcareful).2.2 hfinished (fun _ => hidle) 1 hvm
  exact ⟨trace, s, hrun, hvm, hspawned, hrunning⟩

/-- The VM is started, stopped and made again before its thread has returned: the thread clears
`running` in a freed context. -/
theorem restarted_too_early :
    ¬ ∀ (trace : List (State Unit × Action Unit)) (s : State Unit),
      Run (fun s a s' => Vm.step s a = some s') .init trace s →
        (∀ t t', (s.cpu t).Live → (s.cpu t').Live → t = t') ∧
          (∀ x ∈ trace, ∀ c, x.1.Accesses c x.2 → (x.1.vm c).freed = false) ∧
          ((∀ t < s.spawned, (s.cpu t).phase = .finished) → (∀ j, s.call j = .idle) →
            ∀ c, s.gVm = some c → (s.vm c).running = false) := by
  intro h
  have hfollow := @Run.of_follow (State Unit) (Action Unit) step .init
    [.initVM (), .alloc () true, .fill () true, .startCPU (), .readRunning () false, .readArg (),
      .spawn () true, .cpuBoot 0, .check (), .mark (), .stopCPU (), .unmark (), .initVM (),
      .unmapOld (), .freeOld (), .clear (), .alloc () true, .fill () true, .cpuStop 0]
    (fun trace _ => ∃ x ∈ trace, x.2 = .cpuStop 0 ∧ (x.1.cpu 0).vm = some 0 ∧
      (x.1.vm 0).freed = true)
    (by decide +kernel)
  obtain ⟨trace, s, hrun, x, hx, haction, hvm, hfreed⟩ := hfollow
  have haccess : x.1.Accesses 0 x.2 := by
    rw [haction]
    exact hvm
  have hunfreed := (h trace s hrun).2.1 x hx 0 haccess
  rw [hfreed] at hunfreed
  cases hunfreed

end Steps

end Vm

end MachVirtuTerm
