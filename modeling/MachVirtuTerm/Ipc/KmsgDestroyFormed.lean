import MachVirtuTerm.Ipc.KmsgDestroySteps

/-!
# Messages that can be destroyed

The words of a message in the kernel stand for rights and memory of the kernel, and its rights
are of a type that can be destroyed. Everything that a destruction handles stays like that, as
long as the messages that are cleaned have the arrays that they count.
-/

open List

namespace MachVirtuTerm

namespace KmsgDestroy

open Kmsg

variable {P M : Type*}

/-- A type of rights to send with, `MACH_MSG_TYPE_PORT_ANY_SEND` in the kernel. -/
def AnySend (msgtName : MachMsgTypeName) : Prop :=
  msgtName = machMsgTypePortSend ∨ msgtName = machMsgTypePortSendOnce

/-- A type of rights that `ipc_object_destroy` knows. -/
def KnownType (msgtName : MachMsgTypeName) : Prop :=
  AnySend msgtName ∨ msgtName = machMsgTypePortReceive

/-- An item that can be released. -/
def Releasable : Use P M → Prop
  | .released (.right _ msgtName) => KnownType msgtName
  | .released (.memory _) => True
  | _ => False

/-- The descriptors of a message, if it is complex. -/
def IpcKmsg.descriptors (m : IpcKmsg P M) : List (Descriptor P M) :=
  if m.complex then m.body else []

/-- A message as it is in the kernel. -/
structure IpcKmsg.Formed (m : IpcKmsg P M) : Prop where
  remotePort : m.remotePort.InKernel
  remoteType : ∀ p, m.remotePort = .right p → AnySend m.remoteType
  localPort : m.localPort.InKernel
  localType : ∀ p, m.localPort = .right p → AnySend m.localType
  body : ∀ d ∈ m.descriptors, d.InKernel
  types : ∀ d ∈ m.descriptors, ∀ p msgtName, .right p msgtName ∈ d.carried → KnownType msgtName

/-- The arrays that a message counts are there. -/
def IpcKmsg.Counted (m : IpcKmsg P M) : Prop := ∀ d ∈ m.descriptors, d.Counted

/-! ## What is released is no fault -/

theorem releasable_destroyValid {word : PortWord P} {msgtName : MachMsgTypeName}
    (hword : word.InKernel) (htype : ∀ p, word = .right p → AnySend msgtName) :
    ∀ use ∈ @destroyValid P M word msgtName, Releasable use := by
  intro use huse
  cases word with
  | null => exact absurd huse not_mem_nil
  | dead => exact absurd huse not_mem_nil
  | right p =>
    cases mem_singleton.mp huse
    exact .inl (htype p rfl)
  | name n => exact hword.elim

theorem not_transferred_destroyObjects {msgtName : MachMsgTypeName} {item : Item P M}
    (objects : List (PortWord P)) : ∀ count,
      .transferred item ∉ destroyObjects msgtName count objects := by
  induction objects with
  | nil =>
    rintro (_ | count)
    · exact not_mem_nil
    · simp [destroyObjects]
  | cons object objects ih =>
    rintro (_ | count)
    · exact not_mem_nil
    · rw [destroyObjects, mem_append, not_or]
      refine ⟨?_, ih count⟩
      cases object <;> simp [destroyValid, objectDestroy]

/-- Nothing that is cleaned goes to a receiver. -/
theorem not_transferred_cleanDescriptor (cfg : Config) (d : Descriptor P M) (item : Item P M) :
    .transferred item ∉ cleanDescriptor cfg d := by
  cases d with
  | port name disposition => cases name <;> simp [cleanDescriptor, destroyValid, objectDestroy]
  | outOfLine address size copy =>
    rw [cleanDescriptor]
    split
    · exact not_mem_nil
    split
    · cases address <;> simp [kfree]
    · cases address <;> simp [copyDiscard]
  | oolPorts address count copy disposition =>
    rw [cleanDescriptor]
    split
    · exact not_mem_nil
    · rw [mem_append, not_or]
      refine ⟨not_transferred_destroyObjects _ _, ?_⟩
      cases address <;> simp [kfreeArray]
  | other => exact not_mem_nil

theorem releasable_cleanDescriptor (cfg : Config) {d : Descriptor P M} (hd : d.InKernel)
    (hcounted : d.Counted)
    (htypes : ∀ p msgtName, .right p msgtName ∈ d.carried → KnownType msgtName) :
    ∀ use ∈ cleanDescriptor cfg d, Releasable use := by
  intro use huse
  have honce := cleanDescriptor_once cfg hd hcounted
  cases use with
  | transferred item => exact absurd huse (not_transferred_cleanDescriptor cfg d item)
  | fault => exact absurd huse honce.1
  | released item =>
    cases item with
    | memory m => trivial
    | right p msgtName =>
      refine htypes p msgtName (honce.2.mem_iff.mp ?_)
      exact mem_filterMap.mpr ⟨_, huse, rfl⟩

theorem mem_clean {m : IpcKmsg P M} {use : Use P M} (h : use ∈ m.clean) :
    use ∈ destroyValid m.remotePort m.remoteType ∨ use ∈ destroyValid m.localPort m.localType ∨
      ∃ d ∈ m.descriptors, use ∈ cleanDescriptor m.config d := by
  rw [IpcKmsg.clean, mem_append, mem_append, or_assoc] at h
  refine h.imp_right (Or.imp_right fun hbody => ?_)
  split at hbody
  next hcomplex =>
    obtain ⟨d, hd, huse⟩ := mem_flatMap.mp hbody
    exact ⟨d, by rwa [IpcKmsg.descriptors, if_pos hcomplex], huse⟩
  · exact absurd hbody not_mem_nil

/-- The items of a message can be released. -/
theorem IpcKmsg.Formed.releasable {m : IpcKmsg P M} (h : m.Formed) (hcounted : m.Counted) :
    ∀ use ∈ m.clean, Releasable use := by
  intro use huse
  rcases mem_clean huse with huse | huse | ⟨d, hd, huse⟩
  · exact releasable_destroyValid h.remotePort h.remoteType use huse
  · exact releasable_destroyValid h.localPort h.localType use huse
  · exact releasable_cleanDescriptor m.config (h.body d hd) (hcounted d hd) (h.types d hd) use huse

theorem receives_destroyValid {word : PortWord P} {msgtName : MachMsgTypeName}
    (htype : ∀ p, word = .right p → AnySend msgtName) :
    sumUses useReceive (@destroyValid P M word msgtName) = 0 := by
  cases word with
  | right p =>
    have hnot : msgtName ≠ machMsgTypePortReceive := by
      rcases htype p rfl with rfl | rfl <;> decide
    change useReceive (.released (.right p msgtName) : Use P M) + 0 = 0
    rw [add_zero, useReceive, if_neg hnot]
  | _ => rfl

/-- The receive rights of a message are in its body. -/
theorem IpcKmsg.Formed.receives_clean {m : IpcKmsg P M} (h : m.Formed) :
    sumUses useReceive m.clean = bodyReceives m := by
  rw [sumUses_clean, sumUses_undirected, receives_destroyValid h.remoteType,
    receives_destroyValid h.localType, zero_add, zero_add]
  rfl

/-- A message that counts an array that is not there cannot be cleaned. -/
theorem fault_mem_clean {m : IpcKmsg P M} (h : ¬m.Counted) : .fault ∈ m.clean := by
  simp only [IpcKmsg.Counted, IpcKmsg.descriptors, not_forall] at h
  obtain ⟨d, hd, hnot⟩ := h
  split at hd
  next hcomplex =>
    rw [IpcKmsg.clean, if_pos hcomplex]
    apply mem_append_right
    exact mem_flatMap.mpr ⟨d, hd, fault_mem_of_not_counted m.config hnot⟩
  · exact absurd hd not_mem_nil

/-! ## New messages -/

theorem IpcKmsg.Formed.undirected {m : IpcKmsg P M} (h : m.Formed) : m.undirected.Formed :=
  { h with
    remotePort := trivial
    remoteType := nofun }

theorem IpcKmsg.Formed.bare {m : IpcKmsg P M} (h : m.Formed) : m.bare.Formed :=
  { h.undirected with
    localPort := trivial
    localType := nofun }

theorem formed_notification (buffer : ℕ) (q : P) (right : Option P) :
    (notification buffer q right : IpcKmsg P M).Formed where
  remotePort := trivial
  remoteType := fun _ _ => .inr rfl
  localPort := trivial
  localType := nofun
  body := by
    intro d hd
    cases right with
    | none => exact absurd hd not_mem_nil
    | some p =>
      cases mem_singleton.mp hd
      trivial
  types := by
    intro d hd p msgtName hitem
    cases right with
    | none => exact absurd hd not_mem_nil
    | some r =>
      cases mem_singleton.mp hd
      cases mem_singleton.mp hitem
      exact .inr rfl

theorem formed_reply {m : IpcKmsg P M} (h : m.Formed) (buffer : ℕ) : (reply buffer m).Formed where
  remotePort := h.localPort
  remoteType := h.localType
  localPort := trivial
  localType := nofun
  body := fun _ hd => absurd hd not_mem_nil
  types := fun _ hd => absurd hd not_mem_nil

/-! ## Everything that a destruction handles -/

/-- What a port holds can be destroyed. -/
structure IpcPort.Ok (x : IpcPort P M) : Prop where
  messages : ∀ m ∈ x.messages, m.Formed
  kobject : ∀ r ∈ x.kobject, KnownType r.2

/-- A task can be done; messages are sent only from new buffers. -/
def Task.Ok (first : ℕ) : Task P M → Prop
  | .destroy m => m.Formed
  | .mqueueSend m => m.Formed ∧ first ≤ m.buffer ∧ ∃ p, m.remotePort = .right p
  | .release use => Releasable use
  | _ => True

/-- Everything can be destroyed, and only new messages go elsewhere. -/
structure State.Ok (first : ℕ) (s : State P M) : Prop where
  ports : ∀ p, (s.port p).Ok
  messages : ∀ m ∈ s.ithMessages, m.Formed
  tasks : ∀ t ∈ s.stack, t.Ok first
  fresh : first ≤ s.fresh
  taken : ∀ m ∈ s.taken, first ≤ m.buffer

open State

variable {first : ℕ} {s s' : State P M} {c : Choice}

theorem State.Ok.pop (h : s.Ok first) {t : Task P M} {stack : List (Task P M)}
    (hstack : s.stack = t :: stack) : t.Ok first ∧ { s with stack }.Ok first := by
  refine ⟨h.tasks t (by simp [hstack]), { h with tasks := fun u hu => h.tasks u ?_ }⟩
  rw [hstack]
  exact mem_cons_of_mem t hu

theorem State.Ok.push (h : s.Ok first) {tasks : List (Task P M)}
    (htasks : ∀ t ∈ tasks, t.Ok first) : (s.push tasks).Ok first :=
  { h with
    tasks := by
      intro t ht
      rcases mem_append.mp ht with ht | ht
      · exact htasks t ht
      · exact h.tasks t ht }

theorem State.Ok.push_one (h : s.Ok first) {t : Task P M} (ht : t.Ok first) :
    (s.push [t]).Ok first := by
  refine h.push fun u hu => ?_
  cases mem_singleton.mp hu
  exact ht

theorem State.Ok.setPort [DecidableEq P] (h : s.Ok first) {p : P} {x : IpcPort P M}
    (hx : x.Ok) : (s.setPort p x).Ok first :=
  { h with
    ports := by
      intro q
      by_cases hq : q = p
      · subst hq
        simpa [State.setPort] using hx
      · simpa [State.setPort, hq] using h.ports q }

theorem ok_releaseSend [DecidableEq P] (h : s.Ok first) (p : P) : (s.releaseSend p).Ok first := by
  have hport := h.ports p
  rw [releaseSend]
  split
  · exact h
  dsimp only
  split
  · exact h.setPort ⟨hport.messages, hport.kobject⟩
  · apply State.Ok.push_one
    · apply h.setPort
      exact ⟨hport.messages, hport.kobject⟩
    · trivial

theorem ok_release [DecidableEq P] (h : s.Ok first) {use : Use P M}
    (hstep : s.release use = some s') : s'.Ok first := by
  match use, hstep with
  | .released (.memory m), hstep =>
    cases hstep
    exact h
  | .released (.right p msgtName), hstep =>
    rw [release, State.objectDestroy] at hstep
    split at hstep
    · cases hstep
      exact ok_releaseSend h p
    split at hstep
    · cases hstep
      exact h.push_one trivial
    split at hstep
    · cases hstep
      exact h.push_one trivial
    · cases hstep

theorem ok_notify (h : s.Ok first) (q : P) (right : Option P) : (s.notify c q right).Ok first := by
  by_cases halloc : c.alloc = true
  · have hfresh : State.Ok first { s with fresh := s.fresh + 1 } :=
      { h with fresh := Nat.le_succ_of_le h.fresh }
    rw [notify_of_alloc s halloc]
    exact hfresh.push_one ⟨formed_notification _ _ _, h.fresh, q, rfl⟩
  · cases right with
    | none =>
      rw [notify_of_not_alloc s halloc]
      exact h
    | some p =>
      rw [notify_right_of_not_alloc s halloc]
      exact h.push_one trivial

theorem ok_replyTask {m : IpcKmsg P M} (h : m.Formed) (hbuffer : first ≤ m.buffer) :
    (replyTask m).Ok first := by
  cases hport : m.remotePort with
  | right p =>
    have htask : replyTask m = .mqueueSend m := by rw [replyTask, hport]
    rw [htask]
    exact ⟨h, hbuffer, p, hport⟩
  | _ =>
    have htask : replyTask m = .destroy m := by rw [replyTask, hport]
    rw [htask]
    exact h

theorem ok_mqueueSend [DecidableEq P] (h : s.Ok first) {m : IpcKmsg P M}
    (hm : Task.Ok first (.mqueueSend m)) (hstep : s.mqueueSend c m = some s') :
    s'.Ok first := by
  obtain ⟨hformed, hbuffer, -⟩ := hm
  rw [mqueueSend] at hstep
  split at hstep
  next p _ =>
    dsimp only at hstep
    split at hstep
    · cases hstep
      obtain ⟨tasks, taken, heq, htasks, htaken⟩ := kobjectServer_eq (s := s) c m
      rw [heq]
      refine { h with tasks := ?_, fresh := Nat.le_succ_of_le h.fresh, taken := ?_ }
      · intro t ht
        rcases mem_append.mp ht with ht | ht
        · rcases htasks t ht with rfl | rfl
          · exact ok_replyTask (formed_reply hformed _) h.fresh
          · exact hformed.bare
        · exact h.tasks t ht
      · intro b hb
        rcases mem_append.mp hb with hb | hb
        · rcases htaken b hb with rfl | rfl
          · exact hbuffer
          · exact h.fresh
        · exact h.taken b hb
    split at hstep
    · cases hstep
      exact h.push_one hformed.undirected
    split at hstep
    · cases hstep
      refine { h with taken := ?_ }
      intro b hb
      rcases mem_cons.mp hb with rfl | hb
      · exact hbuffer
      · exact h.taken b hb
    · cases hstep
      refine h.setPort { h.ports p with messages := ?_ }
      intro m' hm'
      rcases mem_append.mp hm' with hm' | hm'
      · exact (h.ports p).messages m' hm'
      · cases mem_singleton.mp hm'
        exact hformed
  · cases hstep

theorem ok_portDestroy [DecidableEq P] (h : s.Ok first) {p : P}
    (hstep : s.portDestroy c p = some s') : s'.Ok first := by
  have hport := h.ports p
  rw [portDestroy] at hstep
  split at hstep
  · cases hstep
  split at hstep
  · cases hstep
    exact h.push_one trivial
  · split at hstep
    · cases hstep
      apply State.Ok.push_one
      · apply h.setPort
        exact ⟨hport.messages, hport.kobject⟩
      · trivial
    · cases hstep
      apply State.Ok.push_one
      · apply h.setPort
        exact ⟨hport.messages, hport.kobject⟩
      · trivial

theorem ok_portDie [DecidableEq P] (h : s.Ok first) {p : P} (hstep : s.portDie p = some s') :
    s'.Ok first := by
  obtain ⟨-, rfl⟩ := portDie_eq hstep
  have hdead : (s.port p).dead.Ok := ⟨(h.ports p).messages, fun _ hr => absurd hr not_mem_nil⟩
  refine (h.setPort hdead).push fun t ht => ?_
  rcases mem_deathTasks ht with ⟨q, -, rfl⟩ | rfl | rfl | ⟨r, hr, rfl⟩
  · trivial
  · trivial
  · trivial
  · exact (h.ports p).kobject r hr

theorem ok_flush [DecidableEq P] (h : s.Ok first) (p : P) : (s.flush p).Ok first := by
  rw [flush]
  split
  · exact h
  next m rest hmessages =>
    have hport := (h.ports p).messages
    rw [hmessages] at hport
    have hrest : IpcPort.Ok { s.port p with messages := rest } :=
      ⟨fun m' hm' => hport m' (mem_cons_of_mem m hm'), (h.ports p).kobject⟩
    refine (h.setPort hrest).push fun t ht => ?_
    simp only [mem_cons, not_mem_nil, or_false] at ht
    rcases ht with rfl | rfl
    · exact (hport m mem_cons_self).undirected
    · trivial

theorem ok_dnnotify (h : s.Ok first) (sorights : List P) : (s.dnnotify sorights).Ok first := by
  cases sorights with
  | nil => exact h
  | cons q rest =>
    refine h.push fun t ht => ?_
    simp only [mem_cons, not_mem_nil, or_false] at ht
    rcases ht with rfl | rfl <;> trivial

theorem ok_destroy (h : s.Ok first) {m : IpcKmsg P M} (hm : m.Formed) : (s.destroy m).Ok first := by
  have hqueue : State.Ok first { s with ithMessages := s.ithMessages ++ [m] } :=
    { h with
      messages := by
        intro m' hm'
        rcases mem_append.mp hm' with hm' | hm'
        · exact h.messages m' hm'
        · cases mem_singleton.mp hm'
          exact hm }
  rw [destroy]
  split
  · exact hqueue.push_one trivial
  · exact hqueue

theorem ok_loop (h : s.Ok first) (hcounted : ∀ m, s.ithMessages.head? = some m → m.Counted) :
    s.loop.Ok first := by
  rw [loop]
  split
  · exact h
  next m rest hlist =>
    have hm : m.Counted := hcounted m (by simp [hlist])
    have hformed : m.Formed := h.messages m (by simp [hlist])
    have hclean : State.Ok first { s with cleaned := m.buffer :: s.cleaned } := { h with }
    refine hclean.push fun t ht => ?_
    rcases mem_append.mp ht with ht | ht
    · obtain ⟨use, huse, rfl⟩ := mem_map.mp ht
      exact hformed.releasable hm use huse
    · cases mem_singleton.mp ht
      trivial

theorem ok_rmqueue (h : s.Ok first) (hstep : s.rmqueue = some s') : s'.Ok first := by
  rw [rmqueue] at hstep
  split at hstep
  · cases hstep
  next m rest hlist =>
    cases hstep
    have hrest : State.Ok first { s with
        ithMessages := rest
        freed := m.buffer :: s.freed } :=
      { h with
        messages := by
          intro m' hm'
          refine h.messages m' ?_
          rw [hlist]
          exact mem_cons_of_mem m hm' }
    exact hrest.push_one trivial

/-- The next step cleans a message. -/
def Cleans (s : State P M) (m : IpcKmsg P M) : Prop :=
  s.stack.head? = some .loop ∧ s.ithMessages.head? = some m

/-- A step keeps everything destructible, if a message that it cleans has what it counts. -/
theorem ok_step [DecidableEq P] (h : s.Ok first) (hcounted : ∀ m, Cleans s m → m.Counted)
    (hstep : s.Step c s') : s'.Ok first := by
  rw [State.Step, step] at hstep
  split at hstep
  · cases hstep
  next task stack hstack =>
    obtain ⟨htask, hpop⟩ := h.pop hstack
    cases task with
    | destroy m =>
      cases hstep
      exact ok_destroy hpop htask
    | loop =>
      cases hstep
      refine ok_loop hpop fun m hm => hcounted m ⟨?_, hm⟩
      rw [hstack]
      rfl
    | rmqueue => exact ok_rmqueue hpop hstep
    | release use => exact ok_release hpop hstep
    | notify q right =>
      cases hstep
      exact ok_notify hpop q right
    | mqueueSend m => exact ok_mqueueSend hpop htask hstep
    | portDestroy p => exact ok_portDestroy hpop hstep
    | portDie p => exact ok_portDie hpop hstep
    | flush p =>
      cases hstep
      exact ok_flush hpop p
    | dnnotify sorights =>
      cases hstep
      exact ok_dnnotify hpop sorights

end KmsgDestroy

end MachVirtuTerm
