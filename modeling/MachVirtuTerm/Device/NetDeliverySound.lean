import MachVirtuTerm.Device.NetDeliverySteps

/-!
# Delivery to the filters that accept

The first receiver's id is written into the packet that later filters are asked about. That
makes no difference unless the packet is promiscuous, the first receiver has another device, and
a later one has the device that the packet came from.
-/

open List

namespace MachVirtuTerm

open NetRcvPort

variable {device : Option ℕ} {stack : ℕ → ℤ → BitVec 32} {s : NetDelivery}
  {before after ports : List NetRcvPort} {p : NetPool} {kmsg : NetKmsg}

/-! ## Acceptance -/

/-- Whether a filter accepts a packet of some id, and what the stack held. -/
def NetRcvPort.answer (infp : NetRcvPort) (device : Option ℕ) (msghId : BitVec 32) (data : Packet)
    (stack : ℤ → BitVec 32) : Option Bool :=
  if infp.Wants device msghId then infp.run data stack else some false

/-- A live filter that accepts a packet of some id. -/
def NetRcvPort.accepts (infp : NetRcvPort) (device : Option ℕ) (msghId : BitVec 32)
    (data : Packet) : Bool :=
  infp.active && decide (infp.answer device msghId data (fun _ => 0) = some true)

theorem run_eq (infp : NetRcvPort) (data : Packet) (stack stack' : ℤ → BitVec 32) :
    infp.run data stack = infp.run data stack' := by
  rw [run, run, netDoFilter_eq data infp.filter stack stack']

theorem answer_eq (infp : NetRcvPort) (device : Option ℕ) (msghId : BitVec 32) (data : Packet)
    (stack stack' : ℤ → BitVec 32) :
    infp.answer device msghId data stack = infp.answer device msghId data stack' := by
  rw [answer, answer, run_eq infp data stack stack']

/-- The filters that are run do not leave their stacks. -/
def Runs (ports : List NetRcvPort) (device : Option ℕ) (msghId : BitVec 32) (data : Packet) :
    Prop :=
  ∀ infp ∈ ports, (infp.answer device msghId data fun _ => 0).isSome

/-! ## The loop -/

/-- A filter that does not receive is passed. -/
theorem netFilterLoop_skip {infp : NetRcvPort}
    (hrun : (infp.answer device s.kmsg.msghId s.kmsg.data fun _ => 0).isSome)
    (h : infp.accepts device s.kmsg.msghId s.kmsg.data = false) :
    netFilterLoop device stack before (infp :: after) s =
      netFilterLoop device stack (infp :: before) after s := by
  rw [netFilterLoop]
  split
  · rename_i hwants
    rw [accepts, answer, if_pos hwants] at h
    rw [answer, if_pos hwants] at hrun
    rw [run_eq infp s.kmsg.data _ fun _ => 0]
    obtain ⟨b, hb⟩ := Option.isSome_iff_exists.mp hrun
    rw [hb] at h ⊢
    cases b with
    | false => rfl
    | true =>
      have hdead : infp.active = false := by simpa using h
      simp only
      rw [hdead, if_neg Bool.false_ne_true]
  · rfl

theorem accepts_iff {infp : NetRcvPort} {msghId : BitVec 32} {data : Packet} :
    infp.accepts device msghId data = true ↔ infp.active = true ∧
      infp.Wants device msghId ∧ infp.run data (fun _ => 0) = some true := by
  rw [accepts, Bool.and_eq_true, decide_eq_true_iff, answer]
  split
  · rename_i hwants
    exact and_congr_right fun _ => ⟨fun hrun => ⟨hwants, hrun⟩, fun hrun => hrun.2⟩
  · rename_i hwants
    exact and_congr_right fun _ => ⟨(nomatch ·), fun hrun => absurd hrun.1 hwants⟩

/-- A filter that would receive, if there was a buffer. -/
theorem netFilterLoop_none {infp : NetRcvPort}
    (h : infp.accepts device s.kmsg.msghId s.kmsg.data = true)
    (hdeliver : s.deliver infp device = none) :
    netFilterLoop device stack before (infp :: after) s =
      some ((infp :: before).reverse ++ after, s) := by
  obtain ⟨hactive, hwants, hrun⟩ := accepts_iff.mp h
  rw [netFilterLoop, if_pos hwants, run_eq infp s.kmsg.data _ fun _ => 0, hrun]
  simp only [hactive, if_true, hdeliver]

/-- A filter that receives. -/
theorem netFilterLoop_receive {infp : NetRcvPort} {t : NetDelivery}
    (h : infp.accepts device s.kmsg.msghId s.kmsg.data = true)
    (hdeliver : s.deliver infp device = some t) :
    netFilterLoop device stack before (infp :: after) s =
      if netHiPri ≤ infp.priority then
        some (promote before { infp with rcvCount := infp.rcvCount + 1 } after, t)
      else netFilterLoop device stack ({ infp with rcvCount := infp.rcvCount + 1 } :: before)
        after t := by
  obtain ⟨hactive, hwants, hrun⟩ := accepts_iff.mp h
  rw [netFilterLoop, if_pos hwants, run_eq infp s.kmsg.data _ fun _ => 0, hrun]
  simp only [hactive, if_true, hdeliver]

/-- Once the buffer of the packet is on the send list, the filters that accept the packet, as it
now is, receive it. -/
theorem netFilterLoop_later (hruns : Runs after device s.kmsg.msghId s.kmsg.data)
    (hsend : s.sendList ≠ []) :
    ∃ ports' s', netFilterLoop device stack before after s = some (ports', s') ∧
      SameFilters (before.reverse ++ after) ports' ∧ s'.sendList ≠ [] ∧
      Serves s s' ((receivers (fun infp => infp.accepts device s.kmsg.msghId s.kmsg.data)
        s.pool.count after).map fun infp => infp.address device s.kmsg.msghId) := by
  induction after generalizing before s with
  | nil =>
    refine ⟨_, s, rfl, ?_, hsend, ?_⟩
    · rw [append_nil]
      exact .refl _
    · rw [receivers_nil]
      exact .refl s
  | cons infp after ih =>
    have hruns' : Runs after device s.kmsg.msghId s.kmsg.data :=
      fun infp hin => hruns infp (mem_cons_of_mem _ hin)
    have hreverse : ∀ infp : NetRcvPort,
        (infp :: before).reverse ++ after = before.reverse ++ infp :: after := fun infp => by
      rw [reverse_cons, append_assoc, singleton_append]
    cases haccepts : infp.accepts device s.kmsg.msghId s.kmsg.data with
    | false =>
      rw [netFilterLoop_skip (hruns infp (mem_cons_self ..)) haccepts,
        receivers_cons_of_not haccepts, ← hreverse]
      exact ih hruns' hsend
    | true =>
      by_cases hpool : s.pool.count = 0
      · rw [netFilterLoop_none haccepts (deliver_none hsend hpool infp device), hpool,
          receivers_zero]
        exact ⟨_, s, rfl, hreverse infp ▸ .refl _, hsend, .refl s⟩
      · obtain ⟨t, hdeliver, hserves, hne, hid, hcount⟩ := deliver_later hsend hpool infp device
        rw [netFilterLoop_receive haccepts hdeliver, ← hcount, receivers_cons haccepts]
        have hsame := SameFilters.count before.reverse after infp (infp.rcvCount + 1)
        by_cases hhigh : netHiPri ≤ infp.priority
        · rw [if_pos hhigh, if_pos hhigh]
          exact ⟨_, t, rfl, hsame.trans (.promote _ _ _), hne, hserves⟩
        · rw [if_neg hhigh, if_neg hhigh]
          obtain ⟨ports', s', heq, hsame', hne', hserves'⟩ :=
            @ih t ({ infp with rcvCount := infp.rcvCount + 1 } :: before)
              (by rw [hid, hserves.data]; exact hruns') hne
          rw [hid, hserves.data] at hserves'
          refine ⟨ports', s', heq, hsame.trans ?_, hne', hserves.trans hserves'⟩
          rwa [reverse_cons, append_assoc, singleton_append] at hsame'

theorem messageId_eq (infp : NetRcvPort) (device : Option ℕ) (msghId : BitVec 32) :
    infp.messageId device msghId = msghId ∨
      msghId = promiscRcvMsgId ∧ some infp.device ≠ device ∧
        infp.messageId device msghId = netRcvMsgId := by
  rw [messageId]
  split
  · rename_i h
    exact .inr ⟨h.1, h.2, rfl⟩
  · exact .inl rfl

theorem wants_promisc (infp : NetRcvPort) (device : Option ℕ) :
    infp.Wants device promiscRcvMsgId := .inl (by decide)

/-- The filters also run on the packet as it is after the first receiver. -/
theorem Runs.messageId {msghId : BitVec 32} {data : Packet} (h : Runs ports device msghId data)
    (first : NetRcvPort) : Runs ports device (first.messageId device msghId) data := by
  obtain heq | ⟨rfl, -, heq⟩ := messageId_eq first device msghId
  · rwa [heq]
  · intro infp hin
    have hrun := h infp hin
    rw [answer, if_pos (wants_promisc infp device)] at hrun
    rw [answer]
    split
    · exact hrun
    · rfl

/-- The messages of a packet none of which was sent yet: the first receiver's, and those of the
filters that accept the packet as it is then. -/
inductive Messages (device : Option ℕ) (msghId : BitVec 32) (data : Packet) (buffers : ℕ) :
    List NetRcvPort → List (ℕ × BitVec 32) → Prop
  | nil : Messages device msghId data buffers [] []
  | skip {infp : NetRcvPort} {ports : List NetRcvPort} {messages : List (ℕ × BitVec 32)}
    (hnot : infp.accepts device msghId data = false)
    (h : Messages device msghId data buffers ports messages) :
    Messages device msghId data buffers (infp :: ports) messages
  | first {infp : NetRcvPort} {ports : List NetRcvPort}
    (haccepts : infp.accepts device msghId data = true) :
    Messages device msghId data buffers (infp :: ports)
      (infp.address device msghId ::
        if netHiPri ≤ infp.priority then []
        else
          (receivers (fun next => next.accepts device (infp.messageId device msghId) data) buffers
            ports).map fun next => next.address device (infp.messageId device msghId))

/-- The loop from the start. -/
theorem netFilterLoop_first (hruns : Runs after device s.kmsg.msghId s.kmsg.data)
    (hsend : s.sendList = []) :
    ∃ ports' s' messages, netFilterLoop device stack before after s = some (ports', s') ∧
      SameFilters (before.reverse ++ after) ports' ∧
      Messages device s.kmsg.msghId s.kmsg.data s.pool.count after messages ∧
      Serves s s' messages ∧ (s'.sendList = [] → s' = s) := by
  induction after generalizing before with
  | nil =>
    refine ⟨_, s, [], rfl, ?_, .nil, .refl s, fun _ => rfl⟩
    rw [append_nil]
    exact .refl _
  | cons infp after ih =>
    have hruns' : Runs after device s.kmsg.msghId s.kmsg.data :=
      fun infp hin => hruns infp (mem_cons_of_mem _ hin)
    cases haccepts : infp.accepts device s.kmsg.msghId s.kmsg.data with
    | false =>
      obtain ⟨ports', s', messages, heq, hsame, hmessages, hserves⟩ := @ih (infp :: before) hruns'
      rw [netFilterLoop_skip (hruns infp (mem_cons_self ..)) haccepts]
      rw [reverse_cons, append_assoc, singleton_append] at hsame
      exact ⟨ports', s', messages, heq, hsame, .skip haccepts hmessages, hserves⟩
    | true =>
      obtain ⟨t, hdeliver, hserves, hne, hid, hpool⟩ := deliver_first hsend infp device
      rw [netFilterLoop_receive haccepts hdeliver]
      have hsame := SameFilters.count before.reverse after infp (infp.rcvCount + 1)
      by_cases hhigh : netHiPri ≤ infp.priority
      · rw [if_pos hhigh]
        refine ⟨_, t, _, rfl, hsame.trans (.promote _ _ _), .first haccepts, ?_,
          fun hnil => absurd hnil hne⟩
        rw [if_pos hhigh]
        exact hserves
      · rw [if_neg hhigh]
        have hruns'' := hruns'.messageId infp
        obtain ⟨ports', s', heq, hsame', hne', hserves'⟩ :=
          @netFilterLoop_later device stack t
            ({ infp with rcvCount := infp.rcvCount + 1 } :: before) after
            (by rw [hid, hserves.data]; exact hruns'') hne
        rw [reverse_cons, append_assoc, singleton_append] at hsame'
        rw [hid, hserves.data, hpool] at hserves'
        refine ⟨ports', s', _, heq, hsame.trans hsame', .first haccepts, ?_,
          fun hnil => absurd hnil hne'⟩
        rw [if_neg hhigh]
        exact hserves.trans hserves'

/-! ## The delivery of a packet -/

/-- The filters that a packet is for. -/
def NetKmsg.receivers (kmsg : NetKmsg) (buffers : ℕ) (ports : List NetRcvPort) : List NetRcvPort :=
  MachVirtuTerm.receivers (fun infp => infp.accepts kmsg.localPort kmsg.msghId kmsg.data) buffers
    ports

/-- What a delivery leaves: a message with the packet for each receiver, the same filters in
order, and every buffer on the send list or in the pool. -/
structure Delivers (p : NetPool) (kmsg : NetKmsg) (ports ports' : List NetRcvPort) (p' : NetPool)
    (sendList : List NetKmsg) : Prop where
  receivers : sendList.map NetKmsg.address =
    (kmsg.receivers (p.count + 1) ports).map fun infp => infp.address kmsg.localPort kmsg.msghId
  copies : ∀ m ∈ sendList, kmsg.Carries m
  sorted : (ports.Pairwise fun a b => b.priority ≤ a.priority) →
    ports'.Pairwise fun a b => b.priority ≤ a.priority
  filters : (ports'.map uncounted).Perm (ports.map uncounted)
  buffers : ((sendList ++ (p'.free ++ p'.low)).map NetKmsg.buffer).Perm
    ((kmsg :: (p.free ++ p.low)).map NetKmsg.buffer)
  low : p'.low <:+ p.low

/-- Whether a filter accepts a packet depends on the packet and the filter, and the packet is
delivered to the filters that do. -/
def Delivered (p : NetPool) (kmsg : NetKmsg) (ports : List NetRcvPort) : Prop :=
  (∀ infp ∈ ports, ∃ b, ∀ stack,
    infp.answer kmsg.localPort kmsg.msghId kmsg.data stack = some b) ∧
    ∀ stack, ∃ ports' p' sendList, netFilterInline p kmsg ports stack =
      some (ports', p', sendList) ∧ Delivers p kmsg ports ports' p' sendList

/-- No filter leaves its stack, and where a promiscuous packet is first for a filter of another
device, no other receiver has the packet's device. -/
structure Deliverable (p : NetPool) (kmsg : NetKmsg) (ports : List NetRcvPort) : Prop where
  runs : Runs ports kmsg.localPort kmsg.msghId kmsg.data
  promisc : kmsg.msghId = promiscRcvMsgId → ∀ first rest,
    kmsg.receivers (p.count + 1) ports = first :: rest → some first.device ≠ kmsg.localPort →
      ∀ infp ∈ rest, some infp.device ≠ kmsg.localPort

theorem messageId_netRcv (infp : NetRcvPort) (device : Option ℕ) :
    infp.messageId device netRcvMsgId = netRcvMsgId := by
  obtain heq | ⟨hid, -⟩ := messageId_eq infp device netRcvMsgId
  · exact heq
  · exact absurd hid (by decide)

theorem messageId_promisc_iff (infp : NetRcvPort) (device : Option ℕ) :
    infp.messageId device promiscRcvMsgId = netRcvMsgId ↔ some infp.device ≠ device := by
  rw [messageId]
  split
  · rename_i h
    exact iff_of_true rfl h.2
  · rename_i h
    exact iff_of_false (by decide) fun hne => h ⟨rfl, hne⟩

/-- After a first receiver of another device, the rest of a promiscuous packet's receivers are
served as they are to be just if none of them has the packet's device. -/
theorem rest_eq_iff (device : Option ℕ) (data : Packet) (buffers : ℕ) (ports : List NetRcvPort) :
    ((receivers (fun infp => infp.accepts device netRcvMsgId data) buffers ports).map
        fun infp => infp.address device netRcvMsgId) =
      (receivers (fun infp => infp.accepts device promiscRcvMsgId data) buffers ports).map
        (fun infp => infp.address device promiscRcvMsgId) ↔
      ∀ infp ∈ receivers (fun infp => infp.accepts device promiscRcvMsgId data) buffers ports,
        some infp.device ≠ device := by
  constructor
  · intro heq infp hin
    have hmem := mem_map_of_mem (f := fun infp => infp.address device promiscRcvMsgId) hin
    rw [← heq] at hmem
    obtain ⟨other, -, hother⟩ := mem_map.mp hmem
    have hid : other.messageId device netRcvMsgId = infp.messageId device promiscRcvMsgId :=
      congrArg Prod.snd hother
    rw [messageId_netRcv] at hid
    exact (messageId_promisc_iff infp device).mp hid.symm
  · intro hdevice
    have hwants : ∀ infp ∈ receivers (fun infp => infp.accepts device promiscRcvMsgId data)
        buffers ports, infp.accepts device netRcvMsgId data = true := by
      intro infp hin
      obtain ⟨hactive, -, hrun⟩ := accepts_iff.mp (of_mem_receivers hin)
      exact accepts_iff.mpr ⟨hactive, .inr (.inr (hdevice infp hin)), hrun⟩
    rw [receivers_congr (fun infp _ haccepts => ?_) hwants]
    · refine map_congr_left fun infp hin => ?_
      rw [address, address, messageId_netRcv,
        (messageId_promisc_iff infp device).mpr (hdevice infp hin)]
    · obtain ⟨hactive, -, hrun⟩ := accepts_iff.mp haccepts
      exact accepts_iff.mpr ⟨hactive, wants_promisc infp device, hrun⟩

/-- The messages are those for the receivers just if the condition holds. -/
theorem Messages.eq_iff {msghId : BitVec 32} {data : Packet} {buffers : ℕ}
    {messages : List (ℕ × BitVec 32)} (h : Messages device msghId data buffers ports messages) :
    messages = (receivers (fun infp => infp.accepts device msghId data) (buffers + 1) ports).map
        (fun infp => infp.address device msghId) ↔
      (msghId = promiscRcvMsgId → ∀ first rest,
        receivers (fun infp => infp.accepts device msghId data) (buffers + 1) ports =
          first :: rest → some first.device ≠ device →
        ∀ infp ∈ rest, some infp.device ≠ device) := by
  induction h with
  | nil =>
    rw [receivers_nil]
    exact iff_of_true rfl fun _ _ _ => (nomatch ·)
  | skip hnot _ ih =>
    rw [receivers_cons_of_not hnot]
    exact ih
  | @first infp ports haccepts =>
    rw [receivers_cons haccepts, map_cons]
    by_cases hhigh : netHiPri ≤ infp.priority
    · rw [if_pos hhigh, if_pos hhigh]
      refine iff_of_true rfl fun _ first rest heq _ other hother => ?_
      rw [← (List.cons.inj heq).2] at hother
      cases hother
    · rw [if_neg hhigh, if_neg hhigh, cons_inj_right]
      obtain heq | ⟨rfl, hdevice, heq⟩ := messageId_eq infp device msghId
      · rw [heq]
        refine iff_of_true rfl fun hid first rest hcons hdevice => ?_
        rw [← (List.cons.inj hcons).1, ← messageId_promisc_iff, ← hid, heq, hid] at hdevice
        exact absurd hdevice (by decide)
      · rw [heq, rest_eq_iff]
        constructor
        · intro hrest _ first rest hcons _
          rw [← (List.cons.inj hcons).2]
          exact hrest
        · exact fun hrest => hrest rfl infp _ rfl hdevice

/-- A packet is delivered just if the condition holds. -/
theorem netFilterInline_delivered_iff (p : NetPool) (kmsg : NetKmsg) (ports : List NetRcvPort) :
    Delivered p kmsg ports ↔ Deliverable p kmsg ports := by
  have hloop := fun (stack : ℕ → ℤ → BitVec 32)
      (hruns : Runs ports kmsg.localPort kmsg.msghId kmsg.data) =>
    @netFilterLoop_first kmsg.localPort stack ⟨kmsg, p, []⟩ [] ports hruns rfl
  constructor
  · rintro ⟨hanswers, hdelivers⟩
    have hruns : Runs ports kmsg.localPort kmsg.msghId kmsg.data := fun infp hin => by
      obtain ⟨b, hb⟩ := hanswers infp hin
      rw [hb]
      rfl
    obtain ⟨ports', s', messages, heq, -, hmessages, hserves, -⟩ := hloop (fun _ _ => 0) hruns
    obtain ⟨ports'', p', sendList, hinline, hdelivers⟩ := hdelivers fun _ _ => 0
    rw [netFilterInline, heq, Option.map_some] at hinline
    cases hinline
    exact ⟨hruns, hmessages.eq_iff.mp (hserves.messages.symm.trans hdelivers.receivers)⟩
  · rintro ⟨hruns, hpromisc⟩
    constructor
    · intro infp hin
      obtain ⟨b, hb⟩ := Option.isSome_iff_exists.mp (hruns infp hin)
      exact ⟨b, fun stack => (answer_eq infp _ _ _ _ _).trans hb⟩
    · intro stack
      obtain ⟨ports', s', messages, heq, hsame, hmessages, hserves, hnil⟩ := hloop stack hruns
      refine ⟨_, _, _, by rw [netFilterInline, heq, Option.map_some], ?_⟩
      refine ⟨hserves.messages.trans (hmessages.eq_iff.mpr hpromisc), fun m hm => ?_, hsame.sorted,
        hsame.filters, ?_, ?_⟩
      · exact (hserves.copies m hm).resolve_left not_mem_nil
      · have htotal := hserves.total
        by_cases hempty : s'.sendList = []
        · rw [hnil hempty]
          simp only [isEmpty_nil, if_true, netKmsgPutBuf, nil_append]
          refine List.Perm.map _ ?_
          rw [append_assoc]
          exact perm_middle
        · rw [total_of_ne hempty] at htotal
          rw [if_neg (by simpa using hempty)]
          exact htotal
      · split
        · exact hserves.low
        · exact hserves.low

/-- A filter of a device that accepts every packet. -/
def acceptAll (rcvPort device : ℕ) (cloned : Bool) : NetRcvPort :=
  ⟨rcvPort, true, device, cloned, 0, 10, [], none⟩

/-- An empty packet from the cloned device 1, of some id. -/
def packetOf (msghId : BitVec 32) : NetKmsg :=
  ⟨0, msghId, some 1, 7, fun _ => 0, 0, fun _ => 0⟩

/-- A pool of one free buffer. -/
def oneBuffer : NetPool := ⟨[⟨1, 0, none, 0, fun _ => 0, 0, fun _ => 0⟩], []⟩

/-- Two filters of another device, and an ordinary packet. -/
theorem netFilterInline_delivered_two :
    Delivered oneBuffer (packetOf netRcvMsgId) [acceptAll 8 2 false, acceptAll 9 2 false] := by
  refine (netFilterInline_delivered_iff _ _ _).mpr ⟨fun infp hin => ?_, fun hid => ?_⟩
  · obtain rfl | rfl : infp = acceptAll 8 2 false ∨ infp = acceptAll 9 2 false := by
      simpa using hin
    · decide
    · decide
  · exact absurd hid (by decide)

/-- A promiscuous packet is first for a filter of another device; the filter of its own device,
which accepts it, does not get it. -/
theorem promiscuous_packet_lost :
    ¬∀ p kmsg ports, Runs ports kmsg.localPort kmsg.msghId kmsg.data →
      Delivered p kmsg ports := by
  intro hclaim
  obtain ⟨-, hdelivers⟩ := hclaim oneBuffer (packetOf promiscRcvMsgId)
    [acceptAll 8 2 false, acceptAll 9 1 true] fun infp hin => by
      obtain rfl | rfl : infp = acceptAll 8 2 false ∨ infp = acceptAll 9 1 true := by
        simpa using hin
      · decide
      · decide
  obtain ⟨ports', p', sendList, hinline, hdelivers⟩ := hdelivers fun _ _ => 0
  have hlength : sendList.length = 1 := by
    cases hinline
    rfl
  have hreceivers := congrArg List.length hdelivers.receivers
  rw [length_map, hlength] at hreceivers
  exact absurd hreceivers (by decide)

end MachVirtuTerm
