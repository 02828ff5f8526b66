import MachVirtuTerm.Device.NetFilter

/-!
# The result of a filter

A filter only reads cells of its stack that it has written. Its result depends on the packet
and on its words, not on what the stack held before.
-/

open Function

namespace MachVirtuTerm

variable {p : Packet} {s t : FilterState} {v : BitVec 32}

/-- The states agree on the cells in use. -/
structure FilterState.Agree (s t : FilterState) : Prop where
  fp : s.fp = t.fp
  sp : s.sp = t.sp
  stack : ∀ i, s.sp ≤ i → i ≤ netFilterStackDepth → s.stack i = t.stack i

/-- Two computations end alike, and what they yield is related. -/
inductive Alike {α : Type} (R : α → α → Prop) :
    Except FilterFault α → Except FilterFault α → Prop
  | error (fault : FilterFault) : Alike R (.error fault) (.error fault)
  | ok {a b : α} (h : R a b) : Alike R (.ok a) (.ok b)

theorem Alike.bind {α β : Type} {R : α → α → Prop} {Q : β → β → Prop}
    {x y : Except FilterFault α} {f g : α → Except FilterFault β} (h : Alike R x y)
    (hnext : ∀ a b, R a b → Alike Q (f a) (g b)) : Alike Q (x >>= f) (y >>= g) := by
  cases h with
  | error fault => exact .error fault
  | ok h => exact hnext _ _ h

/-- What goes on is related. -/
inductive FlowAlike {α : Type} (R : α → α → Prop) : FilterFlow α → FilterFlow α → Prop
  | ret (b : Bool) : FlowAlike R (.ret b) (.ret b)
  | next {a b : α} (h : R a b) : FlowAlike R (.next a) (.next b)

/-- An argument and the state after it was fetched. -/
def ArgAlike (x y : BitVec 32 × FilterState) : Prop := x.1 = y.1 ∧ x.2.Agree y.2

theorem Alike.same {α : Type} (x : Except FilterFault α) : Alike Eq x x := by
  cases x with
  | error fault => exact .error fault
  | ok a => exact .ok rfl

theorem FilterState.Agree.read (h : s.Agree t) (offset : ℕ) :
    Alike Eq (s.read offset) (t.read offset) := by
  rw [FilterState.read, FilterState.read, h.sp]
  split
  · rename_i hin
    exact .ok (h.stack _ (by rw [h.sp]; omega) hin.2)
  · exact .error _

theorem FilterState.Agree.pop (h : s.Agree t) : Alike ArgAlike s.pop t.pop := by
  refine (h.read 0).bind fun a b hab => .ok ⟨hab, h.fp, congrArg (· + 1) h.sp, fun i hi => ?_⟩
  change s.sp + 1 ≤ i at hi
  exact h.stack i (by omega)

/-- A write makes the cell that it writes the same. -/
theorem write_alike {fp : List FilterWord} {sp : ℤ} {stack stack' : ℤ → BitVec 32}
    (h : ∀ i, sp < i → i ≤ netFilterStackDepth → stack i = stack' i) (v : BitVec 32) :
    Alike FilterState.Agree (FilterState.write ⟨fp, sp, stack⟩ v)
      (FilterState.write ⟨fp, sp, stack'⟩ v) := by
  simp only [FilterState.write]
  split
  · refine .ok ⟨rfl, rfl, fun i hi hle => ?_⟩
    change update stack sp v i = update stack' sp v i
    obtain rfl | hne := eq_or_ne i sp
    · rw [update_self, update_self]
    · rw [update_of_ne hne, update_of_ne hne]
      exact h i (lt_of_le_of_ne hi hne.symm) hle
  · exact .error _

section

variable (h : s.Agree t)

include h

theorem FilterState.Agree.push (v : BitVec 32) : Alike FilterState.Agree (s.push v) (t.push v) := by
  obtain ⟨fp, sp, stack⟩ := s
  obtain ⟨fp', sp', stack'⟩ := t
  obtain ⟨rfl, rfl, hstack⟩ : fp = fp' ∧ sp = sp' ∧
      ∀ i, sp ≤ i → i ≤ netFilterStackDepth → stack i = stack' i := ⟨h.fp, h.sp, h.stack⟩
  refine write_alike (fun i hi => hstack i ?_) v
  change sp - 1 < i at hi
  omega

theorem FilterState.Agree.modify (f : BitVec 32 → BitVec 32) :
    Alike FilterState.Agree (s.modify f) (t.modify f) := by
  refine (h.read 0).bind fun a b hab => ?_
  obtain ⟨fp, sp, stack⟩ := s
  obtain ⟨fp', sp', stack'⟩ := t
  obtain ⟨rfl, rfl, hstack⟩ : fp = fp' ∧ sp = sp' ∧
      ∀ i, sp ≤ i → i ≤ netFilterStackDepth → stack i = stack' i := ⟨h.fp, h.sp, h.stack⟩
  rw [hab]
  exact write_alike (fun i hi => hstack i hi.le) (f b)

theorem FilterState.Agree.binaryOp (f : BitVec 32 → BitVec 32) :
    Alike (FlowAlike FilterState.Agree) (binaryOp s f) (binaryOp t f) :=
  (h.modify f).bind fun _ _ hab => .ok (.next hab)

theorem FilterState.Agree.conditionalOp (arg : BitVec 32) (equal b : Bool) :
    Alike (FlowAlike FilterState.Agree) (conditionalOp s arg equal b)
      (conditionalOp t arg equal b) := by
  refine h.pop.bind fun x y hxy => ?_
  obtain ⟨v, s'⟩ := x
  obtain ⟨w, t'⟩ := y
  obtain ⟨rfl, hagree⟩ : v = w ∧ s'.Agree t' := hxy
  simp only
  split
  · exact .ok (.ret b)
  · exact .ok (.next hagree)

/-- A word of the packet, if there is one. -/
theorem FilterState.Agree.fetchWord (c : Prop) [Decidable c] (x : Except FilterFault (BitVec 32)) :
    Alike (FlowAlike ArgAlike)
      (if c then do let arg ← x; return .next (arg, s) else return .ret false)
      (if c then do let arg ← x; return .next (arg, t) else return .ret false) := by
  split
  · exact (Alike.same x).bind fun a b hab => .ok (.next ⟨hab, h⟩)
  · exact .ok (.ret false)

/-- The switch on the argument. -/
theorem FilterState.Agree.fetchArg (arg : NetfArg) :
    Alike (FlowAlike ArgAlike) (fetchArg p s arg) (fetchArg p t arg) := by
  cases arg with
  | nopush => exact h.pop.bind fun x y hxy => .ok (.next hxy)
  | pushzero => exact .ok (.next ⟨rfl, h⟩)
  | pushlit =>
    rw [MachVirtuTerm.fetchArg, MachVirtuTerm.fetchArg, h.fp]
    cases t.fp with
    | nil => exact .error _
    | cons literal fp => exact .ok (.next ⟨rfl, rfl, h.sp, h.stack⟩)
  | pushind =>
    refine h.pop.bind fun x y hxy => ?_
    obtain ⟨v, s'⟩ := x
    obtain ⟨w, t'⟩ := y
    obtain ⟨rfl, hagree⟩ : v = w ∧ s'.Agree t' := hxy
    exact hagree.fetchWord (v < p.dataWords) (p.dataWord v)
  | pushhdrind =>
    refine h.pop.bind fun x y hxy => ?_
    obtain ⟨v, s'⟩ := x
    obtain ⟨w, t'⟩ := y
    obtain ⟨rfl, hagree⟩ : v = w ∧ s'.Agree t' := hxy
    exact hagree.fetchWord (v.toNat < netHdwHdrWords) (p.headerWord v.toNat)
  | pushword word =>
    exact h.fetchWord (BitVec.ofNat 32 word - 16 < p.dataWords)
      (p.dataWord (BitVec.ofNat 32 word - 16))
  | pushhdr index =>
    exact (Alike.same (p.headerWord index)).bind fun a b hab => .ok (.next ⟨hab, h⟩)
  | pushstk index => exact (h.read index).bind fun a b hab => .ok (.next ⟨hab, h⟩)

/-- The switch on the operator. -/
theorem FilterState.Agree.applyOp (arg : BitVec 32) (op : NetfOp) :
    Alike (FlowAlike FilterState.Agree) (applyOp s arg op) (applyOp t arg op) := by
  cases op with
  | nop => exact (h.push arg).bind fun a b hab => .ok (.next hab)
  | unknown => exact .ok (.next h)
  | cor | cand | cnor | cnand => exact h.conditionalOp arg _ _
  | eq | lt | le | gt | ge | and | or | xor | neq | lsh | rsh | add | sub => exact h.binaryOp _

/-- A turn of the loop. -/
theorem FilterState.Agree.step :
    Alike (FlowAlike FilterState.Agree) (filterStep p s) (filterStep p t) := by
  rw [filterStep, filterStep, h.fp]
  cases hfp : t.fp with
  | nil =>
    refine (h.read 0).bind fun a b hab => ?_
    rw [hab]
    exact .ok (.ret _)
  | cons word fp =>
    have hagree : FilterState.Agree { s with fp } { t with fp } := ⟨rfl, h.sp, h.stack⟩
    refine (hagree.fetchArg (netfArg word)).bind fun x y hxy => ?_
    cases hxy with
    | ret b => exact .ok (.ret b)
    | next hargs =>
      obtain ⟨hfst, hsnd⟩ := hargs
      simp only
      rw [hfst]
      exact hsnd.applyOp _ _

/-- A number of turns. -/
theorem FilterState.Agree.loop (turns : ℕ) : filterLoop p turns s = filterLoop p turns t := by
  induction turns generalizing s t with
  | zero => rfl
  | succ turns ih =>
    have hstep : Alike (FlowAlike FilterState.Agree) (filterStep p s) (filterStep p t) := h.step
    rw [filterLoop, filterLoop]
    generalize filterStep p s = x at hstep
    generalize filterStep p t = y at hstep
    cases hstep with
    | error fault => rfl
    | ok hflow =>
      cases hflow with
      | ret b => rfl
      | next hagree => exact ih hagree

end

/-- A filter does the same whatever the stack held. -/
theorem netDoFilter_eq (p : Packet) (filter : List FilterWord) (stack stack' : ℤ → BitVec 32) :
    netDoFilter p filter stack = netDoFilter p filter stack' := by
  have hagree : (filterStart filter stack).Agree (filterStart filter stack') := by
    refine ⟨rfl, rfl, fun i hi hle => ?_⟩
    rw [le_antisymm hle hi]
    simp only [filterStart, update_self]
  exact hagree.loop _

end MachVirtuTerm

/-!
# Delivery of packets

`net_filter_inline` gives a packet to the filters of its interface in turn. The first receiver
gets the buffer of the packet, the others get copies.
-/

namespace MachVirtuTerm

def netHiPri : ℤ := 100

def promiscRcvMsgId : BitVec 32 := 2997

def netRcvMsgId : BitVec 32 := 2999

/-- `ipc_kmsg_t` of a packet. -/
structure NetKmsg where
  /-- The buffer. -/
  buffer : ℕ
  msghId : BitVec 32
  /-- `msgh_local_port`: the cloned device of a packet that came in. -/
  localPort : Option ℕ
  /-- `msgh_remote_port`: the interface of a packet that came in, then the destination. -/
  remotePort : ℕ
  /-- `header`, of `NET_HDW_HDR_MAX` bytes. -/
  header : ℕ → BitVec 8
  /-- `net_rcv_msg_packet_count`. -/
  count : BitVec 32
  packet : ℕ → BitVec 8

def netHdwHdrMax : ℕ := 64

/-- `sizeof(struct packet_header)`. -/
def packetHeaderSize : ℕ := 4

/-- What a filter is run on: the packet behind its `packet_header`, and the header, in words. -/
def NetKmsg.data (kmsg : NetKmsg) : Packet where
  data i := kmsg.packet (packetHeaderSize + 2 * i + 1) ++ kmsg.packet (packetHeaderSize + 2 * i)
  dataCount := kmsg.count
  header i := kmsg.header (2 * i + 1) ++ kmsg.header (2 * i)

/-- `struct net_rcv_port`. -/
structure NetRcvPort where
  rcvPort : ℕ
  /-- `rcv_port` is alive. -/
  active : Bool
  device : ℕ
  /-- `D_CLONED` in the flags of the device. -/
  cloned : Bool
  rcvCount : BitVec 32
  priority : ℤ
  /-- `filter`, up to `filter_end`. -/
  filter : List FilterWord
  /-- The code that `net_filter_alloc` made of the filter. -/
  fpstart : Option (Packet → Bool)

/-- `net_pool_t`: the queues of buffers. -/
structure NetPool where
  /-- `net_queue_free`. -/
  free : List NetKmsg
  /-- `net_queue_low`. -/
  low : List NetKmsg

def netKmsgGetBuf (p : NetPool) : Option NetKmsg × NetPool :=
  match p.free, p.low with
  | kmsg :: free, _ => (some kmsg, { p with free })
  | [], kmsg :: low => (some kmsg, { p with low })
  | [], [] => (none, p)

def netKmsgPutBuf (p : NetPool) (kmsg : NetKmsg) : NetPool := { p with free := p.free ++ [kmsg] }

namespace NetRcvPort

variable (infp : NetRcvPort)

/-- The test of the message id and the device. -/
def Wants (device : Option ℕ) (msghId : BitVec 32) : Prop :=
  msghId ≠ netRcvMsgId ∨ infp.cloned = false ∨ some infp.device ≠ device

instance (infp : NetRcvPort) (device : Option ℕ) (msghId : BitVec 32) :
    Decidable (infp.Wants device msghId) := inferInstanceAs (Decidable (_ ∨ _))

/-- The filter run on a packet, unless it leaves its stack; `stack` is what was on the stack. -/
def run (p : Packet) (stack : ℤ → BitVec 32) : Option Bool :=
  if infp.filter = [] then some true
  else
    match infp.fpstart with
    | some code => some (code p)
    | none => (netDoFilter p infp.filter stack).toOption.bind id

/-- The message id of a copy, by that of the packet. -/
def messageId (device : Option ℕ) (msghId : BitVec 32) : BitVec 32 :=
  if msghId = promiscRcvMsgId ∧ some infp.device ≠ device then netRcvMsgId else msghId

end NetRcvPort

/-- The variables of `net_filter_inline`. -/
structure NetDelivery where
  kmsg : NetKmsg
  pool : NetPool
  sendList : List NetKmsg

/-- Deliver to a channel, unless there is no buffer for the copy. -/
def NetDelivery.deliver (s : NetDelivery) (infp : NetRcvPort) (device : Option ℕ) :
    Option NetDelivery :=
  let msghId := infp.messageId device s.kmsg.msghId
  if s.sendList.isEmpty then
    let kmsg := { s.kmsg with localPort := none, remotePort := infp.rcvPort, msghId }
    some { s with kmsg, sendList := [kmsg] }
  else
    match netKmsgGetBuf s.pool with
    | (none, _) => none
    | (some new, pool) =>
      let new := { new with
        packet := fun i => if i < s.kmsg.count.toNat then s.kmsg.packet i else new.packet i
        header := fun i => if i < netHdwHdrMax then s.kmsg.header i else new.header i
        count := s.kmsg.count
        remotePort := infp.rcvPort
        msghId }
      some { s with pool, sendList := s.sendList ++ [new] }

/-- The filters before and after one of high priority, which may pass the one before it by
`reorder_queue`. The ones before it are listed backwards. -/
def promote (before : List NetRcvPort) (infp : NetRcvPort) (after : List NetRcvPort) :
    List NetRcvPort :=
  match before with
  | [] => infp :: after
  | prevfp :: before =>
    if infp.priority = prevfp.priority ∧ 100 + prevfp.rcvCount < infp.rcvCount then
      before.reverse ++ infp :: prevfp :: after
    else (prevfp :: before).reverse ++ infp :: after

/-- The loop of `net_filter_inline`, with the filters that it has passed, backwards, and what
the stack holds at each filter. -/
def netFilterLoop (device : Option ℕ) (stack : ℕ → ℤ → BitVec 32) :
    List NetRcvPort → List NetRcvPort → NetDelivery → Option (List NetRcvPort × NetDelivery)
  | before, [], s => some (before.reverse, s)
  | before, infp :: after, s =>
    if infp.Wants device s.kmsg.msghId then
      match infp.run s.kmsg.data (stack after.length) with
      | none => none
      | some false => netFilterLoop device stack (infp :: before) after s
      | some true =>
        -- `ipc_port_copy_send` makes no right for a dead port
        if infp.active then
          match s.deliver infp device with
          | none => some ((infp :: before).reverse ++ after, s)
          | some s =>
            let infp := { infp with rcvCount := infp.rcvCount + 1 }
            if netHiPri ≤ infp.priority then some (promote before infp after, s)
            else netFilterLoop device stack (infp :: before) after s
        else netFilterLoop device stack (infp :: before) after s
    else netFilterLoop device stack (infp :: before) after s

/-- `net_filter_inline`: the filters, the pool and the send list. -/
def netFilterInline (p : NetPool) (kmsg : NetKmsg) (ports : List NetRcvPort)
    (stack : ℕ → ℤ → BitVec 32) : Option (List NetRcvPort × NetPool × List NetKmsg) :=
  (netFilterLoop kmsg.localPort stack [] ports ⟨kmsg, p, []⟩).map fun (ports, s) =>
    (ports, if s.sendList.isEmpty then netKmsgPutBuf s.pool s.kmsg else s.pool, s.sendList)

/-- How `net_set_filter_pool` inserts a new filter. -/
def insertFilter (infp : NetRcvPort) : List NetRcvPort → List NetRcvPort
  | [] => [infp]
  | next :: ports =>
    if infp.priority > next.priority then infp :: next :: ports
    else next :: insertFilter infp ports

end MachVirtuTerm
