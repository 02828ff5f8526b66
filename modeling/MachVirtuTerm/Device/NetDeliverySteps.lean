import MachVirtuTerm.Device.NetDelivery

/-!
# The steps of a delivery

What a delivery to one channel does, and what the loop through the filters does once the buffer
of the packet is on the send list.
-/

open List

namespace MachVirtuTerm

open NetRcvPort NetDelivery

variable {device : Option ℕ} {infp : NetRcvPort} {s s' s'' : NetDelivery}

/-! ## Receivers -/

/-- The first elements of a list, up to one with a property. -/
def through {α : Type*} (p : α → Bool) (l : List α) : List α :=
  l.takeWhile (fun a => !p a) ++ (l.dropWhile (fun a => !p a)).take 1

theorem through_cons {α : Type*} (p : α → Bool) (a : α) (l : List α) :
    through p (a :: l) = a :: if p a then [] else through p l := by
  cases h : p a with
  | false => simp [through, h]
  | true => simp [through, h]

/-- The receivers of a packet: those that accept it, up to one of high priority, and no more than
there are buffers. -/
def receivers (accepts : NetRcvPort → Bool) (buffers : ℕ) (ports : List NetRcvPort) :
    List NetRcvPort :=
  (through (fun infp => netHiPri ≤ infp.priority) (ports.filter accepts)).take buffers

variable {accepts accepts' : NetRcvPort → Bool} {buffers : ℕ} {ports ports' : List NetRcvPort}

@[simp] theorem receivers_nil : receivers accepts buffers [] = [] := by
  simp [receivers, through]

@[simp] theorem receivers_zero : receivers accepts 0 ports = [] := by
  rw [receivers, take_zero]

theorem receivers_cons_of_not (h : accepts infp = false) :
    receivers accepts buffers (infp :: ports) = receivers accepts buffers ports := by
  rw [receivers, filter_cons_of_neg (by rw [h]; exact Bool.false_ne_true), receivers]

theorem receivers_cons (h : accepts infp = true) :
    receivers accepts (buffers + 1) (infp :: ports) =
      infp :: if netHiPri ≤ infp.priority then [] else receivers accepts buffers ports := by
  rw [receivers, filter_cons_of_pos h, through_cons, take_succ_cons]
  by_cases hhigh : netHiPri ≤ infp.priority
  · simp [hhigh]
  · simp [hhigh, receivers]

theorem of_mem_receivers (h : infp ∈ receivers accepts buffers ports) : accepts infp = true := by
  obtain hin | hin := mem_append.mp (mem_of_mem_take h)
  · exact (mem_filter.mp ((takeWhile_sublist _).subset hin)).2
  · exact (mem_filter.mp ((dropWhile_sublist _).subset (mem_of_mem_take hin))).2

/-- Fewer filters accept, but all the receivers do. -/
theorem receivers_congr (hle : ∀ infp ∈ ports, accepts' infp = true → accepts infp = true)
    (h : ∀ infp ∈ receivers accepts buffers ports, accepts' infp = true) :
    receivers accepts' buffers ports = receivers accepts buffers ports := by
  induction ports generalizing buffers with
  | nil => rw [receivers_nil, receivers_nil]
  | cons infp ports ih =>
    have hle' := fun infp hin => hle infp (mem_cons_of_mem _ hin)
    cases haccepts : accepts infp with
    | false =>
      have hnot : accepts' infp = false := by
        rw [← Bool.not_eq_true]
        intro haccepts'
        rw [hle infp (mem_cons_self ..) haccepts'] at haccepts
        cases haccepts
      rw [receivers_cons_of_not haccepts] at h ⊢
      rw [receivers_cons_of_not hnot, ih hle' h]
    | true =>
      cases buffers with
      | zero => rw [receivers_zero, receivers_zero]
      | succ buffers =>
        rw [receivers_cons haccepts] at h ⊢
        rw [receivers_cons (h infp (mem_cons_self ..))]
        split
        · rfl
        · rename_i hlow
          rw [if_neg hlow] at h
          rw [ih hle' fun infp hin => h infp (mem_cons_of_mem _ hin)]

/-! ## The list of filters -/

/-- A filter without what it counts. -/
def NetRcvPort.uncounted (infp : NetRcvPort) : NetRcvPort := { infp with rcvCount := 0 }

/-- The same filters, with the same priorities in order. -/
structure SameFilters (ports ports' : List NetRcvPort) : Prop where
  priorities : ports'.map priority = ports.map priority
  filters : (ports'.map uncounted).Perm (ports.map uncounted)

theorem SameFilters.refl (ports : List NetRcvPort) : SameFilters ports ports := ⟨rfl, .refl _⟩

theorem SameFilters.trans {ports'' : List NetRcvPort} (h : SameFilters ports ports')
    (h' : SameFilters ports' ports'') : SameFilters ports ports'' :=
  ⟨h'.priorities.trans h.priorities, h'.filters.trans h.filters⟩

/-- A filter counts. -/
theorem SameFilters.count (before after : List NetRcvPort) (infp : NetRcvPort) (count : BitVec 32) :
    SameFilters (before ++ infp :: after) (before ++ { infp with rcvCount := count } :: after) where
  priorities := by simp
  filters := by simp [uncounted]

/-- A filter passes one of the same priority. -/
theorem SameFilters.promote (before after : List NetRcvPort) (infp : NetRcvPort) :
    SameFilters (before.reverse ++ infp :: after) (promote before infp after) := by
  cases before with
  | nil => exact .refl _
  | cons prevfp before =>
    rw [MachVirtuTerm.promote]
    split
    · rename_i hpass
      refine ⟨?_, ?_⟩
      · simp [hpass.1]
      · simp only [reverse_cons, append_assoc, singleton_append, map_append, map_cons]
        exact (List.Perm.swap _ _ _).append_left _
    · exact .refl _

theorem SameFilters.sorted (h : SameFilters ports ports')
    (hsorted : ports.Pairwise fun a b => b.priority ≤ a.priority) :
    ports'.Pairwise fun a b => b.priority ≤ a.priority := by
  rw [← pairwise_map (f := priority) (R := fun a b => b ≤ a)] at hsorted ⊢
  rwa [h.priorities]

/-- A new filter is inserted in order. -/
theorem insertFilter_sorted (infp : NetRcvPort)
    (h : ports.Pairwise fun a b => b.priority ≤ a.priority) :
    (insertFilter infp ports).Pairwise fun a b => b.priority ≤ a.priority := by
  have hmem : ∀ ports next, next ∈ insertFilter infp ports → next = infp ∨ next ∈ ports := by
    intro ports
    induction ports with
    | nil => exact fun next hnext => .inl (mem_singleton.mp hnext)
    | cons first ports ih =>
      intro next hnext
      rw [insertFilter] at hnext
      split at hnext
      · exact mem_cons.mp hnext
      · obtain rfl | hnext := mem_cons.mp hnext
        · exact .inr (mem_cons_self ..)
        · exact (ih next hnext).imp_right (mem_cons_of_mem _)
  induction ports with
  | nil => exact pairwise_singleton _ _
  | cons next ports ih =>
    obtain ⟨hnext, hports⟩ := pairwise_cons.mp h
    rw [insertFilter]
    split
    · rename_i hgt
      refine pairwise_cons.mpr ⟨fun other hother => ?_, h⟩
      obtain rfl | hother := mem_cons.mp hother
      · exact hgt.le
      · exact (hnext other hother).trans hgt.le
    · rename_i hle
      refine pairwise_cons.mpr ⟨fun other hother => ?_, ih hports⟩
      obtain rfl | hother := hmem ports other hother
      · exact not_lt.mp hle
      · exact hnext other hother

/-! ## One delivery -/

/-- The buffers of a pool. -/
def NetPool.count (p : NetPool) : ℕ := p.free.length + p.low.length

/-- A buffer holds the packet of another one. -/
structure NetKmsg.Carries (kmsg m : NetKmsg) : Prop where
  packet : ∀ i < kmsg.count.toNat, m.packet i = kmsg.packet i
  header : ∀ i < netHdwHdrMax, m.header i = kmsg.header i
  count : m.count = kmsg.count

theorem NetKmsg.Carries.refl (kmsg : NetKmsg) : kmsg.Carries kmsg :=
  ⟨fun _ _ => rfl, fun _ _ => rfl, rfl⟩

theorem NetKmsg.Carries.trans {kmsg m m' : NetKmsg} (h : kmsg.Carries m) (h' : m.Carries m') :
    kmsg.Carries m' where
  packet := fun i hi => (h'.packet i (by rwa [h.count])).trans (h.packet i hi)
  header := fun i hi => (h'.header i hi).trans (h.header i hi)
  count := h'.count.trans h.count

/-- The destination and the id of a message. -/
def NetKmsg.address (kmsg : NetKmsg) : ℕ × BitVec 32 := (kmsg.remotePort, kmsg.msghId)

/-- The destination and the id for a filter. -/
def NetRcvPort.address (infp : NetRcvPort) (device : Option ℕ) (msghId : BitVec 32) :
    ℕ × BitVec 32 :=
  (infp.rcvPort, infp.messageId device msghId)

/-- All buffers of a delivery: the send list, with the buffer of the packet, and the pool. -/
def NetDelivery.total (s : NetDelivery) : List ℕ :=
  ((if s.sendList.isEmpty then [s.kmsg] else s.sendList) ++ (s.pool.free ++ s.pool.low)).map
    NetKmsg.buffer

theorem total_of_ne (h : s.sendList ≠ []) :
    s.total = (s.sendList ++ (s.pool.free ++ s.pool.low)).map NetKmsg.buffer := by
  rw [total, if_neg (by simpa using h)]

/-- Messages are added to the send list, and no buffer gets lost. -/
structure Serves (s s' : NetDelivery) (messages : List (ℕ × BitVec 32)) : Prop where
  messages : s'.sendList.map NetKmsg.address = s.sendList.map NetKmsg.address ++ messages
  copies : ∀ m ∈ s'.sendList, m ∈ s.sendList ∨ s.kmsg.Carries m
  carries : s.kmsg.Carries s'.kmsg
  data : s'.kmsg.data = s.kmsg.data
  total : s'.total.Perm s.total
  low : s'.pool.low <:+ s.pool.low

theorem Serves.refl (s : NetDelivery) : Serves s s [] where
  messages := (append_nil _).symm
  copies := fun _ hm => .inl hm
  carries := .refl _
  data := rfl
  total := .refl _
  low := suffix_rfl

theorem Serves.trans {messages messages' : List (ℕ × BitVec 32)} (h : Serves s s' messages)
    (h' : Serves s' s'' messages') : Serves s s'' (messages ++ messages') where
  messages := by rw [h'.messages, h.messages, append_assoc]
  copies := by
    intro m hm
    obtain hold | hcarries := h'.copies m hm
    · exact h.copies m hold
    · exact .inr (h.carries.trans hcarries)
  carries := h.carries.trans h'.carries
  data := h'.data.trans h.data
  total := h'.total.trans h.total
  low := h'.low.trans h.low

/-- The first receiver gets the buffer of the packet. -/
theorem deliver_first (h : s.sendList = []) (infp : NetRcvPort) (device : Option ℕ) :
    ∃ s', s.deliver infp device = some s' ∧
      Serves s s' [infp.address device s.kmsg.msghId] ∧ s'.sendList ≠ [] ∧
      s'.kmsg.msghId = infp.messageId device s.kmsg.msghId ∧ s'.pool = s.pool := by
  rw [deliver, h]
  refine ⟨_, rfl, ⟨?_, fun m hm => .inr ?_, ⟨fun _ _ => rfl, fun _ _ => rfl, rfl⟩, rfl, ?_,
    suffix_rfl⟩, cons_ne_nil _ _, rfl, rfl⟩
  · rw [h]
    rfl
  · rw [mem_singleton.mp hm]
    exact ⟨fun _ _ => rfl, fun _ _ => rfl, rfl⟩
  · simp [total, h]

/-- The others get a buffer of the pool. -/
theorem deliver_later (h : s.sendList ≠ []) (hpool : s.pool.count ≠ 0) (infp : NetRcvPort)
    (device : Option ℕ) :
    ∃ s', s.deliver infp device = some s' ∧
      Serves s s' [infp.address device s.kmsg.msghId] ∧ s'.sendList ≠ [] ∧
      s'.kmsg.msghId = s.kmsg.msghId ∧ s'.pool.count + 1 = s.pool.count := by
  have hsome : s.sendList.isEmpty = false := by simpa using h
  have hcopy : ∀ (new : NetKmsg) (pool : NetPool),
      netKmsgGetBuf s.pool = (some new, pool) → pool.low <:+ s.pool.low →
      (new :: (pool.free ++ pool.low)).Perm (s.pool.free ++ s.pool.low) →
      ∃ s', s.deliver infp device = some s' ∧
        Serves s s' [infp.address device s.kmsg.msghId] ∧ s'.sendList ≠ [] ∧
        s'.kmsg.msghId = s.kmsg.msghId ∧ s'.pool.count + 1 = s.pool.count := by
    intro new pool hget hlow hperm
    rw [deliver, hsome, if_neg Bool.false_ne_true, hget]
    have hne : ∀ m, s.sendList ++ [m] ≠ [] := fun m => by simp
    refine ⟨_, rfl, ⟨?_, fun m hm => ?_, .refl _, rfl, ?_, hlow⟩, hne _, rfl, ?_⟩
    · rw [map_append]
      rfl
    · obtain hold | hnew := mem_append.mp hm
      · exact .inl hold
      · rw [mem_singleton.mp hnew]
        exact .inr ⟨fun i hi => if_pos hi, fun i hi => if_pos hi, rfl⟩
    · have hmap := hperm.map NetKmsg.buffer
      rw [total_of_ne (hne _), total_of_ne h]
      simp only [map_append, map_cons, cons_append, nil_append, append_assoc] at hmap ⊢
      exact hmap.append_left _
    · have hlength := hperm.length_eq
      rwa [length_cons, length_append, length_append] at hlength
  cases hfree : s.pool.free with
  | cons new free =>
    refine hcopy new { s.pool with free } ?_ suffix_rfl ?_
    · rw [netKmsgGetBuf, hfree]
    · rw [hfree]
      exact .refl _
  | nil =>
    cases hlow : s.pool.low with
    | nil =>
      rw [NetPool.count, hfree, hlow] at hpool
      exact absurd rfl hpool
    | cons new low =>
      refine hcopy new { s.pool with low } ?_ ?_ ?_
      · simp only [netKmsgGetBuf, hfree, hlow]
      · rw [hlow]
        exact suffix_cons _ _
      · rw [hlow, hfree]
        exact .refl _

/-- There is no buffer for a copy. -/
theorem deliver_none (h : s.sendList ≠ []) (hpool : s.pool.count = 0) (infp : NetRcvPort)
    (device : Option ℕ) : s.deliver infp device = none := by
  have hsome : s.sendList.isEmpty = false := by simpa using h
  obtain ⟨hfree, hlow⟩ := Nat.add_eq_zero_iff.mp hpool
  rw [deliver, hsome, if_neg Bool.false_ne_true, netKmsgGetBuf,
    List.length_eq_zero_iff.mp hfree, List.length_eq_zero_iff.mp hlow]

end MachVirtuTerm
