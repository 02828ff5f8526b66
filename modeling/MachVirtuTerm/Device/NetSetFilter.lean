import MachVirtuTerm.Device.NetDeliverySteps
import Mathlib.Algebra.BigOperators.Group.List.Basic
import Mathlib.Data.BitVec

/-!
# The filters of an interface

`net_set_filter_pool` replaces the filter on a port or inserts a new one, and `net_unset_filter`
takes off that of a dead port, while packets come in between. A port has one filter at most, the
pool is sized for the filters that there are, and they stay in the order of their priorities as long
as none gets another priority where it stands.
-/

open List

namespace MachVirtuTerm

open NetRcvPort

/-- `struct ifnet` with its pool, as far as filters change them. All interfaces share the pool;
here its limits change by the calls for one of them. -/
structure NetInterface where
  /-- `if_rcv_port_list`. -/
  ports : List NetRcvPort
  /-- `rcv_qlimit` of the filter on a port. -/
  rcvQlimit : ℕ → BitVec 32
  /-- `IFF_SG` in `if_flags`. -/
  sg : Bool
  /-- `net_queue_free_min`. -/
  freeMin : BitVec 32
  /-- `net_kmsg_max`. -/
  kmsgMax : BitVec 32

/-- How `net_set_filter_pool` replaces a filter. -/
def replaceFilter (new : NetRcvPort) : List NetRcvPort → List NetRcvPort
  | [] => []
  | infp :: ports =>
    if infp.rcvPort = new.rcvPort then
      { new with
        active := infp.active
        rcvCount := infp.rcvCount } :: ports
    else infp :: replaceFilter new ports

namespace NetInterface

/-- The filters of scatter-gather interfaces must differ. -/
def Duplicates (ifp : NetInterface) (new infp : NetRcvPort) : Prop :=
  ifp.sg = true ∧ infp.filter = new.filter ∧ infp.active = true

instance (ifp : NetInterface) (new infp : NetRcvPort) : Decidable (ifp.Duplicates new infp) :=
  inferInstanceAs (Decidable (_ ∧ _))

/-- A pass of `net_set_filter_pool` with the list locked, and what it returns, if it does not go on
to allocate a filter and try again; `qlimit` is that of the port. -/
def netSetFilterPool (ifp : NetInterface) (new : NetRcvPort) (qlimit : BitVec 32)
    (allocated : Bool) : Option Bool × NetInterface :=
  if parseNetFilter new.filter = false ∨ allocated = true ∧ new.active = false then
    (some false, ifp)
  else
    match ifp.ports.find? (fun infp => ifp.Duplicates new infp ∨ infp.rcvPort = new.rcvPort) with
    | some infp =>
      if ifp.Duplicates new infp ∨ new.active = false then (some false, ifp)
      else (some true, { ifp with ports := replaceFilter new ifp.ports })
    | none =>
      if allocated then
        (some true, { ifp with
          ports := insertFilter { new with rcvCount := 0 } ifp.ports
          rcvQlimit := Function.update ifp.rcvQlimit new.rcvPort qlimit
          kmsgMax := if ifp.sg then ifp.kmsgMax else ifp.kmsgMax + (qlimit + 1)
          freeMin := if ifp.sg then ifp.freeMin else ifp.freeMin + 1 })
      else (none, ifp)

/-- `net_unset_filter`, for an interface. -/
def netUnsetFilter (ifp : NetInterface) (rcvPort : ℕ) : Bool × NetInterface :=
  if ifp.ports.any (·.rcvPort = rcvPort) then
    (true, { ifp with
      ports := ifp.ports.eraseP (·.rcvPort = rcvPort)
      freeMin := if ifp.sg then ifp.freeMin else ifp.freeMin - 1
      kmsgMax := if ifp.sg then ifp.kmsgMax else ifp.kmsgMax - (ifp.rcvQlimit rcvPort + 1) })
  else (false, ifp)

/-- What the calls lead to, from an interface without filters. Where the filters are to keep their
order, one that is replaced keeps its priority. -/
inductive Reached (start : NetInterface) (ordered : Prop) : NetInterface → Prop
  | start (h : start.ports = []) : Reached start ordered start
  | set {ifp : NetInterface} (h : Reached start ordered ifp) (new : NetRcvPort)
    (qlimit : BitVec 32) (allocated : Bool)
    (hpriority : ordered → ∀ infp ∈ ifp.ports, infp.rcvPort = new.rcvPort →
      infp.priority = new.priority) :
    Reached start ordered (ifp.netSetFilterPool new qlimit allocated).2
  | unset {ifp : NetInterface} (h : Reached start ordered ifp) (rcvPort : ℕ) :
    Reached start ordered (ifp.netUnsetFilter rcvPort).2
  /-- A port dies. -/
  | died {ifp : NetInterface} (h : Reached start ordered ifp) (rcvPort : ℕ) :
    Reached start ordered { ifp with ports := ifp.ports.map fun infp =>
      { infp with active := infp.active && infp.rcvPort ≠ rcvPort } }
  /-- A packet comes in. -/
  | packet {ifp : NetInterface} (h : Reached start ordered ifp) {p p' : NetPool} {kmsg : NetKmsg}
    {stack : ℕ → ℤ → BitVec 32} {ports : List NetRcvPort} {sendList : List NetKmsg}
    (hpacket : netFilterInline p kmsg ifp.ports stack = some (ports, p', sendList)) :
    Reached start ordered { ifp with ports }

/-- What holds of an interface that had no filters. -/
structure Ok (ifp start : NetInterface) (ordered : Prop) : Prop where
  nodup : (ifp.ports.map rcvPort).Nodup
  accepted : ∀ infp ∈ ifp.ports, parseNetFilter infp.filter = true
  sorted : ordered → ifp.ports.Pairwise fun a b => b.priority ≤ a.priority
  sg : ifp.sg = start.sg
  freeMin : ifp.freeMin = if ifp.sg then start.freeMin
    else start.freeMin + BitVec.ofNat 32 (ifp.ports.map rcvPort).length
  kmsgMax : ifp.kmsgMax = if ifp.sg then start.kmsgMax
    else start.kmsgMax + ((ifp.ports.map rcvPort).map (ifp.rcvQlimit · + 1)).sum

variable {start ifp : NetInterface} {ordered : Prop} {ports : List NetRcvPort} {new : NetRcvPort}

/-- The filters change, but not the ports that have one. -/
theorem Ok.setPorts (h : ifp.Ok start ordered)
    (hperm : (ports.map rcvPort).Perm (ifp.ports.map rcvPort))
    (haccepted : ∀ infp ∈ ports, parseNetFilter infp.filter = true)
    (hpriority : ordered → ports.map priority = ifp.ports.map priority) :
    Ok { ifp with ports } start ordered where
  nodup := hperm.nodup_iff.mpr h.nodup
  accepted := haccepted
  sorted hordered := by
    have hsorted := h.sorted hordered
    rw [← pairwise_map (f := priority) (R := fun a b => b ≤ a)] at hsorted ⊢
    rwa [hpriority hordered]
  sg := h.sg
  freeMin := by
    rw [hperm.length_eq]
    exact h.freeMin
  kmsgMax := by
    rw [(hperm.map _).sum_eq]
    exact h.kmsgMax

/-! ## Filters on ports -/

theorem map_rcvPort_replaceFilter :
    (replaceFilter new ports).map rcvPort = ports.map rcvPort := by
  induction ports with
  | nil => rfl
  | cons infp ports ih =>
    rw [replaceFilter]
    split_ifs with h
    · rw [map_cons, map_cons, h]
    · rw [map_cons, map_cons, ih]

theorem map_priority_replaceFilter
    (h : ∀ infp ∈ ports, infp.rcvPort = new.rcvPort → infp.priority = new.priority) :
    (replaceFilter new ports).map priority = ports.map priority := by
  induction ports with
  | nil => rfl
  | cons infp ports ih =>
    obtain ⟨hinfp, hports⟩ := forall_mem_cons.mp h
    rw [replaceFilter]
    split_ifs with hport
    · rw [map_cons, map_cons, hinfp hport]
    · rw [map_cons, map_cons, ih hports]

theorem of_mem_replaceFilter {infp : NetRcvPort} (h : infp ∈ replaceFilter new ports) :
    infp ∈ ports ∨ infp.filter = new.filter := by
  induction ports with
  | nil => cases h
  | cons first ports ih =>
    rw [replaceFilter] at h
    split_ifs at h
    · rcases mem_cons.mp h with rfl | h
      · exact .inr rfl
      · exact .inl (mem_cons_of_mem _ h)
    · rcases mem_cons.mp h with rfl | h
      · exact .inl mem_cons_self
      · exact (ih h).imp_left (mem_cons_of_mem _)

theorem perm_insertFilter (infp : NetRcvPort) :
    (insertFilter infp ports).Perm (infp :: ports) := by
  induction ports with
  | nil => exact .refl _
  | cons next ports ih =>
    rw [insertFilter]
    split_ifs
    · exact .refl _
    · exact (ih.cons next).trans (.swap ..)

/-- A packet leaves the filters what they are. -/
theorem netFilterLoop_same {device : Option ℕ} {stack : ℕ → ℤ → BitVec 32}
    {before after : List NetRcvPort} {s s' : NetDelivery}
    (h : netFilterLoop device stack before after s = some (ports, s')) :
    SameFilters (before.reverse ++ after) ports := by
  induction after generalizing before s with
  | nil =>
    cases h
    rw [append_nil]
    exact .refl _
  | cons infp after ih =>
    have hpass : ∀ s, netFilterLoop device stack (infp :: before) after s = some (ports, s') →
        SameFilters (before.reverse ++ infp :: after) ports := by
      intro s h
      have hsame := ih h
      rwa [reverse_cons, append_assoc, singleton_append] at hsame
    have hcount := SameFilters.count before.reverse after infp (infp.rcvCount + 1)
    rw [netFilterLoop] at h
    split at h
    · split at h
      · cases h
      · exact hpass _ h
      · split at h
        · split at h
          · cases h
            rw [reverse_cons, append_assoc, singleton_append]
            exact .refl _
          · dsimp only at h
            split at h
            · cases h
              exact hcount.trans (SameFilters.promote before after _)
            · have hsame := ih h
              rw [reverse_cons, append_assoc, singleton_append] at hsame
              exact hcount.trans hsame
        · exact hpass _ h
    · exact hpass _ h

/-! ## Every call -/

theorem Ok.set (h : ifp.Ok start ordered) (qlimit : BitVec 32) (allocated : Bool)
    (hpriority : ordered → ∀ infp ∈ ifp.ports, infp.rcvPort = new.rcvPort →
      infp.priority = new.priority) :
    (ifp.netSetFilterPool new qlimit allocated).2.Ok start ordered := by
  unfold netSetFilterPool
  split
  · exact h
  rename_i hvalid
  have hparse : parseNetFilter new.filter = true := by
    rw [← Bool.not_eq_false]
    exact fun hfalse => hvalid (.inl hfalse)
  split
  · split
    · exact h
    · refine h.setPorts (by rw [map_rcvPort_replaceFilter]) (fun infp hinfp => ?_)
        fun hordered => map_priority_replaceFilter (hpriority hordered)
      rcases of_mem_replaceFilter hinfp with hinfp | heq
      · exact h.accepted infp hinfp
      · rw [heq]
        exact hparse
  · rename_i hnone
    split
    · have hnew : new.rcvPort ∉ ifp.ports.map rcvPort := by
        intro hmem
        obtain ⟨infp, hinfp, heq⟩ := mem_map.mp hmem
        simpa [heq] using find?_eq_none.mp hnone infp hinfp
      have hperm := @perm_insertFilter ifp.ports { new with rcvCount := 0 }
      have hports := hperm.map rcvPort
      rw [map_cons] at hports
      constructor
      · exact hports.nodup_iff.mpr (nodup_cons.mpr ⟨hnew, h.nodup⟩)
      · intro infp hinfp
        rcases mem_cons.mp (hperm.subset hinfp) with rfl | hinfp
        · exact hparse
        · exact h.accepted infp hinfp
      · exact fun hordered => insertFilter_sorted _ (h.sorted hordered)
      · exact h.sg
      · dsimp only
        rw [hports.length_eq, h.freeMin]
        split
        · rfl
        · rw [length_cons, BitVec.ofNat_add, add_assoc]
          rfl
      · dsimp only
        rw [(hports.map _).sum_eq, h.kmsgMax, map_cons, sum_cons, Function.update_self]
        split
        · rfl
        · rw [add_assoc, add_comm (qlimit + 1)]
          congr 3
          exact map_congr_left fun port hport =>
            congrArg (· + 1) (Function.update_of_ne (ne_of_mem_of_not_mem hport hnew) ..).symm
    · exact h

theorem Ok.unset (h : ifp.Ok start ordered) (port : ℕ) :
    (ifp.netUnsetFilter port).2.Ok start ordered := by
  unfold netUnsetFilter
  split
  · rename_i hany
    obtain ⟨infp, hinfp, hport⟩ := any_eq_true.mp hany
    obtain ⟨infp, before, after, -, hport, hports, herase⟩ :=
      exists_of_eraseP (p := (·.rcvPort = port)) hinfp hport
    have hperm : (ifp.ports.map rcvPort).Perm
        (port :: (ifp.ports.eraseP (·.rcvPort = port)).map rcvPort) := by
      rw [herase, hports, map_append, map_append, map_cons, of_decide_eq_true hport]
      exact perm_middle
    have hsub := eraseP_sublist (p := (·.rcvPort = port)) (l := ifp.ports)
    constructor
    · exact h.nodup.sublist (hsub.map _)
    · exact fun infp hinfp => h.accepted infp (hsub.subset hinfp)
    · exact fun hordered => (h.sorted hordered).sublist hsub
    · exact h.sg
    · dsimp only
      rw [h.freeMin, hperm.length_eq, length_cons]
      split
      · rfl
      · rw [BitVec.ofNat_add, ← add_assoc]
        exact add_sub_cancel_right ..
    · dsimp only
      rw [h.kmsgMax, (hperm.map _).sum_eq, map_cons, sum_cons]
      split
      · rfl
      · rw [add_comm (_ + 1), ← add_assoc]
        exact add_sub_cancel_right ..
  · exact h

/-- In every run a port has one filter at most, all filters were accepted by `parse_net_filter`, and
the pool is sized for them; they are in order if none that is replaced gets another priority. -/
theorem filters_of_interface (h : Reached start ordered ifp) : ifp.Ok start ordered := by
  induction h with
  | start h =>
    refine ⟨?_, ?_, fun _ => ?_, rfl, ?_, ?_⟩
    all_goals simp [h]
  | set h new qlimit allocated hpriority ih => exact ih.set qlimit allocated hpriority
  | unset h rcvPort ih => exact ih.unset rcvPort
  | died h port ih =>
    refine ih.setPorts (by rw [map_map]; rfl) (fun infp hinfp => ?_) fun _ => by rw [map_map]; rfl
    obtain ⟨alive, halive, rfl⟩ := mem_map.mp hinfp
    exact ih.accepted alive halive
  | packet h hpacket ih =>
    obtain ⟨⟨ports, s⟩, hloop, heq⟩ := Option.map_eq_some_iff.mp hpacket
    cases heq
    have hsame := netFilterLoop_same hloop
    refine ih.setPorts ?_ (fun infp hinfp => ?_) fun _ => hsame.priorities
    · have hports := hsame.filters.map rcvPort
      rwa [map_map, map_map] at hports
    · obtain ⟨infp', hinfp', heq⟩ :=
        mem_map.mp (hsame.filters.subset (mem_map_of_mem (f := uncounted) hinfp))
      have hfilter := congrArg NetRcvPort.filter heq
      change infp'.filter = infp.filter at hfilter
      rw [← hfilter]
      exact ih.accepted infp' hinfp'

/-- An interface without filters. -/
def noFilters : NetInterface := ⟨[], fun _ => 0, false, 1, 16⟩

/-- A filter that takes all packets. -/
def takesAll (rcvPort : ℕ) (priority : ℤ) : NetRcvPort :=
  ⟨rcvPort, true, 0, false, 0, priority, [], none⟩

/-- The filter of lower priority is replaced by one of higher priority, and stays behind the
other. -/
theorem filters_of_interface_replaced : ∃ ifp : NetInterface, ifp.ports.map priority = [10, 20] ∧
    (ifp.ports.map rcvPort).Nodup ∧ ifp.freeMin = 1 + BitVec.ofNat 32 2 := by
  have hnone : Reached noFilters False noFilters := .start rfl
  have hone := hnone.set (takesAll 1 5) 5 true fun h => h.elim
  have htwo := hone.set (takesAll 2 10) 5 true fun h => h.elim
  have hok := filters_of_interface (htwo.set (takesAll 1 20) 5 false fun h => h.elim)
  exact ⟨_, rfl, hok.nodup, hok.freeMin⟩

end NetInterface

end MachVirtuTerm
