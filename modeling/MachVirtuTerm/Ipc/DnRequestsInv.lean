import MachVirtuTerm.Ipc.DnRequests
import Mathlib.Algebra.BigOperators.Group.Multiset.Basic

/-!
# What becomes of dead-name requests

The slots of a port's table but the header are free and on the free list or hold a request.
A request keeps its slot while the table grows, and its send-once right is either returned
by the one call that cancels it or used for one notification when the port dies. A call of
`ipc_port_dngrow` that succeeds may leave the table as it is: unless the next size
will do, the check after the allocation takes the size it chose for one that somebody else
put in place.
-/

open List Function Option

namespace MachVirtuTerm

open LinkedList DnTable

namespace DnTable

variable {sizes : IpcDnTableSizes} {table table' : DnTable} {index i : ℕ} {name : MachPort}
  {soright : ℕ}

/-- A list of the free slots. -/
structure FreeList (sizes : IpcDnTableSizes) (table : DnTable) (free : List ℕ) : Prop where
  path : Path table.next (table.next 0) free
  nodup : free.Nodup
  mem_iff : ∀ i, i ∈ free ↔ 1 ≤ i ∧ i < table.size sizes ∧ (table.slots i).name = machPortNull

/-- A table of one of the sizes whose free slots are on its free list. -/
structure WellFormed (sizes : IpcDnTableSizes) (table : DnTable) : Prop where
  size_lt : table.iprSize < sizes.last
  freeList : ∃ free, table.FreeList sizes free

/-- A table that differs in one slot. -/
structure Changed (table table' : DnTable) (index : ℕ) : Prop where
  size : table'.iprSize = table.iprSize
  slots : ∀ i, i ≠ 0 → i ≠ index → table'.slots i = table.slots i

theorem request_eq_some {r : DnRequest} : table.request i = some r ↔
    (table.slots i).name ≠ machPortNull ∧ r = ⟨i, (table.slots i).name, (table.slots i).notify⟩ := by
  unfold request
  split
  · simp [*]
  · rename_i h
    simp [h, eq_comm]

theorem request_eq_none : table.request i = none ↔ (table.slots i).name = machPortNull := by
  unfold request
  split <;> simp [*]

/-- Equal slots hold the same request. -/
theorem request_congr (h : table'.slots i = table.slots i) : table'.request i = table.request i := by
  unfold request
  rw [h]

/-- A registration takes the first free slot. -/
theorem dnrequest_eq_some (hwf : table.WellFormed sizes)
    (h : table.dnrequest name soright = some (index, table')) (hname : name ≠ machPortNull) :
    table'.WellFormed sizes ∧ 1 ≤ index ∧ index < table.size sizes ∧ table.Changed table' index ∧
      table.request index = none ∧ table'.request index = some ⟨index, name, soright⟩ := by
  unfold dnrequest at h
  split at h
  · cases h
  rename_i hhead
  cases h
  obtain ⟨free, hfree⟩ := hwf.freeList
  have hpath := hfree.path
  cases free with
  | nil => exact absurd hpath hhead
  | cons a free =>
    obtain ⟨ha, hpath⟩ := hpath
    obtain ⟨ha', hnodup⟩ := nodup_cons.mp hfree.nodup
    obtain ⟨hpos, hlt, hnull⟩ := (hfree.mem_iff a).mp (mem_cons_self ..)
    rw [ha]
    have hne : a ≠ 0 := by omega
    have hslots : ∀ i, i ≠ 0 → i ≠ a →
        (update (update table.slots 0 ⟨(table.slots 0).name, table.next a⟩) a
          ⟨name, soright⟩) i = table.slots i := fun i h0 hi => by
      rw [update_of_ne hi, update_of_ne h0]
    refine ⟨⟨hwf.size_lt, free, ?_, hnodup, fun i => ?_⟩, hpos, hlt, ⟨rfl, hslots⟩,
      request_eq_none.mpr hnull, ?_⟩
    · have hnext : ∀ i ∈ free, i ≠ 0 ∧ i ≠ a := fun i hi =>
        ⟨by have := (hfree.mem_iff i).mp (mem_cons_of_mem _ hi); omega, by rintro rfl; exact ha' hi⟩
      simp only [next, update_of_ne hne.symm, update_self]
      exact hpath.congr fun i hi => congrArg IpcPortRequest.notify
        (hslots i (hnext i hi).1 (hnext i hi).2)
    · by_cases hi : i = a
      · subst hi
        simp [ha', hname]
      · have hmem := hfree.mem_iff i
        rw [mem_cons, or_iff_right hi] at hmem
        rw [hmem]
        refine and_congr_right fun h => ?_
        dsimp only
        rw [hslots i (by omega) hi]
        rfl
    · simp [request, hname]

/-- A cancelled request leaves its slot to the free list. -/
theorem dncancel_effect (hwf : table.WellFormed sizes) (hindex : index ≠ 0)
    (hlt : index < table.size sizes) (hname : (table.slots index).name ≠ machPortNull) :
    (table.dncancel index).WellFormed sizes ∧ table.Changed (table.dncancel index) index ∧
      (table.dncancel index).request index = none := by
  obtain ⟨free, hfree⟩ := hwf.freeList
  have hslots : ∀ i, i ≠ 0 → i ≠ index → (table.dncancel index).slots i = table.slots i :=
    fun i h0 hi => by
      simp only [dncancel]
      rw [update_of_ne h0, update_of_ne hi]
  have hself : (table.dncancel index).slots index = ⟨machPortNull, table.next 0⟩ := by
    simp only [dncancel]
    rw [update_of_ne hindex, update_self]
  have hhead : (table.dncancel index).next 0 = index := by
    simp [dncancel, next]
  have hnotMem : index ∉ free := fun h => hname ((hfree.mem_iff index).mp h).2.2
  refine ⟨⟨hwf.size_lt, index :: free, ⟨hhead, ?_⟩, nodup_cons.mpr ⟨hnotMem, hfree.nodup⟩,
    fun i => ?_⟩, ⟨rfl, hslots⟩, request_eq_none.mpr (by rw [hself])⟩
  · change Path _ ((table.dncancel index).slots index).notify free
    rw [hself]
    refine hfree.path.congr fun i hi => congrArg IpcPortRequest.notify (hslots i ?_ ?_)
    · have := (hfree.mem_iff i).mp hi
      omega
    · rintro rfl
      exact hnotMem hi
  · rw [mem_cons]
    by_cases hi : i = index
    · subst hi
      simp only [true_or, true_iff]
      exact ⟨by omega, hlt, by rw [hself]⟩
    · rw [or_iff_right hi, hfree.mem_iff]
      refine and_congr_right fun h => ?_
      rw [hslots i (by omega) hi]
      rfl

end DnTable

/-- The loop links the new slots, the last of them first, in front of the free list. -/
theorem dngrowFree_effect (n i free : ℕ) (slots : ℕ → IpcPortRequest) {l : List ℕ}
    (hpath : Path (fun j => (slots j).notify) free l) (hl : ∀ j ∈ l, j < i) :
    Path (fun j => ((dngrowFree n i free slots).2 j).notify) (dngrowFree n i free slots).1
        ((range' i n).reverse ++ l) ∧
      (∀ j, j < i → (dngrowFree n i free slots).2 j = slots j) ∧
      ∀ j, i ≤ j → j < i + n → ((dngrowFree n i free slots).2 j).name = machPortNull := by
  induction n generalizing i free slots l with
  | zero =>
    refine ⟨hpath, fun j _ => rfl, fun j hle hlt => ?_⟩
    omega
  | succ n ih =>
    have hnotMem : i ∉ l := fun h => Nat.lt_irrefl i (hl i h)
    have hpush := hpath.push hnotMem
    have hnotify : (fun j => (update slots i ⟨machPortNull, free⟩ j).notify) =
        update (fun j => (slots j).notify) i free := by
      funext j
      by_cases hj : j = i
      · subst hj
        simp
      · simp [update_of_ne hj]
    obtain ⟨hpath', hbelow, hnew⟩ := ih (i + 1) i (update slots i ⟨machPortNull, free⟩)
      (l := i :: l) (hnotify ▸ hpush) (by
        intro j hj
        rcases mem_cons.mp hj with rfl | hj
        · omega
        · have := hl j hj
          omega)
    refine ⟨?_, fun j hj => ?_, fun j hle hlt => ?_⟩
    · rw [range'_succ, reverse_cons, append_assoc]
      exact hpath'
    · rw [dngrowFree, hbelow j (by omega), update_of_ne (by omega)]
    · rw [dngrowFree]
      rcases Nat.eq_or_lt_of_le hle with rfl | hlt'
      · rw [hbelow i (by omega), update_self]
      · exact hnew j hlt' (by omega)

/-- The table that `ipc_port_dngrow` builds keeps the slots of the old one; its other slots
are free. -/
theorem dngrowTable_effect {sizes : IpcDnTableSizes} {its : ℕ} {otable : Option DnTable}
    (hits : its < sizes.last)
    (hwf : ∀ table ∈ otable, table.WellFormed sizes ∧ table.iprSize < its) :
    (dngrowTable sizes its otable).WellFormed sizes ∧
      (∀ table ∈ otable, ∀ i, 1 ≤ i → i < table.size sizes →
        (dngrowTable sizes its otable).slots i = table.slots i) ∧
      ∀ i, 1 ≤ i → (∀ table ∈ otable, table.size sizes ≤ i) → i < sizes.itsSize its →
        ((dngrowTable sizes its otable).slots i).name = machPortNull := by
  set osize := otable.elim 1 fun table => table.size sizes with hosize
  set free := otable.elim 0 fun table => table.next 0 with hfree
  set copied := otable.elim (fun _ => ⟨machPortNull, 0⟩) fun table => table.slots with hcopied
  have hold : osize < sizes.itsSize its ∧ 1 ≤ osize ∧ ∃ l, Path (fun j => (copied j).notify) free l ∧
      l.Nodup ∧ ∀ i, i ∈ l ↔ 1 ≤ i ∧ i < osize ∧ (copied i).name = machPortNull := by
    cases otable with
    | none =>
      refine ⟨sizes.one_lt_of_lt hits, Nat.le_refl 1, [], rfl, nodup_nil, fun i => ?_⟩
      simp only [not_mem_nil, false_iff]
      rintro ⟨hle, hlt, -⟩
      exact absurd (hle.trans_lt hlt) (Nat.lt_irrefl 1)
    | some table =>
      obtain ⟨hwf, hlt⟩ := hwf table rfl
      obtain ⟨l, hl⟩ := hwf.freeList
      exact ⟨sizes.lt_of_lt hlt hits, (sizes.one_lt_of_lt hwf.size_lt).le, l, hl.path, hl.nodup,
        hl.mem_iff⟩
  obtain ⟨hlt, hpos, l, hpath, hnodup, hmem⟩ := hold
  obtain ⟨hgrown, hbelow, hnew⟩ := dngrowFree_effect (sizes.itsSize its - osize) osize free copied hpath
    fun j hj => ((hmem j).mp hj).2.1
  have hslots : ∀ i, i ≠ 0 → (dngrowTable sizes its otable).slots i =
      (dngrowFree (sizes.itsSize its - osize) osize free copied).2 i := fun i hi => by
    simp only [dngrowTable]
    rw [update_of_ne hi]
  have hname : ∀ i, osize ≤ i → i < sizes.itsSize its →
      ((dngrowTable sizes its otable).slots i).name = machPortNull := fun i hle hlt' => by
    rw [hslots i (by omega)]
    exact hnew i hle (by omega)
  refine ⟨⟨hits, (range' osize (sizes.itsSize its - osize)).reverse ++ l, ?_, ?_, fun i => ?_⟩,
    fun table htable i hi hi' => ?_, fun i hi hle hlt' => hname i ?_ hlt'⟩
  · have hhead : (dngrowTable sizes its otable).next 0 =
        (dngrowFree (sizes.itsSize its - osize) osize free copied).1 := by
      simp [dngrowTable, DnTable.next, hosize, hfree, hcopied]
    rw [hhead]
    refine hgrown.congr fun i hi => congrArg IpcPortRequest.notify (hslots i ?_)
    rcases mem_append.mp hi with hi | hi
    · have := mem_range'_1.mp (mem_reverse.mp hi)
      omega
    · have := (hmem i).mp hi
      omega
  · refine List.Nodup.append (nodup_reverse.mpr nodup_range') hnodup fun i hi hi' => ?_
    have hrange := mem_range'_1.mp (mem_reverse.mp hi)
    have hbelow := ((hmem i).mp hi').2.1
    omega
  · rw [mem_append, mem_reverse, mem_range'_1, hmem]
    change _ ↔ 1 ≤ i ∧ i < sizes.itsSize its ∧ _
    rcases Nat.lt_or_ge i osize with hi | hi
    · rcases Nat.eq_zero_or_pos i with rfl | hi0
      · omega
      · rw [hslots i (by omega), hbelow i hi, or_iff_right (by omega)]
        exact and_congr_right fun _ => ⟨fun h => ⟨by omega, h.2⟩, fun h => ⟨hi, h.2⟩⟩
    · refine ⟨fun h => ?_, fun h => Or.inl (by omega)⟩
      have hlt' : i < sizes.itsSize its := by
        rcases h with h | ⟨-, h, -⟩ <;> omega
      exact ⟨by omega, hlt', hname i hi hlt'⟩
  · rw [hslots i (by omega)]
    cases htable
    exact hbelow i hi'
  · cases otable with
    | none => exact hi
    | some table => exact hle table rfl

/-- The search ends at a size that will do, or at the last element, and passes no size that
will do. -/
theorem dngrowSearch_spec (sizes : IpcDnTableSizes) (target : ℕ) {fuel its : ℕ}
    (hfuel : sizes.last ≤ its + fuel) :
    (sizes.itsSize (dngrowSearch sizes target fuel its) ≠ 0 →
        target ≤ sizes.itsSize (dngrowSearch sizes target fuel its)) ∧
      its ≤ dngrowSearch sizes target fuel its ∧
      ∀ i, its ≤ i → i < dngrowSearch sizes target fuel its → sizes.itsSize i < target := by
  induction fuel generalizing its with
  | zero =>
    refine ⟨fun h => absurd (sizes.zero_of_le its (by omega)) h, Nat.le_refl its, fun i hle hlt => ?_⟩
    exact absurd hlt (Nat.not_lt.mpr hle)
  | succ fuel ih =>
    rw [dngrowSearch]
    split
    · rename_i hsmall
      obtain ⟨hdo, hle, hpassed⟩ := @ih (its + 1) (by omega)
      refine ⟨hdo, by omega, fun i hi hlt => ?_⟩
      rcases Nat.eq_or_lt_of_le hi with rfl | hi
      · exact hsmall.2
      · exact hpassed i hi hlt
    · rename_i hnot
      refine ⟨fun hne => ?_, Nat.le_refl its, fun i hle hlt => ?_⟩
      · exact Nat.not_lt.mp fun hlt => hnot ⟨hne, hlt⟩
      · exact absurd hlt (Nat.not_lt.mpr hle)

/-- A list of results gains the result of the one element that had none. -/
theorem filterMap_perm_cons {α β : Type*} {f g : α → Option β} {l : List α} {a : α} {b : β}
    (hnodup : l.Nodup) (ha : a ∈ l) (hf : f a = none) (hg : g a = some b)
    (hsame : ∀ x ∈ l, x ≠ a → g x = f x) : (l.filterMap g).Perm (b :: l.filterMap f) := by
  obtain ⟨pre, post, rfl⟩ := append_of_mem ha
  have hnot := (nodup_append.mp hnodup)
  have hpre : pre.filterMap g = pre.filterMap f := filterMap_congr fun x hx =>
    hsame x (by simp [hx]) fun heq => hnot.2.2 x hx a (mem_cons_self ..) heq
  have hpost : post.filterMap g = post.filterMap f := filterMap_congr fun x hx =>
    hsame x (by simp [hx]) (by
      rintro rfl
      exact (nodup_cons.mp hnot.2.1).1 hx)
  rw [filterMap_append, filterMap_append, filterMap_cons_some hg,
    filterMap_cons_none hf, hpre, hpost]
  exact perm_middle

namespace DnTable

variable {sizes : IpcDnTableSizes} {table table' : DnTable} {index : ℕ} {r : DnRequest}

/-- A table that differs in one slot, free in the one and used in the other. -/
theorem Changed.perm (h : table.Changed table' index) (hpos : 1 ≤ index)
    (hlt : index < table.size sizes) (hnone : table.request index = none)
    (hsome : table'.request index = some r) :
    (table'.ipcPortDnnotify sizes).Perm (r :: table.ipcPortDnnotify sizes) := by
  have hsize : table'.size sizes = table.size sizes := congrArg sizes.itsSize h.size
  unfold ipcPortDnnotify
  rw [hsize]
  refine filterMap_perm_cons nodup_range' (mem_range'_1.mpr ⟨hpos, by omega⟩) hnone hsome
    fun i hi hne => request_congr (h.slots i ?_ hne)
  have := (mem_range'_1.mp hi).1
  omega

/-- Which table differs from which does not matter. -/
theorem Changed.symm (h : table.Changed table' index) : table'.Changed table index :=
  ⟨h.size.symm, fun i h0 hi => (h.slots i h0 hi).symm⟩

end DnTable

/-- A table that `ipc_port_dngrow` builds holds the requests of the old one. -/
theorem dngrowTable_notifies {sizes : IpcDnTableSizes} {its : ℕ} {otable : Option DnTable}
    (hits : its < sizes.last)
    (hwf : ∀ table ∈ otable, table.WellFormed sizes ∧ table.iprSize < its) :
    (dngrowTable sizes its otable).ipcPortDnnotify sizes =
      otable.elim [] fun table => table.ipcPortDnnotify sizes := by
  obtain ⟨-, hkept, hfree⟩ := dngrowTable_effect hits hwf
  have hone := sizes.one_lt_of_lt hits
  cases otable with
  | none =>
    refine filterMap_eq_nil_iff.mpr fun i hi => request_eq_none.mpr ?_
    have hrange := mem_range'_1.mp hi
    change 1 ≤ i ∧ i < 1 + (sizes.itsSize its - 1) at hrange
    exact hfree i hrange.1 (fun _ h => by cases h) (by omega)
  | some table =>
    obtain ⟨htable, hlt⟩ := hwf table rfl
    have hsize : table.size sizes < sizes.itsSize its := sizes.lt_of_lt hlt hits
    have hpos := sizes.one_lt_of_lt htable.size_lt
    change 1 < table.size sizes at hpos
    have hsplit : range' 1 (sizes.itsSize its - 1) =
        range' 1 (table.size sizes - 1) ++
          range' (table.size sizes) (sizes.itsSize its - table.size sizes) := by
      have h := range'_append_1 (s := 1) (m := table.size sizes - 1)
        (n := sizes.itsSize its - table.size sizes)
      rw [show 1 + (table.size sizes - 1) = table.size sizes by omega,
        show table.size sizes - 1 + (sizes.itsSize its - table.size sizes) =
          sizes.itsSize its - 1 by omega] at h
      exact h.symm
    have hnil : (range' (table.size sizes) (sizes.itsSize its - table.size sizes)).filterMap
        (dngrowTable sizes its (some table)).request = [] :=
      filterMap_eq_nil_iff.mpr fun i hi => request_eq_none.mpr (by
        have hrange := mem_range'_1.mp hi
        exact hfree i (by omega) (fun _ h => by cases h; exact hrange.1) (by omega))
    change (range' 1 (sizes.itsSize its - 1)).filterMap _ = _
    rw [hsplit, filterMap_append, hnil, append_nil]
    refine filterMap_congr fun i hi => request_congr (hkept table rfl i ?_ ?_)
    · exact (mem_range'_1.mp hi).1
    · have := mem_range'_1.mp hi
      omega

namespace DnPort

variable {sizes : IpcDnTableSizes} {s s' : DnPort} {l : DnAction × DnOutput}

/-- What holds of a port between two sections. -/
structure Inv (sizes : IpcDnTableSizes) (s : DnPort) : Prop where
  table : ∀ table ∈ s.table, table.WellFormed sizes
  alive : s.active = true → s.taken = none
  dead : s.active = false → s.dnrequests = none

/-- The request in a slot of the port's table. -/
def request (s : DnPort) (index : ℕ) : Option DnRequest :=
  s.table.bind fun table => table.request index

variable (sizes : IpcDnTableSizes)

/-- The requests that are neither cancelled nor notified. -/
def held (s : DnPort) : Multiset DnRequest :=
  ↑(s.table.elim [] fun table => table.ipcPortDnnotify sizes) +
    ↑(s.taken.elim [] fun table => table.ipcPortDnnotify sizes)

/-- The number of slots of the port's table. -/
def size (s : DnPort) : ℕ := s.table.elim 0 fun table => table.size sizes

/-- A request is in its slot of the port's table. -/
def Holds (s : DnPort) (r : DnRequest) : Prop :=
  s.request r.index = some r ∧ 1 ≤ r.index ∧ r.index < s.size sizes

end DnPort

/-- The request that a section registered. -/
def registeredBy : DnAction × DnOutput → Multiset DnRequest
  | (.dnrequest name soright, .registered index) => {⟨index, name, soright⟩}
  | _ => 0

/-- The request whose send-once right a section returned. -/
def cancelledBy : DnAction × DnOutput → Multiset DnRequest
  | (.dncancel name index, .cancelled soright) => {⟨index, name, soright⟩}
  | _ => 0

/-- The requests for which a section sent notifications. -/
def notifiedBy : DnAction × DnOutput → Multiset DnRequest
  | (_, .notified requests) => requests
  | _ => 0

/-- A section neither grows nor kills the port, nor does it continue the call of a thread. -/
def Undisturbing (thread : ℕ) (l : DnAction × DnOutput) : Prop :=
  l.2 ≠ .grown ∧ l.2 ≠ .died ∧ ∀ ntable, l.1 ≠ .dngrowResume thread ntable

namespace DnPort

variable {sizes : IpcDnTableSizes} {s s' : DnPort} {l : DnAction × DnOutput}

/-- What one section does. -/
structure Effect (sizes : IpcDnTableSizes) (s : DnPort) (l : DnAction × DnOutput) (s' : DnPort) :
    Prop where
  inv : s'.Inv sizes
  rights : s.held sizes + registeredBy l = s'.held sizes + cancelledBy l + notifiedBy l
  registered : ∀ r ∈ registeredBy l, s'.Holds sizes r
  kept : ∀ r, s.Holds sizes r → (∀ name, l.1 ≠ .dncancel name r.index) → s'.active = true →
    s'.Holds sizes r
  dead_stays : s.active = false → s'.active = false
  undisturbed : ∀ thread, Undisturbing thread l → s.active = true → s.growing thread ≠ none →
    s'.active = true ∧ s'.growing thread = s.growing thread ∧
      s'.dnrequests.map Prod.fst = s.dnrequests.map Prod.fst ∧
      s'.table.map iprSize = s.table.map iprSize

section

variable (h : s.Inv sizes)

include h

/-- A section that leaves the table alone. -/
theorem Effect.frame (htable : s'.dnrequests = s.dnrequests)
    (htaken : s'.taken = s.taken) (hactive : s'.active = s.active)
    (hnone : registeredBy l = 0 ∧ cancelledBy l = 0 ∧ notifiedBy l = 0)
    (hgrowing : ∀ thread, Undisturbing thread l → s.growing thread ≠ none →
      s'.growing thread = s.growing thread) : Effect sizes s l s' := by
  have htable' : s'.table = s.table := congrArg (Option.map Prod.snd) htable
  obtain ⟨hregistered, hcancelled, hnotified⟩ := hnone
  refine ⟨⟨?_, ?_, ?_⟩, ?_, ?_, fun r hr _ _ => ?_, hactive.trans, fun thread hl ha hg => ?_⟩
  · rw [htable']
    exact h.table
  · rw [hactive, htaken]
    exact h.alive
  · rw [hactive, htable]
    exact h.dead
  · rw [hregistered, hcancelled, hnotified, held, held, htable', htaken, add_zero, add_zero]
  · rw [hregistered]
    exact fun r hr => absurd hr (Multiset.notMem_zero r)
  · unfold Holds request size at hr ⊢
    rw [htable']
    exact hr
  · exact ⟨hactive.trans ha, hgrowing thread hl hg, congrArg _ htable, congrArg _ htable'⟩

/-- `ipc_port_dnrequest`. -/
theorem Inv.dnrequest {name : MachPort} {soright : ℕ} (hactive : s.active = true)
    (hname : name ≠ machPortNull) :
    Effect sizes s (.dnrequest name soright, (s.ipcPortDnrequest name soright).2)
      (s.ipcPortDnrequest name soright).1 := by
  have hframe : Effect sizes s (.dnrequest name soright, .returned .noSpace) s :=
    .frame h rfl rfl rfl ⟨rfl, rfl, rfl⟩ fun _ _ _ => rfl
  unfold ipcPortDnrequest
  split
  · exact hframe
  rename_i address table hdn
  have htable : s.table = some table := congrArg (Option.map Prod.snd) hdn
  split
  · exact hframe
  rename_i index table' hreq
  obtain ⟨hwf, hpos, hlt, hchanged, hnone, hsome⟩ :=
    dnrequest_eq_some (h.table table htable) hreq hname
  have hsize : table'.size sizes = table.size sizes := congrArg sizes.itsSize hchanged.size
  refine ⟨⟨?_, h.alive, fun hdead => ?_⟩, ?_, ?_, fun r hr _ _ => ?_, id, fun thread hl ha hg => ?_⟩
  · rintro _ ⟨⟩
    exact hwf
  · exact absurd (hactive.symm.trans hdead) (by decide)
  · have hperm := Multiset.coe_eq_coe.mpr (hchanged.perm hpos hlt hnone hsome)
    rw [← Multiset.cons_coe] at hperm
    unfold held
    rw [htable, h.alive hactive]
    change ↑(table.ipcPortDnnotify sizes) + _ + {_} =
      (↑(table'.ipcPortDnnotify sizes) + _ : Multiset DnRequest) + 0 + 0
    rw [hperm, ← Multiset.singleton_add]
    simp only [add_zero]
    exact add_comm (_ : Multiset DnRequest) _
  · intro r hr
    obtain rfl := Multiset.mem_singleton.mp hr
    exact ⟨hsome, hpos, hlt.trans_eq hsize.symm⟩
  · obtain ⟨hr, hpos', hlt'⟩ := hr
    unfold request at hr
    unfold size at hlt'
    rw [htable] at hr hlt'
    change table.request r.index = some r at hr
    have hne : r.index ≠ index := by
      intro heq
      rw [heq, hnone] at hr
      cases hr
    refine ⟨?_, hpos', hlt'.trans_eq hsize.symm⟩
    exact (request_congr (hchanged.slots r.index (by omega) hne)).trans hr
  · refine ⟨ha, rfl, ?_, ?_⟩
    · rw [hdn]
      rfl
    · rw [htable]
      exact congrArg some hchanged.size

/-- `ipc_port_dncancel`. -/
theorem Inv.dncancel {name : MachPort} {index : ℕ} {o : DnOutput}
    (hactive : s.active = true) (hname : name ≠ machPortNull) (hindex : index ≠ 0)
    (hcancel : s.ipcPortDncancel sizes name index = some (s', o)) :
    Effect sizes s (.dncancel name index, o) s' := by
  unfold ipcPortDncancel at hcancel
  split at hcancel
  · cases hcancel
  rename_i address table hdn
  have htable : s.table = some table := congrArg (Option.map Prod.snd) hdn
  split at hcancel
  swap
  · cases hcancel
  rename_i hslot
  cases hcancel
  obtain ⟨hlt, rfl⟩ := hslot
  obtain ⟨hwf, hchanged, hnone⟩ := dncancel_effect (h.table table htable) hindex hlt hname
  have hsome : table.request index =
      some ⟨index, (table.slots index).name, (table.slots index).notify⟩ :=
    request_eq_some.mpr ⟨hname, rfl⟩
  have hsize : (table.dncancel index).size sizes = table.size sizes := rfl
  refine ⟨⟨?_, h.alive, fun hdead => ?_⟩, ?_, ?_, fun r hr hl _ => ?_, id, fun thread hl ha hg => ?_⟩
  · rintro _ ⟨⟩
    exact hwf
  · exact absurd (hactive.symm.trans hdead) (by decide)
  · have hperm := Multiset.coe_eq_coe.mpr
      (hchanged.symm.perm (Nat.pos_of_ne_zero hindex) (hlt.trans_eq hsize.symm) hnone hsome)
    rw [← Multiset.cons_coe] at hperm
    unfold held
    rw [htable, h.alive hactive]
    change (↑(table.ipcPortDnnotify sizes) + _ : Multiset DnRequest) + 0 =
      ↑((table.dncancel index).ipcPortDnnotify sizes) + _ + {_} + 0
    rw [hperm, ← Multiset.singleton_add]
    simp only [add_zero]
    rw [add_assoc, add_comm]
  · exact fun r hr => absurd hr (Multiset.notMem_zero r)
  · obtain ⟨hr, hpos', hlt'⟩ := hr
    unfold request at hr
    unfold size at hlt'
    rw [htable] at hr hlt'
    have hne : r.index ≠ index := fun heq => hl _ (by rw [heq])
    exact ⟨(request_congr (hchanged.slots r.index (by omega) hne)).trans hr, hpos', hlt'⟩
  · refine ⟨ha, rfl, ?_, ?_⟩
    · rw [hdn]
      rfl
    · rw [htable]
      rfl

/-- A port dies. -/
theorem Inv.die {action : DnAction} (hactive : s.active = true)
    (hnone : registeredBy (action, .died) = 0 ∧ cancelledBy (action, .died) = 0) :
    Effect sizes s (action, .died) s.die.1 := by
  refine ⟨⟨fun _ h => (by cases h), fun h => (by cases h), fun _ => rfl⟩, ?_, ?_,
    fun _ _ _ h => (by cases h), fun _ => rfl, fun _ hl _ _ => absurd rfl hl.2.1⟩
  · rw [hnone.1, hnone.2]
    unfold held
    rw [h.alive hactive]
    change (↑(s.table.elim [] fun table => table.ipcPortDnnotify sizes) + 0 : Multiset DnRequest) + 0 =
      0 + ↑(s.table.elim [] fun table => table.ipcPortDnnotify sizes) + 0 + 0
    simp
  · rw [hnone.1]
    exact fun r hr => absurd hr (Multiset.notMem_zero r)

/-- `ipc_port_dngrow` from the allocation on. -/
theorem Inv.dngrowResume {thread : ℕ} {grower : DnGrower} {ntable : Option ℕ} :
    Effect sizes s (.dngrowResume thread ntable, (s.ipcPortDngrowResume sizes thread grower ntable).2)
      (s.ipcPortDngrowResume sizes thread grower ntable).1 := by
  have hgrowing : ∀ kr t, Undisturbing t (.dngrowResume thread ntable, .returned kr) →
      s.growing t ≠ none → update s.growing thread none t = s.growing t :=
    fun kr t hl _ => update_of_ne (by
      rintro rfl
      exact hl.2.2 ntable rfl) _ _
  have hframe : ∀ kr, Effect sizes s (.dngrowResume thread ntable, .returned kr)
      { s with growing := update s.growing thread none } := fun kr =>
    .frame h rfl rfl rfl ⟨rfl, rfl, rfl⟩ (hgrowing kr)
  unfold ipcPortDngrowResume
  dsimp only
  split
  · exact hframe _
  rename_i address
  split
  · exact hframe _
  rename_i hits
  split
  swap
  · exact hframe _
  rename_i hvalid
  obtain ⟨hactive, haddress, hnext⟩ := hvalid
  change s.active = true at hactive
  change ∀ table ∈ s.table, table.iprSize + 1 = grower.its at hnext
  have hlast := sizes.lt_last hits
  have hwf : ∀ table ∈ s.table, table.WellFormed sizes ∧ table.iprSize < grower.its :=
    fun table htable => ⟨h.table table htable, by have := hnext table htable; omega⟩
  obtain ⟨hgrown, hkept, hfree⟩ := dngrowTable_effect hlast hwf
  refine ⟨⟨?_, h.alive, fun hdead => ?_⟩, ?_, ?_, fun r hr _ _ => ?_,
    id, fun _ hl _ _ => absurd rfl hl.1⟩
  · rintro _ ⟨⟩
    exact hgrown
  · exact absurd (hactive.symm.trans hdead) (by decide)
  · unfold held
    rw [h.alive hactive]
    change (↑(s.table.elim [] fun table => table.ipcPortDnnotify sizes) + _ : Multiset DnRequest) + 0 =
      ↑((dngrowTable sizes grower.its s.table).ipcPortDnnotify sizes) + _ + 0 + 0
    rw [dngrowTable_notifies hlast hwf, add_zero, add_zero]
  · exact fun r hr => absurd hr (Multiset.notMem_zero r)
  · obtain ⟨hr, hpos', hlt'⟩ := hr
    unfold request at hr
    unfold size at hlt'
    cases htable : s.table with
    | none =>
      rw [htable] at hr
      cases hr
    | some table =>
      rw [htable] at hr hlt'
      have hlt := (hwf table htable).2
      refine ⟨?_, hpos', hlt'.trans (sizes.lt_of_lt hlt hlast)⟩
      exact (request_congr (hkept table htable r.index hpos' hlt')).trans hr

/-- One section. -/
theorem Inv.step (hstep : Step sizes s l s') : Effect sizes s l s' := by
  obtain ⟨action, o⟩ := l
  obtain ⟨hstep, hallowed⟩ := hstep
  cases action with
  | dnrequest name soright =>
    obtain ⟨hactive, heq⟩ := ite_none_right_eq_some.mp hstep
    obtain ⟨rfl, rfl⟩ := Prod.ext_iff.mp (Option.some.inj heq)
    exact h.dnrequest hactive hallowed.1
  | dncancel name index =>
    obtain ⟨hactive, heq⟩ := ite_none_right_eq_some.mp hstep
    exact h.dncancel hactive hallowed.1 hallowed.2 heq
  | dngrow thread targetSize =>
    obtain ⟨⟨hactive, hidle⟩, heq⟩ := ite_none_right_eq_some.mp hstep
    unfold ipcPortDngrow at heq
    split at heq
    · cases heq
      exact .frame h rfl rfl rfl ⟨rfl, rfl, rfl⟩ fun _ _ _ => rfl
    · cases heq
      refine .frame h rfl rfl rfl ⟨rfl, rfl, rfl⟩ fun t _ hne => update_of_ne ?_ _ _
      rintro rfl
      exact hne hidle
  | dngrowResume thread ntable =>
    obtain ⟨grower, hgrower, heq⟩ := map_eq_some_iff.mp hstep
    obtain ⟨rfl, rfl⟩ := Prod.ext_iff.mp heq
    exact h.dngrowResume
  | pdrequest notify =>
    obtain ⟨hactive, heq⟩ := ite_none_right_eq_some.mp hstep
    cases heq
    exact .frame h rfl rfl rfl ⟨rfl, rfl, rfl⟩ fun _ _ _ => rfl
  | destroy =>
    obtain ⟨⟨hactive, -⟩, heq⟩ := ite_none_right_eq_some.mp hstep
    unfold ipcPortDestroy at heq
    split at heq
    · cases heq
      exact h.die hactive ⟨rfl, rfl⟩
    · cases heq
      exact .frame h rfl rfl rfl ⟨rfl, rfl, rfl⟩ fun _ _ _ => rfl
  | destroyResume circular =>
    obtain ⟨⟨hactive, -⟩, heq⟩ := ite_none_right_eq_some.mp hstep
    unfold ipcPortDestroyResume at heq
    split at heq
    · cases heq
      exact h.die hactive ⟨rfl, rfl⟩
    · cases heq
      exact .frame h rfl rfl rfl ⟨rfl, rfl, rfl⟩ fun _ _ _ => rfl
  | dnnotify =>
    obtain ⟨table, htaken, heq⟩ := map_eq_some_iff.mp hstep
    cases heq
    refine ⟨⟨h.table, fun _ => rfl, h.dead⟩, ?_, ?_, fun r hr _ _ => hr, id,
      fun _ _ ha _ => ⟨ha, rfl, rfl, rfl⟩⟩
    · unfold held
      rw [htaken]
      change (_ + ↑(table.ipcPortDnnotify sizes) : Multiset DnRequest) + 0 =
        _ + 0 + 0 + ↑(table.ipcPortDnnotify sizes)
      simp only [add_zero]
      rfl
    · exact fun r hr => absurd hr (Multiset.notMem_zero r)

end

/-- What holds of a new port. -/
theorem inv_new : new.Inv sizes := ⟨fun _ h => (by cases h), fun _ => rfl, fun _ => rfl⟩

variable {trace : List (DnPort × DnAction × DnOutput)}

/-- The sections of a run keep the port in order. -/
theorem Inv.run (h : s.Inv sizes) (hrun : Run (Step sizes) s trace s') : s'.Inv sizes := by
  induction hrun with
  | nil => exact h
  | cons _ hstep ih => exact (ih.step hstep).inv

/-- A request stays in its slot up to the section that cancels it. -/
theorem Inv.holds_run {r : DnRequest}
    (h : s.Inv sizes) (hrun : Run (Step sizes) s trace s') (hr : s.Holds sizes r)
    (hkept : ∀ x ∈ trace, ∀ name, x.2.1 ≠ .dncancel name r.index) (hactive : s'.active = true) :
    s'.Holds sizes r := by
  induction hrun with
  | nil => exact hr
  | @cons trace s₁ s₂ l hrun hstep ih =>
    have hinv := h.run hrun
    have hactive₁ : s₁.active = true := by
      by_contra hdead
      have := (hinv.step hstep).dead_stays (by simpa using hdead)
      exact absurd (hactive.symm.trans this) (by decide)
    exact (hinv.step hstep).kept r
      (ih (fun x hx => hkept x (mem_cons_of_mem _ hx)) hactive₁)
      (hkept _ (mem_cons_self ..)) hactive

/-- Each request registered was cancelled, was notified or is in the table. -/
theorem Inv.rights_run (h : s.Inv sizes)
    (hrun : Run (Step sizes) s trace s') : s.held sizes + Run.total registeredBy trace =
      s'.held sizes + Run.total (fun l => cancelledBy l + notifiedBy l) trace := by
  refine Run.balance (Inv sizes) (fun _ _ => True) hrun (fun _ _ => trivial) h
    (fun _ _ _ h _ hstep => (h.step hstep).inv) fun s l s' h _ hstep => ?_
  rw [(h.step hstep).rights, add_assoc]

/-- While nobody else grows or kills the port, its table stays where it is. -/
theorem Inv.undisturbed_run {thread : ℕ} (h : s.Inv sizes) (hrun : Run (Step sizes) s trace s')
    (hothers : ∀ x ∈ trace, Undisturbing thread x.2) (hactive : s.active = true)
    (hgrowing : s.growing thread ≠ none) :
    s'.active = true ∧ s'.growing thread = s.growing thread ∧
      s'.dnrequests.map Prod.fst = s.dnrequests.map Prod.fst ∧
      s'.table.map iprSize = s.table.map iprSize := by
  induction hrun with
  | nil => exact ⟨hactive, rfl, rfl, rfl⟩
  | @cons trace s₁ s₂ l hrun hstep ih =>
    obtain ⟨hactive₁, hgrowing₁, haddress₁, hsize₁⟩ := ih fun x hx => hothers x (mem_cons_of_mem _ hx)
    obtain ⟨hactive₂, hgrowing₂, haddress₂, hsize₂⟩ := ((h.run hrun).step hstep).undisturbed thread
      (hothers _ (mem_cons_self ..)) hactive₁ (by rw [hgrowing₁]; exact hgrowing)
    exact ⟨hactive₂, hgrowing₂.trans hgrowing₁, haddress₂.trans haddress₁, hsize₂.trans hsize₁⟩

/-- A call of `ipc_port_dngrow` that returns `KERN_SUCCESS`, on a port that nobody else
grows or kills meanwhile. -/
inductive DngrowSucceeds (sizes : IpcDnTableSizes) (thread : ℕ) (targetSize : BitVec 32)
    (s s' : DnPort) : Prop
  | atOnce (h : Step sizes s (.dngrow thread targetSize, .returned .success) s')
  | resumed {s₁ s₂ : DnPort} {trace : List (DnPort × DnAction × DnOutput)} {ntable : Option ℕ}
    {o : DnOutput} (hbegin : Step sizes s (.dngrow thread targetSize, .unlocked) s₁)
    (hrun : Run (Step sizes) s₁ trace s₂) (hothers : ∀ x ∈ trace, Undisturbing thread x.2)
    (hresume : Step sizes s₂ (.dngrowResume thread ntable, o) s')
    (hsuccess : o = .grown ∨ o = .returned .success)

/-- There is no target, the port has no table yet, or its table or the next size will do. -/
def NextSizeDoes (sizes : IpcDnTableSizes) (s : DnPort) (targetSize : BitVec 32) : Prop :=
  targetSize = itsSizeNone ∨ ∀ table ∈ s.table,
    targetSize.toNat ≤ table.size sizes ∨ targetSize.toNat ≤ sizes.itsSize (table.iprSize + 1)

/-- A number no larger as an unsigned one is no larger as a signed one. -/
theorem toInt_le_of_toNat_le {target : BitVec 32} {n : ℕ} (h : target.toNat ≤ n) :
    target.toInt ≤ n := by
  rw [BitVec.toInt_eq_toNat_cond]
  split <;> omega

/-- Below 2^31 a target is the same number signed and unsigned. -/
theorem toInt_le_iff {target : BitVec 32} {n : ℕ} (h : target.toNat < 2 ^ 31) :
    target.toInt ≤ n ↔ target.toNat ≤ n := by
  rw [BitVec.toInt_eq_toNat_cond, if_pos (by omega)]
  omega

/-- A call that unlocks the port with a target found a size that will do. -/
theorem dngrowSize_eq_inl {targetSize : BitVec 32} {its : ℕ} (hne : targetSize ≠ itsSizeNone)
    (hits : s.dngrowSize sizes targetSize = .inl its) :
    (∀ table ∈ s.table, table.size sizes < targetSize.toNat) ∧ targetSize.toNat ≤ sizes.itsSize its ∧
      dngrowFirst s.table ≤ its ∧ ∀ i, dngrowFirst s.table ≤ i → i < its →
        sizes.itsSize i < targetSize.toNat := by
  unfold dngrowSize at hits
  rw [if_neg hne] at hits
  split at hits
  · cases hits
  rename_i hsmall
  dsimp only at hits
  split at hits
  · cases hits
  rename_i hits0
  cases hits
  obtain ⟨hdo, hle, hpassed⟩ := dngrowSearch_spec sizes targetSize.toNat
    (Nat.le_add_left sizes.last (dngrowFirst s.table))
  refine ⟨fun table htable => Nat.not_le.mp fun hle => hsmall ?_, hdo hits0, hle, hpassed⟩
  rw [mem_def.mp htable]
  simpa using hle

/-- What a call that succeeds does to a table that is where it was. -/
theorem ipcPortDngrowResume_success {thread : ℕ} {grower : DnGrower} {ntable : Option ℕ}
    (hactive : s.active = true) (haddress : s.dnrequests.map Prod.fst = grower.otable)
    (hsuccess : (s.ipcPortDngrowResume sizes thread grower ntable).2 = .grown ∨
      (s.ipcPortDngrowResume sizes thread grower ntable).2 = .returned .success) :
    ((∀ table ∈ s.table, table.iprSize + 1 = grower.its) →
        (s.ipcPortDngrowResume sizes thread grower ntable).1.size sizes = sizes.itsSize grower.its) ∧
      ((¬∀ table ∈ s.table, table.iprSize + 1 = grower.its) →
        (s.ipcPortDngrowResume sizes thread grower ntable).1.size sizes = s.size sizes) := by
  unfold ipcPortDngrowResume at hsuccess ⊢
  dsimp only at hsuccess ⊢
  split at hsuccess
  · rcases hsuccess with h | h <;> cases h
  split at hsuccess
  · rcases hsuccess with h | h <;> cases h
  rename_i hits
  rw [if_neg hits]
  refine ⟨fun hnext => ?_, fun hnext => ?_⟩
  · rw [if_pos ⟨hactive, haddress, hnext⟩]
    rfl
  · rw [if_neg fun hvalid => hnext hvalid.2.2]
    rfl

/-- A call that succeeds without anybody else's help leaves a table of at least the target size
if and only if there was none or the next size will do. -/
theorem Inv.dngrow (h : s.Inv sizes) {thread : ℕ} {targetSize : BitVec 32}
    (hgrow : DngrowSucceeds sizes thread targetSize s s') :
    targetSize.toInt ≤ s'.size sizes ↔ s.NextSizeDoes sizes targetSize := by
  by_cases hnone : targetSize = itsSizeNone
  · have hint : itsSizeNone.toInt = -1 := by decide
    have hle : targetSize.toInt ≤ s'.size sizes := by
      rw [hnone, hint]
      omega
    exact ⟨fun _ => Or.inl hnone, fun _ => hle⟩
  cases hgrow with
  | atOnce hstep =>
    obtain ⟨-, heq⟩ := ite_none_right_eq_some.mp hstep.1
    unfold ipcPortDngrow at heq
    split at heq
    swap
    · cases heq
    rename_i kr hkr
    cases heq
    unfold dngrowSize at hkr
    rw [if_neg hnone] at hkr
    split at hkr
    · rename_i hany
      obtain ⟨table, htable, hle⟩ : ∃ table, s.table = some table ∧
          targetSize.toNat ≤ table.size sizes := by
        cases htable : s.table with
        | none =>
          rw [htable] at hany
          cases hany
        | some table =>
          rw [htable] at hany
          exact ⟨table, rfl, of_decide_eq_true hany⟩
      have hsize : s.size sizes = table.size sizes := by
        unfold size
        rw [htable]
        rfl
      refine ⟨fun _ => Or.inr fun table' htable' => Or.inl ?_, fun _ => ?_⟩
      · cases htable.symm.trans htable'
        exact hle
      · exact toInt_le_of_toNat_le (hle.trans_eq hsize.symm)
    · dsimp only at hkr
      split at hkr <;> cases hkr
  | @resumed s₁ s₂ trace ntable o hbegin hrun hothers hresume hsuccess =>
    obtain ⟨⟨hactive, -⟩, heq⟩ := ite_none_right_eq_some.mp hbegin.1
    have hinv₁ := (h.step hbegin).inv
    unfold ipcPortDngrow at heq
    split at heq
    · cases heq
    rename_i its hits
    cases heq
    obtain ⟨hsmall, hdo, hfirst, hpassed⟩ := dngrowSize_eq_inl hnone hits
    have hgrowing : update s.growing thread
        (some ⟨s.dnrequests.map Prod.fst, its⟩) thread = some ⟨s.dnrequests.map Prod.fst, its⟩ :=
      update_self ..
    obtain ⟨hactive₂, hgrowing₂, haddress₂, hsize₂⟩ := hinv₁.undisturbed_run hrun hothers hactive
      (hgrowing.trans_ne (some_ne_none _))
    obtain ⟨grower, hgrower, heq⟩ := map_eq_some_iff.mp hresume.1
    obtain rfl := Option.some.inj (hgrower.symm.trans (hgrowing₂.trans hgrowing))
    obtain ⟨rfl, rfl⟩ := Prod.ext_iff.mp heq
    obtain ⟨hvalid, hinvalid⟩ := ipcPortDngrowResume_success hactive₂ haddress₂ hsuccess
    change s₂.table.map iprSize = s.table.map iprSize at hsize₂
    cases htable : s.table with
    | none =>
      rw [htable, map_none, map_eq_none_iff] at hsize₂
      rw [hvalid (by rw [hsize₂]; exact fun _ h => by cases h)]
      exact ⟨fun _ => Or.inr (by rw [htable]; exact fun _ h => by cases h), fun _ => toInt_le_of_toNat_le hdo⟩
    | some table =>
      rw [htable, map_some, map_eq_some_iff] at hsize₂
      obtain ⟨table₂, htable₂, hsame⟩ := hsize₂
      have hfirst : table.iprSize + 1 ≤ its := by
        rw [htable] at hfirst
        exact hfirst
      rcases hfirst.eq_or_lt with hnext | hnext
      · have hall : ∀ t ∈ s₂.table, t.iprSize + 1 = its := by
          intro t ht
          cases htable₂.symm.trans ht
          rw [hsame, hnext]
        rw [hvalid hall]
        refine ⟨fun _ => Or.inr fun t ht => Or.inr ?_, fun _ => toInt_le_of_toNat_le hdo⟩
        cases htable.symm.trans ht
        rw [hnext]
        exact hdo
      · -- the table has the size after the next in no case
        have hnone' : ¬∀ t ∈ s₂.table, t.iprSize + 1 = its := fun hall =>
          absurd (hall table₂ htable₂) (by omega)
        have hsize : s₂.size sizes = table.size sizes := by
          unfold size
          rw [htable₂]
          exact congrArg sizes.itsSize hsame
        have hlt := hsmall table htable
        have hlt' := hpassed (table.iprSize + 1) (by rw [htable]; exact Nat.le_refl _) hnext
        rw [hinvalid hnone', hsize, toInt_le_iff (hdo.trans_lt (sizes.lt_int its))]
        refine ⟨fun hle => absurd hle (by omega), ?_⟩
        rintro (hnone' | hdoes)
        · exact absurd hnone' hnone
        · have := hdoes table htable
          omega

/-- In every run the free list and the requests share the slots of the table, a request stays
in its slot until it is cancelled, and every request registered is cancelled or notified once.
A call of `ipc_port_dngrow` that succeeds on a port that nobody else grows or kills leaves a
table of the target size if and only if the port had none or the next size does. -/
theorem dnrequests_honoured (sizes : IpcDnTableSizes) {trace : List (DnPort × DnAction × DnOutput)}
    (hrun : Run (Step sizes) new trace s) :
    (∀ table ∈ s.table, ∃ free, table.FreeList sizes free) ∧
      (∀ name soright index s₁ later s₂,
        Step sizes s (.dnrequest name soright, .registered index) s₁ →
        Run (Step sizes) s₁ later s₂ → (∀ x ∈ later, ∀ name', x.2.1 ≠ .dncancel name' index) →
        s₂.active = true → s₂.Holds sizes ⟨index, name, soright⟩) ∧
      Run.total registeredBy trace =
        s.held sizes + Run.total (fun l => cancelledBy l + notifiedBy l) trace ∧
      (s.active = false → s.taken = none → s.held sizes = 0) ∧
      ∀ thread targetSize s', DngrowSucceeds sizes thread targetSize s s' →
        (targetSize.toInt ≤ s'.size sizes ↔ s.NextSizeDoes sizes targetSize) := by
  have hinv := inv_new.run hrun
  refine ⟨fun table htable => (hinv.table table htable).freeList, ?_, ?_, ?_,
    fun thread targetSize s' hgrow => hinv.dngrow hgrow⟩
  · intro name soright index s₁ later s₂ hstep hlater hkept hactive
    have heffect := hinv.step hstep
    exact heffect.inv.holds_run hlater (heffect.registered _ (Multiset.mem_singleton_self _)) hkept hactive
  · have hrights := inv_new.rights_run hrun
    have hnone : new.held sizes = 0 := rfl
    rwa [hnone, zero_add] at hrights
  · intro hdead htaken
    unfold held table
    rw [htaken, hinv.dead hdead]
    rfl

/-- A port whose table grows twice, with a request registered in between; another one is
registered, the first is cancelled, and the port dies. -/
def growTwice : List DnAction :=
  [.dnnotify, .destroy, .dncancel 0x103 1, .dnrequest 0x104 8, .dngrowResume 0 (some 2),
    .dngrow 0 4, .dnrequest 0x103 7, .dngrowResume 0 (some 1), .dngrow 0 itsSizeNone]

/-- The table grows to its target with a request in it; and of the two requests one is cancelled
and one notified. -/
theorem growTwice_honoured :
    (∃ trace s s', Run (Step ipcTableDnrequests) new trace s ∧
      s.request 1 = some ⟨1, 0x103, 7⟩ ∧
      DngrowSucceeds ipcTableDnrequests 0 4 s s' ∧
      (4 : BitVec 32).toInt ≤ s'.size ipcTableDnrequests) ∧
    ∃ trace s, Run (Step ipcTableDnrequests) new trace s ∧
      Run.total registeredBy trace =
        Run.total (fun l => cancelledBy l + notifiedBy l) trace ∧
      (Run.total registeredBy trace).card = 2 := by
  constructor
  · have h : ((replay (step ipcTableDnrequests) new (growTwice.drop 6)).bind fun r =>
        (r.2.step ipcTableDnrequests (.dngrow 0 4)).bind fun r₁ =>
          (r₁.1.step ipcTableDnrequests (.dngrowResume 0 (some 2))).map fun r₂ =>
            decide (r.2.request 1 = some ⟨1, 0x103, 7⟩ ∧ r₁.2 = .unlocked ∧ r₂.2 = .grown ∧
              ∀ table ∈ r.2.table, (4 : BitVec 32).toNat ≤ table.size ipcTableDnrequests ∨
                (4 : BitVec 32).toNat ≤ ipcTableDnrequests.itsSize (table.iprSize + 1))) =
            some true := by
      decide +kernel
    obtain ⟨⟨trace, s⟩, hreplay, h⟩ := bind_eq_some_iff.mp h
    obtain ⟨⟨s₁, o₁⟩, hbegin, h⟩ := bind_eq_some_iff.mp h
    obtain ⟨⟨s', o₂⟩, hresume, heq⟩ := map_eq_some_iff.mp h
    obtain ⟨hrequest, rfl, rfl, hdoes⟩ := of_decide_eq_true heq
    have hrun : Run (Step ipcTableDnrequests) new trace s :=
      Run.of_replay hreplay (by simp [growTwice, DnAction.Allowed]; decide)
    have hgrow : DngrowSucceeds ipcTableDnrequests 0 4 s s' :=
      .resumed ⟨hbegin, trivial⟩ .nil (by simp) ⟨hresume, trivial⟩ (.inl rfl)
    exact ⟨trace, s, s', hrun, hrequest, hgrow,
      ((dnrequests_honoured ipcTableDnrequests hrun).2.2.2.2 0 4 s' hgrow).mpr (.inr hdoes)⟩
  · have h : (replay (step ipcTableDnrequests) new growTwice).map (fun r =>
        decide (r.2.active = false ∧ r.2.taken.isNone ∧ (Run.total registeredBy r.1).card = 2)) =
          some true := by
      decide +kernel
    obtain ⟨⟨trace, s⟩, hreplay, heq⟩ := map_eq_some_iff.mp h
    obtain ⟨hdead, htaken, hcard⟩ := of_decide_eq_true heq
    have hrun : Run (Step ipcTableDnrequests) new trace s :=
      Run.of_replay hreplay (by simp [growTwice, DnAction.Allowed]; decide)
    obtain ⟨-, -, hrights, hheld, -⟩ := dnrequests_honoured ipcTableDnrequests hrun
    rw [hheld hdead (Option.isNone_iff_eq_none.mp htaken), zero_add] at hrights
    exact ⟨trace, s, hrun, hrights, hcard⟩

/-- A table of two slots does not grow to sixteen, and the call succeeds. -/
theorem dngrow_skips_size : ∃ trace s s', Run (Step ipcTableDnrequests) new trace s ∧
    DngrowSucceeds ipcTableDnrequests 0 16 s s' ∧
    ¬(16 : BitVec 32).toInt ≤ s'.size ipcTableDnrequests := by
  have h : ((replay (step ipcTableDnrequests) new [.dngrowResume 0 (some 1), .dngrow 0 itsSizeNone]).bind
      fun r => (r.2.step ipcTableDnrequests (.dngrow 0 16)).bind fun r₁ =>
        (r₁.1.step ipcTableDnrequests (.dngrowResume 0 (some 2))).map fun r₂ =>
          (r₁.2, r₂.2, r₂.1.size ipcTableDnrequests)) =
      some (.unlocked, .returned .success, 2) := by
    decide +kernel
  obtain ⟨⟨trace, s⟩, hreplay, h⟩ := bind_eq_some_iff.mp h
  obtain ⟨⟨s₁, o₁⟩, hbegin, h⟩ := bind_eq_some_iff.mp h
  obtain ⟨⟨s', o₂⟩, hresume, heq⟩ := map_eq_some_iff.mp h
  simp only [Prod.mk.injEq] at heq
  obtain ⟨rfl, rfl, hsize⟩ := heq
  have hrun : Run (Step ipcTableDnrequests) new trace s :=
    Run.of_replay hreplay (by simp [DnAction.Allowed])
  refine ⟨trace, s, s', hrun, .resumed ⟨hbegin, trivial⟩ .nil (by simp) ⟨hresume, trivial⟩
    (Or.inr rfl), ?_⟩
  rw [hsize]
  decide

end DnPort

end MachVirtuTerm
