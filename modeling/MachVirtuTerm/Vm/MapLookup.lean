import MachVirtuTerm.Vm.MapEntry

/-!
# Lookups with a hint

The entries of a map and its header are cells of a circular list. A pointer to a cell is
its number: the header has number 0, the entries are numbered from 1 on in their order. A
lookup begins at the hint or at the first entry; what it finds depends on neither.
-/

open List Option

namespace MachVirtuTerm

/-- `struct vm_map`, with its entries in the order of the links. -/
structure VmMapRing where
  entries : List VmMapEntry
  /-- `hdr.links.start`. -/
  minOffset : VmOffset
  /-- `hdr.links.end`. -/
  maxOffset : VmOffset
  size : VmOffset
  hint : ℕ
  firstFree : ℕ
  waitForSpace : Bool
  wiringRequired : Bool
  deriving DecidableEq

namespace VmMapRing

variable (map : VmMapRing)

def vmeNext (cell : ℕ) : ℕ := (cell + 1) % (map.entries.length + 1)

def vmePrev (cell : ℕ) : ℕ := (cell + map.entries.length) % (map.entries.length + 1)

/-- `vme_start`, of the header the lower bound of the map. -/
def vmeStart (cell : ℕ) : VmOffset :=
  match cell with
  | 0 => map.minOffset
  | i + 1 => (map.entries[i]?).elim 0 VmMapEntry.vmeStart

/-- `vme_end`, of the header the upper bound of the map. -/
def vmeEnd (cell : ℕ) : VmOffset :=
  match cell with
  | 0 => map.maxOffset
  | i + 1 => (map.entries[i]?).elim 0 VmMapEntry.vmeEnd

/-- The linear search of a lookup: whether it finds an entry, and the cell. -/
def searchLinearly (address : VmOffset) (last : ℕ) : ℕ → ℕ → Option (Bool × ℕ)
  | 0, _ => none
  | fuel + 1, cur =>
    if cur = last then some (false, map.vmePrev cur)
    else if map.vmeEnd cur > address then
      if address ≥ map.vmeStart cur then some (true, cur) else some (false, map.vmePrev cur)
    else searchLinearly address last fuel (map.vmeNext cur)

/-- `vm_map_lookup_entry`. -/
def lookupEntry (address : VmOffset) : Option (Bool × ℕ × VmMapRing) :=
  let cur := if map.hint = 0 then map.vmeNext 0 else map.hint
  let search := map.searchLinearly address
  if address ≥ map.vmeStart cur then
    if cur ≠ 0 ∧ map.vmeEnd cur > address then some (true, cur, map)
    else
      (search 0 (map.entries.length + 1) cur).map fun (found, entry) =>
        (found, entry, { map with hint := entry })
  else
    (search (map.vmeNext cur) (map.entries.length + 1) (map.vmeNext 0)).map
      fun (found, entry) => (found, entry, { map with hint := entry })

/-- The walk of `vm_map_range_check` over the entries from one on. -/
def adjacent («end» prev : VmOffset) : List VmMapEntry → Bool
  | [] => false
  | cur :: after =>
    if prev = cur.vmeStart then
      if «end» ≤ cur.vmeEnd then true else adjacent «end» cur.vmeEnd after
    else false

/-- `vm_map_range_check`: its answer, the entry with the start of the region, and the
map with its hint. -/
def rangeCheck (start «end» : VmOffset) : Option (Bool × Option ℕ × VmMapRing) :=
  if start < map.minOffset ∨ «end» > map.maxOffset ∨ start > «end» then some (false, none, map)
  else
    (map.lookupEntry start).map fun (found, cur, map) =>
      if found then
        (if «end» ≤ map.vmeEnd cur then true
          else adjacent «end» (map.vmeEnd cur) (map.entries.drop cur), some cur, map)
      else (false, none, map)

/-- Sorted entries between the bounds of a map. -/
structure WellFormed : Prop where
  sorted : EntriesSorted map.entries
  min_le : ∀ e ∈ map.entries, map.minOffset ≤ e.vmeStart
  le_max : ∀ e ∈ map.entries, e.vmeEnd ≤ map.maxOffset
  hint : map.hint ≤ map.entries.length

/-- The address lies in an entry. -/
def Mapped (address : VmOffset) : Prop := ∃ e ∈ map.entries, e.Contains address

/-- How many entries end at or before an address. -/
def preceding (address : VmOffset) : ℕ :=
  (map.entries.takeWhile fun e => e.vmeEnd ≤ address).length

variable {map} {address : VmOffset} {entry : VmMapEntry} {i j : ℕ}

theorem preceding_le (address : VmOffset) : map.preceding address ≤ map.entries.length :=
  (takeWhile_sublist _).length_le

theorem vmeStart_of_get (h : map.entries[i]? = some entry) :
    map.vmeStart (i + 1) = entry.vmeStart := by
  simp only [vmeStart, h, elim_some]

theorem vmeEnd_of_get (h : map.entries[i]? = some entry) : map.vmeEnd (i + 1) = entry.vmeEnd := by
  simp only [vmeEnd, h, elim_some]

/-- The entries that end at or before the address come first. -/
theorem vmeEnd_le_of_lt (h : i < map.preceding address) : map.vmeEnd (i + 1) ≤ address := by
  have hlt : i < map.entries.length := Nat.lt_of_lt_of_le h (preceding_le address)
  have hget : map.entries[i]? = some map.entries[i] := getElem?_eq_getElem hlt
  have hmem : map.entries[i] ∈ map.entries.takeWhile fun e => e.vmeEnd ≤ address := by
    rw [← (List.takeWhile_prefix fun e : VmMapEntry => e.vmeEnd ≤ address).getElem h]
    exact getElem_mem h
  rw [vmeEnd_of_get hget]
  simpa using mem_takeWhile_imp hmem

/-- The entry after them does not. -/
theorem lt_vmeEnd_preceding (h : map.preceding address < map.entries.length) :
    address < map.vmeEnd (map.preceding address + 1) := by
  have happend := vmMapLookupEntry_append map.entries address
  cases hafter : (vmMapLookupEntry map.entries address).2.2 with
  | nil =>
    rw [hafter, append_nil] at happend
    have hlen : map.preceding address = map.entries.length := congrArg List.length happend
    omega
  | cons entry after =>
    rw [hafter] at happend
    have hget : map.entries[map.preceding address]? = some entry := by
      have hlen : (vmMapLookupEntry map.entries address).2.1.length = map.preceding address := rfl
      rw [← happend, getElem?_append_right (Nat.le_of_eq hlen), hlen, Nat.sub_self]
      rfl
    rw [vmeEnd_of_get hget]
    exact lt_vmeEnd_of_lookup hafter

/-! ## Lookups -/

theorem vmeNext_of_lt (h : i < map.entries.length) : map.vmeNext i = i + 1 :=
  Nat.mod_eq_of_lt (by omega)

theorem vmeNext_last : map.vmeNext map.entries.length = 0 := Nat.mod_self _

theorem vmePrev_succ (h : i ≤ map.entries.length) : map.vmePrev (i + 1) = i := by
  unfold vmePrev
  rw [show i + 1 + map.entries.length = i + (map.entries.length + 1) by omega, Nat.add_mod_right]
  exact Nat.mod_eq_of_lt (by omega)

theorem vmePrev_zero : map.vmePrev 0 = map.entries.length := by
  unfold vmePrev
  rw [Nat.zero_add]
  exact Nat.mod_eq_of_lt (by omega)

/-- An entry contains the address: the one after those that end at or before it. -/
def Hits (map : VmMapRing) (address : VmOffset) : Prop :=
  map.preceding address < map.entries.length ∧
    map.vmeStart (map.preceding address + 1) ≤ address

instance : Decidable (map.Hits address) := inferInstanceAs (Decidable (_ ∧ _))

/-- What a lookup finds. -/
def found (map : VmMapRing) (address : VmOffset) : Bool × ℕ :=
  if map.Hits address then (true, map.preceding address + 1) else (false, map.preceding address)

/-- The linear search, from an entry that is not after the right one. -/
theorem searchLinearly_eq {last fuel : ℕ} (hi : i ≤ map.preceding address)
    (hlt : i < map.entries.length) (hlast : last = 0 ∨ map.preceding address + 1 < last)
    (hfuel : map.preceding address - i < fuel)
    (hend : last = 0 ∨ map.preceding address < map.entries.length) :
    map.searchLinearly address last fuel (i + 1) = some (map.found address) := by
  induction fuel generalizing i with
  | zero => omega
  | succ fuel ih =>
    unfold searchLinearly
    rw [if_neg (by omega)]
    rcases Nat.lt_or_eq_of_le hi with hbefore | heq
    · have hle := vmeEnd_le_of_lt hbefore
      rw [if_neg (by bv_omega)]
      by_cases hnext : i + 1 < map.entries.length
      · rw [vmeNext_of_lt hnext]
        exact ih hbefore hnext (by omega)
      · -- The walk is over, all entries end at or before the address.
        have hlen := @preceding_le map address
        have hall : map.preceding address = map.entries.length := by omega
        obtain ⟨fuel, rfl⟩ : ∃ n, fuel = n + 1 := ⟨fuel - 1, by omega⟩
        rw [show i + 1 = map.entries.length by omega, vmeNext_last]
        unfold searchLinearly
        rw [if_pos (by omega), vmePrev_zero]
        unfold found
        rw [if_neg fun hhits => by have hmore := hhits.1; omega, hall]
    · rw [heq] at hlt ⊢
      have hgt := lt_vmeEnd_preceding hlt
      rw [if_pos hgt]
      unfold found
      by_cases hstart : map.vmeStart (map.preceding address + 1) ≤ address
      · rw [if_pos hstart, if_pos ⟨hlt, hstart⟩]
      · rw [if_neg hstart, if_neg (fun hhits => hstart hhits.2), vmePrev_succ (by omega)]

/-- An entry that starts at or before the address is not after the right one. -/
theorem WellFormed.le_preceding (h : map.WellFormed) (hi : i < map.entries.length)
    (hstart : map.vmeStart (i + 1) ≤ address) : i ≤ map.preceding address := by
  by_contra hlt
  have hk : map.preceding address < map.entries.length := by omega
  have hgt := lt_vmeEnd_preceding hk
  have hget : map.entries[i]? = some map.entries[i] := getElem?_eq_getElem hi
  have hget' : map.entries[map.preceding address]? = some map.entries[map.preceding address] :=
    getElem?_eq_getElem hk
  rw [vmeStart_of_get hget] at hstart
  rw [vmeEnd_of_get hget'] at hgt
  have hle := pairwise_iff_getElem.mp h.sorted.pairwise _ _ hk hi (by omega)
  bv_omega

/-- An entry that starts after the address is not before the right one. -/
theorem WellFormed.preceding_le_of_lt (h : map.WellFormed) (hi : i < map.entries.length)
    (hstart : address < map.vmeStart (i + 1)) : map.preceding address ≤ i := by
  by_contra hlt
  have hle := @vmeEnd_le_of_lt map address i (by omega)
  have hget : map.entries[i]? = some map.entries[i] := getElem?_eq_getElem hi
  rw [vmeStart_of_get hget] at hstart
  rw [vmeEnd_of_get hget] at hle
  have hne := h.sorted.nonempty _ (getElem_mem hi)
  bv_omega

/-- What a lookup finds does not depend on the hint. -/
theorem WellFormed.lookupEntry_eq (h : map.WellFormed) (address : VmOffset) :
    ∃ map', map.lookupEntry address = some ((map.found address).1, (map.found address).2, map') ∧
      ∃ hint ≤ map.entries.length, map' = { map with hint := hint } := by
  have hprec := @preceding_le map address
  have hcell : (map.found address).2 ≤ map.entries.length := by
    unfold found
    split
    next hhits => exact hhits.1
    next => exact hprec
  by_cases hempty : map.entries.length = 0
  · have hhint : map.hint = 0 := by
      have hle := h.hint
      omega
    have hnext : map.vmeNext 0 = 0 := by
      unfold vmeNext
      rw [hempty]
    have hsearch (fuel : ℕ) : map.searchLinearly address 0 (fuel + 1) 0 =
        some (map.found address) := by
      unfold searchLinearly
      rw [if_pos rfl, vmePrev_zero]
      unfold found
      rw [if_neg fun hhits => by have hmore := hhits.1; omega]
      rw [show map.preceding address = map.entries.length by omega]
    refine ⟨{ map with hint := (map.found address).2 }, ?_, _, hcell, rfl⟩
    unfold lookupEntry
    dsimp only
    rw [if_pos hhint, hnext]
    by_cases hmin : address ≥ map.vmeStart 0
    · rw [if_pos hmin, if_neg (fun hand => hand.1 rfl), hsearch]
      rfl
    · rw [if_neg hmin, hnext, hsearch]
      rfl
  · obtain ⟨i, hi, hcur⟩ : ∃ i < map.entries.length,
        (if map.hint = 0 then map.vmeNext 0 else map.hint) = i + 1 := by
      by_cases hzero : map.hint = 0
      · exact ⟨0, by omega, by rw [if_pos hzero, vmeNext_of_lt (by omega)]⟩
      · have hle := h.hint
        exact ⟨map.hint - 1, by omega, by rw [if_neg hzero]; omega⟩
    unfold lookupEntry
    dsimp only
    rw [hcur]
    by_cases hstart : address ≥ map.vmeStart (i + 1)
    · rw [if_pos hstart]
      have hbefore := h.le_preceding hi hstart
      by_cases hend : map.vmeEnd (i + 1) > address
      · -- The entry of the hint is the right one.
        have heq : i = map.preceding address := by
          by_contra hne
          have hle := @vmeEnd_le_of_lt map address i (by omega)
          bv_omega
        refine ⟨map, ?_, map.hint, h.hint, rfl⟩
        rw [if_pos ⟨by omega, hend⟩]
        unfold found
        rw [heq] at hi hstart ⊢
        rw [if_pos ⟨hi, hstart⟩]
      · refine ⟨{ map with hint := (map.found address).2 }, ?_, _, hcell, rfl⟩
        rw [if_neg (fun hand => hend hand.2),
          searchLinearly_eq hbefore hi (.inl rfl) (by omega) (.inl rfl)]
        rfl
    · rw [if_neg hstart]
      have hafter := h.preceding_le_of_lt hi (BitVec.not_le.mp hstart)
      refine ⟨{ map with hint := (map.found address).2 }, ?_, _, hcell, rfl⟩
      have hlast : map.vmeNext (i + 1) = 0 ∨ map.preceding address + 1 < map.vmeNext (i + 1) := by
        by_cases hlt : i + 1 < map.entries.length
        · rw [vmeNext_of_lt hlt]
          omega
        · rw [show i + 1 = map.entries.length by omega, vmeNext_last]
          exact .inl rfl
      have hfirst : map.vmeNext 0 = 0 + 1 := vmeNext_of_lt (by omega)
      rw [hfirst, searchLinearly_eq (Nat.zero_le _) (by omega) hlast (by omega) (.inr (by omega))]
      rfl

/-- The cell of an entry in its place. -/
theorem vmeStart_le_iff (h : map.entries[i]? = some entry) :
    map.vmeStart (i + 1) ≤ address ∧ address < map.vmeEnd (i + 1) ↔ entry.Contains address := by
  rw [vmeStart_of_get h, vmeEnd_of_get h]
  rfl

/-- Only the entry after those that end at or before the address can contain it. -/
theorem WellFormed.eq_preceding (h : map.WellFormed) (hget : map.entries[i]? = some entry)
    (hin : entry.Contains address) : i = map.preceding address := by
  obtain ⟨hstart, hend⟩ := (vmeStart_le_iff hget).mpr hin
  have hi := (List.getElem?_eq_some_iff.mp hget).1
  have hle := h.le_preceding hi hstart
  by_contra hne
  have hbefore := @vmeEnd_le_of_lt map address i (by omega)
  bv_omega

/-- An entry contains the address exactly when the one after those before it does. -/
theorem WellFormed.hits_iff (h : map.WellFormed) : map.Hits address ↔ map.Mapped address := by
  constructor
  · rintro ⟨hlt, hstart⟩
    have hget : map.entries[map.preceding address]? = some map.entries[map.preceding address] :=
      getElem?_eq_getElem hlt
    exact ⟨_, getElem_mem hlt, (vmeStart_le_iff hget).mp ⟨hstart, lt_vmeEnd_preceding hlt⟩⟩
  · rintro ⟨entry, hmem, hin⟩
    obtain ⟨i, hget⟩ := mem_iff_getElem?.mp hmem
    obtain rfl := h.eq_preceding hget hin
    exact ⟨(List.getElem?_eq_some_iff.mp hget).1, ((vmeStart_le_iff hget).mpr hin).1⟩

/-- What a lookup is to find: the one entry that contains the address, or else the last one
that ends at or below it, or the header. -/
structure LookupRight (map : VmMapRing) (address : VmOffset) (found : Bool) (cell : ℕ) : Prop where
  hit : found = true → ∃ i entry, cell = i + 1 ∧ map.entries[i]? = some entry ∧
    entry.Contains address ∧
      ∀ j entry', map.entries[j]? = some entry' → entry'.Contains address → j = i
  miss : found = false → ¬ map.Mapped address ∧ cell ≤ map.entries.length ∧
    ∀ i entry, map.entries[i]? = some entry → (entry.vmeEnd ≤ address ↔ i < cell)

theorem WellFormed.lookup_right (h : map.WellFormed) (address : VmOffset) :
    map.LookupRight address (map.found address).1 (map.found address).2 := by
  unfold found
  by_cases hhits : map.Hits address
  · have hlt := hhits.1
    rw [if_pos hhits]
    refine ⟨fun _ => ?_, nofun⟩
    have hget : map.entries[map.preceding address]? = some map.entries[map.preceding address] :=
      getElem?_eq_getElem hhits.1
    exact ⟨_, _, rfl, hget, (vmeStart_le_iff hget).mp ⟨hhits.2, lt_vmeEnd_preceding hhits.1⟩,
      fun j entry' hget' hin => h.eq_preceding hget' hin⟩
  · rw [if_neg hhits]
    refine ⟨nofun, fun _ => ⟨h.hits_iff.not.mp hhits, preceding_le address, ?_⟩⟩
    intro i entry hget
    have hi := (List.getElem?_eq_some_iff.mp hget).1
    rw [← vmeEnd_of_get hget]
    refine ⟨fun hle => ?_, vmeEnd_le_of_lt⟩
    have hstart : map.vmeStart (i + 1) ≤ address := by
      have hne := h.sorted.nonempty entry (mem_of_getElem? hget)
      rw [vmeEnd_of_get hget] at hle
      rw [vmeStart_of_get hget]
      bv_omega
    refine Nat.lt_of_le_of_ne (h.le_preceding hi hstart) ?_
    rintro rfl
    have hgt := lt_vmeEnd_preceding hi
    bv_omega

/-! ## The range check -/

/-- The walk finds no hole when there is none. -/
theorem adjacent_iff {«end» prev : VmOffset} {after : List VmMapEntry}
    (hsorted : EntriesSorted after) (hprev : ∀ e ∈ after, prev ≤ e.vmeStart)
    (hlt : prev < «end») :
    adjacent «end» prev after = true ↔
      ∀ address, prev ≤ address → address < «end» → ∃ e ∈ after, e.Contains address := by
  induction after generalizing prev with
  | nil =>
    refine iff_of_false nofun fun hall => ?_
    obtain ⟨e, he, -⟩ := hall prev (BitVec.le_refl _) hlt
    cases he
  | cons cur after ih =>
    have hne := hsorted.nonempty cur mem_cons_self
    have hbehind := (pairwise_cons.mp hsorted.pairwise).1
    unfold adjacent
    by_cases hadjacent : prev = cur.vmeStart
    · rw [if_pos hadjacent]
      by_cases hend : «end» ≤ cur.vmeEnd
      · rw [if_pos hend]
        refine iff_of_true rfl fun address hle hlt => ⟨cur, mem_cons_self, ?_, ?_⟩
        · rwa [← hadjacent]
        · bv_omega
      · rw [if_neg hend, ih (hsorted.sublist (sublist_cons_self _ _)) hbehind (by bv_omega)]
        constructor
        · intro hall address hle hlt
          by_cases hcur : address < cur.vmeEnd
          · exact ⟨cur, mem_cons_self, by rwa [← hadjacent], hcur⟩
          · obtain ⟨e, he, hin⟩ := hall address (by bv_omega) hlt
            exact ⟨e, mem_cons_of_mem _ he, hin⟩
        · intro hall address hle hlt
          obtain ⟨e, he, hin⟩ := hall address (by bv_omega) hlt
          rcases mem_cons.mp he with rfl | he
          · have hcur := hin.2
            bv_omega
          · exact ⟨e, he, hin⟩
    · rw [if_neg hadjacent]
      refine iff_of_false nofun fun hall => ?_
      obtain ⟨e, he, hin⟩ := hall prev (BitVec.le_refl _) hlt
      have hstart := hin.1
      have hcur := hprev cur mem_cons_self
      rcases mem_cons.mp he with rfl | he
      · exact hadjacent (BitVec.le_antisymm hcur hstart)
      · have hle := hbehind e he
        bv_omega

/-- The answer of the range check. -/
theorem WellFormed.rangeCheck_iff (h : map.WellFormed) (start «end» : VmOffset) :
    ∃ answer cell map', map.rangeCheck start «end» = some (answer, cell, map') ∧
      (answer = true ↔ start ≤ «end» ∧ map.minOffset ≤ start ∧ «end» ≤ map.maxOffset ∧
        map.Mapped start ∧ ∀ address, start ≤ address → address < «end» → map.Mapped address) := by
  unfold rangeCheck
  by_cases hbounds : start < map.minOffset ∨ «end» > map.maxOffset ∨ start > «end»
  · rw [if_pos hbounds]
    refine ⟨_, _, _, rfl, iff_of_false nofun ?_⟩
    rintro ⟨hle, hmin, hmax, -⟩
    bv_omega
  rw [if_neg hbounds]
  obtain ⟨map', hlookup, hint, -, rfl⟩ := h.lookupEntry_eq start
  rw [hlookup, map_some]
  unfold found
  by_cases hhits : map.Hits start
  case neg =>
    rw [if_neg hhits]
    exact ⟨_, _, _, rfl, iff_of_false nofun fun hand => hhits (h.hits_iff.mpr hand.2.2.2.1)⟩
  have hlt := hhits.1
  rw [if_pos hhits]
  refine ⟨_, _, _, rfl, ?_⟩
  have hin : map.Mapped start := h.hits_iff.mp hhits
  have hget : map.entries[map.preceding start]? = some map.entries[map.preceding start] :=
    getElem?_eq_getElem hhits.1
  generalize hcur : map.entries[map.preceding start] = cur at hget
  have hcontains := (vmeStart_le_iff hget).mp ⟨hhits.2, lt_vmeEnd_preceding hhits.1⟩
  have hparts : map.entries = map.entries.take (map.preceding start) ++
      cur :: map.entries.drop (map.preceding start + 1) := by
    rw [← hcur, getElem_cons_drop, take_append_drop]
  have hsorted := h.sorted
  rw [hparts] at hsorted
  have hafter : ∀ e ∈ map.entries.drop (map.preceding start + 1), cur.vmeEnd ≤ e.vmeStart :=
    fun e he => hsorted.le_of_append he
  have hend : VmMapRing.vmeEnd { map with hint := hint } (map.preceding start + 1) = cur.vmeEnd :=
    vmeEnd_of_get hget
  rw [hend]
  by_cases hshort : «end» ≤ cur.vmeEnd
  · rw [if_pos hshort]
    refine iff_of_true rfl ⟨by bv_omega, by bv_omega, by bv_omega, hin, fun address hle hlt => ?_⟩
    refine ⟨cur, mem_of_getElem? hget, ?_, ?_⟩
    · have hstart := hcontains.1
      bv_omega
    · bv_omega
  · rw [if_neg hshort, adjacent_iff (h.sorted.sublist (drop_sublist _ _)) hafter (by bv_omega)]
    constructor
    · intro hall
      refine ⟨by bv_omega, by bv_omega, by bv_omega, hin, fun address hle hlt => ?_⟩
      by_cases hbefore : address < cur.vmeEnd
      · have hstart := hcontains.1
        exact ⟨cur, mem_of_getElem? hget, by bv_omega, hbefore⟩
      · obtain ⟨e, he, hin'⟩ := hall address (by bv_omega) hlt
        exact ⟨e, mem_of_mem_drop he, hin'⟩
    · rintro ⟨-, -, -, -, hall⟩ address hle hlt
      have hstart := hcontains.2
      obtain ⟨e, he, hin'⟩ := hall address (by bv_omega) hlt
      rw [hparts, mem_append] at he
      rcases he with he | he
      · have hbefore := hsorted.le_vmeStart e he
        have hlate := hin'.2
        have hne := hsorted.nonempty cur (by simp)
        bv_omega
      · rcases mem_cons.mp he with rfl | he
        · have hlate := hin'.2
          bv_omega
        · exact ⟨e, he, hin'⟩

/-! ## What lookups and the range check tell -/

/-- Every lookup is right, with every hint, and leaves a hint; the range check tells
whether a region that begins in an entry has no hole. -/
theorem lookups_right (map : VmMapRing) (h : map.WellFormed) :
    (∀ address, ∃ found cell map', map.lookupEntry address = some (found, cell, map') ∧
      map.LookupRight address found cell ∧
      ∃ hint ≤ map.entries.length, map' = { map with hint := hint }) ∧
    ∀ start «end», ∃ answer cell map', map.rangeCheck start «end» = some (answer, cell, map') ∧
      (answer = true ↔ start ≤ «end» ∧ map.minOffset ≤ start ∧ «end» ≤ map.maxOffset ∧
        map.Mapped start ∧ ∀ address, start ≤ address → address < «end» → map.Mapped address) := by
  refine ⟨fun address => ?_, h.rangeCheck_iff⟩
  obtain ⟨map', hlookup, hhint⟩ := h.lookupEntry_eq address
  exact ⟨_, _, map', hlookup, h.lookup_right address, hhint⟩

/-- A map with two entries and a gap between them, and the hint at the first one. -/
def gapped : VmMapRing :=
  ⟨[⟨0x1000, 0x3000, none, 0, false, false, false, false, 0, false, 3, 7, 1, 0, 0⟩,
    ⟨0x4000, 0x8000, none, 0, false, false, false, false, 0, false, 3, 7, 1, 0, 0⟩],
    0x1000, 0xc0000000, 0x6000, 1, 1, false, false⟩

theorem gapped_wellFormed : gapped.WellFormed :=
  ⟨by decide, by decide, by decide, by decide⟩

/-- Lookups in the gap and in the second entry, and range checks up to the gap and over it. -/
theorem lookups_right_gapped : gapped.LookupRight 0x3800 false 1 ∧
    gapped.LookupRight 0x4800 true 2 ∧
    (∀ address, 0x1800 ≤ address → address < 0x3000 → gapped.Mapped address) ∧
    ∃ cell map', gapped.rangeCheck 0x1800 0x4800 = some (false, cell, map') := by
  obtain ⟨hlookup, hcheck⟩ := lookups_right gapped gapped_wellFormed
  refine ⟨?_, ?_, ?_, ?_⟩
  · obtain ⟨found, cell, map', heq, hright, -⟩ := hlookup 0x3800
    cases (show gapped.lookupEntry 0x3800 = some (false, 1, gapped) by decide).symm.trans heq
    exact hright
  · obtain ⟨found, cell, map', heq, hright, -⟩ := hlookup 0x4800
    cases (show gapped.lookupEntry 0x4800 = some (true, 2, { gapped with hint := 2 }) by
      decide).symm.trans heq
    exact hright
  · obtain ⟨answer, cell, map', heq, hiff⟩ := hcheck 0x1800 0x3000
    cases (show gapped.rangeCheck 0x1800 0x3000 = some (true, some 1, gapped) by
      decide).symm.trans heq
    exact (hiff.mp rfl).2.2.2.2
  · obtain ⟨answer, cell, map', heq, hiff⟩ := hcheck 0x1800 0x4800
    cases answer with
    | false => exact ⟨cell, map', heq⟩
    | true =>
      obtain ⟨-, -, -, -, hmapped⟩ := hiff.mp rfl
      have hgap := hmapped 0x3000 (by decide) (by decide)
      exact absurd hgap (show ¬ ∃ e ∈ gapped.entries, e.Contains 0x3000 by decide)

/-- A map without entries. -/
def empty : VmMapRing := ⟨[], 0, 0x10000, 0, 0, 0, false, false⟩

theorem empty_wellFormed : empty.WellFormed :=
  ⟨⟨.nil, nofun⟩, nofun, nofun, Nat.le_refl _⟩

/-- A region of no pages where nothing is mapped does not pass the range check. -/
theorem empty_region_fails : ¬ ∀ map : VmMapRing, map.WellFormed → ∀ start «end»,
    ∃ answer cell map', map.rangeCheck start «end» = some (answer, cell, map') ∧
      (answer = true ↔ start ≤ «end» ∧ map.minOffset ≤ start ∧ «end» ≤ map.maxOffset ∧
        ∀ address, start ≤ address → address < «end» → map.Mapped address) := by
  intro hclaim
  obtain ⟨answer, cell, map', hcheck, hiff⟩ := hclaim empty empty_wellFormed 0x1000 0x1000
  have hfalse : empty.rangeCheck 0x1000 0x1000 = some (false, none, empty) := by decide
  cases hfalse.symm.trans hcheck
  refine absurd (hiff.mpr ⟨BitVec.le_refl _, by decide, by decide, ?_⟩) nofun
  intro address hle hlt
  exact absurd hlt (BitVec.not_lt.mpr hle)

end VmMapRing

end MachVirtuTerm
