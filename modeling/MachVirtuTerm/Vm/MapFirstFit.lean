import MachVirtuTerm.Vm.MapFindSpace

/-!
# First fit

The search finds the least address where a region fits, or there is none. It finds none
either by an alignment that wraps around or by a region that goes beyond the map.
-/

open List
open BitVec hiding not_not

namespace MachVirtuTerm

open RoundUp

namespace VmMapRing

variable {map : VmMapRing} {maxOffset start size mask address a b : VmOffset} {k entry : ℕ}
  {after : List VmMapEntry}

/-! ## The search over the entries after one -/

/-- A region at this address fits between these entries. -/
structure FitsAfter (maxOffset size mask start : VmOffset) (after : List VmMapEntry)
    (a : VmOffset) : Prop where
  le : start ≤ a
  aligned : a &&& mask = 0
  le_max : a.toNat + size.toNat ≤ maxOffset.toNat
  apart : ∀ e ∈ after, e.vmeEnd ≤ a ∨ a.toNat + size.toNat ≤ e.vmeStart.toNat

/-- The least address of a kind. -/
structure Least (P : VmOffset → Prop) (a : VmOffset) : Prop where
  mem : P a
  le : ∀ b, P b → a ≤ b

/-- The addresses where gaps begin. -/
def gapStarts (start : VmOffset) (after : List VmMapEntry) : List VmOffset :=
  start :: after.map VmMapEntry.vmeEnd

/-- Nothing fits, some gap begins above the last aligned address, and a region in each of the
others would end inside of the map. -/
structure Wraps (maxOffset size mask start : VmOffset) (after : List VmMapEntry) : Prop where
  last : ∃ g ∈ gapStarts start after, roundUp g mask < g
  inside : ∀ g ∈ gapStarts start after, ¬ roundUp g mask < g →
    (roundUp g mask).toNat + size.toNat ≤ maxOffset.toNat
  none : ∀ a, ¬ FitsAfter maxOffset size mask start after a

/-- A region ends inside of the map when its end neither exceeds the bound nor wraps around. -/
theorem region_le_iff : ¬ (a + size > maxOffset ∨ a + size < a) ↔
    a.toNat + size.toNat ≤ maxOffset.toNat := by
  have ha := a.isLt
  have hsize := size.isLt
  have hmax := maxOffset.isLt
  rw [gt_iff_lt, lt_def, lt_def, toNat_add]
  omega

/-- If a region does not fit before the next entry, it fits only after it. -/
theorem fitsAfter_cons_iff {next : VmMapEntry} (hmask : IsMask mask k)
    (hsorted : EntriesSorted (next :: after)) (hstart : start ≤ next.vmeStart)
    (hfits : ¬ roundUp start mask < start)
    (hinside : (roundUp start mask).toNat + size.toNat ≤ maxOffset.toNat)
    (hnext : ¬ next.vmeStart ≥ roundUp start mask + size) :
    FitsAfter maxOffset size mask start (next :: after) a ↔
      FitsAfter maxOffset size mask next.vmeEnd after a := by
  have hne := hsorted.nonempty next mem_cons_self
  constructor
  · intro h
    refine ⟨?_, h.aligned, h.le_max, fun e he => h.apart e (mem_cons_of_mem _ he)⟩
    refine (h.apart next mem_cons_self).resolve_right fun hbefore => hnext ?_
    have hle := hmask.roundUp_le hfits h.le h.aligned
    have hmax := maxOffset.isLt
    rw [le_def] at hle
    rw [ge_iff_le, le_def, toNat_add, Nat.mod_eq_of_lt (Nat.lt_of_le_of_lt hinside hmax)]
    omega
  · intro h
    refine ⟨?_, h.aligned, h.le_max, fun e he => ?_⟩
    · have hle := h.le
      bv_omega
    · rcases mem_cons.mp he with rfl | he
      · exact .inl h.le
      · exact h.apart e he

/-- All gaps begin at or after the first. -/
theorem le_of_mem_gapStarts (hsorted : EntriesSorted after)
    (hstart : ∀ e ∈ after, start ≤ e.vmeStart) : ∀ g ∈ gapStarts start after, start ≤ g := by
  intro g hg
  rcases mem_cons.mp hg with rfl | hg
  · exact BitVec.le_refl _
  · obtain ⟨e, he, rfl⟩ := mem_map.mp hg
    have hle := hstart e he
    have hne := hsorted.nonempty e he
    bv_omega

/-- The first gap begins above the last aligned address. -/
theorem wraps_of_lt (hmask : IsMask mask k) (hsorted : EntriesSorted after)
    (hstart : ∀ e ∈ after, start ≤ e.vmeStart) (hwraps : roundUp start mask < start) :
    Wraps maxOffset size mask start after := by
  refine ⟨⟨start, mem_cons_self, hwraps⟩, fun g hg hfits => ?_, fun a ha => ?_⟩
  · have hle := le_of_mem_gapStarts hsorted hstart g hg
    exact absurd (hmask.roundUp_lt_of_le hwraps hle) hfits
  · exact hmask.and_ne_zero hwraps ha.le ha.aligned

/-- A region in the first gap would go beyond the map. -/
theorem beyond_of_lt (hmask : IsMask mask k) (hfits : ¬ roundUp start mask < start)
    (hbeyond : ¬ (roundUp start mask).toNat + size.toNat ≤ maxOffset.toNat) :
    (∀ a, ¬ FitsAfter maxOffset size mask start after a) ∧
      ¬ Wraps maxOffset size mask start after := by
  refine ⟨fun a ha => ?_, fun hwraps => ?_⟩
  · have hle := hmask.roundUp_le hfits ha.le ha.aligned
    have hmax := ha.le_max
    rw [le_def] at hle
    omega
  · exact hbeyond (hwraps.inside start mem_cons_self hfits)

/-- The region fits in the first gap. -/
theorem least_of_le (hmask : IsMask mask k) (hfits : ¬ roundUp start mask < start)
    (hinside : (roundUp start mask).toNat + size.toNat ≤ maxOffset.toNat)
    (hnext : ∀ e ∈ after, roundUp start mask + size ≤ e.vmeStart) :
    Least (FitsAfter maxOffset size mask start after) (roundUp start mask) := by
  refine ⟨⟨le_roundUp hfits, hmask.roundUp_and start, hinside, fun e he => .inr ?_⟩,
    fun b hb => hmask.roundUp_le hfits hb.le hb.aligned⟩
  have hle := hnext e he
  have hmax := maxOffset.isLt
  rwa [le_def, toNat_add, Nat.mod_eq_of_lt (Nat.lt_of_le_of_lt hinside hmax)] at hle

/-- The search goes on behind the next entry. -/
theorem wraps_cons_iff {next : VmMapEntry}
    (hfits : ¬ roundUp start mask < start)
    (hinside : (roundUp start mask).toNat + size.toNat ≤ maxOffset.toNat)
    (hiff : ∀ a, FitsAfter maxOffset size mask start (next :: after) a ↔
      FitsAfter maxOffset size mask next.vmeEnd after a) :
    Wraps maxOffset size mask start (next :: after) ↔
      Wraps maxOffset size mask next.vmeEnd after := by
  constructor
  · rintro ⟨⟨g, hg, hlast⟩, hall, hnone⟩
    refine ⟨⟨g, ?_, hlast⟩, fun g hg => hall g (mem_cons_of_mem _ hg),
      fun a ha => hnone a ((hiff a).mpr ha)⟩
    refine (mem_cons.mp hg).resolve_left ?_
    rintro rfl
    exact hfits hlast
  · rintro ⟨⟨g, hg, hlast⟩, hall, hnone⟩
    refine ⟨⟨g, mem_cons_of_mem _ hg, hlast⟩, fun g hg => ?_, fun a ha => hnone a ((hiff a).mp ha)⟩
    rcases mem_cons.mp hg with rfl | hg
    · exact fun _ => hinside
    · exact hall g hg

/-- How a search ends. -/
def SpaceRight (maxOffset size mask start : VmOffset) (after : List VmMapEntry) : Space → Prop
  | .found _ a _ => Least (FitsAfter maxOffset size mask start after) a
  | .wraps => Wraps maxOffset size mask start after
  | .beyond => (∀ a, ¬ FitsAfter maxOffset size mask start after a) ∧
      ¬ Wraps maxOffset size mask start after

theorem searchGaps_right (hmask : IsMask mask k) (hsorted : EntriesSorted after)
    (hstart : ∀ e ∈ after, start ≤ e.vmeStart) :
    SpaceRight maxOffset size mask start after
      (searchGaps maxOffset size mask entry start after) := by
  induction after generalizing entry start with
  | nil =>
    unfold searchGaps
    by_cases hwraps : roundUp start mask < start
    · rw [if_pos hwraps]
      exact wraps_of_lt hmask hsorted hstart hwraps
    rw [if_neg hwraps]
    by_cases hinside : (roundUp start mask).toNat + size.toNat ≤ maxOffset.toNat
    · dsimp only
      rw [if_neg (region_le_iff.mpr hinside)]
      exact least_of_le hmask hwraps hinside nofun
    · dsimp only
      rw [if_pos (not_not.mp (region_le_iff.not.mpr hinside))]
      exact beyond_of_lt hmask hwraps hinside
  | cons next after ih =>
    unfold searchGaps
    by_cases hwraps : roundUp start mask < start
    · rw [if_pos hwraps]
      exact wraps_of_lt hmask hsorted hstart hwraps
    rw [if_neg hwraps]
    by_cases hinside : (roundUp start mask).toNat + size.toNat ≤ maxOffset.toNat
    · dsimp only
      rw [if_neg (region_le_iff.mpr hinside)]
      have hbehind := (pairwise_cons.mp hsorted.pairwise).1
      have hne := hsorted.nonempty next mem_cons_self
      by_cases hnext : next.vmeStart ≥ roundUp start mask + size
      · rw [if_pos hnext]
        refine least_of_le hmask hwraps hinside fun e he => ?_
        rcases mem_cons.mp he with rfl | he
        · exact hnext
        · have hle := hbehind e he
          bv_omega
      · rw [if_neg hnext]
        have hiff (a : VmOffset) := @fitsAfter_cons_iff maxOffset start size mask a k after next
          hmask hsorted (hstart next mem_cons_self) hwraps hinside hnext
        have hrest := @ih next.vmeEnd (entry + 1) (hsorted.sublist (sublist_cons_self _ _)) hbehind
        have hlast := wraps_cons_iff hwraps hinside hiff
        cases hspace : searchGaps maxOffset size mask (entry + 1) next.vmeEnd after with
        | found entry a e =>
          rw [hspace] at hrest
          exact ⟨(hiff a).mpr hrest.mem, fun b hb => hrest.le b ((hiff b).mp hb)⟩
        | wraps =>
          rw [hspace] at hrest
          exact hlast.mpr hrest
        | beyond =>
          rw [hspace] at hrest
          exact ⟨fun a ha => hrest.1 a ((hiff a).mp ha), fun h => hrest.2 (hlast.mp h)⟩
    · dsimp only
      rw [if_pos (not_not.mp (region_le_iff.not.mpr hinside))]
      exact beyond_of_lt hmask hwraps hinside

/-! ## Where the search begins -/

/-- A map whose entries before `first_free` leave no gap. -/
structure SpaceOk (map : VmMapRing) : Prop where
  wellFormed : map.WellFormed
  firstFree_le : map.firstFree ≤ map.entries.length
  firstFree : map.firstFree ≠ 0 →
    ∀ x, map.minOffset ≤ x → x < map.vmeEnd map.firstFree → map.Mapped x

/-- The entry before the first gap that is searched, and where that gap begins. -/
def searchFrom (map : VmMapRing) (start : VmOffset) : ℕ × VmOffset :=
  if start = map.minOffset then
    (map.firstFree, if map.firstFree ≠ 0 then map.vmeEnd map.firstFree else start)
  else ((map.found start).2, if (map.found start).1 then map.vmeEnd (map.found start).2 else start)

/-- What lies before the search is mapped, and the entries after it come later. -/
structure BeginsAt (map : VmMapRing) (start : VmOffset) (entry : ℕ) (first : VmOffset) : Prop where
  le : start ≤ first
  before : ∀ e ∈ map.entries.take entry, e.vmeEnd ≤ first
  after : ∀ e ∈ map.entries.drop entry, first ≤ e.vmeStart
  mapped : ∀ x, start ≤ x → x < first → map.Mapped x

/-- The search behind an entry. -/
theorem WellFormed.beginsAt (h : map.WellFormed) {i : ℕ} (hi : i < map.entries.length)
    (hle : start ≤ map.vmeEnd (i + 1))
    (hmapped : ∀ x, start ≤ x → x < map.vmeEnd (i + 1) → map.Mapped x) :
    map.BeginsAt start (i + 1) (map.vmeEnd (i + 1)) := by
  have hget : map.entries[i]? = some map.entries[i] := List.getElem?_eq_getElem hi
  have hparts : map.entries = map.entries.take i ++ map.entries[i] :: map.entries.drop (i + 1) := by
    rw [getElem_cons_drop, take_append_drop]
  have hsorted := h.sorted
  rw [hparts] at hsorted
  refine ⟨hle, fun e he => ?_, fun e he => ?_, hmapped⟩
  · rw [vmeEnd_of_get hget]
    rw [take_succ_eq_append_getElem hi, mem_append, mem_singleton] at he
    rcases he with he | rfl
    · have hbefore := hsorted.le_vmeStart e he
      have hne := h.sorted.nonempty _ (getElem_mem hi)
      bv_omega
    · exact BitVec.le_refl _
  · rw [vmeEnd_of_get hget]
    exact hsorted.le_of_append he

theorem SpaceOk.searchFrom_beginsAt (h : map.SpaceOk) (start : VmOffset) :
    map.BeginsAt start (map.searchFrom start).1 (map.searchFrom start).2 := by
  unfold searchFrom
  by_cases hstart : start = map.minOffset
  · rw [if_pos hstart]
    by_cases hzero : map.firstFree = 0
    · rw [hzero, if_neg (not_not.mpr rfl)]
      refine ⟨BitVec.le_refl _, nofun, fun e he => ?_, fun x hle hlt => ?_⟩
      · rw [hstart]
        exact h.wellFormed.min_le e (mem_of_mem_drop he)
      · bv_omega
    · have hle := h.firstFree_le
      obtain ⟨i, hi⟩ : ∃ i, map.firstFree = i + 1 := ⟨map.firstFree - 1, by omega⟩
      have hmapped := h.firstFree hzero
      rw [if_pos hzero]
      rw [hi] at hmapped ⊢
      have hlt : i < map.entries.length := by omega
      refine h.wellFormed.beginsAt hlt ?_ fun x hx => hmapped x (by rwa [← hstart])
      have hget : map.entries[i]? = some map.entries[i] := List.getElem?_eq_getElem hlt
      have hne := h.wellFormed.sorted.nonempty _ (getElem_mem hlt)
      have hbound := h.wellFormed.min_le _ (getElem_mem hlt)
      rw [hstart, vmeEnd_of_get hget]
      bv_omega
  · rw [if_neg hstart]
    unfold found
    by_cases hhits : map.Hits start
    · rw [if_pos hhits]
      have hend := lt_vmeEnd_preceding hhits.1
      refine h.wellFormed.beginsAt hhits.1 (BitVec.le_of_lt hend) fun x hle hlt => ?_
      have hlt' := hhits.1
      have hget : map.entries[map.preceding start]? = some map.entries[map.preceding start] :=
        List.getElem?_eq_getElem hlt'
      refine ⟨_, getElem_mem hlt', (vmeStart_le_iff hget).mp ⟨?_, hlt⟩⟩
      have hbefore := hhits.2
      bv_omega
    · rw [if_neg hhits]
      have hmiss := (h.wellFormed.lookup_right start).miss
      unfold found at hmiss
      rw [if_neg hhits] at hmiss
      obtain ⟨hunmapped, -, hlast⟩ := hmiss rfl
      dsimp only at hlast ⊢
      rw [if_neg Bool.false_ne_true]
      refine ⟨BitVec.le_refl _, fun e he => ?_, fun e he => ?_, fun x hle hlt => by bv_omega⟩
      · obtain ⟨i, hlt, hget⟩ := mem_take_iff_getElem.mp he
        exact (hlast i e (by rw [List.getElem?_eq_getElem (by omega), hget])).mpr (by omega)
      · by_contra hlate
        obtain ⟨i, hlt, hget⟩ := mem_drop_iff_getElem.mp he
        have hend := (hlast (map.preceding start + i) e
          (by rw [List.getElem?_eq_getElem (by omega), hget])).not.mpr (by omega)
        refine hunmapped ⟨e, mem_of_mem_drop he, ?_, ?_⟩
        · bv_omega
        · bv_omega

/-! ## The address that is asked for -/

/-- A region at this address is inside of the map and free, and the address is at or after the
one asked for. -/
structure Fits (map : VmMapRing) (address size mask a : VmOffset) : Prop where
  min_le : map.minOffset ≤ a
  le : address ≤ a
  aligned : a &&& mask = 0
  le_max : a.toNat + size.toNat ≤ map.maxOffset.toNat
  free : ∀ x, a ≤ x → x.toNat < a.toNat + size.toNat → ¬ map.Mapped x

/-- The first address that comes into question. -/
def firstAddress (map : VmMapRing) (address : VmOffset) : VmOffset :=
  if address < map.minOffset then map.minOffset else address

theorem firstAddress_le_iff : map.firstAddress address ≤ a ↔
    map.minOffset ≤ a ∧ address ≤ a := by
  unfold firstAddress
  split <;> bv_omega

/-- The least address where the region fits lies where the search looks for it, and not
inside of an entry. Only regions without pages fit anywhere else. -/
def Reached (map : VmMapRing) (address size mask : VmOffset) : Prop :=
  ∀ a, Least (map.Fits address size mask) a →
    (map.searchFrom (map.firstAddress address)).2 ≤ a ∧
      ∀ e ∈ map.entries, ¬ (e.vmeStart < a ∧ a < e.vmeEnd)

/-- What the search finds fits. -/
theorem SpaceOk.fits (h : map.SpaceOk)
    (ha : FitsAfter map.maxOffset size mask (map.searchFrom (map.firstAddress address)).2
      (map.entries.drop (map.searchFrom (map.firstAddress address)).1) a) :
    map.Fits address size mask a := by
  have hbegin := h.searchFrom_beginsAt (map.firstAddress address)
  obtain ⟨hmin, hle⟩ := firstAddress_le_iff.mp (BitVec.le_trans hbegin.le ha.le)
  refine ⟨hmin, hle, ha.aligned, ha.le_max, ?_⟩
  rintro x hax hlt ⟨e, he, hin⟩
  have hstart := hin.1
  have hend := hin.2
  have hfirst := ha.le
  rw [← take_append_drop (map.searchFrom (map.firstAddress address)).1 map.entries,
    mem_append] at he
  rcases he with he | he
  · have hbefore := hbegin.before e he
    bv_omega
  · rcases ha.apart e he with hapart | hapart
    · bv_omega
    · rw [le_def] at hstart
      omega

/-- The least address that fits is found where it is looked for. -/
theorem SpaceOk.fitsAfter (h : map.SpaceOk) (ha : map.Fits address size mask a)
    (hle : (map.searchFrom (map.firstAddress address)).2 ≤ a)
    (hout : ∀ e ∈ map.entries, ¬ (e.vmeStart < a ∧ a < e.vmeEnd)) :
    FitsAfter map.maxOffset size mask (map.searchFrom (map.firstAddress address)).2
      (map.entries.drop (map.searchFrom (map.firstAddress address)).1) a := by
  refine ⟨hle, ha.aligned, ha.le_max, fun e he => ?_⟩
  have hmem := mem_of_mem_drop he
  have hne := h.wellFormed.sorted.nonempty e hmem
  by_cases hend : e.vmeEnd ≤ a
  · exact .inl hend
  · right
    have hstart : a ≤ e.vmeStart := BitVec.not_lt.mp fun hlt =>
      hout e hmem ⟨hlt, BitVec.not_le.mp hend⟩
    by_contra hover
    exact ha.free e.vmeStart hstart (by omega) ⟨e, hmem, BitVec.le_refl _, hne⟩

/-- How the search for an address ends. -/
theorem SpaceOk.search_right (h : map.SpaceOk) (hmask : IsMask mask k) (address size : VmOffset) :
    SpaceRight map.maxOffset size mask (map.searchFrom (map.firstAddress address)).2
      (map.entries.drop (map.searchFrom (map.firstAddress address)).1)
      (searchGaps map.maxOffset size mask (map.searchFrom (map.firstAddress address)).1
        (map.searchFrom (map.firstAddress address)).2
        (map.entries.drop (map.searchFrom (map.firstAddress address)).1)) :=
  searchGaps_right hmask (h.wellFormed.sorted.sublist (drop_sublist _ _))
    (h.searchFrom_beginsAt _).after

/-- The search finds the least address, or there is none. -/
def SpaceExact (map : VmMapRing) (address size mask : VmOffset) : Space → Prop
  | .found _ a _ => Least (map.Fits address size mask) a
  | .wraps | .beyond => ∀ a, ¬ map.Fits address size mask a

/-- Where one address fits there is a least one. -/
theorem exists_least {P : VmOffset → Prop} (h : P a) : ∃ b, Least P b := by
  induction hn : a.toNat using Nat.strong_induction_on generalizing a with
  | _ n ih =>
    by_cases hleast : ∀ b, P b → a ≤ b
    · exact ⟨a, h, hleast⟩
    · obtain ⟨b, hb⟩ := not_forall.mp hleast
      obtain ⟨hP, hlt⟩ := Classical.not_imp.mp hb
      exact ih b.toNat (by rw [← hn]; exact lt_def.mp (BitVec.not_le.mp hlt)) hP rfl

/-- The search is exact when it looks where the region fits. -/
theorem SpaceOk.spaceExact_iff (h : map.SpaceOk) {space : Space}
    (hright : SpaceRight map.maxOffset size mask (map.searchFrom (map.firstAddress address)).2
      (map.entries.drop (map.searchFrom (map.firstAddress address)).1) space) :
    map.SpaceExact address size mask space ↔ map.Reached address size mask := by
  constructor
  · intro hexact b hb
    cases space with
    | found entry a e =>
      obtain rfl : b = a := BitVec.le_antisymm (hb.le a hexact.mem) (hexact.le b hb.mem)
      refine ⟨hright.mem.le, fun e he hin => ?_⟩
      have hbegin := h.searchFrom_beginsAt (map.firstAddress address)
      have hle := hright.mem.le
      rw [← take_append_drop (map.searchFrom (map.firstAddress address)).1 map.entries,
        mem_append] at he
      rcases he with he | he
      · have hbefore := hbegin.before e he
        bv_omega
      · rcases hright.mem.apart e he with hapart | hapart
        · bv_omega
        · have hlt := lt_def.mp hin.1
          omega
    | wraps => exact absurd hb.mem (hexact b)
    | beyond => exact absurd hb.mem (hexact b)
  · intro hreached
    have hfound {a : VmOffset} (ha : map.Fits address size mask a) : ∃ b, b ≤ a ∧
        FitsAfter map.maxOffset size mask (map.searchFrom (map.firstAddress address)).2
          (map.entries.drop (map.searchFrom (map.firstAddress address)).1) b := by
      obtain ⟨b, hb⟩ := exists_least ha
      obtain ⟨hle, hout⟩ := hreached b hb
      exact ⟨b, hb.le a ha, h.fitsAfter hb.mem hle hout⟩
    cases space with
    | found entry a e =>
      refine ⟨h.fits hright.mem, fun b hb => ?_⟩
      obtain ⟨c, hle, hc⟩ := hfound hb
      exact BitVec.le_trans (hright.le c hc) hle
    | wraps =>
      intro b hb
      obtain ⟨c, -, hc⟩ := hfound hb
      exact hright.none c hc
    | beyond =>
      intro b hb
      obtain ⟨c, -, hc⟩ := hfound hb
      exact hright.1 c hc

/-! ## The routines -/

/-- The address is the least one that fits, or none fits and the code says so, or the routine
waits as the map requests. -/
def Outcome.Exact (map : VmMapRing) (address size mask : VmOffset) : Outcome → Prop
  | .returned reply =>
    (reply.kr = .noSpace ↔ ∀ a, ¬ map.Fits address size mask a) ∧
      ∀ a, Least (map.Fits address size mask) a → reply.address = a
  | .waits _ => map.waitForSpace = true ∧ ∀ a, ¬ map.Fits address size mask a

/-- A routine answers as the search ended. -/
def Answers (map : VmMapRing) (outcome : Outcome) : Space → Prop
  | .found _ a _ => ∃ reply, outcome = .returned reply ∧ reply.kr ≠ .noSpace ∧ reply.address = a
  | .wraps | .beyond =>
    (∃ reply, outcome = .returned reply ∧ reply.kr = .noSpace) ∨
      map.waitForSpace = true ∧ ∃ map', outcome = .waits map'

theorem SpaceOk.exact_iff (h : map.SpaceOk) {space : Space} {outcome : Outcome}
    (hright : SpaceRight map.maxOffset size mask (map.searchFrom (map.firstAddress address)).2
      (map.entries.drop (map.searchFrom (map.firstAddress address)).1) space)
    (hanswer : map.Answers outcome space) :
    outcome.Exact map address size mask ↔ map.Reached address size mask := by
  rw [← h.spaceExact_iff hright]
  have hnone (hspace : map.SpaceExact address size mask space ↔
        ∀ a, ¬ map.Fits address size mask a)
      (hcases : (∃ reply, outcome = .returned reply ∧ reply.kr = .noSpace) ∨
        map.waitForSpace = true ∧ ∃ map', outcome = .waits map') :
      outcome.Exact map address size mask ↔ map.SpaceExact address size mask space := by
    rw [hspace]
    rcases hcases with ⟨reply, rfl, hkr⟩ | ⟨hwait, map', rfl⟩
    · exact ⟨fun hexact => hexact.1.mp hkr, fun hnone =>
        ⟨iff_of_true hkr hnone, fun a ha => absurd ha.mem (hnone a)⟩⟩
    · exact ⟨fun hexact => hexact.2, fun hnone => ⟨hwait, hnone⟩⟩
  cases space with
  | found entry a e =>
    obtain ⟨reply, rfl, hkr, rfl⟩ := hanswer
    have hfits := h.fits hright.mem
    constructor
    · intro hexact
      obtain ⟨b, hb⟩ := exists_least hfits
      obtain rfl := hexact.2 b hb
      exact hb
    · intro hleast
      refine ⟨iff_of_false hkr fun hnone => hnone _ hfits, fun b hb => ?_⟩
      exact BitVec.le_antisymm (hleast.le b hb.mem) (hb.le _ hleast.mem)
  | wraps => exact hnone Iff.rfl hanswer
  | beyond => exact hnone Iff.rfl hanswer

variable {oracle : EnterOracle} {call : EnterCall}

/-- `vm_map_find_space`. -/
theorem SpaceOk.findSpace (h : map.SpaceOk) (hmask : IsMask mask k) :
    Outcome.Exact map map.minOffset size mask (.returned (vmMapFindSpace map address size mask)) ↔
      map.Reached map.minOffset size mask := by
  have hright := h.search_right hmask map.minOffset size
  have hfirst : map.firstAddress map.minOffset = map.minOffset := by
    unfold firstAddress
    exact if_neg (BitVec.lt_irrefl _)
  have hfrom : map.searchFrom map.minOffset = (map.firstFree,
      if map.firstFree = 0 then map.minOffset else map.vmeEnd map.firstFree) := by
    unfold searchFrom
    rw [if_pos rfl]
    by_cases hzero : map.firstFree = 0
    · rw [if_neg (not_not.mpr hzero), if_pos hzero]
    · rw [if_pos hzero, if_neg hzero]
  refine h.exact_iff hright ?_
  rw [hfirst, hfrom]
  unfold vmMapFindSpace
  dsimp only
  cases hspace : searchGaps map.maxOffset size mask map.firstFree
      (if map.firstFree = 0 then map.minOffset else map.vmeEnd map.firstFree)
      (map.entries.drop map.firstFree) with
  | found entry a e => exact ⟨_, rfl, nofun, rfl⟩
  | wraps => exact .inl ⟨_, rfl, rfl⟩
  | beyond => exact .inl ⟨_, rfl, rfl⟩

/-- Calls that make nothing of a map. -/
def quiet : EnterOracle := ⟨fun _ _ => false, fun map _ _ _ => (map, .success)⟩

def plain : EnterCall := ⟨none, 0, false, 3, 7, 1⟩

end VmMapRing

end MachVirtuTerm
