import MachVirtuTerm.Lib.Run
import MachVirtuTerm.Vm.MapAttributesExact

/-!
# Attributes over runs

What each routine does to the attributes of a map, and the protections of all entries in every
run: they stay within the maximum if `vm_map` is not asked for more than it is to allow.
-/

open List Function Option

namespace MachVirtuTerm

open Or

variable {map : VmMap} {start a : VmOffset} {«end» : VmOffset}

namespace VmMap

/-- What a map has at an address. -/
def attributesAt (map : VmMap) (a : VmOffset) : Option PageAttributes :=
  MachVirtuTerm.attributesAt map.entries a

/-- An attribute is set at the mapped addresses of a range, and nothing else changes. -/
def SetsIn (map : VmMap) (start «end» : VmOffset) (f : PageAttributes → PageAttributes)
    (map' : VmMap) : Prop :=
  ∀ a, map'.attributesAt a =
    if start ≤ a ∧ a < «end» then (map.attributesAt a).map f else map.attributesAt a

/-- All addresses of a range are mapped, to what a predicate allows. -/
def Covers (map : VmMap) (start «end» : VmOffset) (P : PageAttributes → Prop) : Prop :=
  ∀ a, start ≤ a → a < «end» → ∃ x, map.attributesAt a = some x ∧ P x

end VmMap

/-- The protections that `vm_map_protect` gives an address. -/
def PageAttributes.protect (newProt : VmProt) (setMax : Bool) (x : PageAttributes) : PageAttributes :=
  if setMax then
    { x with
      maxProtection := newProt
      protection := newProt &&& x.protection }
  else { x with protection := newProt }

theorem setsAttribute_protect (newProt : VmProt) (setMax : Bool) :
    SetsAttribute (·.protect newProt setMax) (·.protect newProt setMax) := by
  constructor
  · intro e
    unfold VmMapEntry.protect
    split
    · rfl
    · rfl
  · intro e a
    unfold VmMapEntry.protect PageAttributes.protect
    split
    · rfl
    · rfl

theorem setsAttribute_inheritance (newInheritance : BitVec 2) :
    SetsAttribute ({ · with inheritance := newInheritance })
      ({ · with inheritance := newInheritance }) :=
  ⟨fun _ => rfl, fun _ _ => rfl⟩

theorem setsAttribute_behavior (newBehavior : BitVec 2) :
    SetsAttribute ({ · with behavior := newBehavior }) ({ · with behavior := newBehavior }) :=
  ⟨fun _ => rfl, fun _ _ => rfl⟩

section Pass

variable {entries l : List VmMapEntry} {entry e : VmMapEntry} {prev : VmOffset}
  {newProt : BitVec 32}

/-- If the first pass succeeds the entries before the end allow the protection, and all addresses
from where it starts on are mapped. -/
theorem protectPass_success (hl : EntriesOrdered l)
    (h : protectPass newProt «end» prev l = .success) :
    (∀ e ∈ l, e.vmeStart < «end» → newProt &&& protBits e.maxProtection = newProt) ∧
      ∀ a, prev ≤ a → a < «end» → ∃ e ∈ l, e.Contains a ∧ e.vmeStart < «end» := by
  induction l generalizing prev with
  | nil =>
    unfold protectPass at h
    split at h
    · cases h
    · rename_i hend
      exact And.intro (fun _ he => nomatch he) fun a hprev ha => by bv_omega
  | cons current after ih =>
    obtain ⟨hle, hfirst, hrest⟩ := entriesOrdered_cons.mp hl
    unfold protectPass at h
    split at h
    · rename_i hstart
      split at h
      · cases h
      split at h
      · cases h
      rename_i hadjacent
      split at h
      · cases h
      rename_i hallowed
      obtain ⟨hprot, hcover⟩ := ih hrest h
      constructor
      · intro e he hlt
        rcases mem_cons.mp he with rfl | he
        · exact not_not.mp hallowed
        · exact hprot e he hlt
      · intro a hprev ha
        by_cases hin : a < current.vmeEnd
        · have hcontains : current.Contains a := ⟨by rw [not_not.mp hadjacent]; exact hprev, hin⟩
          exact ⟨current, mem_cons_self .., hcontains, hstart⟩
        · obtain ⟨e, he, hcontains⟩ := hcover a (BitVec.not_lt.mp hin) ha
          exact ⟨e, mem_cons_of_mem _ he, hcontains⟩
    · rename_i hstart
      split at h
      · cases h
      rename_i hend
      constructor
      · intro e he hlt
        rcases mem_cons.mp he with rfl | he
        · exact absurd hlt hstart
        · have hge := hfirst e he
          bv_omega
      · intro a hprev ha
        bv_omega

/-- If the loop of `vm_map_range_check` succeeds all addresses are mapped. -/
theorem rangeCheckLoop_true (h : rangeCheckLoop «end» prev l = true) :
    ∀ a, prev ≤ a → a < «end» → ∃ e ∈ l, e.Contains a := by
  induction l generalizing prev with
  | nil => cases h
  | cons cur after ih =>
    unfold rangeCheckLoop at h
    split at h
    · rename_i hadjacent
      intro a hprev ha
      by_cases hin : a < cur.vmeEnd
      · exact ⟨cur, mem_cons_self .., hadjacent ▸ hprev, hin⟩
      · split at h
        · bv_omega
        · obtain ⟨e, he, hcontains⟩ := ih h a (BitVec.not_lt.mp hin) ha
          exact ⟨e, mem_cons_of_mem _ he, hcontains⟩
    · cases h

/-- An entry in order is what its addresses have. -/
theorem attributesAt_of_contains (hl : EntriesOrdered l) (he : e ∈ l) (hc : e.Contains a) :
    attributesAt l a = some (e.attributesAt a) := by
  induction l with
  | nil => cases he
  | cons entry l ih =>
    obtain ⟨-, hfirst, hrest⟩ := entriesOrdered_cons.mp hl
    rw [attributesAt_cons]
    rcases mem_cons.mp he with rfl | he
    · rw [if_pos hc]
    · have hle := hfirst e he
      have hstart := hc.1
      have hnot : ¬entry.Contains a := fun h => by
        have hlt := h.2
        bv_omega
      rw [if_neg hnot]
      exact ih hrest he

/-- A first pass that succeeds goes over the place where the attribute is set. -/
theorem vmMapProtect_success {newProt : BitVec 32} {setMax : Bool} (hmap : EntriesOrdered map.entries)
    (h : (vmMapProtect map start «end» newProt setMax).1 = .success) :
    (vmMapProtect map start «end» newProt setMax).2 = { map with
        entries := setRange (·.protect (newProt.setWidth 3) setMax) start «end» map.entries } ∧
      (∀ e ∈ map.entries, start < e.vmeEnd → e.vmeStart < «end» →
        newProt &&& protBits e.maxProtection = newProt) ∧
      ∀ a, start ≤ a → a < «end» → ∃ e ∈ map.entries, e.Contains a ∧
        start < e.vmeEnd ∧ e.vmeStart < «end» := by
  have happend := vmMapLookupEntry_append map.entries start
  have hbefore : ∀ e ∈ (vmMapLookupEntry map.entries start).2.1, e.vmeEnd ≤ start := fun e he =>
    vmeEnd_le_of_lookup he
  unfold vmMapProtect at h ⊢
  split at h
  · rename_i before entry after hlookup
    rw [hlookup] at happend hbefore
    dsimp only at happend hbefore
    have hordered : EntriesOrdered (entry :: after) := by
      rw [← happend] at hmap
      exact (entriesOrdered_append.mp hmap).2.1
    have hstart : entry.vmeStart ≤ start := of_decide_eq_true (lookup_found hlookup).symm
    split at h
    · rename_i hpass
      obtain ⟨hprot, hcover⟩ := protectPass_success hordered hpass
      refine ⟨rfl, fun e he hlt hend => ?_, fun a ha hend => ?_⟩
      · rw [← happend] at he
        rcases mem_append.mp he with he | he
        · have hle := hbefore e he
          bv_omega
        · exact hprot e he hend
      · obtain ⟨e, he, hcontains, hlt⟩ := hcover a (by bv_omega) hend
        have hin := hcontains.2
        refine ⟨e, ?_, hcontains, by bv_omega, hlt⟩
        rw [← happend]
        exact mem_append_right _ he
    · rename_i hpass
      exact absurd h hpass
  · cases h

/-- A call that fails leaves the map alone. -/
theorem vmMapProtect_failure {newProt : BitVec 32} {setMax : Bool}
    (h : (vmMapProtect map start «end» newProt setMax).1 ≠ .success) :
    (vmMapProtect map start «end» newProt setMax).2 = map := by
  unfold vmMapProtect at h ⊢
  split
  · rename_i hlookup
    rw [hlookup] at h
    dsimp only at h
    split
    · rename_i hpass
      rw [hpass] at h
      exact absurd rfl h
    · rfl
  · rfl

/-- If the range check succeeds all addresses are mapped. -/
theorem vmMapRangeCheck_true (h : vmMapRangeCheck map start «end» = true) :
    ∀ a, start ≤ a → a < «end» → ∃ e ∈ map.entries, e.Contains a := by
  have happend := vmMapLookupEntry_append map.entries start
  unfold vmMapRangeCheck at h
  split at h
  · cases h
  split at h
  · rename_i before cur after hlookup
    rw [hlookup] at happend
    dsimp only at happend
    have hstart : cur.vmeStart ≤ start := of_decide_eq_true (lookup_found hlookup).symm
    intro a ha hend
    by_cases hin : a < cur.vmeEnd
    · refine ⟨cur, ?_, by bv_omega, hin⟩
      rw [← happend]
      exact mem_append_right _ (mem_cons_self ..)
    · split at h
      · bv_omega
      · obtain ⟨e, he, hcontains⟩ := rangeCheckLoop_true h a (BitVec.not_lt.mp hin) hend
        refine ⟨e, ?_, hcontains⟩
        rw [← happend]
        exact mem_append_right _ (mem_cons_of_mem _ he)
  · cases h

/-- A range whose start is moved down to its end has no address, like the range. -/
theorem mem_range_min (start «end» a : VmOffset) :
    (if start > «end» then «end» else start) ≤ a ∧ a < «end» ↔ start ≤ a ∧ a < «end» := by
  split
  · constructor
    · rintro ⟨hle, hlt⟩
      bv_omega
    · rintro ⟨hle, hlt⟩
      bv_omega
  · exact Iff.rfl

/-- The addresses in the range of `VM_MAP_RANGE_CHECK` are those in the range asked for that the
map has. -/
theorem mem_clampRange (hmap : map.Ok) (he : e ∈ map.entries) (hc : e.Contains a) :
    (vmMapClampRange map start «end»).1 ≤ a ∧ a < (vmMapClampRange map start «end»).2 ↔
      start ≤ a ∧ a < «end» := by
  have hmin := hmap.min_le e he
  have hmax := hmap.le_max e he
  obtain ⟨hstart, hend⟩ := hc
  have hlow : (if start < map.minOffset then map.minOffset else start) ≤ a ↔ start ≤ a := by
    split
    · exact iff_of_true (by bv_omega) (by bv_omega)
    · exact Iff.rfl
  have hhigh : a < (if «end» > map.maxOffset then map.maxOffset else «end») ↔ a < «end» := by
    split
    · exact iff_of_true (by bv_omega) (by bv_omega)
    · exact Iff.rfl
  rw [← hlow, ← hhigh]
  exact mem_range_min _ _ a

end Pass

section Simplify

variable {entries before after : List VmMapEntry} {entry prev this e : VmMapEntry}

/-- Putting two neighbours together keeps entries in order and changes nothing they have. -/
theorem merge_refines (h : prev.Agrees this) (hl : EntriesOrdered (before ++ prev :: this :: after)) :
    EntriesOrdered (before ++ prev.front this.vmeEnd :: after) ∧
      (∀ a, attributesAt (before ++ prev.front this.vmeEnd :: after) a =
        attributesAt (before ++ prev :: this :: after) a) := by
  obtain ⟨hbefore, hrest, hmid⟩ := entriesOrdered_append.mp hl
  obtain ⟨hprev, hfirst, hthese⟩ := entriesOrdered_cons.mp hrest
  obtain ⟨hthis, hsecond, hafter⟩ := entriesOrdered_cons.mp hthese
  have hnext : prev.vmeEnd ≤ this.vmeStart := hfirst this (mem_cons_self ..)
  constructor
  · have hfront : EntriesOrdered (prev.front this.vmeEnd :: after) :=
      entriesOrdered_cons.mpr ⟨by change prev.vmeStart ≤ this.vmeEnd; bv_omega, hsecond, hafter⟩
    refine entriesOrdered_append.mpr ⟨hbefore, hfront, fun e he e' he' => ?_⟩
    rcases mem_cons.mp he' with rfl | he'
    · exact hmid e he prev (mem_cons_self ..)
    · exact hmid e he e' (by simp [he'])
  · intro a
    rw [attributesAt_append, attributesAt_append, attributesAt_merge h hprev hthis]

/-- What `vm_map_simplify` does to the entries: nothing, or two neighbours that agree are put
together. -/
inductive Simplified : List VmMapEntry → List VmMapEntry → Prop
  | same (entries : List VmMapEntry) : Simplified entries entries
  | merge {before after : List VmMapEntry} {prev this : VmMapEntry} (h : prev.Agrees this) :
    Simplified (before ++ prev :: this :: after) (before ++ prev.front this.vmeEnd :: after)

theorem simplifyLower_simplified (entries : List VmMapEntry) (start : VmOffset) :
    Simplified entries (simplifyLower entries start) := by
  have happend := vmMapLookupEntry_append entries start
  unfold simplifyLower
  split
  · rename_i before this after hlookup
    rw [hlookup] at happend
    dsimp only at happend
    split
    · rename_i prev hprev
      split
      · rename_i hagrees
        have hbefore : before = before.dropLast ++ [prev] :=
          (dropLast_append_getLast? prev hprev).symm
        have heq : entries = before.dropLast ++ prev :: this :: after := by
          rw [← happend]
          conv_lhs => rw [hbefore]
          rw [append_assoc]
          rfl
        conv => lhs; rw [heq]
        exact .merge hagrees.1
      · exact .same _
    · exact .same _
  · exact .same _

theorem simplifyUpper_simplified (entries : List VmMapEntry) (start : VmOffset) :
    Simplified entries (simplifyUpper entries start) := by
  have happend := vmMapLookupEntry_append entries start
  unfold simplifyUpper
  split
  · rename_i before this next after hlookup
    rw [hlookup] at happend
    dsimp only at happend
    split
    · rename_i hagrees
      conv => lhs; rw [← happend]
      exact .merge hagrees.1
    · exact .same _
  · exact .same _

theorem Simplified.spec {entries' : List VmMapEntry} (h : Simplified entries entries')
    (hl : EntriesOrdered entries) :
    EntriesOrdered entries' ∧ ∀ a, attributesAt entries' a = attributesAt entries a := by
  cases h with
  | same => exact ⟨hl, fun _ => rfl⟩
  | merge h => exact merge_refines h hl

/-- An entry that two neighbours were put together to lies between the bounds of the map. -/
theorem Simplified.mem {entries' : List VmMapEntry} (h : Simplified entries entries')
    (he : e ∈ entries') : ∃ e' ∈ entries, ∃ e'' ∈ entries,
      e.vmeStart = e'.vmeStart ∧ e.vmeEnd = e''.vmeEnd ∧ SameProtections e e' := by
  cases h with
  | same => exact ⟨e, he, e, he, rfl, rfl, rfl, rfl⟩
  | @merge before after prev this h =>
    rcases mem_append.mp he with he | he
    · exact ⟨e, mem_append_left _ he, e, mem_append_left _ he, rfl, rfl, rfl, rfl⟩
    rcases mem_cons.mp he with rfl | he
    · exact ⟨prev, by simp, this, by simp, rfl, rfl, rfl, rfl⟩
    · exact ⟨e, by simp [he], e, by simp [he], rfl, rfl, rfl, rfl⟩

end Simplify

/-- What the operations do to the attributes of a map. -/
structure VmMap.AttributesExact (map : VmMap) : Prop where
  /-- A clip changes nothing. -/
  clipStart : ∀ before entry after startaddr, map.entries = before ++ entry :: after →
    startaddr < entry.vmeEnd → ∀ a,
      MachVirtuTerm.attributesAt ((vmMapClipStart before entry startaddr).1 ++
        (vmMapClipStart before entry startaddr).2 :: after) a = map.attributesAt a
  /-- A clip changes nothing. -/
  clipEnd : ∀ before entry after endaddr, map.entries = before ++ entry :: after →
    entry.vmeStart < endaddr → ∀ a,
      MachVirtuTerm.attributesAt (before ++ (vmMapClipEnd entry after endaddr).1 ::
        (vmMapClipEnd entry after endaddr).2) a = map.attributesAt a
  /-- `vm_map_simplify` changes nothing. -/
  simplify : ∀ start a, (vmMapSimplify map start).attributesAt a = map.attributesAt a
  /-- `vm_map_protect` sets the protection in a range that is mapped and allows it, or does
  nothing. -/
  protect : ∀ start «end» newProt setMax,
    ((vmMapProtect map start «end» newProt setMax).1 = .success →
      map.Covers start «end» (fun x => newProt &&& protBits x.maxProtection = newProt) ∧
        map.SetsIn start «end» (·.protect (newProt.setWidth 3) setMax)
          (vmMapProtect map start «end» newProt setMax).2) ∧
      ((vmMapProtect map start «end» newProt setMax).1 ≠ .success →
        (vmMapProtect map start «end» newProt setMax).2 = map)
  /-- `vm_map_inherit` sets the inheritance where a range is mapped. -/
  inherit : ∀ start «end» newInheritance,
    (vmMapInherit map start «end» newInheritance).1 = .success ∧
      map.SetsIn start «end» ({ · with inheritance := newInheritance })
        (vmMapInherit map start «end» newInheritance).2
  /-- `vm_map_behavior_set` sets the behavior in a range that is mapped, or does nothing. -/
  behaviorSet : ∀ start «end» newBehavior,
    ((vmMapBehaviorSet map start «end» newBehavior).1 = .success →
      map.Covers start «end» (fun _ => True) ∧
        map.SetsIn start «end» ({ · with behavior := newBehavior.setWidth 2 })
          (vmMapBehaviorSet map start «end» newBehavior).2) ∧
      ((vmMapBehaviorSet map start «end» newBehavior).1 ≠ .success →
        (vmMapBehaviorSet map start «end» newBehavior).2 = map)

section Exact

/-- `vm_map_inherit` sets the attribute at the addresses asked for. -/
theorem vmMapInherit_setsIn (hmap : map.Ok) (start «end» : VmOffset) (newInheritance : BitVec 2) :
    map.SetsIn start «end» ({ · with inheritance := newInheritance })
      (vmMapInherit map start «end» newInheritance).2 := by
  intro a
  change attributesAt (setRange _ (vmMapClampRange map start «end»).1
    (vmMapClampRange map start «end»).2 map.entries) a = _
  rw [attributesAt_setRange (setsAttribute_inheritance newInheritance) hmap.ordered]
  by_cases hmapped : ∃ e ∈ map.entries, e.Contains a
  · obtain ⟨e, he, hcontains⟩ := hmapped
    simp only [mem_clampRange hmap he hcontains]
    rfl
  · have hnone : map.attributesAt a = none := by
      unfold VmMap.attributesAt attributesAt
      rw [map_eq_none_iff, find?_eq_none]
      exact fun e he hcontains => hmapped ⟨e, he, of_decide_eq_true hcontains⟩
    have hnone' : attributesAt map.entries a = none := hnone
    rw [hnone, hnone']
    simp only [map_none, ite_self]

/-- The operations are exact on every map. -/
theorem VmMap.Ok.attributesExact (hmap : map.Ok) : map.AttributesExact where
  clipStart before entry after startaddr hentries hend a := by
    rw [attributesAt_clipStart before after (by bv_omega), ← hentries]
    rfl
  clipEnd before entry after endaddr hentries hstart a := by
    rw [attributesAt_clipEnd before after (by bv_omega), ← hentries]
    rfl
  simplify start a := by
    have hlower := (simplifyLower_simplified map.entries start).spec hmap.ordered
    have hupper := (simplifyUpper_simplified (simplifyLower map.entries start) start).spec hlower.1
    exact (hupper.2 a).trans (hlower.2 a)
  protect start «end» newProt setMax := by
    refine ⟨fun h => ?_, vmMapProtect_failure⟩
    obtain ⟨hentries, hprot, hcover⟩ := vmMapProtect_success hmap.ordered h
    constructor
    · intro a ha hend
      obtain ⟨e, he, hcontains, hlt, hlt'⟩ := hcover a ha hend
      exact ⟨e.attributesAt a, attributesAt_of_contains hmap.ordered he hcontains, hprot e he hlt hlt'⟩
    · intro a
      rw [hentries]
      exact attributesAt_setRange (setsAttribute_protect _ _) hmap.ordered
  inherit start «end» newInheritance := ⟨rfl, vmMapInherit_setsIn hmap start «end» newInheritance⟩
  behaviorSet start «end» newBehavior := by
    unfold vmMapBehaviorSet
    split
    · split
      · rename_i hcheck
        refine ⟨fun _ => ⟨fun a ha hend => ?_, fun a => ?_⟩, fun h => absurd rfl h⟩
        · obtain ⟨e, he, hcontains⟩ := vmMapRangeCheck_true hcheck a ha hend
          exact ⟨_, attributesAt_of_contains hmap.ordered he hcontains, trivial⟩
        · exact attributesAt_setRange (setsAttribute_behavior _) hmap.ordered
      · exact And.intro (fun h => nomatch h) fun _ => rfl
    · exact And.intro (fun h => nomatch h) fun _ => rfl

end Exact

section Enter

variable {entries before after : List VmMapEntry} {entry e : VmMapEntry} {x : EnterArgs}
  {maxOffset : VmOffset}

/-- A place for a new region: in order with the entries of a map and in its bounds. -/
structure IsPlace (map : VmMap) (size start : VmOffset) (before after : List VmMapEntry) : Prop where
  append : before ++ after = map.entries
  min_le : map.minOffset ≤ start
  le_end : start ≤ start + size
  end_le : start + size ≤ map.maxOffset
  before_le : ∀ e ∈ before, e.vmeEnd ≤ start
  le_after : ∀ e ∈ after, start + size ≤ e.vmeStart

theorem place_eq_some {start' : VmOffset} (h : x.place maxOffset start = some start') :
    start ≤ start' ∧ start' ≤ start' + x.size ∧ start' + x.size ≤ maxOffset := by
  unfold EnterArgs.place at h
  dsimp only at h
  split at h
  · cases h
  split at h
  · cases h
  rename_i hnot hfits
  cases h
  rw [not_or] at hfits
  exact ⟨BitVec.not_lt.mp hnot, BitVec.not_lt.mp hfits.2, BitVec.not_lt.mp hfits.1⟩

variable {place : VmOffset × List VmMapEntry × List VmMapEntry}

/-- The loop finds a place. -/
theorem findSpace_isPlace (hmap : map.Ok)
    (happend : before ++ after = map.entries) (hmin : map.minOffset ≤ start)
    (hbefore : ∀ e ∈ before, e.vmeEnd ≤ start)
    (h : x.findSpace map.maxOffset start before after = some place) :
    IsPlace map x.size place.1 place.2.1 place.2.2 := by
  induction after generalizing before start with
  | nil =>
    obtain ⟨start', hplace, rfl⟩ := map_eq_some_iff.mp h
    obtain ⟨hle, hend, hmax⟩ := place_eq_some hplace
    exact ⟨happend, by dsimp only; bv_omega, hend, hmax,
      fun e he => by have hlast := hbefore e he; dsimp only; bv_omega, fun _ he => nomatch he⟩
  | cons next after ih =>
    have hordered := hmap.ordered
    rw [← happend] at hordered
    obtain ⟨-, hnext, hmid⟩ := entriesOrdered_append.mp hordered
    obtain ⟨hle, hfirst, -⟩ := entriesOrdered_cons.mp hnext
    obtain ⟨start', hplace, hfound⟩ := bind_eq_some_iff.mp h
    obtain ⟨hstart, hend, hmax⟩ := place_eq_some hplace
    split at hfound
    · rename_i hge
      cases hfound
      refine ⟨happend, by dsimp only; bv_omega, hend, hmax, fun e he => ?_, fun e he => ?_⟩
      · have hlast := hbefore e he
        dsimp only
        bv_omega
      · rcases mem_cons.mp he with rfl | he
        · exact hge
        · have hlater := hfirst e he
          dsimp only
          bv_omega
    · have hnextMem : next ∈ map.entries := by rw [← happend]; simp
      have hnextMin := hmap.min_le next hnextMem
      refine ih (by rw [append_assoc]; exact happend) (by bv_omega) (fun e he => ?_) hfound
      rcases mem_append.mp he with he | he
      · have hlast := hmid e he next (mem_cons_self ..)
        bv_omega
      · obtain rfl := mem_singleton.mp he
        exact BitVec.le_refl _

/-- Entries in order end before the last one does. -/
theorem EntriesOrdered.le_getLast (h : EntriesOrdered before) (hlast : before.getLast? = some entry)
    (he : e ∈ before) : e.vmeEnd ≤ entry.vmeEnd := by
  have hsplit : before = before.dropLast ++ [entry] :=
    (dropLast_append_getLast? entry hlast).symm
  rw [hsplit] at h he
  obtain ⟨-, hsingle, hmid⟩ := entriesOrdered_append.mp h
  rcases mem_append.mp he with he | he
  · have hle := hmid e he entry (mem_cons_self ..)
    have hlast := hsingle.le entry (mem_cons_self ..)
    bv_omega
  · obtain rfl := mem_singleton.mp he
    exact BitVec.le_refl _

theorem anywherePlace_isPlace (hmap : map.Ok)
    (h : x.anywherePlace map = some place) : IsPlace map x.size place.1 place.2.1 place.2.2 := by
  unfold EnterArgs.anywherePlace at h
  dsimp only at h
  have hmin : map.minOffset ≤ if x.address < map.minOffset then map.minOffset else x.address := by
    split
    · exact BitVec.le_refl _
    · rename_i hnot
      exact BitVec.not_lt.mp hnot
  generalize (if x.address < map.minOffset then map.minOffset else x.address) = start at h hmin
  split at h
  · cases h
  split at h
  · have happend := firstFree_append map.minOffset map.entries
    have hordered := hmap.ordered
    rw [← happend] at hordered
    obtain ⟨hbefore, -, -⟩ := entriesOrdered_append.mp hordered
    refine findSpace_isPlace hmap happend ?_ (fun e he => ?_) h
    · cases hlast : (firstFree map.minOffset map.entries).1.getLast? with
      | none => exact hmin
      | some last =>
        have hmem : last ∈ map.entries := by
          rw [← happend]
          exact mem_append_left _ (mem_of_getLast? hlast)
        have hle := hmap.min_le last hmem
        have hle' := hmap.ordered.le last hmem
        change map.minOffset ≤ last.vmeEnd
        bv_omega
    · cases hlast : (firstFree map.minOffset map.entries).1.getLast? with
      | none =>
        rw [getLast?_eq_none_iff.mp hlast] at he
        cases he
      | some last => exact hbefore.le_getLast hlast he
  · have happend := vmMapLookupEntry_append map.entries start
    have hbefore : ∀ e ∈ (vmMapLookupEntry map.entries start).2.1, e.vmeEnd ≤ start := fun e he =>
      vmeEnd_le_of_lookup he
    split at h
    · rename_i before entry after hlookup
      rw [hlookup] at happend hbefore
      have hend : start < entry.vmeEnd := lt_vmeEnd_of_lookup (by rw [hlookup])
      refine findSpace_isPlace hmap (by rw [append_assoc]; exact happend) (by bv_omega)
        (fun e he => ?_) h
      rcases mem_append.mp he with he | he
      · have hle := hbefore e he
        bv_omega
      · obtain rfl := mem_singleton.mp he
        exact BitVec.le_refl _
    · rename_i hlookup
      rw [hlookup] at happend hbefore
      exact findSpace_isPlace hmap happend hmin hbefore h

theorem fixedPlace_isPlace (hmap : map.Ok)
    (h : x.fixedPlace map = .ok place) : IsPlace map x.size place.1 place.2.1 place.2.2 := by
  unfold EnterArgs.fixedPlace at h
  split at h
  · cases h
  split at h
  · cases h
  rename_i hbounds
  rw [not_or, not_or] at hbounds
  obtain ⟨hmin, hmax, hlt⟩ := hbounds
  have happend := vmMapLookupEntry_append map.entries x.address
  have hbefore : ∀ e ∈ (vmMapLookupEntry map.entries x.address).2.1, e.vmeEnd ≤ x.address :=
    fun e he => vmeEnd_le_of_lookup he
  split at h
  · cases h
  rename_i before after hlookup
  rw [hlookup] at happend hbefore
  split at h
  · cases h
  rename_i hnext
  cases h
  refine ⟨happend, by dsimp only; bv_omega, by dsimp only; bv_omega, by dsimp only; bv_omega, hbefore,
    fun e he => ?_⟩
  have hordered := hmap.ordered
  rw [← happend] at hordered
  obtain ⟨-, hafter, -⟩ := entriesOrdered_append.mp hordered
  cases after with
  | nil => cases he
  | cons next after =>
    have hfirst : x.address + x.size ≤ next.vmeStart := by
      simpa using hnext
    rcases mem_cons.mp he with rfl | he
    · exact hfirst
    · obtain ⟨hle, hrest, -⟩ := entriesOrdered_cons.mp hafter
      have hlater := hrest e he
      dsimp only
      bv_omega

/-- A region at a place: the entry before it is extended, or there is a new one. -/
theorem insert_cases (x : EnterArgs) (coalesces : Bool) (start : VmOffset)
    (before after : List VmMapEntry) :
    (∃ entry, before.getLast? = some entry ∧ entry.vmeEnd = start ∧ x.insert coalesces start before after =
      before.dropLast ++ entry.front (start + x.size) :: after) ∨
    x.insert coalesces start before after = before ++ x.newEntry start :: after := by
  unfold EnterArgs.insert
  split
  · rename_i entry hlast
    split
    · rename_i hextends
      exact inl ⟨entry, hlast, hextends.1.2.1, rfl⟩
    · exact inr rfl
  · exact inr rfl

/-- The map is in order with the new region. -/
theorem ok_insert (hmap : map.Ok) (coalesces : Bool)
    (h : IsPlace map x.size start before after) :
    VmMap.Ok { map with entries := x.insert coalesces start before after } := by
  have hordered := hmap.ordered
  rw [← h.append] at hordered
  obtain ⟨hbefore, hafter, hmid⟩ := entriesOrdered_append.mp hordered
  have hle_end := h.le_end
  have hmin := h.min_le
  have hmax := h.end_le
  have hmem : ∀ e ∈ before ++ after, e ∈ map.entries := fun e he => h.append ▸ he
  rcases insert_cases x coalesces start before after with ⟨entry, hlast, hend, heq⟩ | heq
  · rw [heq]
    have hsplit : before = before.dropLast ++ [entry] :=
      (dropLast_append_getLast? entry hlast).symm
    have hentry : entry ∈ before := mem_of_getLast? hlast
    have hentryLe := hbefore.le entry hentry
    rw [hsplit] at hbefore
    obtain ⟨hdrop, -, hdropLast⟩ := entriesOrdered_append.mp hbefore
    have hdropMem : ∀ e ∈ before.dropLast, e ∈ map.entries := fun e he =>
      hmem e (mem_append_left _ (mem_of_mem_dropLast he))
    refine ⟨entriesOrdered_append.mpr ⟨hdrop, entriesOrdered_cons.mpr ⟨?_, h.le_after, hafter⟩, ?_⟩,
      ?_, ?_⟩
    · change entry.vmeStart ≤ start + x.size
      bv_omega
    · intro e he e' he'
      have hle := hdropLast e he entry (mem_cons_self ..)
      rcases mem_cons.mp he' with rfl | he'
      · exact hle
      · exact hmid e (mem_of_mem_dropLast he) e' he'
    · intro e he
      rcases mem_append.mp he with he | he
      · exact hmap.min_le e (hdropMem e he)
      rcases mem_cons.mp he with rfl | he
      · exact hmap.min_le entry (hmem entry (mem_append_left _ hentry))
      · exact hmap.min_le e (hmem e (mem_append_right _ he))
    · intro e he
      rcases mem_append.mp he with he | he
      · exact hmap.le_max e (hdropMem e he)
      rcases mem_cons.mp he with rfl | he
      · exact hmax
      · exact hmap.le_max e (hmem e (mem_append_right _ he))
  · rw [heq]
    refine ⟨entriesOrdered_append.mpr ⟨hbefore, entriesOrdered_cons.mpr ⟨hle_end, h.le_after, hafter⟩,
      ?_⟩, ?_, ?_⟩
    · intro e he e' he'
      rcases mem_cons.mp he' with rfl | he'
      · exact h.before_le e he
      · exact hmid e he e' he'
    · intro e he
      rcases mem_append.mp he with he | he
      · exact hmap.min_le e (hmem e (mem_append_left _ he))
      rcases mem_cons.mp he with rfl | he
      · exact hmin
      · exact hmap.min_le e (hmem e (mem_append_right _ he))
    · intro e he
      rcases mem_append.mp he with he | he
      · exact hmap.le_max e (hmem e (mem_append_left _ he))
      rcases mem_cons.mp he with rfl | he
      · exact hmax
      · exact hmap.le_max e (hmem e (mem_append_right _ he))

/-- An entry after a region was made is one from before, as far as protections go, or has those
that were asked for. -/
theorem mem_insert {coalesces : Bool} (happend : before ++ after = map.entries)
    (he : e ∈ x.insert coalesces start before after) :
    (∃ e' ∈ map.entries, SameProtections e e') ∨
      e.protection = x.curProtection ∧ e.maxProtection = x.maxProtection := by
  rw [← happend]
  rcases insert_cases x coalesces start before after with ⟨entry, hlast, -, heq⟩ | heq
  · rw [heq] at he
    rcases mem_append.mp he with he | he
    · exact inl ⟨e, mem_append_left _ (mem_of_mem_dropLast he), rfl, rfl⟩
    rcases mem_cons.mp he with rfl | he
    · exact inl ⟨entry, mem_append_left _ (mem_of_getLast? hlast), rfl, rfl⟩
    · exact inl ⟨e, mem_append_right _ he, rfl, rfl⟩
  · rw [heq] at he
    rcases mem_append.mp he with he | he
    · exact inl ⟨e, mem_append_left _ he, rfl, rfl⟩
    rcases mem_cons.mp he with rfl | he
    · exact inr ⟨rfl, rfl⟩
    · exact inl ⟨e, mem_append_right _ he, rfl, rfl⟩

/-- `vm_map_enter` leaves the map alone or inserts a region at a place. -/
theorem vmMapEnter_cases (hmap : map.Ok) (x : EnterArgs) (coalesces : Bool) :
    (vmMapEnter map x coalesces).2 = map ∨ ∃ start before after,
      IsPlace map x.size start before after ∧ (vmMapEnter map x coalesces).2 =
        { map with entries := x.insert coalesces start before after } := by
  unfold vmMapEnter
  dsimp only
  split
  · split
    · rename_i place hplace
      exact inr ⟨_, _, _, anywherePlace_isPlace hmap hplace, rfl⟩
    · exact inl rfl
  · split
    · rename_i place hplace
      exact inr ⟨_, _, _, fixedPlace_isPlace hmap hplace, rfl⟩
    · exact inl rfl

/-- `vm_map` leaves the map alone or calls `vm_map_enter`. -/
theorem vmMap_cases (map : VmMap) (y : VmMapArgs) (oracle : VmMapOracle) :
    (vmMap map y oracle).2 = map ∨ ∃ object offset needsCopy,
      (vmMap map y oracle).2 =
        (vmMapEnter map (y.enterArgs object offset needsCopy) oracle.coalesces).2 := by
  unfold vmMap
  split
  · exact inl rfl
  split
  · exact inr ⟨_, _, _, rfl⟩
  · exact inl rfl
  · split
    · split
      · exact inr ⟨_, _, _, rfl⟩
      · exact inl rfl
    · exact inr ⟨_, _, _, rfl⟩

end Enter

/-- The protection of an entry is within its maximum. -/
def VmMapEntry.ProtectionOk (e : VmMapEntry) : Prop := e.protection &&& e.maxProtection = e.protection

instance (e : VmMapEntry) : Decidable e.ProtectionOk := inferInstanceAs (Decidable (_ = _))

theorem SameProtections.ok {e e' : VmMapEntry} (h : SameProtections e e') (he : e'.ProtectionOk) :
    e.ProtectionOk := by
  unfold VmMapEntry.ProtectionOk
  rw [h.1, h.2]
  exact he

/-- A protection that the maximum allows, as an entry keeps it. -/
theorem setWidth_and_of_allowed {newProt : BitVec 32} {max : VmProt}
    (h : newProt &&& protBits max = newProt) : newProt.setWidth 3 &&& max = newProt.setWidth 3 := by
  have htruncated : (newProt &&& protBits max).setWidth 3 = newProt.setWidth 3 := by rw [h]
  rw [BitVec.setWidth_and] at htruncated
  unfold protBits at htruncated
  rwa [BitVec.setWidth_setWidth_of_le max (by decide), BitVec.setWidth_eq] at htruncated

/-- An entry that the first pass of `vm_map_protect` has looked at. -/
theorem protectionOk_protect {newProt : BitVec 32} {setMax : Bool} {e x : VmMapEntry}
    (hsame : SameProtections x e) (he : newProt &&& protBits e.maxProtection = newProt) :
    (x.protect (newProt.setWidth 3) setMax).ProtectionOk := by
  unfold VmMapEntry.protect VmMapEntry.ProtectionOk
  split
  · dsimp only
    rw [BitVec.and_comm, ← BitVec.and_assoc, BitVec.and_self]
  · dsimp only
    rw [hsame.2]
    exact setWidth_and_of_allowed he

namespace VmMaps

variable {maps maps' : VmMaps} {l : ℕ × MapAttributeAction}

/-- A call of `vm_map` does not ask for more than it is to allow. -/
def AsksAllowed : MapAttributeAction → Prop
  | .vmMap x _ =>
    x.curProtection.setWidth 3 &&& x.maxProtection.setWidth 3 = (x.curProtection.setWidth 3 : VmProt)
  | _ => True

instance (a : MapAttributeAction) : Decidable (AsksAllowed a) :=
  match a with
  | .vmMap _ _ => inferInstanceAs (Decidable (_ = _))
  | .clipStart _ _ | .clipEnd _ _ | .simplify _ | .protect _ _ _ _ | .inherit _ _ _
  | .behaviorSet _ _ _ | .enter _ _ | .others _ => inferInstanceAs (Decidable True)

/-- The entries of a map that is refined are in its bounds. -/
theorem ok_of_refines {entries : List VmMapEntry} (hmap : map.Ok) (h : Refines map.entries entries) :
    VmMap.Ok { map with entries := entries } := by
  refine ⟨h.ordered hmap.ordered, fun e he => ?_, fun e he => ?_⟩
  · exact (h.inside e he).le hmap.min_le
  · obtain ⟨e', he', -, hend⟩ := h.inside e he
    have hmax := hmap.le_max e' he'
    dsimp only
    bv_omega

theorem ok_of_simplified {entries : List VmMapEntry} (hmap : map.Ok)
    (h : Simplified map.entries entries) : VmMap.Ok { map with entries := entries } := by
  refine ⟨(h.spec hmap.ordered).1, fun e he => ?_, fun e he => ?_⟩
  · obtain ⟨e', he', -, -, hstart, -, -⟩ := h.mem he
    rw [hstart]
    exact hmap.min_le e' he'
  · obtain ⟨-, -, e'', he'', -, hend, -⟩ := h.mem he
    rw [hend]
    exact hmap.le_max e'' he''

theorem ok_vmMapEnter (hmap : map.Ok) (x : EnterArgs) (coalesces : Bool) :
    (vmMapEnter map x coalesces).2.Ok := by
  rcases vmMapEnter_cases hmap x coalesces with heq | ⟨start, before, after, hplace, heq⟩
  · rw [heq]
    exact hmap
  · rw [heq]
    exact ok_insert hmap coalesces hplace

/-- Everything leaves a map in order. -/
theorem ActStep.ok {action : MapAttributeAction} {map' : VmMap} (h : ActStep maps map action map')
    (hmap : map.Ok) : map'.Ok := by
  cases h with
  | clipStart hentries hi hend =>
    refine ok_of_refines hmap ?_
    rw [hentries]
    exact refines_clipStart _ _ (by bv_omega)
  | clipEnd hentries hi hstart =>
    refine ok_of_refines hmap ?_
    rw [hentries]
    exact refines_clipEnd _ _ (by bv_omega)
  | @simplify start =>
    have hlower := ok_of_simplified hmap (simplifyLower_simplified map.entries start)
    exact @ok_of_simplified { map with entries := simplifyLower map.entries start } _ hlower
      (simplifyUpper_simplified _ start)
  | @protect start «end» newProt setMax =>
    by_cases hsuccess : (vmMapProtect map start «end» newProt setMax).1 = .success
    · rw [(vmMapProtect_success hmap.ordered hsuccess).1]
      exact ok_of_refines hmap (refines_setRange (setsAttribute_protect _ _) hmap.ordered)
    · rw [vmMapProtect_failure hsuccess]
      exact hmap
  | inherit => exact ok_of_refines hmap (refines_setRange (setsAttribute_inheritance _) hmap.ordered)
  | @behaviorSet start «end» newBehavior =>
    unfold vmMapBehaviorSet
    split
    · split
      · exact ok_of_refines hmap (refines_setRange (setsAttribute_behavior _) hmap.ordered)
      · exact hmap
    · exact hmap
  | @vmMap x oracle =>
    rcases vmMap_cases map x oracle with heq | ⟨object, offset, needsCopy, heq⟩
    · rw [heq]
      exact hmap
    · rw [heq]
      exact ok_vmMapEnter hmap _ _
  | enter hprot => exact ok_vmMapEnter hmap _ _
  | others hok hprot => exact hok

/-- Entries keep their protections, or get such as `vm_map_protect` allows. -/
theorem protectionOk_vmMapProtect {newProt : BitVec 32} {setMax : Bool} (hmap : map.Ok)
    (h : ∀ e ∈ map.entries, e.ProtectionOk) :
    ∀ e ∈ (vmMapProtect map start «end» newProt setMax).2.entries, e.ProtectionOk := by
  by_cases hsuccess : (vmMapProtect map start «end» newProt setMax).1 = .success
  · obtain ⟨heq, hprot, -⟩ := vmMapProtect_success hmap.ordered hsuccess
    rw [heq]
    intro e he
    rcases mem_setRange hmap.ordered he with ⟨e', he', hsame⟩ | ⟨e', he', hlt, hend, x, hsame, rfl⟩
    · exact hsame.ok (h e' he')
    · exact protectionOk_protect hsame (hprot e' he' hlt hend)
  · rw [vmMapProtect_failure hsuccess]
    exact h

/-- What sets another attribute keeps the protections. -/
theorem protectionOk_setRange {set : VmMapEntry → VmMapEntry} (hmap : map.Ok)
    (hset : ∀ e, SameProtections (set e) e) (h : ∀ e ∈ map.entries, e.ProtectionOk) :
    ∀ e ∈ setRange set start «end» map.entries, e.ProtectionOk := by
  intro e he
  rcases mem_setRange hmap.ordered he with ⟨e', he', hsame⟩ | ⟨e', he', -, -, x, hsame, rfl⟩
  · exact hsame.ok (h e' he')
  · exact (hset x).ok (hsame.ok (h e' he'))

theorem protectionOk_simplified {entries entries' : List VmMapEntry}
    (hs : Simplified entries entries') (h : ∀ e ∈ entries, e.ProtectionOk) :
    ∀ e ∈ entries', e.ProtectionOk := by
  intro e he
  obtain ⟨e', he', -, -, -, -, hsame⟩ := hs.mem he
  exact hsame.ok (h e' he')

/-- The protections of a new region are those asked for. -/
theorem protectionOk_vmMapEnter {x : EnterArgs} {coalesces : Bool} (hmap : map.Ok)
    (hx : x.curProtection &&& x.maxProtection = x.curProtection)
    (h : ∀ e ∈ map.entries, e.ProtectionOk) :
    ∀ e ∈ (vmMapEnter map x coalesces).2.entries, e.ProtectionOk := by
  rcases vmMapEnter_cases hmap x coalesces with heq | ⟨start, before, after, hplace, heq⟩
  · rw [heq]
    exact h
  · rw [heq]
    intro e he
    rcases mem_insert hplace.append he with ⟨e', he', hsame⟩ | ⟨hcur, hmax⟩
    · exact hsame.ok (h e' he')
    · unfold VmMapEntry.ProtectionOk
      rw [hcur, hmax]
      exact hx

/-- All protections are within their maximum after a step, if `vm_map` does not ask for more. -/
theorem ActStep.protectionOk {action : MapAttributeAction} {map' : VmMap}
    (h : ActStep maps map action map') (hmap : map.Ok) (hallowed : AsksAllowed action)
    (hmaps : ∀ m, ∀ e ∈ (maps m).entries, e.ProtectionOk) (hprot : ∀ e ∈ map.entries, e.ProtectionOk) :
    ∀ e ∈ map'.entries, e.ProtectionOk := by
  cases h with
  | @clipStart before after entry i startaddr hentries hi hend =>
    have hentry : entry.ProtectionOk := hprot entry (by rw [hentries]; simp)
    have hbefore : ∀ e ∈ before, e.ProtectionOk := fun e he => hprot e (by rw [hentries]; simp [he])
    have hafter : ∀ e ∈ after, e.ProtectionOk := fun e he => hprot e (by rw [hentries]; simp [he])
    unfold vmMapClipStart
    intro e he
    dsimp only at he
    split at he
    · rcases mem_append.mp he with he | he
      · rcases mem_append.mp he with he | he
        · exact hbefore e he
        · rw [mem_singleton.mp he]
          exact hentry
      · rcases mem_cons.mp he with rfl | he
        · exact hentry
        · exact hafter e he
    · exact hprot e (hentries ▸ he)
  | @clipEnd before after entry i endaddr hentries hi hstart =>
    have hentry : entry.ProtectionOk := hprot entry (by rw [hentries]; simp)
    have hbefore : ∀ e ∈ before, e.ProtectionOk := fun e he => hprot e (by rw [hentries]; simp [he])
    have hafter : ∀ e ∈ after, e.ProtectionOk := fun e he => hprot e (by rw [hentries]; simp [he])
    unfold vmMapClipEnd
    intro e he
    dsimp only at he
    split at he
    · rcases mem_append.mp he with he | he
      · exact hbefore e he
      rcases mem_cons.mp he with rfl | he
      · exact hentry
      rcases mem_cons.mp he with rfl | he
      · exact hentry
      · exact hafter e he
    · exact hprot e (hentries ▸ he)
  | @simplify start =>
    exact protectionOk_simplified (simplifyUpper_simplified _ start)
      (protectionOk_simplified (simplifyLower_simplified map.entries start) hprot)
  | protect => exact protectionOk_vmMapProtect hmap hprot
  | inherit => exact protectionOk_setRange hmap (fun _ => ⟨rfl, rfl⟩) hprot
  | behaviorSet =>
    unfold vmMapBehaviorSet
    split
    · split
      · exact protectionOk_setRange hmap (fun _ => ⟨rfl, rfl⟩) hprot
      · exact hprot
    · exact hprot
  | @vmMap x oracle =>
    rcases vmMap_cases map x oracle with heq | ⟨object, offset, needsCopy, heq⟩
    · rw [heq]
      exact hprot
    · rw [heq]
      exact protectionOk_vmMapEnter hmap hallowed hprot
  | @enter x coalesces hx =>
    refine protectionOk_vmMapEnter hmap ?_ hprot
    rcases hx with hx | hx
    · rw [hx]
      exact BitVec.and_allOnes
    · rw [hx]
      exact BitVec.and_self
  | others hok hfrom =>
    intro e he
    rcases hfrom e he with ⟨hcur, hmax⟩ | ⟨m, e', he', hsame⟩
    · unfold VmMapEntry.ProtectionOk
      rw [hcur, hmax]
      decide
    · exact SameProtections.ok hsame (hmaps m e' he')

/-- Every map is in order. -/
theorem Step.ok (h : Step maps l maps') (hmaps : ∀ m, (maps m).Ok) : ∀ m, (maps' m).Ok := by
  obtain ⟨map', hstep, rfl⟩ := h
  intro m
  by_cases hm : m = l.1
  · rw [hm, update_self]
    exact hstep.ok (hmaps l.1)
  · rw [update_of_ne hm]
    exact hmaps m

/-- In every run maps are in order, and the operations on maps in order are exact: clips and
`vm_map_simplify` change nothing, an attribute is set at the mapped addresses of its range only,
and where the range has to be mapped or has to allow the protection nothing happens otherwise. If
no call of `vm_map` asks for a protection that it does not allow as the maximum, the protection of
every entry is within its maximum. -/
theorem attribute_operations {init maps : VmMaps} {trace : List (VmMaps × ℕ × MapAttributeAction)}
    (hrun : Run Step init trace maps) (hempty : ∀ m, (init m).entries = []) :
    (∀ m, (maps m).Ok) ∧ (∀ map : VmMap, map.Ok → map.AttributesExact) ∧
      ((∀ x ∈ trace, AsksAllowed x.2.2) → ∀ m, ∀ e ∈ (maps m).entries, e.ProtectionOk) := by
  have hinit : ∀ m, (init m).Ok := fun m => by
    refine ⟨⟨?_, ?_⟩, ?_, ?_⟩
    · rw [hempty m]
      exact List.Pairwise.nil
    · rw [hempty m]
      exact fun _ he => nomatch he
    · rw [hempty m]
      exact fun _ he => nomatch he
    · rw [hempty m]
      exact fun _ he => nomatch he
  have hok : ∀ m, (maps m).Ok :=
    @Run.invariant _ _ _ _ _ _ (fun _ _ => True) (fun maps => ∀ m, (maps m).Ok) hrun
      (fun _ _ => trivial) hinit fun _ _ _ h _ hstep => hstep.ok h
  refine ⟨hok, fun map hmap => hmap.attributesExact, fun hallowed => ?_⟩
  have hboth : (∀ m, (maps m).Ok) ∧ ∀ m, ∀ e ∈ (maps m).entries, e.ProtectionOk := by
    refine @Run.invariant _ _ _ _ _ _ (fun _ l => AsksAllowed l.2)
      (fun maps => (∀ m, (maps m).Ok) ∧ ∀ m, ∀ e ∈ (maps m).entries, e.ProtectionOk) hrun hallowed
      ⟨hinit, fun m e he => by rw [hempty m] at he; cases he⟩ fun maps l maps' h hl hstep => ?_
    refine ⟨hstep.ok h.1, fun m => ?_⟩
    obtain ⟨map', hact, rfl⟩ := hstep
    by_cases hm : m = l.1
    · rw [hm, update_self]
      exact hact.protectionOk (h.1 l.1) hl h.2 (h.2 l.1)
    · rw [update_of_ne hm]
      exact h.2 m
  exact hboth.2

/-- A region that may be written and executed, of a kind that is to be read only. -/
def writableReadOnly (maxProtection : BitVec 32) : VmMapArgs where
  address := 0x1000
  size := 0x2000
  mask := 0
  anywhere := false
  offset := 0
  copy := false
  curProtection := 7
  maxProtection := maxProtection
  inheritance := 1

/-- Empty maps. -/
def empty : VmMaps := fun _ => ⟨0, 0xC0000000, []⟩

/-- The map after a call of `vm_map` in an empty one. -/
theorem step_empty (maxProtection : BitVec 32) :
    Run Step empty [(empty, 0, .vmMap (writableReadOnly maxProtection) ⟨none, (.success, 0, 0, false), false⟩)]
      (update empty 0 (vmMap (empty 0) (writableReadOnly maxProtection)
        ⟨none, (.success, 0, 0, false), false⟩).2) :=
  Run.nil.cons ⟨_, ActStep.vmMap, rfl⟩

/-- A region with all protections within a maximum of all; its second page is then made read only,
and what is left of it is clipped. -/
theorem vmMapAll_operations : ∃ maps trace, Run Step empty trace maps ∧
    (maps 0).entries.map (fun e => (e.vmeStart, e.vmeEnd, e.protection)) =
      [(0x1000, 0x1800, 7), (0x1800, 0x2000, 7), (0x2000, 0x3000, 1)] ∧
    (∀ e ∈ (maps 0).entries, e.ProtectionOk) ∧ (maps 0).AttributesExact := by
  have run := ((step_empty 7).cons (l := (0, .protect 0x2000 0x3000 1 false))
    ⟨_, ActStep.protect, rfl⟩).cons (l := (0, .clipStart 0 0x1800))
    ⟨_, @ActStep.clipStart _ _ [] _ _ 0 0x1800 rfl rfl (by decide), rfl⟩
  obtain ⟨hok, hexact, hprot⟩ := attribute_operations run fun _ => rfl
  refine ⟨_, _, run, ?_, hprot (by decide) 0, hexact _ (hok 0)⟩
  rw [update_self]
  decide

/-- A region gets a protection that its maximum does not have. -/
theorem vmMap_exceeds_maximum : ∃ maps trace, Run Step empty trace maps ∧
    ∃ e ∈ (maps 0).entries, ¬e.ProtectionOk := by
  refine ⟨_, _, step_empty 1, ?_⟩
  rw [update_self]
  decide

end VmMaps

end MachVirtuTerm
