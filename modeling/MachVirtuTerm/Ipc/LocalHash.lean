import MachVirtuTerm.Lib.LinearProbing
import MachVirtuTerm.Ipc.EntryBits
import Mathlib.Order.Interval.Finset.Nat
import MachVirtuTerm.Lib.Run

/-!
# The reverse hash table of a space

`ipc_hash_local_lookup`, `ipc_hash_local_insert` and `ipc_hash_local_delete` of `ipc_hash.c`. The
field `ie_index` of the entries of a space is a table of its own, with open addressing and linear
probing, that leads from an object to the entry for it.
-/

open Function Option

namespace MachVirtuTerm

open LinearProbing

/-- `IH_LOCAL_HASH`, for an address of 32 bits. -/
def ihLocalHash (obj size : ℕ) : ℕ := (obj % 2 ^ 32 / 2 ^ 6) % size

def machPortMakeb (index : ℕ) (bits : BitVec 32) : MachPort :=
  machPortMake index (ieBitsGen bits)

/-- `is_table` and `is_table_size` of a space. The field `ie_index` is used independently of the
others and stands by itself. -/
structure LocalHash where
  isTable : ℕ → IpcEntry
  ieIndex : ℕ → ℕ
  isTableSize : ℕ

namespace LocalHash

/-- The address of the object an entry is for; `IO_NULL` is 0. -/
def objectAt (space : LocalHash) (index : ℕ) : ℕ := (space.isTable index).ieObject.getD 0

/-- `IH_LOCAL_HASH` of the object of an entry. -/
def home (space : LocalHash) (index : ℕ) : ℕ :=
  ihLocalHash (space.objectAt index) space.isTableSize

/-- The loop of `ipc_hash_local_lookup`, `none` if it takes longer than the fuel. -/
def lookupLoop (space : LocalHash) (obj : ℕ) : ℕ → ℕ → Option (Option (MachPort × ℕ))
  | 0, _ => none
  | fuel + 1, hindex =>
    let index := space.ieIndex hindex
    if index ≠ 0 then
      if (space.isTable index).ieObject = some obj then
        some (some (machPortMakeb index (space.isTable index).ieBits, index))
      else space.lookupLoop obj fuel (next space.isTableSize hindex)
    else some none

/-- `ipc_hash_local_lookup`: the name and the entry, or FALSE. -/
def ipcHashLocalLookup (space : LocalHash) (obj : ℕ) : Option (Option (MachPort × ℕ)) :=
  space.lookupLoop obj space.isTableSize (ihLocalHash obj space.isTableSize)

/-- The first slot from `hindex` on that holds `index`, where 0 is an empty slot. -/
def slotOf (space : LocalHash) (index : ℕ) : ℕ → ℕ → Option ℕ
  | 0, _ => none
  | fuel + 1, hindex =>
    if space.ieIndex hindex ≠ index then
      space.slotOf index fuel (next space.isTableSize hindex)
    else some hindex

/-- A slot gets an index. -/
def setIndex (space : LocalHash) (hindex index : ℕ) : LocalHash :=
  { space with ieIndex := update space.ieIndex hindex index }

def ipcHashLocalInsert (space : LocalHash) (obj index : ℕ) : Option LocalHash :=
  (space.slotOf 0 space.isTableSize (ihLocalHash obj space.isTableSize)).map fun hindex =>
    space.setIndex hindex index

/-- The inner loop of `ipc_hash_local_delete`: the next slot from `dindex` on that is empty or has
an object displaced over the hole, and what it holds. It is `none` if it takes longer than the fuel
or `dindex` gets to the hole. -/
def nextDisplaced (space : LocalHash) (hindex : ℕ) : ℕ → ℕ → Option (ℕ × ℕ)
  | 0, _ => none
  | fuel + 1, dindex =>
    let dindex := next space.isTableSize dindex
    if dindex = hindex then none
    else
      let index := space.ieIndex dindex
      if index = 0 then some (dindex, index)
      else
        let tindex := ihLocalHash (space.objectAt index) space.isTableSize
        if if dindex < hindex then dindex < tindex ∧ tindex ≤ hindex
            else dindex < tindex ∨ tindex ≤ hindex then
          some (dindex, index)
        else space.nextDisplaced hindex fuel dindex

/-- The outer loop: the hole moves to the end of the clump. -/
def closeHole (space : LocalHash) : ℕ → ℕ → Option LocalHash
  | 0, _ => none
  | fuel + 1, hindex =>
    match space.nextDisplaced hindex space.isTableSize hindex with
    | none => none
    | some (dindex, index) =>
      let space := space.setIndex hindex index
      if index ≠ 0 then space.closeHole fuel dindex else some space

def ipcHashLocalDelete (space : LocalHash) (obj index : ℕ) : Option LocalHash :=
  (space.slotOf index space.isTableSize (ihLocalHash obj space.isTableSize)).bind fun hindex =>
    space.closeHole space.isTableSize hindex

end LocalHash

end MachVirtuTerm

/-!
# Runs of the reverse hash table

Entries are inserted in the reverse hash table and deleted from it in any order. In every state,
every entry is found from the home slot of its object, and an object is found exactly if an entry
for it is in the table.
-/

namespace MachVirtuTerm

open LinearProbing

namespace LocalHash

/-- The slots as a table of indices, where 0 is none. -/
def slots (space : LocalHash) (x : ℕ) : Option ℕ :=
  if space.ieIndex x = 0 then none else some (space.ieIndex x)

section Slots

variable {space : LocalHash} {x i hindex index obj : ℕ}

theorem slots_eq_none_iff : space.slots x = none ↔ space.ieIndex x = 0 := by
  unfold slots
  split
  next h => exact iff_of_true rfl h
  next h => exact iff_of_false (some_ne_none _) h

theorem slots_eq_some_iff : space.slots x = some i ↔ space.ieIndex x = i ∧ i ≠ 0 := by
  unfold slots
  constructor
  · intro h
    split at h
    next => cases h
    next hne =>
      obtain rfl := Option.some.inj h
      exact ⟨rfl, hne⟩
  · rintro ⟨rfl, hne⟩
    exact if_neg hne

theorem slots_setIndex : (space.setIndex hindex index).slots =
    update space.slots hindex (if index = 0 then none else some index) := by
  funext y
  rcases eq_or_ne y hindex with rfl | hne
  · simp only [slots, setIndex, update_self]
  · simp only [slots, setIndex, update_of_ne hne]

variable (space : LocalHash)

theorem slotOf_eq_probe (index fuel hindex : ℕ) : space.slotOf index fuel hindex =
      probe (fun x => decide (space.ieIndex x = index)) space.isTableSize fuel hindex := by
  induction fuel generalizing hindex with
  | zero => rfl
  | succ fuel ih =>
    simp only [slotOf, probe, ih, decide_eq_true_eq]
    by_cases heq : space.ieIndex hindex = index
    · rw [if_neg (not_not.mpr heq), if_pos heq]
    · rw [if_pos heq, if_neg heq]

/-- Where the loop of a lookup stops. -/
def stops (obj x : ℕ) : Bool :=
  decide (space.ieIndex x = 0 ∨ (space.isTable (space.ieIndex x)).ieObject = some obj)

theorem lookupLoop_eq_probe (obj fuel hindex : ℕ) : space.lookupLoop obj fuel hindex =
      (probe (space.stops obj) space.isTableSize fuel hindex).map fun x =>
        (space.slots x).map fun index =>
          (machPortMakeb index (space.isTable index).ieBits, index) := by
  induction fuel generalizing hindex with
  | zero => rfl
  | succ fuel ih =>
    simp only [lookupLoop, probe, ih, stops, decide_eq_true_eq]
    by_cases hzero : space.ieIndex hindex = 0
    · rw [if_neg (not_not.mpr hzero), if_pos (.inl hzero), map_some, slots_eq_none_iff.mpr hzero]
      rfl
    · have hslot : space.slots hindex = some (space.ieIndex hindex) :=
        slots_eq_some_iff.mpr ⟨rfl, hzero⟩
      by_cases hobj : (space.isTable (space.ieIndex hindex)).ieObject = some obj
      · rw [if_pos hzero, if_pos hobj, if_pos (.inr hobj), map_some, hslot]
        rfl
      · rw [if_pos hzero, if_neg hobj, if_neg (not_or.mpr ⟨hzero, hobj⟩)]

end Slots

section Delete

variable {space : LocalHash} {hole scan free fuel : ℕ}

/-- The inner loop comes to the end of the clump, or to an object to be moved. -/
theorem nextDisplaced_spec
    (h : Hole space.isTableSize space.home (update space.slots hole none) hole scan)
    (hfree : free < space.isTableSize) (hne : free ≠ hole) (hempty : space.slots free = none)
    (hfuel : dist space.isTableSize scan free < fuel) :
    ∃ scan', Hole space.isTableSize space.home (update space.slots hole none) hole scan' ∧
      next space.isTableSize scan' ≠ hole ∧
      space.nextDisplaced hole fuel scan =
        some (next space.isTableSize scan', space.ieIndex (next space.isTableSize scan')) ∧
      (space.ieIndex (next space.isTableSize scan') ≠ 0 →
        dist space.isTableSize (space.home (space.ieIndex (next space.isTableSize scan'))) hole <
          dist space.isTableSize (space.home (space.ieIndex (next space.isTableSize scan')))
            (next space.isTableSize scan')) := by
  induction fuel generalizing scan with
  | zero => omega
  | succ fuel ih =>
    have hempty' : update space.slots hole none free = none := by
      rwa [update_of_ne hne]
    have hnext := h.next_ne hfree hne hempty'
    simp only [nextDisplaced]
    rw [if_neg hnext]
    by_cases hzero : space.ieIndex (next space.isTableSize scan) = 0
    · refine ⟨scan, h, hnext, ?_, fun hindex => absurd hzero hindex⟩
      rw [if_pos hzero]
    · have hlt := next_lt h.scan_lt
      have hslot : update space.slots hole none (next space.isTableSize scan) =
          some (space.ieIndex (next space.isTableSize scan)) := by
        rw [update_of_ne hnext]
        exact slots_eq_some_iff.mpr ⟨rfl, hzero⟩
      have hhome := h.home_lt _ hlt _ hslot
      have hpasses := passes_iff hhome h.hole_lt hlt hnext
      rw [if_neg hzero]
      change ∃ scan', _ ∧ _ ∧ (if if next space.isTableSize scan < hole then
          next space.isTableSize scan < space.home _ ∧ space.home _ ≤ hole else
          next space.isTableSize scan < space.home _ ∨ space.home _ ≤ hole then _ else _) = _ ∧ _
      by_cases hplace : dist space.isTableSize
          (space.home (space.ieIndex (next space.isTableSize scan))) hole <
        dist space.isTableSize (space.home (space.ieIndex (next space.isTableSize scan)))
          (next space.isTableSize scan)
      · refine ⟨scan, h, hnext, ?_, fun _ => hplace⟩
        rw [if_pos (hpasses.mp hplace)]
      · rw [if_neg fun htest => hplace (hpasses.mpr htest)]
        have hpassed : free ≠ scan := by
          rintro rfl
          exact h.filled free hfree hne (Nat.le_refl _) hempty'
        have hone := dist_of_next h.scan_lt hfree hpassed
        exact ih (h.keep hnext hslot hplace) (by omega)

/-- The outer loop ends, and leaves all other keys where they are found. -/
theorem closeHole_spec
    (h : Hole space.isTableSize space.home (update space.slots hole none) hole hole)
    (hfree : free < space.isTableSize) (hne : free ≠ hole) (hempty : space.slots free = none)
    (hfuel : dist space.isTableSize hole free < fuel) :
    ∃ space', space.closeHole fuel hole = some space' ∧ space'.isTable = space.isTable ∧
      space'.isTableSize = space.isTableSize ∧
      Probing space.isTableSize space.home space'.slots ∧
      ∀ k, (∃ x < space.isTableSize, space'.slots x = some k) ↔
        ∃ x < space.isTableSize, update space.slots hole none x = some k := by
  induction fuel generalizing space hole with
  | zero => omega
  | succ fuel ih =>
    obtain ⟨scan, hscan, hnext, heq, hplace⟩ :=
      nextDisplaced_spec h hfree hne hempty (dist_lt h.hole_lt hfree)
    have hlt := next_lt hscan.scan_lt
    simp only [closeHole, heq]
    generalize hdindex : next space.isTableSize scan = dindex at *
    by_cases hzero : space.ieIndex dindex = 0
    · rw [if_neg (not_not.mpr hzero)]
      have hslots : (space.setIndex hole (space.ieIndex dindex)).slots =
          update space.slots hole none := by
        rw [slots_setIndex, if_pos hzero]
      have hend : update space.slots hole none (next space.isTableSize scan) = none := by
        rw [hdindex, update_of_ne hnext]
        exact slots_eq_none_iff.mpr hzero
      refine ⟨_, rfl, rfl, rfl, ?_, ?_⟩
      · rw [hslots]
        exact hscan.close (by rw [hdindex]; exact hnext) hend
      · intro k
        rw [hslots]
    · rw [if_pos hzero]
      have hslot : update space.slots hole none dindex = some (space.ieIndex dindex) := by
        rw [update_of_ne hnext]
        exact slots_eq_some_iff.mpr ⟨rfl, hzero⟩
      have hslots : (space.setIndex hole (space.ieIndex dindex)).slots =
          update space.slots hole (some (space.ieIndex dindex)) := by
        rw [slots_setIndex, if_neg hzero]
      have hmoved := hscan.move (by rw [hdindex]; exact hnext) (by rw [hdindex]; exact hslot)
        (by rw [hdindex]; exact hplace hzero)
      rw [update_idem, ← hslots, hdindex] at hmoved
      have hfreed : free ≠ dindex := by
        rintro rfl
        rw [update_of_ne hne, hempty] at hslot
        cases hslot
      have hempty' : (space.setIndex hole (space.ieIndex dindex)).slots free = none := by
        rw [hslots, update_of_ne hne, hempty]
      have hcloser : dist space.isTableSize dindex free < dist space.isTableSize hole free := by
        have hfar : ¬ dist space.isTableSize hole free ≤ dist space.isTableSize hole scan := by
          intro hle
          apply hscan.filled free hfree hne hle
          rwa [update_of_ne hne]
        have hone := dist_next h.hole_lt (n := space.isTableSize) (b := scan)
          (by rw [hdindex]; exact hnext)
        rw [hdindex] at hone
        have hsplit := dist_add h.hole_lt hlt hfree (by omega)
        have hpos := dist_pos h.hole_lt hnext
        omega
      obtain ⟨space', hclose, htable, hsize, hprobing, hkeys⟩ :=
        @ih (space.setIndex hole (space.ieIndex dindex)) dindex hmoved hfree hfreed hempty'
          (by change dist space.isTableSize _ _ < _; omega)
      refine ⟨space', hclose, htable, hsize, hprobing, ?_⟩
      intro k
      refine (hkeys k).trans ?_
      constructor
      · rintro ⟨x, hx, hk⟩
        have hxd : x ≠ dindex := by
          rintro rfl
          rw [update_self] at hk
          cases hk
        rw [update_of_ne hxd, hslots] at hk
        rcases eq_or_ne x hole with rfl | hxh
        · rw [update_self] at hk
          exact ⟨dindex, hlt, hslot.trans hk⟩
        · rw [update_of_ne hxh] at hk
          exact ⟨x, hx, by rwa [update_of_ne hxh]⟩
      · rintro ⟨x, hx, hk⟩
        rcases eq_or_ne x dindex with rfl | hxd
        · refine ⟨hole, h.hole_lt, ?_⟩
          rw [update_of_ne hnext.symm, hslots, update_self]
          exact hslot.symm.trans hk
        · have hxh : x ≠ hole := by
            rintro rfl
            rw [update_self] at hk
            cases hk
          refine ⟨x, hx, ?_⟩
          rw [update_of_ne hxd, hslots]
          rwa [update_of_ne hxh] at hk ⊢

end Delete

end LocalHash

/-- A space, and the entries inserted and not since deleted, which nothing reads. -/
structure HashState where
  space : LocalHash
  present : Finset ℕ

/-- What is done with a space. -/
inductive HashAction where
  | insert (index : ℕ)
  | delete (index : ℕ)
  /-- An entry that is not in the table is used for something else. -/
  | setEntry (index : ℕ) (entry : IpcEntry)

namespace HashState

/-- A space whose entries are in no slot. -/
def init (isTable : ℕ → IpcEntry) (isTableSize : ℕ) : HashState :=
  ⟨⟨isTable, fun _ => 0, isTableSize⟩, ∅⟩

variable (s : HashState)

/-- What the callers keep to: an entry is inserted once, for an object that no other entry in the
table is for, deleted while it is in the table, and not changed meanwhile. -/
def Allowed : HashAction → Prop
  | .insert index => index ≠ 0 ∧ index < s.space.isTableSize ∧ index ∉ s.present ∧
      (s.space.isTable index).ieObject ≠ none ∧
      ∀ j ∈ s.present, (s.space.isTable j).ieObject ≠ (s.space.isTable index).ieObject
  | .delete index => index ∈ s.present
  | .setEntry index _ => index ∉ s.present

instance (s : HashState) (a : HashAction) : Decidable (s.Allowed a) := by
  cases a <;> unfold Allowed <;> infer_instance

/-- A step, if it ends. -/
def step : HashAction → Option HashState
  | .insert index =>
    (s.space.ipcHashLocalInsert (s.space.objectAt index) index).map fun space =>
      ⟨space, insert index s.present⟩
  | .delete index =>
    (s.space.ipcHashLocalDelete (s.space.objectAt index) index).map fun space =>
      ⟨space, s.present.erase index⟩
  | .setEntry index entry =>
    some { s with space := { s.space with
      isTable := update s.space.isTable index entry } }

/-- Between the home slot of the object of an entry and the slot of the entry no slot is empty. -/
def NoGaps : Prop :=
  ∀ x < s.space.isTableSize, s.space.ieIndex x ≠ 0 → ∀ y < s.space.isTableSize,
    dist s.space.isTableSize (s.space.home (s.space.ieIndex x)) y <
      dist s.space.isTableSize (s.space.home (s.space.ieIndex x)) x → s.space.ieIndex y ≠ 0

/-- The table holds the entries inserted and not since deleted, where they are found. -/
structure Ok (s : HashState) : Prop where
  probing : Probing s.space.isTableSize s.space.home s.space.slots
  mem_present : ∀ i, i ∈ s.present ↔ ∃ x < s.space.isTableSize, s.space.slots x = some i
  present_lt : ∀ i ∈ s.present, i < s.space.isTableSize
  object : ∀ i ∈ s.present, ∃ obj, (s.space.isTable i).ieObject = some obj
  distinct : ∀ i ∈ s.present, ∀ j ∈ s.present,
    (s.space.isTable i).ieObject = (s.space.isTable j).ieObject → i = j

theorem init_ok (isTable : ℕ → IpcEntry) (isTableSize : ℕ) : (init isTable isTableSize).Ok where
  probing := ⟨nofun, nofun, nofun⟩
  mem_present i := iff_of_false (Finset.notMem_empty i) (by rintro ⟨x, -, hx⟩; cases hx)
  present_lt i hi := absurd hi (Finset.notMem_empty i)
  object i hi := absurd hi (Finset.notMem_empty i)
  distinct i hi := absurd hi (Finset.notMem_empty i)

section Steps

variable {s s' : HashState} {index obj : ℕ}

theorem Ok.noGaps (h : s.Ok) : s.NoGaps := by
  intro x hx hindex y hy hlt
  have hpath := h.probing.path x hx _ (LocalHash.slots_eq_some_iff.mpr ⟨rfl, hindex⟩) y hy hlt
  exact fun hzero => hpath (LocalHash.slots_eq_none_iff.mpr hzero)

/-- One slot at least is empty, as no entry is in slot 0 of the table of entries. -/
theorem Ok.exists_free (h : s.Ok) (hsize : 0 < s.space.isTableSize) :
    ∃ free < s.space.isTableSize, s.space.slots free = none := by
  by_contra hfull
  push Not at hfull
  have hkey : ∀ x < s.space.isTableSize, s.space.slots x = some (s.space.ieIndex x) := by
    intro x hx
    have hne : s.space.ieIndex x ≠ 0 := fun hzero =>
      hfull x hx (LocalHash.slots_eq_none_iff.mpr hzero)
    exact LocalHash.slots_eq_some_iff.mpr ⟨rfl, hne⟩
  have hmaps : ∀ x ∈ Finset.range s.space.isTableSize,
      s.space.ieIndex x ∈ Finset.Ico 1 s.space.isTableSize := by
    intro x hx
    have hx := Finset.mem_range.mp hx
    have hne := (LocalHash.slots_eq_some_iff.mp (hkey x hx)).2
    have hlt := h.present_lt _ ((h.mem_present _).mpr ⟨x, hx, hkey x hx⟩)
    exact Finset.mem_Ico.mpr ⟨Nat.one_le_iff_ne_zero.mpr hne, hlt⟩
  have hinj : Set.InjOn s.space.ieIndex (Finset.range s.space.isTableSize) := by
    intro x hx y hy heq
    have hx := Finset.mem_range.mp hx
    have hy := Finset.mem_range.mp hy
    exact h.probing.inj x hx y hy _ (hkey x hx) (heq ▸ hkey y hy)
  have hcard := Finset.card_le_card_of_injOn _ hmaps hinj
  rw [Finset.card_range, Nat.card_Ico] at hcard
  omega

theorem home_lt (s : HashState) (hsize : 0 < s.space.isTableSize) (index : ℕ) :
    s.space.home index < s.space.isTableSize := Nat.mod_lt _ hsize

theorem ihLocalHash_eq (h : (s.space.isTable index).ieObject = some obj) :
    ihLocalHash obj s.space.isTableSize = s.space.home index := by
  rw [LocalHash.home, LocalHash.objectAt, h]
  rfl

/-- A lookup ends, and finds the entry for the object if one is in the table. -/
theorem Ok.lookup (h : s.Ok) (hsize : 0 < s.space.isTableSize) (obj : ℕ) :
    ∃ found, s.space.ipcHashLocalLookup obj = some found ∧
      ∀ name i, found = some (name, i) ↔ i ∈ s.present ∧
        (s.space.isTable i).ieObject = some obj ∧
        name = machPortMakeb i (s.space.isTable i).ieBits := by
  have hstart : ihLocalHash obj s.space.isTableSize < s.space.isTableSize := Nat.mod_lt _ hsize
  obtain ⟨free, hfree, hempty⟩ := h.exists_free hsize
  have hstop : s.space.stops obj free = true :=
    decide_eq_true (.inl (LocalHash.slots_eq_none_iff.mp hempty))
  obtain ⟨x, hx, hprobe, hstopx, hfirst⟩ :=
    probe_spec hstart hfree hstop (dist_lt hstart hfree)
  refine ⟨(s.space.slots x).map fun index =>
    (machPortMakeb index (s.space.isTable index).ieBits, index), ?_, ?_⟩
  · rw [LocalHash.ipcHashLocalLookup, LocalHash.lookupLoop_eq_probe, hprobe, map_some]
  · intro name i
    constructor
    · intro hfound
      obtain ⟨index, hindex, heq⟩ := map_eq_some_iff.mp hfound
      cases heq
      obtain ⟨hslot, hne⟩ := LocalHash.slots_eq_some_iff.mp hindex
      refine ⟨(h.mem_present i).mpr ⟨x, hx, hindex⟩, ?_, rfl⟩
      rcases of_decide_eq_true hstopx with hzero | hobj
      · exact absurd (hslot.symm.trans hzero) hne
      · rwa [hslot] at hobj
    · rintro ⟨hi, hobj, rfl⟩
      obtain ⟨d, hd, hslot⟩ := (h.mem_present i).mp hi
      have hindex := (LocalHash.slots_eq_some_iff.mp hslot).1
      have hhome := ihLocalHash_eq hobj
      have hstopd : s.space.stops obj d = true := decide_eq_true (.inr (by rwa [hindex]))
      -- The probing does not get beyond the entry, and stops at no other before it.
      have hxd : x = d := by
        rcases Nat.lt_trichotomy
          (dist s.space.isTableSize (ihLocalHash obj s.space.isTableSize) x)
          (dist s.space.isTableSize (ihLocalHash obj s.space.isTableSize) d) with hlt | heq | hgt
        · rw [hhome] at hlt
          have hfull := h.probing.path d hd i hslot x hx hlt
          rcases of_decide_eq_true hstopx with hzero | hobjx
          · exact absurd (LocalHash.slots_eq_none_iff.mpr hzero) hfull
          · obtain ⟨j, hj⟩ := ne_none_iff_exists'.mp hfull
            have hjx := (LocalHash.slots_eq_some_iff.mp hj).1
            have hpresent := (h.mem_present j).mpr ⟨x, hx, hj⟩
            rw [hjx] at hobjx
            obtain rfl := h.distinct j hpresent i hi (hobjx.trans hobj.symm)
            exact h.probing.inj x hx d hd j hj hslot
        · exact dist_inj hstart hx hd heq
        · have hnot := hfirst d hd hgt
          rw [hstopd] at hnot
          cases hnot
      rw [hxd, hslot]
      rfl

/-- An insertion ends, and the entry is found then. -/
theorem Ok.insertStep (h : s.Ok) (hsize : 0 < s.space.isTableSize)
    (hallowed : s.Allowed (.insert index)) :
    ∃ s', s.step (.insert index) = some s' ∧ s'.Ok ∧
      s'.space.isTableSize = s.space.isTableSize := by
  obtain ⟨hne, hlt, hnew, hobj, hdistinct⟩ := hallowed
  obtain ⟨obj, hobj⟩ := ne_none_iff_exists'.mp hobj
  have hhome := s.home_lt hsize index
  obtain ⟨free, hfree, hempty⟩ := h.exists_free hsize
  have hstop : decide (s.space.ieIndex free = 0) = true :=
    decide_eq_true (LocalHash.slots_eq_none_iff.mp hempty)
  obtain ⟨x, hx, hprobe, hstopx, hfirst⟩ :=
    @probe_spec _ _ _ (fun x => decide (s.space.ieIndex x = 0)) _ hhome hfree hstop
      (dist_lt hhome hfree)
  have hslots : (s.space.setIndex x index).slots = update s.space.slots x (some index) := by
    rw [LocalHash.slots_setIndex, if_neg hne]
  have hemptyx : s.space.slots x = none :=
    LocalHash.slots_eq_none_iff.mpr (of_decide_eq_true hstopx)
  refine ⟨⟨s.space.setIndex x index, insert index s.present⟩, ?_, ?_, rfl⟩
  · change (LocalHash.ipcHashLocalInsert _ _ _).map _ = _
    rw [LocalHash.ipcHashLocalInsert, LocalHash.slotOf_eq_probe]
    change ((probe _ _ _ (s.space.home index)).map _).map _ = _
    rw [hprobe]
    rfl
  · constructor
    · change Probing s.space.isTableSize s.space.home (s.space.setIndex x index).slots
      rw [hslots]
      apply h.probing.insert hx hhome
      · intro y hy hcloser hnone
        have hzero := LocalHash.slots_eq_none_iff.mp hnone
        exact absurd (decide_eq_true hzero) (Bool.eq_false_iff.mp (hfirst y hy hcloser))
      · exact hemptyx
      · intro y hy hslot
        exact hnew ((h.mem_present index).mpr ⟨y, hy, hslot⟩)
    · intro i
      change i ∈ insert index s.present ↔
        ∃ y < s.space.isTableSize, (s.space.setIndex x index).slots y = some i
      rw [Finset.mem_insert, h.mem_present, hslots]
      constructor
      · rintro (rfl | ⟨y, hy, hslot⟩)
        · exact ⟨x, hx, update_self ..⟩
        · have hyx : y ≠ x := by
            rintro rfl
            rw [hemptyx] at hslot
            cases hslot
          exact ⟨y, hy, by rwa [update_of_ne hyx]⟩
      · rintro ⟨y, hy, hslot⟩
        rcases eq_or_ne y x with rfl | hyx
        · rw [update_self] at hslot
          exact .inl (Option.some.inj hslot).symm
        · rw [update_of_ne hyx] at hslot
          exact .inr ⟨y, hy, hslot⟩
    · intro i hi
      rcases Finset.mem_insert.mp hi with rfl | hi
      · exact hlt
      · exact h.present_lt i hi
    · intro i hi
      rcases Finset.mem_insert.mp hi with rfl | hi
      · exact ⟨obj, hobj⟩
      · exact h.object i hi
    · intro i hi j hj heq
      rcases Finset.mem_insert.mp hi with rfl | hold
      · rcases Finset.mem_insert.mp hj with rfl | hold'
        · rfl
        · exact absurd heq.symm (hdistinct j hold')
      · rcases Finset.mem_insert.mp hj with rfl | hold'
        · exact absurd heq (hdistinct i hold)
        · exact h.distinct i hold j hold' heq

/-- A deletion ends, and all other entries are found as before. -/
theorem Ok.deleteStep (h : s.Ok) (hsize : 0 < s.space.isTableSize)
    (hallowed : s.Allowed (.delete index)) :
    ∃ s', s.step (.delete index) = some s' ∧ s'.Ok ∧
      s'.space.isTableSize = s.space.isTableSize := by
  have hhome := s.home_lt hsize index
  obtain ⟨d, hd, hslot⟩ := (h.mem_present index).mp hallowed
  obtain ⟨hindex, hne⟩ := LocalHash.slots_eq_some_iff.mp hslot
  obtain ⟨x, hx, hprobe, hstopx, -⟩ :=
    @probe_spec _ _ _ (fun x => decide (s.space.ieIndex x = index)) _ hhome hd
      (decide_eq_true hindex) (dist_lt hhome hd)
  have hslotx : s.space.slots x = some index :=
    LocalHash.slots_eq_some_iff.mpr ⟨of_decide_eq_true hstopx, hne⟩
  obtain ⟨free, hfree, hempty⟩ := h.exists_free hsize
  have hfreex : free ≠ x := by
    rintro rfl
    rw [hempty] at hslotx
    cases hslotx
  obtain ⟨space', hclose, htable, hsize', hprobing, hkeys⟩ :=
    LocalHash.closeHole_spec (h.probing.remove hx) hfree hfreex hempty (dist_lt hx hfree)
  have hhomes : space'.home = s.space.home := by
    funext i
    rw [LocalHash.home, LocalHash.home, LocalHash.objectAt, LocalHash.objectAt, htable, hsize']
  refine ⟨⟨space', s.present.erase index⟩, ?_, ?_, hsize'⟩
  · change (LocalHash.ipcHashLocalDelete _ _ _).map _ = _
    rw [LocalHash.ipcHashLocalDelete, LocalHash.slotOf_eq_probe]
    change ((probe _ _ _ (s.space.home index)).bind _).map _ = _
    rw [hprobe, bind_some, hclose]
    rfl
  · constructor
    · change Probing space'.isTableSize space'.home space'.slots
      rw [hsize', hhomes]
      exact hprobing
    · intro i
      change i ∈ s.present.erase index ↔ ∃ y < space'.isTableSize, space'.slots y = some i
      rw [hsize', Finset.mem_erase, h.mem_present, hkeys]
      constructor
      · rintro ⟨hi, y, hy, hsloty⟩
        have hyx : y ≠ x := by
          rintro rfl
          exact hi (Option.some.inj (hsloty.symm.trans hslotx))
        exact ⟨y, hy, by rwa [update_of_ne hyx]⟩
      · rintro ⟨y, hy, hsloty⟩
        have hyx : y ≠ x := by
          rintro rfl
          rw [update_self] at hsloty
          cases hsloty
        rw [update_of_ne hyx] at hsloty
        refine ⟨?_, y, hy, hsloty⟩
        rintro rfl
        exact hyx (h.probing.inj y hy x hx i hsloty hslotx)
    · intro i hi
      change i < space'.isTableSize
      rw [hsize']
      exact h.present_lt i (Finset.mem_of_mem_erase hi)
    · intro i hi
      change ∃ obj, (space'.isTable i).ieObject = some obj
      rw [htable]
      exact h.object i (Finset.mem_of_mem_erase hi)
    · intro i hi j hj heq
      change (space'.isTable i).ieObject = (space'.isTable j).ieObject at heq
      rw [htable] at heq
      exact h.distinct i (Finset.mem_of_mem_erase hi) j (Finset.mem_of_mem_erase hj) heq

/-- An entry that is not in the table may be used for something else. -/
theorem Ok.setEntryStep {entry : IpcEntry} (h : s.Ok) (hallowed : s.Allowed (.setEntry index entry)) :
    ∃ s', s.step (.setEntry index entry) = some s' ∧ s'.Ok ∧
      s'.space.isTableSize = s.space.isTableSize := by
  have hsame : ∀ i ∈ s.present, update s.space.isTable index entry i = s.space.isTable i := by
    intro i hi
    exact update_of_ne (ne_of_mem_of_not_mem hi hallowed) ..
  refine ⟨_, rfl, ?_, rfl⟩
  have hhomes : ∀ x < s.space.isTableSize, ∀ k, s.space.slots x = some k →
      LocalHash.home { s.space with
        isTable := update s.space.isTable index entry } k = s.space.home k := by
    intro x hx k hk
    have hmem := hsame k ((h.mem_present k).mpr ⟨x, hx, hk⟩)
    exact congrArg (fun e : IpcEntry => ihLocalHash (e.ieObject.getD 0) s.space.isTableSize) hmem
  constructor
  · constructor
    · intro x hx k hk
      rw [hhomes x hx k hk]
      exact h.probing.home_lt x hx k hk
    · intro x hx k hk y hy hlt
      rw [hhomes x hx k hk] at hlt
      exact h.probing.path x hx k hk y hy hlt
    · exact h.probing.inj
  · exact h.mem_present
  · exact h.present_lt
  · intro i hi
    change ∃ obj, (update s.space.isTable index entry i).ieObject = some obj
    rw [hsame i hi]
    exact h.object i hi
  · intro i hi j hj heq
    change (update s.space.isTable index entry i).ieObject =
      (update s.space.isTable index entry j).ieObject at heq
    rw [hsame i hi, hsame j hj] at heq
    exact h.distinct i hi j hj heq

/-- Every step that is allowed ends. -/
theorem Ok.step (h : s.Ok) (hsize : 0 < s.space.isTableSize) {a : HashAction}
    (hallowed : s.Allowed a) :
    ∃ s', s.step a = some s' ∧ s'.Ok ∧ s'.space.isTableSize = s.space.isTableSize := by
  cases a with
  | insert index => exact h.insertStep hsize hallowed
  | delete index => exact h.deleteStep hsize hallowed
  | setEntry index entry => exact h.setEntryStep hallowed

/-- In every state, an object is looked up as the entry for it that was inserted and not since
deleted, no entry is behind an empty slot, and what is allowed next ends. -/
theorem reverse_hash {isTable : ℕ → IpcEntry} {isTableSize : ℕ}
    {trace : List (HashState × HashAction)} (hsize : 0 < isTableSize)
    (hrun : Run (fun s a s' => s.step a = some s') (init isTable isTableSize) trace s)
    (hallowed : ∀ x ∈ trace, x.1.Allowed x.2) :
    (∀ obj, ∃ found, s.space.ipcHashLocalLookup obj = some found ∧
      ∀ name i, found = some (name, i) ↔ i ∈ s.present ∧
        (s.space.isTable i).ieObject = some obj ∧
        name = machPortMakeb i (s.space.isTable i).ieBits) ∧
    s.NoGaps ∧ ∀ a, s.Allowed a → ∃ s', s.step a = some s' := by
  have hinv : s.Ok ∧ s.space.isTableSize = isTableSize := by
    apply hrun.invariant (fun s => s.Ok ∧ s.space.isTableSize = isTableSize) hallowed
      ⟨init_ok isTable isTableSize, rfl⟩
    rintro s a s' ⟨hok, heq⟩ hallowed hstep
    obtain ⟨s'', hstep', hok', heq'⟩ := hok.step (heq ▸ hsize) hallowed
    obtain rfl := Option.some.inj (hstep.symm.trans hstep')
    exact ⟨hok', heq'.trans heq⟩
  obtain ⟨hok, heq⟩ := hinv
  have hsize' : 0 < s.space.isTableSize := heq ▸ hsize
  refine ⟨hok.lookup hsize', hok.noGaps, fun a hallowed => ?_⟩
  obtain ⟨s', hstep, -⟩ := hok.step hsize' hallowed
  exact ⟨s', hstep⟩

/-- Three entries for objects with one home slot, the second of which is deleted. -/
theorem clump_around_end : ∃ (trace : List (HashState × HashAction)) (s : HashState),
    Run (fun s a s' => s.step a = some s') (init (fun i => ⟨0, some (192 + 256 * i), 0⟩) 4) trace s ∧
      trace.length = 4 ∧ ∃ found, s.space.ipcHashLocalLookup 960 = some found ∧
        ∃ name, found = some (name, 3) := by
  have hfollow := @Run.of_follow HashState HashAction step
    (init (fun i => ⟨0, some (192 + 256 * i), 0⟩) 4) [.insert 1, .insert 2, .insert 3, .delete 2]
    (fun trace s => (∀ x ∈ trace, x.1.Allowed x.2) ∧ trace.length = 4 ∧ 3 ∈ s.present ∧
      (s.space.isTable 3).ieObject = some 960)
    (by decide +kernel)
  obtain ⟨trace, s, hrun, hallowed, hlength, hmem, hobj⟩ := hfollow
  obtain ⟨found, hlookup, hfound⟩ := (reverse_hash (by decide) hrun hallowed).1 960
  exact ⟨trace, s, hrun, hlength, found, hlookup, _, (hfound _ 3).mpr ⟨hmem, hobj, rfl⟩⟩

end Steps

end HashState

end MachVirtuTerm
