import Mathlib.Data.List.TakeWhile
import MachVirtuTerm.Mach.KernReturn

/-!
# Address map entries

The entries of a map are kept in a list in the order of the links; a place in it is the
entries before it and those from it on, and the header is the place after the last
entry. Lookups, clips and the transition marks of wired entries are stated here for all
routines that walk over the entries.
-/

open List

namespace MachVirtuTerm

/-- `vm_offset_t`. -/
abbrev VmOffset := BitVec 32

/-- `vm_prot_t`. -/
abbrev VmProt := BitVec 3

/-- `struct vm_map_entry` without the links. `object` is a union, by `isSubMap` of an
object or a map, and `none` is `VM_OBJECT_NULL`. -/
structure VmMapEntry where
  vmeStart : VmOffset
  vmeEnd : VmOffset
  object : Option ℕ
  offset : VmOffset
  isShared : Bool
  isSubMap : Bool
  inTransition : Bool
  needsWakeup : Bool
  behavior : BitVec 2
  needsCopy : Bool
  protection : VmProt
  maxProtection : VmProt
  inheritance : BitVec 2
  wiredCount : BitVec 16
  userWiredCount : BitVec 16
  deriving DecidableEq

/-- The address lies in the range of the entry. -/
def VmMapEntry.Contains (entry : VmMapEntry) (address : VmOffset) : Prop :=
  entry.vmeStart ≤ address ∧ address < entry.vmeEnd

instance (entry : VmMapEntry) (address : VmOffset) : Decidable (entry.Contains address) :=
  inferInstanceAs (Decidable (_ ∧ _))

/-- The range of an entry. -/
def VmMapEntry.range (entry : VmMapEntry) : VmOffset × VmOffset := (entry.vmeStart, entry.vmeEnd)

/-- The front portion of a split entry. -/
def VmMapEntry.front (entry : VmMapEntry) (address : VmOffset) : VmMapEntry :=
  { entry with vmeEnd := address }

/-- The back portion of a split entry. -/
def VmMapEntry.back (entry : VmMapEntry) (address : VmOffset) : VmMapEntry :=
  { entry with vmeStart := address, offset := entry.offset + (address - entry.vmeStart) }

/-- An entry out of transition, for which nobody waits. -/
def VmMapEntry.unmark (entry : VmMapEntry) : VmMapEntry :=
  { entry with inTransition := false, needsWakeup := false }

/-- Entries sorted by address, not empty and disjoint. -/
structure EntriesSorted (entries : List VmMapEntry) : Prop where
  pairwise : entries.Pairwise fun a b => a.vmeEnd ≤ b.vmeStart
  nonempty : ∀ e ∈ entries, e.vmeStart < e.vmeEnd

instance (entries : List VmMapEntry) : Decidable (EntriesSorted entries) :=
  decidable_of_iff ((entries.Pairwise fun a b => a.vmeEnd ≤ b.vmeStart) ∧
    ∀ e ∈ entries, e.vmeStart < e.vmeEnd) ⟨fun h => ⟨h.1, h.2⟩, fun h => ⟨h.1, h.2⟩⟩

/-- `vm_map_lookup_entry`: whether an entry contains the address, and the place of that
entry or else of the one after the address. -/
def vmMapLookupEntry (entries : List VmMapEntry) (address : VmOffset) :
    Bool × List VmMapEntry × List VmMapEntry :=
  let before := entries.takeWhile fun e => e.vmeEnd ≤ address
  let after := entries.dropWhile fun e => e.vmeEnd ≤ address
  (after.head?.any fun e => e.vmeStart ≤ address, before, after)

/-- `vm_map_clip_start` at the first entry of a place: the new entry goes before it. -/
def vmMapClipStart (before : List VmMapEntry) (entry : VmMapEntry) (startaddr : VmOffset) :
    List VmMapEntry × VmMapEntry :=
  if startaddr > entry.vmeStart then (before ++ [entry.front startaddr], entry.back startaddr)
  else (before, entry)

/-- `vm_map_clip_end` at the first entry of a place: the new entry goes after it. -/
def vmMapClipEnd (entry : VmMapEntry) (after : List VmMapEntry) (endaddr : VmOffset) :
    VmMapEntry × List VmMapEntry :=
  if endaddr < entry.vmeEnd then (entry.front endaddr, entry.back endaddr :: after)
  else (entry, after)

/-- The loops that clear the transition bit of all entries that were one before, and
whether anybody waits for one of them. -/
def clearTransition (vmeEnd : VmOffset) : List VmMapEntry → List VmMapEntry × Bool
  | [] => ([], false)
  | entry :: after =>
    if entry.vmeStart < vmeEnd then
      let (cleared, needed) := clearTransition vmeEnd after
      (entry.unmark :: cleared, entry.needsWakeup || needed)
    else (entry :: after, false)

variable {entries before after : List VmMapEntry} {entry : VmMapEntry} {address : VmOffset}

/-- The place looked up is one in the map. -/
theorem vmMapLookupEntry_append (entries : List VmMapEntry) (address : VmOffset) :
    (vmMapLookupEntry entries address).2.1 ++ (vmMapLookupEntry entries address).2.2 = entries :=
  takeWhile_append_dropWhile

/-- An address is found when the entry at the place looked up contains it. -/
theorem lookup_found {found : Bool}
    (h : vmMapLookupEntry entries address = (found, before, entry :: after)) :
    found = decide (entry.vmeStart ≤ address) := by
  simp only [vmMapLookupEntry, Prod.mk.injEq] at h
  obtain ⟨hfound, -, hafter⟩ := h
  rw [hafter] at hfound
  simpa using hfound.symm

/-- The entries from the place looked up on end after the address. -/
theorem lt_vmeEnd_of_lookup (h : (vmMapLookupEntry entries address).2.2 = entry :: after) :
    address < entry.vmeEnd := by
  have hhead := head?_dropWhile_not (fun e : VmMapEntry => decide (e.vmeEnd ≤ address)) entries
  have hdrop : entries.dropWhile (fun e => decide (e.vmeEnd ≤ address)) = entry :: after := h
  rw [hdrop] at hhead
  simpa using hhead

/-- The entries before the place looked up end before the address. -/
theorem vmeEnd_le_of_lookup (h : entry ∈ (vmMapLookupEntry entries address).2.1) :
    entry.vmeEnd ≤ address := by
  simpa using mem_takeWhile_imp h

section

variable (hs : EntriesSorted (before ++ entry :: after))

include hs

/-- Of two entries the first ends before the second starts. -/
theorem EntriesSorted.le_of_append
    {other : VmMapEntry} (ho : other ∈ after) : entry.vmeEnd ≤ other.vmeStart := by
  have h := hs.pairwise.sublist (sublist_append_right before _)
  exact (pairwise_cons.mp h).1 other ho

/-- The entries before one end where it starts, at a place with the entry next. -/
theorem EntriesSorted.le_vmeStart : ∀ e ∈ before, e.vmeEnd ≤ entry.vmeStart := fun e he =>
  (pairwise_append.mp hs.pairwise).2.2 e he entry (by simp)

/-- The entries that start in the range of one, from it on. -/
theorem EntriesSorted.takeWhile_self :
    (entry :: after).takeWhile (·.vmeStart < entry.vmeEnd) = [entry] ∧
      (entry :: after).dropWhile (·.vmeStart < entry.vmeEnd) = after := by
  have hlt := hs.nonempty entry (by simp)
  cases after with
  | nil => simp [hlt]
  | cons next after =>
    have hle := hs.le_of_append (mem_cons_self ..)
    have hnot : ¬next.vmeStart < entry.vmeEnd := BitVec.not_lt.mpr hle
    simp [hlt, hnot]

end

/-- The entry that contains the address is found. -/
theorem EntriesSorted.lookup_of_contains (hs : EntriesSorted entries) (he : entry ∈ entries)
    (hc : entry.Contains address) :
    ∃ after, (vmMapLookupEntry entries address).2.2 = entry :: after := by
  have happend := vmMapLookupEntry_append entries address
  have hmem : entry ∈ (vmMapLookupEntry entries address).2.2 := by
    rw [← happend] at he
    refine (mem_append.mp he).resolve_left fun hbefore => ?_
    exact absurd hc.2 (BitVec.not_lt.mpr (vmeEnd_le_of_lookup hbefore))
  cases hafter : (vmMapLookupEntry entries address).2.2 with
  | nil => simp [hafter] at hmem
  | cons first after =>
    rw [hafter] at hmem happend
    rcases mem_cons.mp hmem with rfl | hmem
    · exact ⟨after, rfl⟩
    · rw [← happend] at hs
      have hle := hs.le_of_append hmem
      have hlt := lt_vmeEnd_of_lookup hafter
      have hstart := hc.1
      bv_omega

/-- Part of a sorted list is sorted. -/
theorem EntriesSorted.sublist {l : List VmMapEntry} (hs : EntriesSorted entries)
    (h : l.Sublist entries) : EntriesSorted l :=
  ⟨hs.pairwise.sublist h, fun e he => hs.nonempty e (h.subset he)⟩

/-- All entries from the place looked up on end after the address. -/
theorem EntriesSorted.lt_of_lookup (hs : EntriesSorted entries)
    (h : entry ∈ (vmMapLookupEntry entries address).2.2) : address < entry.vmeEnd := by
  have happend := vmMapLookupEntry_append entries address
  cases hafter : (vmMapLookupEntry entries address).2.2 with
  | nil => simp [hafter] at h
  | cons first after =>
    have hfirst := lt_vmeEnd_of_lookup hafter
    rw [hafter] at h happend
    rcases mem_cons.mp h with rfl | h
    · exact hfirst
    · rw [← happend] at hs
      have hle := hs.le_of_append h
      have hlt := hs.nonempty entry (by simp [h])
      bv_omega

/-- The entries after those that start before an address start from it on. -/
theorem EntriesSorted.le_of_dropWhile (hs : EntriesSorted entries)
    (h : entry ∈ entries.dropWhile (·.vmeStart < address)) : address ≤ entry.vmeStart := by
  cases hdrop : entries.dropWhile (·.vmeStart < address) with
  | nil => simp [hdrop] at h
  | cons first after =>
    have hhead := head?_dropWhile_not (fun e : VmMapEntry => decide (e.vmeStart < address)) entries
    rw [hdrop] at hhead
    have hge : address ≤ first.vmeStart := by simpa using hhead
    have hsorted := hs.sublist (dropWhile_sublist (·.vmeStart < address))
    rw [hdrop] at h hsorted
    rcases mem_cons.mp h with rfl | h
    · exact hge
    · have hle := @EntriesSorted.le_of_append [] _ _ hsorted _ h
      have hlt := hsorted.nonempty first (by simp)
      bv_omega

/-- Splitting an entry leaves the list sorted. -/
theorem EntriesSorted.split (hs : EntriesSorted (before ++ entry :: after))
    (hstart : entry.vmeStart < address) (hend : address < entry.vmeEnd) :
    EntriesSorted (before ++ entry.front address :: entry.back address :: after) := by
  have hmid := pairwise_append.mp hs.pairwise
  obtain ⟨hafter, hsorted⟩ := pairwise_cons.mp hmid.2.1
  refine ⟨pairwise_append.mpr ⟨hmid.1, ?_, ?_⟩, ?_⟩
  · refine pairwise_cons.mpr ⟨?_, pairwise_cons.mpr ⟨hafter, hsorted⟩⟩
    intro other ho
    rcases mem_cons.mp ho with rfl | ho
    · exact BitVec.le_refl address
    · have hle := hafter other ho
      change address ≤ other.vmeStart
      bv_omega
  · intro first hfirst other ho
    have hle := hmid.2.2 first hfirst
    rcases mem_cons.mp ho with rfl | ho
    · exact hle entry (by simp)
    rcases mem_cons.mp ho with rfl | ho
    · have hentry := hle entry (by simp)
      change first.vmeEnd ≤ address
      bv_omega
    · exact hle other (by simp [ho])
  · intro e he
    simp only [mem_append, mem_cons] at he
    rcases he with he | rfl | rfl | he
    · exact hs.nonempty e (by simp [he])
    · exact hstart
    · exact hend
    · exact hs.nonempty e (by simp [he])

/-- Clipping the start of an entry that ends after it keeps the entries sorted. -/
theorem EntriesSorted.clipStart (h : EntriesSorted (before ++ entry :: after))
    (hend : address < entry.vmeEnd) :
    EntriesSorted ((vmMapClipStart before entry address).1 ++
      (vmMapClipStart before entry address).2 :: after) := by
  unfold vmMapClipStart
  split
  · rename_i hstart
    simpa using h.split hstart hend
  · exact h

/-- Clipping the end of an entry that starts before it keeps the entries sorted. -/
theorem EntriesSorted.clipEnd (h : EntriesSorted (before ++ entry :: after))
    (hs : entry.vmeStart < address) :
    EntriesSorted (before ++ (vmMapClipEnd entry after address).1 ::
      (vmMapClipEnd entry after address).2) := by
  unfold vmMapClipEnd
  split
  · rename_i hlt
    exact h.split hs hlt
  · exact h

/-- Whether entries are sorted depends on their ranges only. -/
theorem EntriesSorted.congr {l : List VmMapEntry} (hs : EntriesSorted entries)
    (h : l.map VmMapEntry.range = entries.map VmMapEntry.range) : EntriesSorted l := by
  have hpairwise : (entries.map VmMapEntry.range).Pairwise fun a b => a.2 ≤ b.1 :=
    pairwise_map.mpr hs.pairwise
  refine ⟨pairwise_map.mp (h ▸ hpairwise), fun e he => ?_⟩
  have hmem : e.range ∈ entries.map VmMapEntry.range := h ▸ mem_map_of_mem he
  obtain ⟨e', he', hrange⟩ := mem_map.mp hmem
  have hlt := hs.nonempty e' he'
  have hlt' : e'.range.1 < e'.range.2 := hlt
  rw [hrange] at hlt'
  exact hlt'

/-- Clearing transition bits changes no range. -/
theorem map_range_clearTransition (vmeEnd : VmOffset) (entries : List VmMapEntry) :
    (clearTransition vmeEnd entries).1.map VmMapEntry.range = entries.map VmMapEntry.range := by
  induction entries with
  | nil => rfl
  | cons e entries ih =>
    unfold clearTransition
    split
    · simp [ih, VmMapEntry.range, VmMapEntry.unmark]
    · rfl

/-- After clearing, an entry that starts in the range is out of transition; what else it
is does not change. -/
theorem mem_clearTransition {vmeEnd : VmOffset} (hs : EntriesSorted entries)
    (h : entry ∈ (clearTransition vmeEnd entries).1) :
    ∃ e ∈ entries, entry = e.unmark ∨ entry = e ∧ vmeEnd ≤ e.vmeStart := by
  induction entries with
  | nil => cases h
  | cons first entries ih =>
    unfold clearTransition at h
    split at h
    · rcases mem_cons.mp h with rfl | h
      · exact ⟨first, by simp, Or.inl rfl⟩
      · obtain ⟨e, he, heq⟩ := ih (hs.sublist (sublist_cons_self first entries)) h
        exact ⟨e, by simp [he], heq⟩
    · rename_i hfirst
      refine ⟨entry, h, Or.inr ⟨rfl, ?_⟩⟩
      rcases mem_cons.mp h with rfl | h
      · exact BitVec.not_lt.mp hfirst
      · have hle := @EntriesSorted.le_of_append [] _ _ hs _ h
        have hlt := hs.nonempty first (by simp)
        bv_omega

end MachVirtuTerm

/-!
# What a map denotes

A map denotes, for each address in one of its entries, the part of the object mapped there and
how. Clips leave that alone. A list of entries tiles a range when each starts where the one
before it ends.
-/

namespace MachVirtuTerm

variable {before after entries : List VmMapEntry} {entry : VmMapEntry}
  {address a b p : VmOffset}

/-! ## Denotations -/

/-- What an entry says of an address: the entry as if it were clipped there, but for its
`needs_copy`. -/
def VmMapEntry.view (entry : VmMapEntry) (address : VmOffset) : VmMapEntry :=
  { entry with
    vmeStart := address
    vmeEnd := address
    offset := entry.offset + (address - entry.vmeStart)
    needsCopy := false }

/-- What the entries map at an address. -/
def Maps (entries : List VmMapEntry) (address : VmOffset) (view : VmMapEntry) : Prop :=
  ∃ e ∈ entries, e.Contains address ∧ e.view address = view

/-- Two lists of entries denote the same map. -/
def SameMap (entries entries' : List VmMapEntry) : Prop :=
  ∀ address view, Maps entries' address view ↔ Maps entries address view

theorem SameMap.refl (entries : List VmMapEntry) : SameMap entries entries :=
  fun _ _ => Iff.rfl

theorem SameMap.trans {entries' entries'' : List VmMapEntry} (h : SameMap entries entries')
    (h' : SameMap entries' entries'') : SameMap entries entries'' :=
  fun address view => (h' address view).trans (h address view)

theorem maps_append {l l' : List VmMapEntry} {view : VmMapEntry} :
    Maps (l ++ l') address view ↔ Maps l address view ∨ Maps l' address view := by
  simp only [Maps, mem_append, or_and_right, exists_or]

variable {l : List VmMapEntry}

theorem maps_cons {view : VmMapEntry} : Maps (entry :: l) address view ↔
      (entry.Contains address ∧ entry.view address = view) ∨ Maps l address view := by
  simp only [Maps, mem_cons, or_and_right, exists_or, exists_eq_left]

/-- Entries at a place that map the same can be put for each other. -/
theorem SameMap.place {l l' : List VmMapEntry} (h : SameMap l l') :
    SameMap (before ++ l) (before ++ l') := fun address view => by
  rw [maps_append, maps_append, h address view]

/-- The front and the back of an entry map what it does. -/
theorem sameMap_split (hstart : entry.vmeStart < address) (hend : address < entry.vmeEnd) :
    SameMap (entry :: after) (entry.front address :: entry.back address :: after) := by
  intro x view
  rw [maps_cons, maps_cons, maps_cons, ← or_assoc]
  refine or_congr_left ?_
  have hfront : (entry.front address).view x = entry.view x := rfl
  have hback : (entry.back address).view x = entry.view x := by
    have hoffset : entry.offset + (address - entry.vmeStart) + (x - address) =
        entry.offset + (x - entry.vmeStart) := by bv_omega
    simp only [VmMapEntry.view, VmMapEntry.back, hoffset]
  rw [hfront, hback, ← or_and_right]
  refine and_congr_left fun _ => ?_
  simp only [VmMapEntry.Contains, VmMapEntry.front, VmMapEntry.back]
  bv_omega

/-- A clip of the start of an entry. -/
theorem sameMap_clipStart (hend : address < entry.vmeEnd) :
    SameMap (before ++ entry :: after)
      ((vmMapClipStart before entry address).1 ++
        (vmMapClipStart before entry address).2 :: after) := by
  unfold vmMapClipStart
  split_ifs with hstart
  · rw [append_assoc]
    exact (sameMap_split hstart hend).place
  · exact SameMap.refl _

/-- A clip of the end of an entry. -/
theorem sameMap_clipEnd (hstart : entry.vmeStart < address) :
    SameMap (entry :: after)
      ((vmMapClipEnd entry after address).1 :: (vmMapClipEnd entry after address).2) := by
  unfold vmMapClipEnd
  split_ifs with hend
  · exact sameMap_split hstart hend
  · exact SameMap.refl _

/-- The `needs_copy` of an entry is not part of what it maps. -/
theorem sameMap_needsCopy (needsCopy : Bool) :
    SameMap (entry :: after) ({ entry with needsCopy } :: after) := fun _ _ => by
  rw [maps_cons, maps_cons]
  rfl

/-! ## Tilings -/

/-- The entries tile a range: none is empty, and each starts where the one before it ends. -/
def EntriesTile : VmOffset → List VmMapEntry → VmOffset → Prop
  | a, [], b => a = b
  | a, e :: l, b => e.vmeStart = a ∧ a < e.vmeEnd ∧ EntriesTile e.vmeEnd l b

variable (h : EntriesTile a l b)

include h

/-- One more entry. -/
theorem EntriesTile.concat
    (hstart : entry.vmeStart = b) (hend : b < entry.vmeEnd) : EntriesTile a (l ++ [entry]) entry.vmeEnd := by
  induction l generalizing a with
  | nil =>
    obtain rfl : a = b := h
    exact ⟨hstart, hend, rfl⟩
  | cons e l ih => exact ⟨h.1, h.2.1, ih h.2.2⟩

theorem EntriesTile.le : a ≤ b := by
  induction l generalizing a with
  | nil => exact BitVec.le_of_eq h
  | cons e l ih => exact BitVec.le_trans (BitVec.le_of_lt h.2.1) (ih h.2.2)

/-- Each address of the range is in one of the entries. -/
theorem EntriesTile.exists_contains (hp : a ≤ p) (hpb : p < b) : ∃ e ∈ l, e.Contains p := by
  induction l generalizing a with
  | nil =>
    obtain rfl : a = b := h
    exact absurd hpb (BitVec.not_lt.mpr hp)
  | cons e l ih =>
    by_cases hlt : p < e.vmeEnd
    · exact ⟨e, .head _, ⟨h.1 ▸ hp, hlt⟩⟩
    · obtain ⟨e', he', hc⟩ := ih h.2.2 (BitVec.not_lt.mp hlt)
      exact ⟨e', .tail _ he', hc⟩

end MachVirtuTerm
