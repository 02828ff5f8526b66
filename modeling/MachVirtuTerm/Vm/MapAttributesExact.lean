import Mathlib.Data.BitVec
import MachVirtuTerm.Vm.MapAttributes

/-!
# Attribute operations are exact

Clips and `vm_map_simplify` leave what a map has at its addresses as it is. The routines that set
an attribute set it at the addresses of their range and change nothing else, and those that can
fail do so before they change anything.
-/

open List Option

namespace MachVirtuTerm

section Clip

variable {before after l l' : List VmMapEntry} {entry prev : VmMapEntry} {address a : VmOffset}

@[simp] theorem attributesAt_nil (a : VmOffset) : attributesAt [] a = none := rfl

/-- The first entry that contains the address counts. -/
theorem attributesAt_cons (entry : VmMapEntry) (l : List VmMapEntry) (a : VmOffset) :
    attributesAt (entry :: l) a =
      if entry.Contains a then some (entry.attributesAt a) else attributesAt l a := by
  unfold attributesAt
  rw [find?_cons]
  by_cases h : entry.Contains a
  · simp [h]
  · simp [h]

theorem attributesAt_append (l l' : List VmMapEntry) (a : VmOffset) :
    attributesAt (l ++ l') a = (attributesAt l a).or (attributesAt l' a) := by
  induction l with
  | nil => simp
  | cons entry l ih =>
    rw [cons_append, attributesAt_cons, attributesAt_cons, ih]
    split
    · rfl
    · rfl

/-- Nothing lies at an address below all entries. -/
theorem attributesAt_of_lt (h : ∀ e ∈ l, a < e.vmeStart) : attributesAt l a = none := by
  induction l with
  | nil => rfl
  | cons entry l ih =>
    have hlt := h entry (mem_cons_self ..)
    have hnot : ¬entry.Contains a := fun hc => by
      have hle := hc.1
      bv_omega
    rw [attributesAt_cons, if_neg hnot]
    exact ih fun e he => h e (mem_cons_of_mem _ he)

/-- Nothing lies at an address after all entries. -/
theorem attributesAt_of_le (h : ∀ e ∈ l, e.vmeEnd ≤ a) : attributesAt l a = none := by
  induction l with
  | nil => rfl
  | cons entry l ih =>
    have hle := h entry (mem_cons_self ..)
    have hnot : ¬entry.Contains a := fun hc => by
      have hlt := hc.2
      bv_omega
    rw [attributesAt_cons, if_neg hnot]
    exact ih fun e he => h e (mem_cons_of_mem _ he)

/-- The back portion has what the entry had. -/
theorem attributesAt_back (entry : VmMapEntry) (address a : VmOffset) :
    (entry.back address).attributesAt a = entry.attributesAt a := by
  unfold VmMapEntry.attributesAt VmMapEntry.back
  dsimp only
  have hoffset : entry.offset + (address - entry.vmeStart) + (a - address) =
      entry.offset + (a - entry.vmeStart) := by rw [add_assoc, sub_add_sub_cancel']
  rw [hoffset]

/-- An entry that is split has what it had. -/
theorem attributesAt_split (hstart : entry.vmeStart ≤ address) (hend : address ≤ entry.vmeEnd)
    (after : List VmMapEntry) (a : VmOffset) :
    attributesAt (entry.front address :: entry.back address :: after) a =
      attributesAt (entry :: after) a := by
  rw [attributesAt_cons, attributesAt_cons, attributesAt_cons, attributesAt_back]
  have hfront : (entry.front address).attributesAt a = entry.attributesAt a := rfl
  have hcontains : entry.Contains a ↔
      (entry.front address).Contains a ∨ (entry.back address).Contains a := by
    unfold VmMapEntry.Contains VmMapEntry.front VmMapEntry.back
    dsimp only
    constructor
    · rintro ⟨hle, hlt⟩
      by_cases ha : a < address
      · exact Or.inl ⟨hle, ha⟩
      · exact Or.inr ⟨BitVec.not_lt.mp ha, hlt⟩
    · rintro (⟨hle, hlt⟩ | ⟨hle, hlt⟩)
      · exact ⟨hle, by bv_omega⟩
      · exact ⟨by bv_omega, hlt⟩
  rw [hfront]
  by_cases h1 : (entry.front address).Contains a
  · rw [if_pos h1, if_pos (hcontains.mpr (Or.inl h1))]
  · by_cases h2 : (entry.back address).Contains a
    · rw [if_neg h1, if_pos h2, if_pos (hcontains.mpr (Or.inr h2))]
    · rw [if_neg h1, if_neg h2, if_neg fun h => (hcontains.mp h).elim h1 h2]

/-- A clip of the start changes nothing that the entries have. -/
theorem attributesAt_clipStart (before after : List VmMapEntry) (hend : address ≤ entry.vmeEnd)
    (a : VmOffset) :
    attributesAt ((vmMapClipStart before entry address).1 ++
      (vmMapClipStart before entry address).2 :: after) a =
        attributesAt (before ++ entry :: after) a := by
  unfold vmMapClipStart
  split
  · rename_i hlt
    have hle : entry.vmeStart ≤ address := by bv_omega
    rw [append_assoc, attributesAt_append, attributesAt_append before]
    exact congrArg _ (attributesAt_split hle hend after a)
  · rfl

/-- A clip of the end changes nothing that the entries have. -/
theorem attributesAt_clipEnd (before after : List VmMapEntry) (hstart : entry.vmeStart ≤ address)
    (a : VmOffset) :
    attributesAt (before ++ (vmMapClipEnd entry after address).1 ::
      (vmMapClipEnd entry after address).2) a = attributesAt (before ++ entry :: after) a := by
  unfold vmMapClipEnd
  split
  · rename_i hlt
    have hle : address ≤ entry.vmeEnd := by bv_omega
    rw [attributesAt_append, attributesAt_append before]
    exact congrArg _ (attributesAt_split hstart hle after a)
  · rfl

/-- Two neighbours that agree are the portions of one entry, as far as attributes go. -/
theorem attributesAt_merge {this : VmMapEntry} (h : prev.Agrees this) (hprev : prev.vmeStart ≤ prev.vmeEnd)
    (hthis : this.vmeStart ≤ this.vmeEnd) (after : List VmMapEntry) (a : VmOffset) :
    attributesAt (prev.front this.vmeEnd :: after) a = attributesAt (prev :: this :: after) a := by
  obtain ⟨hadjacent, hinheritance, hprot, hmax, hbehavior, hwired, huser, -, -, hcopy, hobject,
    hoffset⟩ := h
  rw [← @attributesAt_split (prev.front this.vmeEnd) prev.vmeEnd hprev (hadjacent ▸ hthis)]
  rw [attributesAt_cons, attributesAt_cons, attributesAt_cons prev, attributesAt_cons this]
  have hfront : (prev.front this.vmeEnd).front prev.vmeEnd = prev := rfl
  have hcontains : ((prev.front this.vmeEnd).back prev.vmeEnd).Contains a ↔ this.Contains a := by
    unfold VmMapEntry.Contains VmMapEntry.back VmMapEntry.front
    rw [hadjacent]
  have hsame : ((prev.front this.vmeEnd).back prev.vmeEnd).attributesAt a = this.attributesAt a := by
    unfold VmMapEntry.attributesAt VmMapEntry.back VmMapEntry.front
    dsimp only
    rw [hinheritance, hprot, hmax, hbehavior, hwired, huser, hcopy, hobject, ← hoffset, hadjacent]
  rw [hfront, hsame]
  simp only [hcontains]

end Clip

section Order

variable {before after l l' : List VmMapEntry} {entry e : VmMapEntry} {address : VmOffset}

theorem entriesOrdered_cons : EntriesOrdered (entry :: l) ↔
    entry.vmeStart ≤ entry.vmeEnd ∧ (∀ e ∈ l, entry.vmeEnd ≤ e.vmeStart) ∧ EntriesOrdered l := by
  constructor
  · intro h
    obtain ⟨hfirst, hrest⟩ := pairwise_cons.mp h.pairwise
    exact ⟨h.le entry (mem_cons_self ..), hfirst, hrest, fun e he => h.le e (mem_cons_of_mem _ he)⟩
  · rintro ⟨hle, hfirst, hrest⟩
    refine ⟨pairwise_cons.mpr ⟨hfirst, hrest.pairwise⟩, fun e he => ?_⟩
    rcases mem_cons.mp he with rfl | he
    · exact hle
    · exact hrest.le e he

theorem entriesOrdered_append : EntriesOrdered (l ++ l') ↔
    EntriesOrdered l ∧ EntriesOrdered l' ∧ ∀ e ∈ l, ∀ e' ∈ l', e.vmeEnd ≤ e'.vmeStart := by
  constructor
  · intro h
    obtain ⟨hl, hl', hmid⟩ := pairwise_append.mp h.pairwise
    exact ⟨⟨hl, fun e he => h.le e (mem_append_left _ he)⟩,
      ⟨hl', fun e he => h.le e (mem_append_right _ he)⟩, hmid⟩
  · rintro ⟨hl, hl', hmid⟩
    refine ⟨pairwise_append.mpr ⟨hl.pairwise, hl'.pairwise, hmid⟩, fun e he => ?_⟩
    rcases mem_append.mp he with he | he
    · exact hl.le e he
    · exact hl'.le e he

/-- An entry lies in the range of one of a list. -/
def Inside (l : List VmMapEntry) (e : VmMapEntry) : Prop :=
  ∃ e' ∈ l, e'.vmeStart ≤ e.vmeStart ∧ e.vmeEnd ≤ e'.vmeEnd

theorem inside_of_mem (h : e ∈ l) : Inside l e := ⟨e, h, BitVec.le_refl _, BitVec.le_refl _⟩

theorem Inside.mono (h : Inside l e) (hl : ∀ e ∈ l, e ∈ l') : Inside l' e := by
  obtain ⟨e', he', hin⟩ := h
  exact ⟨e', hl e' he', hin⟩

/-- Entries that lie in ranges are after what is before these. -/
theorem Inside.le {x : VmOffset} (h : Inside l e) (hl : ∀ e ∈ l, x ≤ e.vmeStart) : x ≤ e.vmeStart := by
  obtain ⟨e', he', hstart, -⟩ := h
  have hle := hl e' he'
  bv_omega

/-- The portions of an entry are in order. -/
theorem EntriesOrdered.split (h : EntriesOrdered (entry :: l)) (hstart : entry.vmeStart ≤ address)
    (hend : address ≤ entry.vmeEnd) :
    EntriesOrdered (entry.front address :: entry.back address :: l) := by
  obtain ⟨-, hfirst, hrest⟩ := entriesOrdered_cons.mp h
  refine entriesOrdered_cons.mpr ⟨hstart, fun e he => ?_, entriesOrdered_cons.mpr ⟨hend, hfirst, hrest⟩⟩
  rcases mem_cons.mp he with rfl | he
  · exact BitVec.le_refl _
  · have hle := hfirst e he
    change address ≤ e.vmeStart
    bv_omega

/-- What a clip or an attribute does to a map: entries stay in order and in their places, and keep
their protections. -/
structure Refines (l l' : List VmMapEntry) : Prop where
  ordered : EntriesOrdered l → EntriesOrdered l'
  inside : ∀ e ∈ l', Inside l e

theorem Refines.refl (l : List VmMapEntry) : Refines l l := ⟨id, fun _ he => inside_of_mem he⟩

theorem Refines.trans {l'' : List VmMapEntry} (h : Refines l l') (h' : Refines l' l'') :
    Refines l l'' := by
  refine ⟨fun ho => h'.ordered (h.ordered ho), fun e he => ?_⟩
  obtain ⟨e', he', hstart', hend'⟩ := h'.inside e he
  obtain ⟨e'', he'', hstart, hend⟩ := h.inside e' he'
  exact ⟨e'', he'', by bv_omega, by bv_omega⟩

/-- A part of a map is refined. -/
theorem Refines.append (h : Refines l l') (before : List VmMapEntry) :
    Refines (before ++ l) (before ++ l') := by
  refine ⟨fun ho => ?_, fun e he => ?_⟩
  · obtain ⟨hbefore, hl, hmid⟩ := entriesOrdered_append.mp ho
    exact entriesOrdered_append.mpr ⟨hbefore, h.ordered hl, fun e he e' he' =>
      (h.inside e' he').le fun _ hx => hmid e he _ hx⟩
  · rcases mem_append.mp he with he | he
    · exact inside_of_mem (mem_append_left _ he)
    · exact (h.inside e he).mono fun _ hx => mem_append_right _ hx

theorem Refines.cons (h : Refines l l') (entry : VmMapEntry) : Refines (entry :: l) (entry :: l') :=
  h.append [entry]

theorem refines_split (hstart : entry.vmeStart ≤ address) (hend : address ≤ entry.vmeEnd) :
    Refines (entry :: l) (entry.front address :: entry.back address :: l) := by
  refine ⟨fun h => h.split hstart hend, fun e he => ?_⟩
  rcases mem_cons.mp he with rfl | he
  · exact ⟨entry, mem_cons_self .., BitVec.le_refl _, hend⟩
  rcases mem_cons.mp he with rfl | he
  · exact ⟨entry, mem_cons_self .., hstart, BitVec.le_refl _⟩
  · exact inside_of_mem (mem_cons_of_mem _ he)

/-- An attribute of an entry is set. -/
theorem refines_set {set : VmMapEntry → VmMapEntry} (hrange : ∀ e, (set e).range = e.range) :
    Refines (entry :: l) (set entry :: l) := by
  have hstart : (set entry).vmeStart = entry.vmeStart := congrArg Prod.fst (hrange entry)
  have hend : (set entry).vmeEnd = entry.vmeEnd := congrArg Prod.snd (hrange entry)
  refine ⟨fun h => ?_, fun e he => ?_⟩
  · obtain ⟨hle, hfirst, hrest⟩ := entriesOrdered_cons.mp h
    refine entriesOrdered_cons.mpr ⟨?_, ?_, hrest⟩
    · rw [hstart, hend]
      exact hle
    · rw [hend]
      exact hfirst
  · rcases mem_cons.mp he with rfl | he
    · exact ⟨entry, mem_cons_self .., by bv_omega, by bv_omega⟩
    · exact inside_of_mem (mem_cons_of_mem _ he)

theorem refines_clipStart (before after : List VmMapEntry) (hend : address ≤ entry.vmeEnd) :
    Refines (before ++ entry :: after) ((vmMapClipStart before entry address).1 ++
      (vmMapClipStart before entry address).2 :: after) := by
  unfold vmMapClipStart
  split
  · rename_i hlt
    have hle : entry.vmeStart ≤ address := by bv_omega
    rw [append_assoc]
    exact (refines_split hle hend).append before
  · exact Refines.refl _

theorem refines_clipEnd (before after : List VmMapEntry) (hstart : entry.vmeStart ≤ address) :
    Refines (before ++ entry :: after) (before ++ (vmMapClipEnd entry after address).1 ::
      (vmMapClipEnd entry after address).2) := by
  unfold vmMapClipEnd
  split
  · rename_i hlt
    have hle : address ≤ entry.vmeEnd := by bv_omega
    exact (refines_split hstart hle).append before
  · exact Refines.refl _

end Order

section Set

variable {before after l l' : List VmMapEntry} {entry e : VmMapEntry} {start a : VmOffset}
  {set : VmMapEntry → VmMapEntry} {f : PageAttributes → PageAttributes} {«end» : VmOffset}

/-- A function on entries sets an attribute. -/
structure SetsAttribute (set : VmMapEntry → VmMapEntry) (f : PageAttributes → PageAttributes) :
    Prop where
  range : ∀ e, (set e).range = e.range
  attributesAt : ∀ e a, (set e).attributesAt a = f (e.attributesAt a)

/-- The loop keeps entries in order and in their places. -/
theorem refines_setBefore (hrange : ∀ e, (set e).range = e.range) («end» : VmOffset)
    (l : List VmMapEntry) : Refines l (setBefore set «end» l) := by
  induction l with
  | nil => exact Refines.refl _
  | cons entry after ih =>
    unfold setBefore
    split
    · rename_i hstart
      split
      · rename_i hend
        have hsplit : Refines (entry :: after) (entry.front «end» :: entry.back «end» :: after) :=
          refines_split (by bv_omega) (by bv_omega)
        exact hsplit.trans (refines_set hrange)
      · exact (ih.cons entry).trans (refines_set hrange)
    · exact Refines.refl _

/-- The loop sets the attribute at the addresses before the end. -/
theorem attributesAt_setBefore (h : SetsAttribute set f) (hl : EntriesOrdered l) :
    attributesAt (setBefore set «end» l) a =
      if a < «end» then (attributesAt l a).map f else attributesAt l a := by
  induction l with
  | nil =>
    unfold setBefore
    split
    · rfl
    · rfl
  | cons entry after ih =>
    obtain ⟨hle, hfirst, hrest⟩ := entriesOrdered_cons.mp hl
    have hcontains : ∀ e : VmMapEntry, (set e).Contains a ↔ e.Contains a := by
      intro e
      have hstart : (set e).vmeStart = e.vmeStart := congrArg Prod.fst (h.range e)
      have hend : (set e).vmeEnd = e.vmeEnd := congrArg Prod.snd (h.range e)
      unfold VmMapEntry.Contains
      rw [hstart, hend]
    by_cases hstart : entry.vmeStart < «end»
    · by_cases hend : «end» < entry.vmeEnd
      · rw [setBefore, if_pos hstart, if_pos hend,
          ← @attributesAt_split entry «end» (by bv_omega) (by bv_omega) after, attributesAt_cons, attributesAt_cons (entry.front «end»), h.attributesAt]
        simp only [hcontains]
        by_cases ha : a < «end»
        · rw [if_pos ha]
          have hnone : attributesAt (entry.back «end» :: after) a = none := by
            refine attributesAt_of_lt fun e he => ?_
            rcases mem_cons.mp he with rfl | he
            · exact ha
            · have hle := hfirst e he
              bv_omega
          rw [hnone]
          split
          · rfl
          · rfl
        · rw [if_neg ha]
          have hnot : ¬(entry.front «end»).Contains a := fun hc => ha hc.2
          rw [if_neg hnot, if_neg hnot]
      · rw [setBefore, if_pos hstart, if_neg hend, attributesAt_cons, attributesAt_cons, h.attributesAt,
          ih hrest]
        simp only [hcontains]
        by_cases hc : entry.Contains a
        · have ha : a < «end» := by
            have hlt := hc.2
            bv_omega
          rw [if_pos hc, if_pos hc, if_pos ha]
          rfl
        · rw [if_neg hc, if_neg hc]
    · rw [setBefore, if_neg hstart]
      split
      · rename_i ha
        have hnone : attributesAt (entry :: after) a = none := by
          refine attributesAt_of_lt fun e he => ?_
          rcases mem_cons.mp he with rfl | he
          · bv_omega
          · have hle := hfirst e he
            bv_omega
        rw [hnone]
        rfl
      · rfl

/-- Two entries have the same protections. -/
def SameProtections (e e' : VmMapEntry) : Prop :=
  e.protection = e'.protection ∧ e.maxProtection = e'.maxProtection

/-- An entry after the loop has the protections of one before, or was set. -/
theorem mem_setBefore (h : e ∈ setBefore set «end» l) :
    (∃ e' ∈ l, SameProtections e e') ∨
      ∃ e' ∈ l, e'.vmeStart < «end» ∧ ∃ x, SameProtections x e' ∧ e = set x := by
  induction l with
  | nil => cases h
  | cons entry after ih =>
    unfold setBefore at h
    split at h
    · rename_i hstart
      split at h
      · rcases mem_cons.mp h with rfl | h
        · exact Or.inr ⟨entry, mem_cons_self .., hstart, entry.front «end», ⟨rfl, rfl⟩, rfl⟩
        rcases mem_cons.mp h with rfl | h
        · exact Or.inl ⟨entry, mem_cons_self .., rfl, rfl⟩
        · exact Or.inl ⟨e, mem_cons_of_mem _ h, rfl, rfl⟩
      · rcases mem_cons.mp h with rfl | h
        · exact Or.inr ⟨entry, mem_cons_self .., hstart, entry, ⟨rfl, rfl⟩, rfl⟩
        · rcases ih h with ⟨e', he', hsame⟩ | ⟨e', he', hset⟩
          · exact Or.inl ⟨e', mem_cons_of_mem _ he', hsame⟩
          · exact Or.inr ⟨e', mem_cons_of_mem _ he', hset⟩
    · exact Or.inl ⟨e, h, rfl, rfl⟩

/-- The entries before an address and those from it on. -/
structure Divides (start : VmOffset) (l before after : List VmMapEntry) : Prop where
  refines : Refines l (before ++ after)
  attributesAt : ∀ a, attributesAt (before ++ after) a = MachVirtuTerm.attributesAt l a
  before_le : ∀ e ∈ before, e.vmeEnd ≤ start
  le_after : ∀ e ∈ after, start ≤ e.vmeStart
  before_same : ∀ e ∈ before, ∃ e' ∈ l, SameProtections e e'
  after_same : ∀ e ∈ after, ∃ e' ∈ l, start < e'.vmeEnd ∧ e'.vmeStart ≤ e.vmeStart ∧
    SameProtections e e'

/-- The entry that contains the address is clipped. -/
theorem divides_clipStart (hl : EntriesOrdered (before ++ entry :: after))
    (hbefore : ∀ e ∈ before, e.vmeEnd ≤ start) (hc : entry.Contains start) :
    Divides start (before ++ entry :: after) (vmMapClipStart before entry start).1
      ((vmMapClipStart before entry start).2 :: after) := by
  obtain ⟨hstart, hend⟩ := hc
  obtain ⟨-, hfirst, hrest⟩ := entriesOrdered_cons.mp (entriesOrdered_append.mp hl).2.1
  have hle : start ≤ entry.vmeEnd := by bv_omega
  have hrefines := refines_clipStart before after hle
  have hattributes := attributesAt_clipStart before after hle
  have hnext : ∀ e ∈ after, start < e.vmeStart := fun e he => by
    have hmid := hfirst e he
    bv_omega
  have hnextEnd : ∀ e ∈ after, start < e.vmeEnd := fun e he => by
    have hmid := hnext e he
    have hlast := hrest.le e he
    bv_omega
  have hmem : ∀ e ∈ before, ∃ e' ∈ before ++ entry :: after, SameProtections e e' := fun e he =>
    ⟨e, mem_append_left _ he, rfl, rfl⟩
  have hmemNext : ∀ e ∈ after, ∃ e' ∈ before ++ entry :: after, start < e'.vmeEnd ∧
      e'.vmeStart ≤ e.vmeStart ∧ SameProtections e e' := fun e he =>
    ⟨e, mem_append_right _ (mem_cons_of_mem _ he), hnextEnd e he, BitVec.le_refl _, rfl, rfl⟩
  have hentry : entry ∈ before ++ entry :: after := mem_append_right _ (mem_cons_self ..)
  unfold vmMapClipStart at hrefines hattributes ⊢
  split at hrefines
  · rename_i hsplit
    rw [if_pos hsplit] at hattributes ⊢
    refine ⟨hrefines, hattributes, fun e he => ?_, fun e he => ?_, fun e he => ?_, fun e he => ?_⟩
    · rcases mem_append.mp he with he | he
      · exact hbefore e he
      · rw [mem_singleton.mp he]
        exact BitVec.le_refl _
    · rcases mem_cons.mp he with rfl | he
      · exact BitVec.le_refl _
      · have hlt := hnext e he
        bv_omega
    · rcases mem_append.mp he with he | he
      · exact hmem e he
      · rw [mem_singleton.mp he]
        exact ⟨entry, hentry, rfl, rfl⟩
    · rcases mem_cons.mp he with rfl | he
      · exact ⟨entry, hentry, hend, hstart, rfl, rfl⟩
      · exact hmemNext e he
  · rename_i hsplit
    rw [if_neg hsplit] at hattributes ⊢
    refine ⟨hrefines, hattributes, hbefore, fun e he => ?_, hmem, fun e he => ?_⟩
    · rcases mem_cons.mp he with rfl | he
      · bv_omega
      · have hlt := hnext e he
        bv_omega
    · rcases mem_cons.mp he with rfl | he
      · exact ⟨e, hentry, hend, BitVec.le_refl _, rfl, rfl⟩
      · exact hmemNext e he

/-- No entry contains the address. -/
theorem divides_rest (hl : EntriesOrdered (before ++ after))
    (hbefore : ∀ e ∈ before, e.vmeEnd ≤ start) (hafter : ∀ e ∈ after, start < e.vmeStart) :
    Divides start (before ++ after) before after := by
  refine ⟨Refines.refl _, fun _ => rfl, hbefore, fun e he => ?_, fun e he => ?_, fun e he => ?_⟩
  · have hlt := hafter e he
    bv_omega
  · exact ⟨e, mem_append_left _ he, rfl, rfl⟩
  · have hlt := hafter e he
    have hle := hl.le e (mem_append_right _ he)
    exact ⟨e, mem_append_right _ he, by bv_omega, BitVec.le_refl _, rfl, rfl⟩

/-- The attribute is set from the place on where the range starts. -/
theorem setRange_eq (set : VmMapEntry → VmMapEntry) (start «end» : VmOffset)
    {entries : List VmMapEntry} (hl : EntriesOrdered entries) :
    ∃ before after, Divides start entries before after ∧
      setRange set start «end» entries = before ++ setBefore set «end» after := by
  have happend := vmMapLookupEntry_append entries start
  have hbefore : ∀ e ∈ (vmMapLookupEntry entries start).2.1, e.vmeEnd ≤ start := fun e he =>
    vmeEnd_le_of_lookup he
  unfold setRange
  rcases hlookup : vmMapLookupEntry entries start with ⟨found, before, after⟩
  rw [hlookup] at happend hbefore
  dsimp only at happend hbefore
  subst happend
  match found, after with
  | true, entry :: after =>
    have hstart : entry.vmeStart ≤ start := of_decide_eq_true (lookup_found hlookup).symm
    have hend : start < entry.vmeEnd := lt_vmeEnd_of_lookup (by rw [hlookup])
    exact ⟨_, _, divides_clipStart hl hbefore ⟨hstart, hend⟩, rfl⟩
  | true, [] => exact ⟨before, [], divides_rest hl hbefore (fun _ he => nomatch he), rfl⟩
  | false, [] => exact ⟨before, [], divides_rest hl hbefore (fun _ he => nomatch he), rfl⟩
  | false, entry :: after =>
    have hlt : start < entry.vmeStart := by
      have hnot := of_decide_eq_false (lookup_found hlookup).symm
      bv_omega
    obtain ⟨hle, hfirst, -⟩ := entriesOrdered_cons.mp (entriesOrdered_append.mp hl).2.1
    refine ⟨before, entry :: after, divides_rest hl hbefore fun e he => ?_, rfl⟩
    rcases mem_cons.mp he with rfl | he
    · exact hlt
    · have hnext := hfirst e he
      bv_omega

/-- An entry after an attribute was set has the protections of one before, or was set. -/
theorem mem_setRange {entries : List VmMapEntry} (hl : EntriesOrdered entries)
    (h : e ∈ setRange set start «end» entries) :
    (∃ e' ∈ entries, SameProtections e e') ∨
      ∃ e' ∈ entries, start < e'.vmeEnd ∧ e'.vmeStart < «end» ∧
        ∃ x, SameProtections x e' ∧ e = set x := by
  obtain ⟨before, after, hdivides, heq⟩ := setRange_eq set start «end» hl
  rw [heq] at h
  rcases mem_append.mp h with h | h
  · exact Or.inl (hdivides.before_same e h)
  rcases mem_setBefore h with ⟨e', he', hsame⟩ | ⟨e', he', hlt, x, hx, hset⟩
  · obtain ⟨e'', he'', -, -, hsame'⟩ := hdivides.after_same e' he'
    exact Or.inl ⟨e'', he'', hsame.1.trans hsame'.1, hsame.2.trans hsame'.2⟩
  · obtain ⟨e'', he'', hend, hle, hsame'⟩ := hdivides.after_same e' he'
    exact Or.inr ⟨e'', he'', hend, by bv_omega, x, ⟨hx.1.trans hsame'.1, hx.2.trans hsame'.2⟩, hset⟩

/-- The attribute is set at the addresses of the range. -/
theorem attributesAt_setRange (h : SetsAttribute set f) {entries : List VmMapEntry}
    (hl : EntriesOrdered entries) :
    attributesAt (setRange set start «end» entries) a =
      if start ≤ a ∧ a < «end» then (attributesAt entries a).map f else attributesAt entries a := by
  obtain ⟨before, after, hdivides, heq⟩ := setRange_eq set start «end» hl
  obtain ⟨-, hafter, -⟩ := entriesOrdered_append.mp (hdivides.refines.ordered hl)
  rw [heq, ← hdivides.attributesAt, attributesAt_append, attributesAt_append,
    attributesAt_setBefore h hafter]
  by_cases hstart : start ≤ a
  · have hnone : attributesAt before a = none := attributesAt_of_le fun e he => by
      have hle := hdivides.before_le e he
      bv_omega
    rw [hnone, none_or, none_or]
    simp only [hstart, true_and]
  · have hnone : attributesAt after a = none := attributesAt_of_lt fun e he => by
      have hle := hdivides.le_after e he
      bv_omega
    simp only [hnone, hstart, false_and, if_false, map_none, ite_self]

theorem refines_setRange (h : SetsAttribute set f) {entries : List VmMapEntry}
    (hl : EntriesOrdered entries) : Refines entries (setRange set start «end» entries) := by
  obtain ⟨before, after, hdivides, heq⟩ := setRange_eq set start «end» hl
  rw [heq]
  exact hdivides.refines.trans ((refines_setBefore h.range «end» after).append before)

end Set

end MachVirtuTerm
