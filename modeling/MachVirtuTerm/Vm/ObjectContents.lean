import MachVirtuTerm.Vm.Object

/-!
# Collapse and bypass keep contents

What a round of `vm_object_collapse` does to the pages that searches find, to the references
and to the existence maps.
-/

open Option List

namespace MachVirtuTerm

open Finset VmObject

variable {Data : Type*}

namespace VmObject

variable {object back : VmObject Data} {backingOffset offset : VmOffset} {p : VmPage Data}
  {pages : List (VmPage Data)}

/-- The object has a page that is not absent. -/
def HasPage (object : VmObject Data) (offset : VmOffset) : Prop :=
  ∃ page, object.vmPageLookup offset = some page ∧ page.absent = false

/-- A page of a backing object lies under a page of the object. -/
def LiesUnder (size backingOffset offset : VmOffset) (p : VmPage Data) : Prop :=
  backingOffset ≤ p.offset ∧ p.offset - backingOffset = offset ∧ offset < size

instance (size backingOffset offset : VmOffset) (p : VmPage Data) :
    Decidable (LiesUnder size backingOffset offset p) :=
  inferInstanceAs (Decidable (_ ∧ _ ∧ _))

/-- A page that was looked up is there. -/
theorem offset_of_lookup (h : object.vmPageLookup offset = some p) :
    p ∈ object.memq ∧ p.offset = offset :=
  ⟨mem_of_find?_eq_some h, by simpa using find?_some h⟩

/-- Moving a page up changes the pages and the count of absent ones. -/
theorem moveUp_eq (backingOffset : VmOffset) (object : VmObject Data) (p : VmPage Data) :
    ∃ memq absentCount, object.moveUp backingOffset p = { object with memq, absentCount } := by
  unfold moveUp
  dsimp only
  split
  · exact ⟨_, _, rfl⟩
  · split
    · exact ⟨_, _, rfl⟩
    · split <;> exact ⟨_, _, rfl⟩

/-- So does moving pages up. -/
theorem foldl_moveUp_eq (backingOffset : VmOffset) (object : VmObject Data)
    (pages : List (VmPage Data)) :
    ∃ memq absentCount,
      pages.foldl (moveUp backingOffset) object = { object with memq, absentCount } := by
  induction pages generalizing object with
  | nil => exact ⟨_, _, rfl⟩
  | cons p pages ih =>
    obtain ⟨memq, absentCount, hmove⟩ := moveUp_eq backingOffset object p
    obtain ⟨memq', absentCount', hfold⟩ := ih (object.moveUp backingOffset p)
    rw [foldl_cons, hfold, hmove]
    exact ⟨_, _, rfl⟩

/-- A page that is moved up is found where it belongs, if there is no real page. -/
theorem lookup_moveUp (hunder : LiesUnder object.size backingOffset offset p)
    (hpage : ¬object.HasPage offset) :
    (object.moveUp backingOffset p).vmPageLookup offset = some { p with offset } := by
  obtain ⟨hle, rfl, hlt⟩ := hunder
  have hin : ¬(p.offset < backingOffset ∨ p.offset - backingOffset ≥ object.size) := by
    rintro (h | h)
    · exact absurd h (BitVec.not_lt.mpr hle)
    · exact absurd hlt (BitVec.not_lt.mpr h)
  unfold moveUp
  simp only [if_neg hin]
  cases hlook : object.vmPageLookup (p.offset - backingOffset) with
  | none =>
    have hnone : object.memq.find? (·.offset = p.offset - backingOffset) = none := hlook
    simp [vmPageLookup, find?_append, hnone]
  | some pp =>
    have habsent : pp.absent = true := by
      by_contra hreal
      exact hpage ⟨pp, hlook, by simpa using hreal⟩
    have hnone : object.memq.find? (fun _ => false) = none := by simp [find?_eq_none]
    simp [vmPageLookup, habsent, find?_append, find?_filter, hnone]

/-- Elsewhere, and where there is a real page, nothing changes. -/
theorem lookup_moveUp_of_not
    (h : ¬LiesUnder object.size backingOffset offset p ∨ object.HasPage offset) :
    (object.moveUp backingOffset p).vmPageLookup offset = object.vmPageLookup offset := by
  unfold moveUp
  dsimp only
  split
  · rfl
  rename_i hin
  rw [not_or, BitVec.not_lt, ge_iff_le, BitVec.not_le] at hin
  have hne : ¬object.HasPage (p.offset - backingOffset) → p.offset - backingOffset ≠ offset := by
    rintro hpage rfl
    exact h.elim (fun hunder => hunder ⟨hin.1, rfl, hin.2⟩) hpage
  split
  · rename_i hlook
    have hoffset := hne fun ⟨page, hpage, _⟩ => by simp [hlook] at hpage
    simp [vmPageLookup, find?_append, hoffset]
  · rename_i pp hlook
    split
    · rename_i habsent
      have hoffset := hne fun ⟨page, hpage, hreal⟩ => by
        rw [hlook] at hpage
        cases hpage
        simp [habsent] at hreal
      have hfilter : object.memq.find? (fun q => !decide (q.offset = p.offset - backingOffset) &&
          decide (q.offset = offset)) = object.memq.find? (·.offset = offset) := by
        congr 1
        funext q
        by_cases hq : q.offset = offset
        · simp [hq, hoffset.symm]
        · simp [hq]
      simp [vmPageLookup, find?_append, find?_filter, hoffset, hfilter]
    · rfl

/-- Moving a page up keeps the offsets of pages distinct. -/
theorem nodup_moveUp (h : (object.memq.map (·.offset)).Nodup) :
    ((object.moveUp backingOffset p).memq.map (·.offset)).Nodup := by
  have hadd : ∀ memq : List (VmPage Data), (memq.map (·.offset)).Nodup →
      (∀ q ∈ memq, q.offset ≠ p.offset - backingOffset) →
      ((memq ++ [{ p with offset := p.offset - backingOffset }]).map VmPage.offset).Nodup := by
    intro memq hmemq hne
    rw [map_append]
    refine hmemq.append (nodup_singleton _) fun offset hoffset hmem => ?_
    obtain ⟨q, hq, rfl⟩ := List.mem_map.mp hoffset
    exact hne q hq (by simpa using hmem)
  unfold moveUp
  dsimp only
  split
  · exact h
  split
  · rename_i hlook
    exact hadd _ h fun q hq => by simpa using find?_eq_none.mp hlook q hq
  · split
    · exact hadd _ (h.sublist (filter_sublist.map _)) fun q hq => by
        simpa using (mem_filter.mp hq).2
    · exact h

/-- So does moving pages up. -/
theorem nodup_foldl_moveUp (h : (object.memq.map (·.offset)).Nodup) (pages : List (VmPage Data)) :
    ((pages.foldl (moveUp backingOffset) object).memq.map (·.offset)).Nodup := by
  induction pages generalizing object with
  | nil => exact h
  | cons p pages ih => exact ih (nodup_moveUp h)

/-- The size of an object does not change. -/
@[simp]
theorem moveUp_size (backingOffset : VmOffset) (object : VmObject Data) (p : VmPage Data) :
    (object.moveUp backingOffset p).size = object.size := by
  obtain ⟨memq, absentCount, hmove⟩ := moveUp_eq backingOffset object p
  rw [hmove]

/-- Where there is a real page, or nothing lies under, moving pages up changes nothing. -/
theorem lookup_foldl_moveUp_of_not (pages : List (VmPage Data))
    (h : (∀ p ∈ pages, ¬LiesUnder object.size backingOffset offset p) ∨ object.HasPage offset) :
    (pages.foldl (moveUp backingOffset) object).vmPageLookup offset =
      object.vmPageLookup offset := by
  induction pages generalizing object with
  | nil => rfl
  | cons p pages ih =>
    have hfirst : (object.moveUp backingOffset p).vmPageLookup offset =
        object.vmPageLookup offset :=
      lookup_moveUp_of_not (h.imp_left fun h => h p (mem_cons_self ..))
    rw [foldl_cons, ih, hfirst]
    refine h.imp (fun h q hq => ?_) fun h => ?_
    · rw [moveUp_size]
      exact h q (mem_cons_of_mem _ hq)
    · obtain ⟨page, hpage, hreal⟩ := h
      exact ⟨page, hfirst.trans hpage, hreal⟩

/-- A page that lies under one that is not real is found there after pages are moved up. -/
theorem lookup_foldl_moveUp (hnodup : (pages.map (·.offset)).Nodup) (hp : p ∈ pages)
    (hunder : LiesUnder object.size backingOffset offset p) (hpage : ¬object.HasPage offset) :
    (pages.foldl (moveUp backingOffset) object).vmPageLookup offset = some { p with offset } := by
  induction pages generalizing object with
  | nil => cases hp
  | cons q pages ih =>
    obtain ⟨hq, hnodup⟩ := nodup_cons.mp hnodup
    have honly : ∀ p' ∈ pages, p'.offset = q.offset → False := fun p' hp' heq =>
      hq (List.mem_map.mpr ⟨p', hp', heq⟩)
    have hunique : ∀ p' : VmPage Data, LiesUnder object.size backingOffset offset p' →
        p'.offset = p.offset := by
      intro p' hp'
      have h₁ := hunder.2.1
      have h₂ := hp'.2.1
      bv_omega
    rw [foldl_cons]
    rcases mem_cons.mp hp with rfl | hp
    · rw [← lookup_moveUp hunder hpage]
      refine lookup_foldl_moveUp_of_not _ (Or.inl fun p' hp' hunder' => ?_)
      rw [moveUp_size] at hunder'
      exact honly p' hp' (hunique p' hunder')
    · have hskip : (object.moveUp backingOffset q).vmPageLookup offset =
          object.vmPageLookup offset :=
        lookup_moveUp_of_not (Or.inl fun hunder' => honly p hp (hunique q hunder').symm)
      refine ih hnodup hp (by rwa [moveUp_size]) fun ⟨page, hlook, hreal⟩ => ?_
      exact hpage ⟨page, hskip ▸ hlook, hreal⟩

end VmObject

namespace ObjectHeap

variable {h h' : ObjectHeap Data} {rank : ℕ → ℕ} {object backing x : ℕ} {offset : VmOffset}
  {r : Option Data}

/-- An object has taken the place of the one it shadowed. -/
structure Shortened (h h' : ObjectHeap Data) (object backing : ℕ) : Prop where
  ids : h'.ids ⊆ h.ids
  shadow : (h.obj object).shadow = some backing
  shadow' : (h'.obj object).shadow = (h.obj backing).shadow
  shadowOffset' : (h'.obj object).shadowOffset =
    (h.obj object).shadowOffset + (h.obj backing).shadowOffset
  others : ∀ x ∈ h'.ids, x ≠ object → (∀ offset, h'.own x offset = h.own x offset) ∧
    (h'.obj x).shadow = (h.obj x).shadow ∧ (h'.obj x).shadowOffset = (h.obj x).shadowOffset

/-- The pages of the object are its own and those of the one it shadowed. -/
def Merged (h h' : ObjectHeap Data) (object backing : ℕ) : Prop :=
  ∀ offset, PageAligned offset → offset < (h.obj object).size →
    h'.own object offset =
      (h.own object offset).or (h.own backing (offset + (h.obj object).shadowOffset))

/-- The search for a page comes to the object only at pages below its size. -/
def Below (h : ObjectHeap Data) (object x : ℕ) (offset : VmOffset) : Prop :=
  ∀ p, h.Reaches object x offset p → PageAligned p ∧ p < (h.obj object).size

namespace Shortened

variable (hs : Shortened h h' object backing)

include hs

/-- Searches further down do not change. -/
theorem finds_of_lt (hrank' : h'.Ranked rank)
    (hx : x ∈ h'.ids) (hlt : rank x < rank object) (hr : h.Finds x offset r) :
    h'.Finds x offset r := by
  have hne : ∀ {y}, rank y < rank object → y ≠ object := fun hlt heq => by simp [heq] at hlt
  induction hr with
  | own hown => exact .own (((hs.others _ hx (hne hlt)).1 _).trans hown)
  | shadow hown hshadow _ ih =>
    obtain ⟨hown', hshadow', hoffset'⟩ := hs.others _ hx (hne hlt)
    obtain ⟨hmem, hlt'⟩ := hrank' _ hx _ (hshadow'.trans hshadow)
    refine .shadow ((hown' _).trans hown) (hshadow'.trans hshadow) ?_
    rw [hoffset']
    exact ih hmem (hlt'.trans hlt)
  | zeroFill hown hshadow =>
    obtain ⟨hown', hshadow', -⟩ := hs.others _ hx (hne hlt)
    exact .zeroFill ((hown' _).trans hown) (hshadow'.trans hshadow)

section

variable (hmerged : Merged h h' object backing)

include hmerged

/-- What is found in the object, and in the one it shadowed, is found in the object. -/
theorem finds_object
    (hrank' : h'.Ranked rank) (hobject : object ∈ h'.ids) (haligned : PageAligned offset)
    (hlt : offset < (h.obj object).size) (hr : h.Finds object offset r) :
    h'.Finds object offset r := by
  have hown' := hmerged offset haligned hlt
  cases hr with
  | own hown => exact .own (by rw [hown', hown]; rfl)
  | zeroFill _ hshadow => simp [hs.shadow] at hshadow
  | shadow hown hshadow hrest =>
    obtain rfl : backing = _ := Option.some.inj (hs.shadow.symm.trans hshadow)
    rw [hown, none_or] at hown'
    cases hrest with
    | own hback => exact .own (hown'.trans hback)
    | zeroFill hback hshadow => exact .zeroFill (hown'.trans hback) (hs.shadow'.trans hshadow)
    | shadow hback hshadow hrest =>
      obtain ⟨hmem, hlt'⟩ := hrank' _ hobject _ (hs.shadow'.trans hshadow)
      refine .shadow (hown'.trans hback) (hs.shadow'.trans hshadow) ?_
      rw [hs.shadowOffset', ← BitVec.add_assoc]
      exact hs.finds_of_lt hrank' hmem hlt' hrest

/-- A search that comes to the object at pages below its size finds what it found. -/
theorem finds (hrank' : h'.Ranked rank) (hobject : object ∈ h'.ids) (hx : x ∈ h'.ids)
    (hbelow : h.Below object x offset) (hr : h.Finds x offset r) : h'.Finds x offset r := by
  induction hr with
  | own hown =>
    rename_i y offset' data
    by_cases hy : y = object
    · subst hy
      obtain ⟨haligned, hlt⟩ := hbelow _ .here
      exact hs.finds_object hmerged hrank' hobject haligned hlt (.own hown)
    · exact .own (((hs.others _ hx hy).1 _).trans hown)
  | shadow hown hshadow hrest ih =>
    rename_i y s offset' r'
    by_cases hy : y = object
    · subst hy
      obtain ⟨haligned, hlt⟩ := hbelow _ .here
      exact hs.finds_object hmerged hrank' hobject haligned hlt (.shadow hown hshadow hrest)
    · obtain ⟨hown', hshadow', hoffset'⟩ := hs.others _ hx hy
      obtain ⟨hmem, -⟩ := hrank' _ hx _ (hshadow'.trans hshadow)
      refine .shadow ((hown' _).trans hown) (hshadow'.trans hshadow) ?_
      rw [hoffset']
      exact ih hmem fun p hp => hbelow p (.shadow hy hown hshadow hp)
  | zeroFill hown hshadow =>
    rename_i y offset'
    by_cases hy : y = object
    · subst hy
      simp [hs.shadow] at hshadow
    · obtain ⟨hown', hshadow', -⟩ := hs.others _ hx hy
      exact .zeroFill ((hown' _).trans hown) (hshadow'.trans hshadow)

/-- Nothing else is found there. -/
theorem finds_iff (hrank : h.Ranked rank) (hrank' : h'.Ranked rank) (hobject : object ∈ h'.ids)
    (hx : x ∈ h'.ids) (hbelow : h.Below object x offset) :
    h'.Finds x offset r ↔ h.Finds x offset r := by
  refine ⟨fun hr' => ?_, hs.finds hmerged hrank' hobject hx hbelow⟩
  obtain ⟨r₀, hr₀⟩ := hrank.finds (hs.ids hx) offset
  have heq := hr'.unique (hs.finds hmerged hrank' hobject hx hbelow hr₀)
  rwa [heq]

end

/-- A search comes to the object where it did. -/
theorem reaches (hrank' : h'.Ranked rank) {p : VmOffset}
    (hx : x ∈ h'.ids) (hr : h'.Reaches object x offset p) : h.Reaches object x offset p := by
  induction hr with
  | here => exact .here
  | shadow hne hown hshadow _ ih =>
    obtain ⟨hown', hshadow', hoffset'⟩ := hs.others _ hx hne
    obtain ⟨hmem, -⟩ := hrank' _ hx _ hshadow
    refine .shadow hne ((hown' _).symm.trans hown) (hshadow'.symm.trans hshadow) ?_
    rw [← hoffset']
    exact ih hmem

end Shortened

/-- A resident page. -/
theorem own_of_lookup {page : VmPage Data} (hlook : (h.obj x).vmPageLookup offset = some page) :
    h.own x offset = if page.absent then none else some page.data := by
  simp only [own, hlook]

/-- A page that is not resident is what the pager has. -/
theorem Ok.own_of_lookup_eq_none {external : ℕ → ℕ} (hok : h.Ok external) (hx : x ∈ h.ids)
    (haligned : PageAligned offset) (hlook : (h.obj x).vmPageLookup offset = none) :
    h.own x offset = h.pagedOut x offset := by
  simp only [own, hlook]
  split
  · rfl
  rename_i hlookFor
  have hpager := hok.pager x hx
  cases hcreated : (h.obj x).pagerCreated with
  | false =>
    rw [hcreated, eq_comm, isSome_eq_false_iff, isNone_iff_eq_none] at hpager
    simp [pagedOut, hpager]
  | true =>
    have habsent : h.state x offset = .stateAbsent := by
      by_contra hne
      exact hlookFor ⟨hcreated, hne⟩
    have hmap : (h.obj x).existenceMap ≠ none := by
      intro hnone
      simp [state, vmExternalStateGet, hnone] at habsent
    obtain ⟨-, hexact⟩ := hok.exact x hx hmap
    obtain ⟨hin, hout⟩ := hexact offset haligned
    by_cases hlt : offset < (h.obj x).size
    · have hnot := (hin hlt).not.mp (by simp [habsent])
      simpa using (not_isSome_iff_eq_none.mp hnot).symm
    · exact (hout (BitVec.not_lt.mp hlt)).symm

/-- An object without pager has what is resident. -/
theorem own_eq_none_of_not_hasPage (hcreated : (h.obj x).pagerCreated = false)
    (hpage : ¬(h.obj x).HasPage offset) : h.own x offset = none := by
  cases hlook : (h.obj x).vmPageLookup offset with
  | some page =>
    rw [own_of_lookup hlook]
    by_cases habsent : page.absent = true
    · simp [habsent]
    · exact absurd ⟨page, hlook, by simpa using habsent⟩ hpage
  | none => simp [own, hlook, LookFor, hcreated]

/-- A round takes no page of the backing object for one that the object has: none of the
pages that the search comes to lies, with offsets that wrap around, before the start of the
object, and an absent page of the object hides none, unless a collapse puts one in its place. -/
def KeepsData (h : ObjectHeap Data) (allowed : CollapseAllowed) (object backing : ℕ) : Prop :=
  let x := h.obj object
  (∀ p ∈ (h.obj backing).memq, p.offset < x.shadowOffset → p.offset - x.shadowOffset < x.size →
    h.own object (p.offset - x.shadowOffset) ≠ none) ∧
  ∀ pp ∈ x.memq, pp.absent = true → pp.offset < x.size →
    h.own backing (pp.offset + x.shadowOffset) = none ∨
      (h.CollapseFits allowed object backing ∧
        (h.obj backing).vmPageLookup (pp.offset + x.shadowOffset) ≠ none)

section Collapse

variable {external : ℕ → ℕ} {allowed : CollapseAllowed}

/-- The object after `vm_object_do_collapse`. -/
theorem doCollapse_obj_self (h : ObjectHeap Data) (object backing : ℕ) :
    (h.vmObjectDoCollapse object backing).obj object = { h.obj object with
      memq := (h.movedUp object backing).memq
      absentCount := (h.movedUp object backing).absentCount
      pager := if (h.obj backing).pager.isSome then (h.obj backing).pager
        else (h.obj object).pager
      pagerCreated := if (h.obj backing).pager.isSome then (h.obj backing).pagerCreated
        else (h.obj object).pagerCreated
      pagingOffset := (h.obj backing).pagingOffset + (h.obj object).shadowOffset
      existenceMap :=
        if (h.obj object).shadowOffset ≠ 0 ∨ (h.obj object).size ≠ (h.obj backing).size then
          (h.obj object).existenceMap
        else (h.obj backing).existenceMap
      shadow := (h.obj backing).shadow
      shadowOffset := (h.obj object).shadowOffset + (h.obj backing).shadowOffset } := by
  obtain ⟨memq, absentCount, hfold⟩ := foldl_moveUp_eq (h.obj object).shadowOffset
    (h.obj object) (h.obj backing).memq
  have hmoved : h.movedUp object backing = { h.obj object with memq, absentCount } := hfold
  simp only [vmObjectDoCollapse, hmoved]
  exact set_obj_self _

/-- Other objects do not change. -/
theorem doCollapse_obj_of_ne (backing : ℕ) (hne : x ≠ object) :
    (h.vmObjectDoCollapse object backing).obj x = h.obj x :=
  set_obj_of_ne hne _

theorem doCollapse_ids (h : ObjectHeap Data) (object backing : ℕ) :
    (h.vmObjectDoCollapse object backing).ids = h.ids.erase backing := rfl

/-- The object gets the pager of the backing object. -/
theorem doCollapse_pager (hpager : (h.obj object).pager = none) :
    ((h.vmObjectDoCollapse object backing).obj object).pager = (h.obj backing).pager := by
  rw [doCollapse_obj_self]
  cases hback : (h.obj backing).pager with
  | none => simp [hpager]
  | some pager => simp

/-- The pager of the backing object is asked for a page at the same place as before. -/
theorem pagedOut_doCollapse (hpager : (h.obj object).pager = none) (offset : VmOffset) :
    (h.vmObjectDoCollapse object backing).pagedOut object offset =
      h.pagedOut backing (offset + (h.obj object).shadowOffset) := by
  simp only [pagedOut, doCollapse_obj_self]
  cases hback : (h.obj backing).pager with
  | none => simp [hpager]
  | some pager =>
    have hoffset : offset + ((h.obj backing).pagingOffset + (h.obj object).shadowOffset) =
        offset + (h.obj object).shadowOffset + (h.obj backing).pagingOffset := by
      rw [BitVec.add_comm (h.obj backing).pagingOffset, BitVec.add_assoc]
    simp [hoffset, vmObjectDoCollapse]

/-- What a page of the object says of one of its pager, without existence map or with that of
the backing object. -/
theorem state_doCollapse (backing : ℕ) (hmap : (h.obj object).existenceMap = none)
    (offset : VmOffset) :
    (h.vmObjectDoCollapse object backing).state object offset =
      if (h.obj object).shadowOffset ≠ 0 ∨ (h.obj object).size ≠ (h.obj backing).size then
        .stateUnknown
      else h.state backing offset := by
  simp only [state, doCollapse_obj_self, hmap]
  split
  · rfl
  · rfl

/-- The pages of the object after `vm_object_do_collapse`. -/
theorem lookup_doCollapse (h : ObjectHeap Data) (object backing : ℕ) (offset : VmOffset) :
    ((h.vmObjectDoCollapse object backing).obj object).vmPageLookup offset =
      (h.movedUp object backing).vmPageLookup offset := by
  rw [doCollapse_obj_self]
  rfl

/-- Only the object shadows a backing object with one reference. -/
theorem Ok.eq_of_shadow (hok : h.Ok external) (hobject : object ∈ h.ids)
    (hshadow : (h.obj object).shadow = some backing) (hbacking : backing ∈ h.ids)
    (hrefs : (h.obj backing).refCount = 1) (hx : x ∈ h.ids)
    (hx' : (h.obj x).shadow = some backing) : x = object := by
  have hcount := hok.refs backing hbacking
  have hone : (h.shadowers backing).card ≤ 1 := by omega
  exact card_le_one.mp hone x (mem_shadowers.mpr ⟨hx, hx'⟩) object
    (mem_shadowers.mpr ⟨hobject, hshadow⟩)

/-- After `vm_object_do_collapse` shadows still exist and come further down. -/
theorem Ok.ranked_doCollapse (hok : h.Ok external) (hrank : h.Ranked rank)
    (hobject : object ∈ h.ids) (hshadow : (h.obj object).shadow = some backing)
    (hrefs : (h.obj backing).refCount = 1) : (h.vmObjectDoCollapse object backing).Ranked rank := by
  obtain ⟨hbacking, hlt⟩ := hrank object hobject backing hshadow
  intro x hx s hs
  have hx' : x ≠ backing ∧ x ∈ h.ids := mem_erase.mp hx
  by_cases hxo : x = object
  · subst hxo
    rw [doCollapse_obj_self] at hs
    obtain ⟨hmem, hlt'⟩ := hrank backing hbacking s hs
    exact ⟨mem_erase.mpr ⟨fun heq => by simp [heq] at hlt', hmem⟩, hlt'.trans hlt⟩
  · rw [doCollapse_obj_of_ne _ hxo] at hs
    obtain ⟨hmem, hlt'⟩ := hrank x hx'.2 s hs
    refine ⟨mem_erase.mpr ⟨fun heq => hxo ?_, hmem⟩, hlt'⟩
    exact hok.eq_of_shadow hobject hshadow hbacking hrefs hx'.2 (heq ▸ hs)

/-- After `vm_object_do_collapse` the object has the place of the backing object. -/
theorem shortened_doCollapse (hshadow : (h.obj object).shadow = some backing) :
    Shortened h (h.vmObjectDoCollapse object backing) object backing where
  ids := erase_subset _ _
  shadow := hshadow
  shadow' := by rw [doCollapse_obj_self]
  shadowOffset' := by rw [doCollapse_obj_self]
  others x _ hne := by
    have hobj := doCollapse_obj_of_ne (h := h) backing hne
    refine ⟨fun offset => own_congr hobj ?_ rfl, by rw [hobj], by rw [hobj]⟩
    simp only [pagedOut, hobj]
    rfl

theorem doCollapse_refCount (x : ℕ) :
    ((h.vmObjectDoCollapse object backing).obj x).refCount = (h.obj x).refCount := by
  by_cases hxo : x = object
  · subst hxo
    rw [doCollapse_obj_self]
  · rw [doCollapse_obj_of_ne _ hxo]

variable (hok : h.Ok external)

include hok

/-- References move with the link of the backing object to the next one. -/
theorem Ok.refs_doCollapse (hrank : h.Ranked rank)
    (hobject : object ∈ h.ids) (hshadow : (h.obj object).shadow = some backing)
    (hx : x ∈ (h.vmObjectDoCollapse object backing).ids) :
    ((h.vmObjectDoCollapse object backing).obj x).refCount =
      external x + ((h.vmObjectDoCollapse object backing).shadowers x).card := by
  obtain ⟨hbacking, hlt⟩ := hrank object hobject backing hshadow
  have hx' : x ≠ backing ∧ x ∈ h.ids := mem_erase.mp hx
  rw [doCollapse_refCount, hok.refs x hx'.2]
  congr 1
  have hne : object ≠ backing := fun heq => by simp [heq] at hlt
  by_cases hnext : (h.obj backing).shadow = some x
  · have hset : (h.vmObjectDoCollapse object backing).shadowers x =
        insert object ((h.shadowers x).erase backing) := by
      ext y
      simp only [mem_shadowers, Finset.mem_insert, Finset.mem_erase]
      by_cases hy : y = object
      · subst hy
        simp [doCollapse_obj_self, hnext, doCollapse_ids, hne, hobject]
      · simp [doCollapse_obj_of_ne _ hy, hy, doCollapse_ids, and_assoc]
    have hmem : backing ∈ h.shadowers x := mem_shadowers.mpr ⟨hbacking, hnext⟩
    have hnot : object ∉ (h.shadowers x).erase backing := fun hmem' => by
      have hshadow' := (mem_shadowers.mp (mem_of_mem_erase hmem')).2
      rw [hshadow] at hshadow'
      exact hx'.1 (Option.some.inj hshadow').symm
    rw [hset, card_insert_of_notMem hnot, card_erase_add_one hmem]
  · congr 2
    ext y
    simp only [mem_shadowers]
    by_cases hy : y = object
    · subst hy
      have hback : some backing ≠ some x := fun heq => hx'.1 (Option.some.inj heq).symm
      simp [doCollapse_obj_self, hnext, hshadow, hx'.1.symm]
    · simp only [doCollapse_obj_of_ne _ hy, doCollapse_ids, mem_erase]
      refine ⟨fun hmem => ⟨⟨fun heq => hnext (heq ▸ hmem.2), hmem.1⟩, hmem.2⟩,
        fun hmem => ⟨hmem.1.2, hmem.2⟩⟩

/-- `vm_object_do_collapse` keeps the invariant. -/
theorem Ok.doCollapse (hobject : object ∈ h.ids)
    (hshadow : (h.obj object).shadow = some backing) (hrefs : (h.obj backing).refCount = 1)
    (hcreated : (h.obj object).pagerCreated = false) :
    (h.vmObjectDoCollapse object backing).Ok external := by
  obtain ⟨rank, hrank⟩ := hok.acyclic
  obtain ⟨hbacking, hlt⟩ := hrank object hobject backing hshadow
  have hpager : (h.obj object).pager = none := by
    have h := hok.pager object hobject
    rwa [hcreated, eq_comm, isSome_eq_false_iff, isNone_iff_eq_none] at h
  have hmap : (h.obj object).existenceMap = none := by
    by_contra hne
    simpa [hcreated] using (hok.exact object hobject hne).1
  have hmem : ∀ {x}, x ∈ (h.vmObjectDoCollapse object backing).ids → x ≠ backing ∧ x ∈ h.ids :=
    fun hx => mem_erase.mp hx
  refine ⟨⟨rank, hok.ranked_doCollapse hrank hobject hshadow hrefs⟩, fun x hx => ?_,
    fun x hx => ?_, fun x hx => ?_, fun x hx => hok.refs_doCollapse hrank hobject hshadow hx,
    fun x hx => (doCollapse_refCount x).trans_lt (hok.short x (hmem hx).2), fun x hx => ?_, fun x hx y hy pager hxp hyp => ?_, fun x hx => ?_⟩
  · by_cases hxo : x = object
    · subst hxo
      rw [doCollapse_obj_self]
      exact nodup_foldl_moveUp (hok.memq x hobject) _
    · rw [doCollapse_obj_of_ne _ hxo]
      exact hok.memq x (hmem hx).2
  · by_cases hxo : x = object
    · subst hxo
      rw [doCollapse_obj_self]
      exact hok.size x hobject
    · rw [doCollapse_obj_of_ne _ hxo]
      exact hok.size x (hmem hx).2
  · by_cases hxo : x = object
    · subst hxo
      rw [doCollapse_obj_self]
      exact (hok.shadowOffset x hobject).add (hok.shadowOffset backing hbacking)
    · rw [doCollapse_obj_of_ne _ hxo]
      exact hok.shadowOffset x (hmem hx).2
  · by_cases hxo : x = object
    · subst hxo
      rw [doCollapse_obj_self]
      have hback := hok.pager backing hbacking
      cases hp : (h.obj backing).pager with
      | none => simp [hpager, hcreated]
      | some pager => simpa [hp] using hback
    · rw [doCollapse_obj_of_ne _ hxo]
      exact hok.pager x (hmem hx).2
  · have hother : ∀ {z}, z ≠ object → z ∈ h.ids → z ≠ backing → (h.obj z).pager = some pager →
        (h.obj backing).pager ≠ some pager := fun _ hz hne hzp hbp =>
      hne (hok.pagers _ hz backing hbacking pager hzp hbp)
    by_cases hxo : x = object <;> by_cases hyo : y = object
    · exact hxo.trans hyo.symm
    · subst hxo
      rw [doCollapse_pager hpager] at hxp
      rw [doCollapse_obj_of_ne _ hyo] at hyp
      exact absurd hxp (hother hyo (hmem hy).2 (hmem hy).1 hyp)
    · subst hyo
      rw [doCollapse_pager hpager] at hyp
      rw [doCollapse_obj_of_ne _ hxo] at hxp
      exact absurd hyp (hother hxo (hmem hx).2 (hmem hx).1 hxp)
    · rw [doCollapse_obj_of_ne _ hxo] at hxp
      rw [doCollapse_obj_of_ne _ hyo] at hyp
      exact hok.pagers x (hmem hx).2 y (hmem hy).2 pager hxp hyp
  · by_cases hxo : x = object
    · subst hxo
      intro hne
      have hkept : ¬((h.obj x).shadowOffset ≠ 0 ∨ (h.obj x).size ≠ (h.obj backing).size) := by
        intro hdiscard
        rw [doCollapse_obj_self] at hne
        simp only [if_pos hdiscard] at hne
        exact hne hmap
      have hstate := state_doCollapse backing hmap
      simp only [hkept, if_false] at hstate
      rw [not_or, not_not, not_not] at hkept
      have hback : (h.obj backing).existenceMap ≠ none := by
        intro hnone
        rw [doCollapse_obj_self] at hne
        simp [hkept, hnone] at hne
      obtain ⟨hbackCreated, hexact⟩ := hok.exact backing hbacking hback
      have hbackPager := hok.pager backing hbacking
      rw [hbackCreated] at hbackPager
      refine ⟨by simp [doCollapse_obj_self, ← hbackPager, hbackCreated], fun offset haligned => ?_⟩
      have hsize : ((h.vmObjectDoCollapse x backing).obj x).size = (h.obj backing).size := by
        rw [doCollapse_obj_self]
        exact hkept.2
      have hzero : offset + (0 : VmOffset) = offset := BitVec.add_zero offset
      rw [hsize, hstate, pagedOut_doCollapse hpager, hkept.1, hzero]
      exact hexact offset haligned
    · have hobj := doCollapse_obj_of_ne (h := h) backing hxo
      have hexact := hok.exact x (hmem hx).2
      simp only [MapExact, state, pagedOut, hobj] at hexact ⊢
      exact hexact

/-- After `vm_object_do_collapse` the object has its own pages and those of the backing
object, unless a round takes an absent page for one. -/
theorem Ok.merged_doCollapse (hobject : object ∈ h.ids)
    (hshadow : (h.obj object).shadow = some backing) (hfits : h.CollapseFits allowed object backing)
    (hkeep : h.KeepsData allowed object backing) :
    Merged h (h.vmObjectDoCollapse object backing) object backing := by
  obtain ⟨hrefs, hcreated, -⟩ := hfits
  have hok' := hok.doCollapse hobject hshadow hrefs hcreated
  obtain ⟨rank, hrank⟩ := hok.acyclic
  obtain ⟨hbacking, hlt⟩ := hrank object hobject backing hshadow
  have hobject' : object ∈ (h.vmObjectDoCollapse object backing).ids :=
    mem_erase.mpr ⟨fun heq => by simp [heq] at hlt, hobject⟩
  have hpager : (h.obj object).pager = none := by
    have h := hok.pager object hobject
    rwa [hcreated, eq_comm, isSome_eq_false_iff, isNone_iff_eq_none] at h
  intro offset haligned hsize
  have halignedBack := haligned.add (hok.shadowOffset object hobject)
  have hlook' := lookup_doCollapse h object backing offset
  by_cases hpage : (h.obj object).HasPage offset
  · -- The object keeps its real page.
    have hsame : (h.movedUp object backing).vmPageLookup offset =
        (h.obj object).vmPageLookup offset :=
      lookup_foldl_moveUp_of_not _ (Or.inr hpage)
    obtain ⟨page, hlook, hreal⟩ := hpage
    have hfound := hlook'.trans (hsame.trans hlook)
    rw [own_of_lookup hfound, own_of_lookup hlook]
    simp [hreal]
  rw [own_eq_none_of_not_hasPage hcreated hpage, none_or]
  cases hback : (h.obj backing).vmPageLookup (offset + (h.obj object).shadowOffset) with
  | some p =>
    -- The page of the backing object is moved up.
    obtain ⟨hp, hoffset⟩ := offset_of_lookup hback
    have hsub : p.offset - (h.obj object).shadowOffset = offset := by
      rw [hoffset, BitVec.add_sub_cancel]
    have hle : (h.obj object).shadowOffset ≤ p.offset := by
      refine BitVec.not_lt.mp fun hwrap => ?_
      have hown := hkeep.1 p hp hwrap (by rwa [hsub])
      rw [hsub] at hown
      exact hown (own_eq_none_of_not_hasPage hcreated hpage)
    have hfound := hlook'.trans (lookup_foldl_moveUp (hok.memq backing hbacking) hp
      ⟨hle, hsub, hsize⟩ hpage)
    rw [own_of_lookup hfound, own_of_lookup hback]
  | none =>
    have hnot : ∀ p ∈ (h.obj backing).memq,
        ¬VmObject.LiesUnder (h.obj object).size (h.obj object).shadowOffset offset p := by
      rintro p hp ⟨-, hsub, -⟩
      have hoffset : p.offset = offset + (h.obj object).shadowOffset := by bv_omega
      simpa [hoffset] using find?_eq_none.mp hback p hp
    have hfound := hlook'.trans (lookup_foldl_moveUp_of_not _ (Or.inl hnot))
    cases hlook : (h.obj object).vmPageLookup offset with
    | some pp =>
      -- An absent page stays, and the pager is not asked.
      have habsent : pp.absent = true := by
        by_contra hreal
        exact hpage ⟨pp, hlook, by simpa using hreal⟩
      obtain ⟨hpp, hoffset⟩ := offset_of_lookup hlook
      have hnone := hkeep.2 pp hpp habsent (by rwa [hoffset])
      rw [hoffset] at hnone
      rw [own_of_lookup (hfound.trans hlook), if_pos habsent]
      exact (hnone.resolve_right fun h => h.2 hback).symm
    | none =>
      rw [hok'.own_of_lookup_eq_none hobject' haligned (hfound.trans hlook),
        hok.own_of_lookup_eq_none hbacking halignedBack hback, pagedOut_doCollapse hpager]

end Collapse

end ObjectHeap

end MachVirtuTerm
