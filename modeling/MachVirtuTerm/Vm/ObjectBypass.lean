import MachVirtuTerm.Vm.ObjectContents

/-!
# Bypass

`vm_object_do_bypass`: the object goes past the object it shadowed, which loses a reference
and with the last one its pages, its pager and its own shadow.
-/

open Option

namespace MachVirtuTerm

open Finset

variable {Data : Type*}

/-- The pages and the pager of an object are those of another one. -/
structure VmObject.SameData (object object' : VmObject Data) : Prop where
  memq : object.memq = object'.memq
  size : object.size = object'.size
  pager : object.pager = object'.pager
  pagingOffset : object.pagingOffset = object'.pagingOffset
  pagerCreated : object.pagerCreated = object'.pagerCreated
  existenceMap : object.existenceMap = object'.existenceMap

theorem VmObject.SameData.refl (object : VmObject Data) : object.SameData object :=
  ⟨rfl, rfl, rfl, rfl, rfl, rfl⟩

namespace ObjectHeap

variable {h h' : ObjectHeap Data} {rank external : ℕ → ℕ} {object backing x : ℕ}
  {offset : VmOffset} {allowed : CollapseAllowed}

/-- What `vm_object_do_bypass` leaves: all pages where they are, and the links and references
without the link from the object to the backing object, which may be gone. -/
structure Bypassed (h h' : ObjectHeap Data) (external : ℕ → ℕ) (object backing : ℕ) : Prop where
  ids : h'.ids = h.ids ∨ h'.ids = h.ids.erase backing ∧ h.shadowers backing = {object}
  data : ∀ x, (h'.obj x).SameData (h.obj x)
  paged : ∀ x ∈ h'.ids, ∀ offset, h'.pagedOut x offset = h.pagedOut x offset
  stray : h'.stray = h.stray
  shadow : (h'.obj object).shadow = (h.obj backing).shadow
  shadowOffset : (h'.obj object).shadowOffset =
    (h.obj object).shadowOffset + (h.obj backing).shadowOffset
  others : ∀ x ≠ object, (h'.obj x).shadow = (h.obj x).shadow ∧
    (h'.obj x).shadowOffset = (h.obj x).shadowOffset
  refs : ∀ x ∈ h'.ids, (h'.obj x).refCount = external x + (h'.shadowers x).card
  short : ∀ x ∈ h'.ids, (h'.obj x).refCount < 32768

namespace Bypassed

variable (hb : Bypassed h h' external object backing)

include hb

/-- What an object that is left has of a page. -/
theorem own (hx : x ∈ h'.ids) (offset : VmOffset) : h'.own x offset = h.own x offset := by
  have hdata := hb.data x
  have hstate : h'.state x offset = h.state x offset := by
    simp only [state, hb.stray, hdata.existenceMap]
  have hlook : h'.LookFor x offset ↔ h.LookFor x offset := by
    simp only [LookFor, hstate, hdata.pagerCreated]
  simp only [ObjectHeap.own, VmObject.vmPageLookup, hdata.memq, hlook, hb.paged x hx]

/-- No object is new. -/
theorem subset : h'.ids ⊆ h.ids := by
  rcases hb.ids with hids | ⟨hids, -⟩
  · exact hids.subset
  · rw [hids]
    exact erase_subset _ _

/-- The object has the place of the backing object. -/
theorem shortened
    (hshadow : (h.obj object).shadow = some backing) : Shortened h h' object backing where
  ids := hb.subset
  shadow := hshadow
  shadow' := hb.shadow
  shadowOffset' := hb.shadowOffset
  others x hx hne := ⟨hb.own hx, hb.others x hne⟩

/-- Shadows still exist and come further down. -/
theorem ranked (hrank : h.Ranked rank)
    (hobject : object ∈ h.ids) (hshadow : (h.obj object).shadow = some backing) :
    h'.Ranked rank := by
  obtain ⟨hbacking, hlt⟩ := hrank object hobject backing hshadow
  intro x hx s hs
  have hxids := hb.subset hx
  have hold : s ∈ h.ids ∧ rank s < rank x ∧ (s = backing → x ≠ object ∧
      (h.obj x).shadow = some backing) := by
    by_cases hxo : x = object
    · subst hxo
      rw [hb.shadow] at hs
      obtain ⟨hmem, hlt'⟩ := hrank backing hbacking s hs
      exact ⟨hmem, hlt'.trans hlt, fun heq => by simp [heq] at hlt'⟩
    · rw [(hb.others x hxo).1] at hs
      obtain ⟨hmem, hlt'⟩ := hrank x hxids s hs
      exact ⟨hmem, hlt', fun heq => ⟨hxo, heq ▸ hs⟩⟩
  refine ⟨?_, hold.2.1⟩
  rcases hb.ids with hids | ⟨hids, honly⟩
  · rw [hids]
    exact hold.1
  · rw [hids]
    refine mem_erase.mpr ⟨fun heq => ?_, hold.1⟩
    obtain ⟨hne, hx'⟩ := hold.2.2 heq
    have hmem : x ∈ h.shadowers backing := mem_shadowers.mpr ⟨hxids, hx'⟩
    rw [honly] at hmem
    exact hne (mem_singleton.mp hmem)

/-- `vm_object_do_bypass` keeps the invariant. -/
theorem ok (hok : h.Ok external)
    (hobject : object ∈ h.ids) (hshadow : (h.obj object).shadow = some backing) :
    h'.Ok external := by
  obtain ⟨rank, hrank⟩ := hok.acyclic
  obtain ⟨hbacking, -⟩ := hrank object hobject backing hshadow
  refine ⟨⟨rank, hb.ranked hrank hobject hshadow⟩, fun x hx => ?_, fun x hx => ?_, fun x hx => ?_,
    hb.refs, hb.short, fun x hx => ?_, fun x hx y hy pager hxp hyp => ?_, fun x hx => ?_⟩
  · rw [(hb.data x).memq]
    exact hok.memq x (hb.subset hx)
  · rw [(hb.data x).size]
    exact hok.size x (hb.subset hx)
  · by_cases hxo : x = object
    · subst hxo
      rw [hb.shadowOffset]
      exact (hok.shadowOffset x hobject).add (hok.shadowOffset backing hbacking)
    · rw [(hb.others x hxo).2]
      exact hok.shadowOffset x (hb.subset hx)
  · rw [(hb.data x).pagerCreated, (hb.data x).pager]
    exact hok.pager x (hb.subset hx)
  · rw [(hb.data x).pager] at hxp
    rw [(hb.data y).pager] at hyp
    exact hok.pagers x (hb.subset hx) y (hb.subset hy) pager hxp hyp
  · have hexact := hok.exact x (hb.subset hx)
    simp only [MapExact, state, hb.stray, hb.paged x hx, (hb.data x).existenceMap,
      (hb.data x).pagerCreated, (hb.data x).size] at hexact ⊢
    exact hexact

end Bypassed

/-- The heap once the object no longer shadows the backing object, before the reference to it
is dropped. -/
def relinked (h : ObjectHeap Data) (object backing : ℕ) : ObjectHeap Data :=
  ((h.vmObjectReference (h.obj backing).shadow).set object { h.obj object with
    shadow := (h.obj backing).shadow
    shadowOffset := (h.obj object).shadowOffset + (h.obj backing).shadowOffset }).set backing
      { h.obj backing with
        copy := if (h.obj backing).copy = some object then none else (h.obj backing).copy }

/-- A reference changes no more than a count. -/
theorem reference_obj (h : ObjectHeap Data) (y : Option ℕ) (x : ℕ) :
    (h.vmObjectReference y).obj x = { h.obj x with
      refCount := if y = some x then toShort ((h.obj x).refCount + 1) else (h.obj x).refCount } := by
  unfold vmObjectReference
  cases y with
  | none => simp
  | some y =>
    by_cases hxy : x = y
    · subst hxy
      simp
    · have hne : some y ≠ some x := fun heq => hxy (Option.some.inj heq).symm
      simp [hxy, hne]

/-- Each object after the new link is made. -/
theorem relinked_obj (hne : object ≠ backing) (hnext : (h.obj backing).shadow ≠ some backing)
    (hnext' : (h.obj backing).shadow ≠ some object) (x : ℕ) :
    ((h.relinked object backing).obj x).SameData (h.obj x) ∧
    ((h.relinked object backing).obj x).shadow =
      (if x = object then (h.obj backing).shadow else (h.obj x).shadow) ∧
    ((h.relinked object backing).obj x).shadowOffset =
      (if x = object then (h.obj object).shadowOffset + (h.obj backing).shadowOffset
        else (h.obj x).shadowOffset) ∧
    ((h.relinked object backing).obj x).refCount =
      (if (h.obj backing).shadow = some x then toShort ((h.obj x).refCount + 1)
        else (h.obj x).refCount) ∧
    ((h.relinked object backing).obj x).canPersist = (h.obj x).canPersist := by
  by_cases hxb : x = backing
  · subst hxb
    have hobj : (h.relinked object x).obj x = { h.obj x with
        copy := if (h.obj x).copy = some object then none else (h.obj x).copy } := set_obj_self _
    rw [hobj]
    exact ⟨⟨rfl, rfl, rfl, rfl, rfl, rfl⟩, by simp [hne.symm], by simp [hne.symm],
      by simp [hnext], rfl⟩
  by_cases hxo : x = object
  · subst hxo
    have hobj : (h.relinked x backing).obj x = { h.obj x with
        shadow := (h.obj backing).shadow
        shadowOffset := (h.obj x).shadowOffset + (h.obj backing).shadowOffset } :=
      (set_obj_of_ne hxb _).trans (set_obj_self _)
    rw [hobj]
    exact ⟨⟨rfl, rfl, rfl, rfl, rfl, rfl⟩, by simp, by simp, by simp [hnext'], rfl⟩
  · have hobj : (h.relinked object backing).obj x = { h.obj x with
        refCount := if (h.obj backing).shadow = some x then toShort ((h.obj x).refCount + 1)
          else (h.obj x).refCount } :=
      (set_obj_of_ne hxb _).trans ((set_obj_of_ne hxo _).trans (reference_obj h _ x))
    rw [hobj]
    exact ⟨⟨rfl, rfl, rfl, rfl, rfl, rfl⟩, by simp [hxo], by simp [hxo], rfl, rfl⟩

theorem relinked_ids (h : ObjectHeap Data) (object backing : ℕ) :
    (h.relinked object backing).ids = h.ids := by
  unfold relinked vmObjectReference
  cases (h.obj backing).shadow <;> rfl

theorem relinked_paged (h : ObjectHeap Data) (object backing : ℕ) :
    (h.relinked object backing).paged = h.paged := by
  unfold relinked vmObjectReference
  cases (h.obj backing).shadow <;> rfl

theorem relinked_stray (h : ObjectHeap Data) (object backing : ℕ) :
    (h.relinked object backing).stray = h.stray := by
  unfold relinked vmObjectReference
  cases (h.obj backing).shadow <;> rfl

section Shadowers

variable (hshadow : (h.obj object).shadow = some backing)
  (hlink : ∀ y, (h'.obj y).shadow = if y = object then (h.obj backing).shadow else (h.obj y).shadow)

include hshadow hlink

/-- The backing object is shadowed by one object less. -/
theorem card_shadowers_backing (hobject : object ∈ h.ids) (hids : h'.ids = h.ids)
    (hnext : (h.obj backing).shadow ≠ some backing) :
    (h'.shadowers backing).card + 1 = (h.shadowers backing).card := by
  have hmem : object ∈ h.shadowers backing := mem_shadowers.mpr ⟨hobject, hshadow⟩
  have hset : h'.shadowers backing = (h.shadowers backing).erase object := by
    ext y
    rw [mem_shadowers, mem_erase, mem_shadowers, hids, hlink]
    by_cases hy : y = object
    · simp [hy, hnext]
    · simp [hy]
  rw [hset, card_erase_add_one hmem]

/-- The next object is shadowed by one object more, if the backing object still shadows it. -/
theorem card_shadowers_next (hobject : object ∈ h.ids) (hids : h'.ids = h.ids)
    (hne : x ≠ backing) (hnext : (h.obj backing).shadow = some x) :
    (h'.shadowers x).card = (h.shadowers x).card + 1 := by
  have hnot : object ∉ h.shadowers x := fun hmem => by
    have hshadow' := (mem_shadowers.mp hmem).2
    exact hne (Option.some.inj (hshadow'.symm.trans hshadow))
  have hset : h'.shadowers x = insert object (h.shadowers x) := by
    ext y
    rw [mem_shadowers, Finset.mem_insert, mem_shadowers, hids, hlink]
    by_cases hy : y = object
    · simp [hy, hnext, hobject]
    · simp [hy]
  rw [hset, card_insert_of_notMem hnot]

/-- The next object is shadowed by the object in place of the backing object. -/
theorem card_shadowers_moved (hobject : object ∈ h.ids)
    (hids : h'.ids = h.ids.erase backing) (hbacking : backing ∈ h.ids)
    (hne : x ≠ backing) (hne' : object ≠ backing) (hnext : (h.obj backing).shadow = some x) :
    (h'.shadowers x).card = (h.shadowers x).card := by
  have hmem : backing ∈ h.shadowers x := mem_shadowers.mpr ⟨hbacking, hnext⟩
  have hnot : object ∉ (h.shadowers x).erase backing := fun hmem' => by
    have hshadow' := (mem_shadowers.mp (mem_of_mem_erase hmem')).2
    exact hne (Option.some.inj (hshadow'.symm.trans hshadow))
  have hset : h'.shadowers x = insert object ((h.shadowers x).erase backing) := by
    ext y
    rw [mem_shadowers, Finset.mem_insert, mem_erase, mem_shadowers, hids, mem_erase, hlink]
    by_cases hy : y = object
    · simp [hy, hnext, hobject, hne']
    · simp [hy, and_assoc]
  rw [hset, card_insert_of_notMem hnot, card_erase_add_one hmem]

/-- Other objects are shadowed by as many. -/
theorem card_shadowers_other (hids : h'.ids = h.ids ∨ h'.ids = h.ids.erase backing)
    (hne : x ≠ backing) (hnext : (h.obj backing).shadow ≠ some x) :
    (h'.shadowers x).card = (h.shadowers x).card := by
  congr 1
  ext y
  rw [mem_shadowers, mem_shadowers, hlink]
  by_cases hy : y = object
  · have hother : some backing ≠ some x := fun heq => hne (Option.some.inj heq).symm
    simp [hy, hnext, hshadow, hother]
  · rw [if_neg hy]
    refine and_congr_left fun hyx => ?_
    rcases hids with hids | hids
    · rw [hids]
    · rw [hids, mem_erase]
      exact and_iff_right fun heq => hnext (heq ▸ hyx)

end Shadowers

/-- The object `vm_object_terminate` leaves. -/
theorem terminate_obj (h : ObjectHeap Data) (x y : ℕ) :
    ∃ copy, (h.vmObjectTerminate x).obj y = { h.obj y with copy } := by
  unfold vmObjectTerminate
  cases (h.obj x).shadow with
  | none => exact ⟨_, rfl⟩
  | some s =>
    by_cases hy : y = s
    · subst hy
      exact ⟨none, by simp⟩
    · exact ⟨(h.obj y).copy, by simp [hy]⟩

/-- What is left of the heap with the new link, once the reference to the backing object is
dropped. -/
theorem bypassed_of_relinked {g : ObjectHeap Data} (hg : g = h.relinked object backing)
    (hne : object ≠ backing) (hnext : (h.obj backing).shadow ≠ some backing)
    (hnext' : (h.obj backing).shadow ≠ some object)
    (hobj : ∀ x, (h'.obj x).SameData (g.obj x) ∧ (h'.obj x).shadow = (g.obj x).shadow ∧
      (h'.obj x).shadowOffset = (g.obj x).shadowOffset)
    (hids : h'.ids = h.ids ∨ h'.ids = h.ids.erase backing ∧ h.shadowers backing = {object})
    (hpaged : ∀ x ∈ h'.ids, ∀ pager, (h.obj x).pager = some pager → h'.paged pager = h.paged pager)
    (hstray : h'.stray = h.stray)
    (hrefs : ∀ x ∈ h'.ids, (h'.obj x).refCount = external x + (h'.shadowers x).card ∧
      (h'.obj x).refCount < 32768) :
    Bypassed h h' external object backing := by
  subst hg
  have hdata : ∀ x, (h'.obj x).SameData (h.obj x) := fun x => by
    obtain ⟨hdata, -⟩ := hobj x
    obtain ⟨hdata', -⟩ := relinked_obj hne hnext hnext' x
    exact ⟨hdata.memq.trans hdata'.memq, hdata.size.trans hdata'.size,
      hdata.pager.trans hdata'.pager, hdata.pagingOffset.trans hdata'.pagingOffset,
      hdata.pagerCreated.trans hdata'.pagerCreated, hdata.existenceMap.trans hdata'.existenceMap⟩
  refine ⟨hids, hdata, fun x hx offset => ?_, hstray, ?_, ?_, fun x hxo => ?_,
    fun x hx => (hrefs x hx).1, fun x hx => (hrefs x hx).2⟩
  · simp only [pagedOut, (hdata x).pager, (hdata x).pagingOffset]
    cases hp : (h.obj x).pager with
    | none => rfl
    | some pager =>
      simp only [bind_some]
      rw [hpaged x hx pager hp]
  · rw [(hobj object).2.1, (relinked_obj hne hnext hnext' object).2.1, if_pos rfl]
  · rw [(hobj object).2.2, (relinked_obj hne hnext hnext' object).2.2.1, if_pos rfl]
  · rw [(hobj x).2.1, (hobj x).2.2, (relinked_obj hne hnext hnext' x).2.1,
      (relinked_obj hne hnext hnext' x).2.2.1, if_neg hxo, if_neg hxo]
    exact ⟨rfl, rfl⟩

section

variable (hok : h.Ok external)

include hok

variable (hobject : object ∈ h.ids)

include hobject

variable (hshadow : (h.obj object).shadow = some backing)

include hshadow

/-- The backing object, its shadow and the object are three. -/
theorem Ok.distinct : backing ∈ h.ids ∧ object ≠ backing ∧ (h.obj backing).shadow ≠ some backing ∧
      (h.obj backing).shadow ≠ some object ∧ 0 < (h.shadowers backing).card := by
  obtain ⟨rank, hrank⟩ := hok.acyclic
  obtain ⟨hbacking, hlt⟩ := hrank object hobject backing hshadow
  refine ⟨hbacking, fun heq => by simp [heq] at hlt, fun heq => ?_, fun heq => ?_,
    card_pos.mpr ⟨object, mem_shadowers.mpr ⟨hobject, hshadow⟩⟩⟩
  · simpa using (hrank backing hbacking backing heq).2
  · have hlt' := (hrank backing hbacking object heq).2
    omega

variable (hroom : ∀ next ∈ (h.obj backing).shadow, (h.obj next).refCount ≠ 32767)

include hroom

/-- The counts after the new link is made. -/
theorem Ok.relinked_refCount (hx : x ∈ h.ids) : ((h.relinked object backing).obj x).refCount =
    (h.obj x).refCount + if (h.obj backing).shadow = some x then 1 else 0 := by
  obtain ⟨-, hne, hnext, hnext', -⟩ := hok.distinct hobject hshadow
  have hrefs := hok.refs x hx
  have hshort := hok.short x hx
  rw [(relinked_obj hne hnext hnext' x).2.2.2.1]
  split
  · rename_i hs
    have hne := hroom x hs
    exact toShort_eq (by omega) (by omega)
  · exact (Int.add_zero _).symm

/-- The backing object stays, with one reference less. -/
theorem Ok.bypassed_stay : Bypassed h ((h.relinked object backing).set backing
      { (h.relinked object backing).obj backing with
        refCount := toShort (((h.relinked object backing).obj backing).refCount - 1) })
      external object backing := by
  obtain ⟨hbacking, hne, hnext, hnext', hpos⟩ := hok.distinct hobject hshadow
  have hlinked := fun x => relinked_obj hne hnext hnext' x
  have hrefsBacking := hok.refs backing hbacking
  have hgBacking : ((h.relinked object backing).obj backing).refCount =
      (h.obj backing).refCount := by
    rw [(hlinked backing).2.2.2.1, if_neg hnext]
  generalize hh' : (h.relinked object backing).set backing _ = h'
  have hobj : ∀ x ≠ backing, h'.obj x = (h.relinked object backing).obj x := fun x hx => by
    rw [← hh', set_obj_of_ne hx]
  have hobjBacking : h'.obj backing = { (h.relinked object backing).obj backing with
      refCount := toShort (((h.relinked object backing).obj backing).refCount - 1) } := by
    rw [← hh', set_obj_self]
  have hids : h'.ids = h.ids := by rw [← hh', set_ids, relinked_ids]
  have hall : ∀ x, (h'.obj x).SameData ((h.relinked object backing).obj x) ∧
      (h'.obj x).shadow = ((h.relinked object backing).obj x).shadow ∧
      (h'.obj x).shadowOffset = ((h.relinked object backing).obj x).shadowOffset := fun x => by
    by_cases hx : x = backing
    · rw [hx, hobjBacking]
      exact ⟨⟨rfl, rfl, rfl, rfl, rfl, rfl⟩, rfl, rfl⟩
    · rw [hobj x hx]
      exact ⟨.refl _, rfl, rfl⟩
  have hlink : ∀ y, (h'.obj y).shadow =
      if y = object then (h.obj backing).shadow else (h.obj y).shadow := fun y =>
    (hall y).2.1.trans (hlinked y).2.1
  refine bypassed_of_relinked rfl hne hnext hnext' hall (Or.inl hids) (fun x _ pager _ => ?_) ?_
    fun x hx => ?_
  · rw [← hh', set_paged, relinked_paged]
  · rw [← hh', set_stray, relinked_stray]
  · rw [hids] at hx
    have hrefs := hok.refs x hx
    have hshort := hok.short x hx
    by_cases hxb : x = backing
    · have hcard := card_shadowers_backing hshadow hlink hobject hids hnext
      subst hxb
      rw [hobjBacking]
      dsimp only
      rw [toShort_eq (by omega) (by omega)]
      omega
    · rw [hobj x hxb, hok.relinked_refCount hobject hshadow hroom hx]
      by_cases hxs : (h.obj backing).shadow = some x
      · have hcard := card_shadowers_next hshadow hlink hobject hids hxb hxs
        have hne := hroom x hxs
        rw [if_pos hxs]
        omega
      · have hcard := card_shadowers_other hshadow hlink (Or.inl hids) hxb hxs
        rw [if_neg hxs]
        omega

/-- The backing object is terminated; the reference it had to its shadow is dropped. -/
theorem Ok.bypassed_gone (hlast : (h.obj backing).refCount ≤ 1) (n : ℕ) :
    ∃ h', vmObjectDeallocate (n + 1) ((h.relinked object backing).vmObjectTerminate backing)
      (h.obj backing).shadow = some h' ∧ Bypassed h h' external object backing := by
  obtain ⟨hbacking, hne, hnext, hnext', hpos⟩ := hok.distinct hobject hshadow
  have hlinked := fun x => relinked_obj hne hnext hnext' x
  have hrefsBacking := hok.refs backing hbacking
  have honly : h.shadowers backing = {object} := by
    have hone : (h.shadowers backing).card = 1 := by omega
    obtain ⟨y, hy⟩ := card_eq_one.mp hone
    have hmem : object ∈ h.shadowers backing := mem_shadowers.mpr ⟨hobject, hshadow⟩
    rw [hy, mem_singleton] at hmem
    rw [hy, hmem]
  have hpager : ((h.relinked object backing).obj backing).pager = (h.obj backing).pager :=
    (hlinked backing).1.pager
  generalize ht : (h.relinked object backing).vmObjectTerminate backing = t
  have htids : t.ids = h.ids.erase backing := by
    rw [← ht]
    unfold vmObjectTerminate
    rw [relinked_ids]
  have htstray : t.stray = h.stray := by
    rw [← ht]
    unfold vmObjectTerminate
    cases ((h.relinked object backing).obj backing).shadow <;> exact relinked_stray h object backing
  have htpaged : ∀ x ∈ t.ids, ∀ pager, (h.obj x).pager = some pager →
      t.paged pager = h.paged pager := by
    intro x hx pager hxp
    rw [htids] at hx
    obtain ⟨hxb, hx⟩ := mem_erase.mp hx
    rw [← ht]
    unfold vmObjectTerminate
    simp only [hpager, relinked_paged]
    cases hp : (h.obj backing).pager with
    | none => rfl
    | some pager' =>
      refine Function.update_of_ne (fun heq => ?_) _ _
      exact hxb (hok.pagers x hx backing hbacking pager hxp (heq ▸ hp))
  have htobj : ∀ x, ∃ copy, t.obj x = { (h.relinked object backing).obj x with copy } := fun x =>
    ht ▸ terminate_obj _ backing x
  have hall : ∀ x, (t.obj x).SameData ((h.relinked object backing).obj x) ∧
      (t.obj x).shadow = ((h.relinked object backing).obj x).shadow ∧
      (t.obj x).shadowOffset = ((h.relinked object backing).obj x).shadowOffset ∧
      (t.obj x).refCount = ((h.relinked object backing).obj x).refCount := fun x => by
    obtain ⟨copy, hcopy⟩ := htobj x
    rw [hcopy]
    exact ⟨⟨rfl, rfl, rfl, rfl, rfl, rfl⟩, rfl, rfl, rfl⟩
  have hlink : ∀ y, (t.obj y).shadow =
      if y = object then (h.obj backing).shadow else (h.obj y).shadow := fun y =>
    (hall y).2.1.trans (hlinked y).2.1
  cases hs : (h.obj backing).shadow with
  | none =>
    refine ⟨t, by simp [vmObjectDeallocate], bypassed_of_relinked rfl hne hnext hnext'
      (fun x => ⟨(hall x).1, (hall x).2.1, (hall x).2.2.1⟩) (Or.inr ⟨htids, honly⟩) htpaged htstray
      fun x hx => ?_⟩
    have hx' : x ≠ backing ∧ x ∈ h.ids := mem_erase.mp (htids ▸ hx)
    have hxs : (h.obj backing).shadow ≠ some x := by simp [hs]
    rw [card_shadowers_other hshadow hlink (Or.inr htids) hx'.1 hxs, (hall x).2.2.2,
      (hlinked x).2.2.2.1, if_neg hxs]
    exact ⟨hok.refs x hx'.2, hok.short x hx'.2⟩
  | some s =>
    have hsb : s ≠ backing := fun heq => hnext (heq ▸ hs)
    have hsmem : s ∈ h.ids := by
      obtain ⟨rank, hrank⟩ := hok.acyclic
      exact (hrank backing hbacking s hs).1
    have hrefsNext := hok.refs s hsmem
    have hposNext : 0 < (h.shadowers s).card :=
      card_pos.mpr ⟨backing, mem_shadowers.mpr ⟨hbacking, hs⟩⟩
    have hshortNext := hok.short s hsmem
    have hcount : (t.obj s).refCount = (h.obj s).refCount + 1 := by
      rw [(hall s).2.2.2, hok.relinked_refCount hobject hshadow hroom hsmem, if_pos hs]
    have hmany : (t.obj s).refCount > 1 ∨ (t.obj s).canPersist = true := Or.inl (by omega)
    have hback : toShort ((t.obj s).refCount - 1) = (h.obj s).refCount := by
      rw [hcount, Int.add_sub_cancel, toShort_eq (by omega) hshortNext]
    refine ⟨t.set s { t.obj s with refCount := (h.obj s).refCount },
      by rw [vmObjectDeallocate, if_pos hmany, hback], ?_⟩
    have hall' : ∀ x, ((t.set s { t.obj s with refCount := (h.obj s).refCount }).obj x).SameData
          ((h.relinked object backing).obj x) ∧
        ((t.set s { t.obj s with refCount := (h.obj s).refCount }).obj x).shadow =
          ((h.relinked object backing).obj x).shadow ∧
        ((t.set s { t.obj s with refCount := (h.obj s).refCount }).obj x).shadowOffset =
          ((h.relinked object backing).obj x).shadowOffset := fun x => by
      obtain ⟨hdata, hshadow', hoffset', -⟩ := hall x
      by_cases hx : x = s
      · subst hx
        rw [set_obj_self]
        exact ⟨⟨hdata.memq, hdata.size, hdata.pager, hdata.pagingOffset, hdata.pagerCreated,
          hdata.existenceMap⟩, hshadow', hoffset'⟩
      · rw [set_obj_of_ne hx]
        exact ⟨hdata, hshadow', hoffset'⟩
    have hlink' : ∀ y, ((t.set s { t.obj s with refCount := (h.obj s).refCount }).obj y).shadow =
        if y = object then (h.obj backing).shadow else (h.obj y).shadow := fun y =>
      (hall' y).2.1.trans (hlinked y).2.1
    refine bypassed_of_relinked rfl hne hnext hnext' hall' (Or.inr ⟨htids, honly⟩) htpaged htstray
      fun x hx => ?_
    have hx' : x ≠ backing ∧ x ∈ h.ids := mem_erase.mp (htids ▸ hx)
    by_cases hxs : x = s
    · subst hxs
      rw [card_shadowers_moved hshadow hlink' hobject htids hbacking hsb hne hs, set_obj_self]
      exact ⟨hrefsNext, hshortNext⟩
    · have hother : (h.obj backing).shadow ≠ some x := fun heq =>
        hxs (Option.some.inj (heq.symm.trans hs))
      rw [card_shadowers_other hshadow hlink' (Or.inr htids) hx'.1 hother, set_obj_of_ne hxs,
        (hall x).2.2.2, (hlinked x).2.2.2.1, if_neg hother]
      exact ⟨hok.refs x hx'.2, hok.short x hx'.2⟩

/-- `vm_object_do_bypass` returns, with the backing object one reference shorter or gone. -/
theorem Ok.doBypass :
    ∃ h', h.vmObjectDoBypass object backing = some h' ∧ Bypassed h h' external object backing := by
  obtain ⟨hbacking, hne, hnext, hnext', -⟩ := hok.distinct hobject hshadow
  have hlinked := relinked_obj (h := h) hne hnext hnext' backing
  obtain ⟨n, hn⟩ : ∃ n, h.ids.card = n + 2 := by
    have hcard := one_lt_card.mpr ⟨object, hobject, backing, hbacking, hne⟩
    exact ⟨h.ids.card - 2, by omega⟩
  change ∃ h', vmObjectDeallocate h.ids.card (h.relinked object backing) (some backing) = some h' ∧ _
  rw [hn, vmObjectDeallocate]
  split
  · exact ⟨_, rfl, hok.bypassed_stay hobject hshadow hroom⟩
  · rename_i hlast
    rw [not_or, hlinked.2.2.2.1, if_neg hnext] at hlast
    rw [hlinked.2.1, if_neg hne.symm]
    exact hok.bypassed_gone hobject hshadow hroom (by omega) n

end

/-- The loop through the pages of an object comes to each of them. -/
theorem mem_pageOffsets {size : VmOffset} (haligned : PageAligned offset) (hlt : offset < size) :
    offset ∈ pageOffsets size := by
  rw [pageAligned_iff] at haligned
  have hlt' : offset.toNat < size.toNat := hlt
  have hbound := offset.isLt
  refine List.mem_map.mpr ⟨offset.toNat / pageSize, List.mem_range.mpr ?_, ?_⟩
  · simp only [pageSize] at haligned ⊢
    omega
  · have hmul : offset.toNat / pageSize * pageSize = offset.toNat := by
      simp only [pageSize] at haligned ⊢
      omega
    rw [hmul, BitVec.ofNat_toNat, BitVec.setWidth_eq]

/-- A page that is said to live in the object is there, or the object has an absent page. -/
theorem Ok.absent_of_lives (hok : h.Ok external) (hobject : object ∈ h.ids)
    (haligned : PageAligned offset) (hsize : offset < (h.obj object).size)
    (hlives : h.PageLives object offset) (hown : h.own object offset = none) :
    ∃ pp ∈ (h.obj object).memq, pp.offset = offset ∧ pp.absent = true := by
  cases hlook : (h.obj object).vmPageLookup offset with
  | some pp =>
    rw [own_of_lookup hlook] at hown
    obtain ⟨hmem, hoffset⟩ := VmObject.offset_of_lookup hlook
    refine ⟨pp, hmem, hoffset, ?_⟩
    by_contra hreal
    simp [hreal] at hown
  | none =>
    have hstate : h.state object offset = .stateExists := hlives.resolve_left fun h => h hlook
    have hmap : (h.obj object).existenceMap ≠ none := by
      intro hnone
      simp [state, vmExternalStateGet, hnone] at hstate
    have hpaged := (((hok.exact object hobject hmap).2 offset haligned).1 hsize).mp hstate
    rw [hok.own_of_lookup_eq_none hobject haligned hlook] at hown
    simp [hown] at hpaged

/-- The object that goes past another one has all pages that it could ask that one for, unless
a round takes an absent page for one. -/
theorem Bypassed.merged {h' : ObjectHeap Data} (hb : Bypassed h h' external object backing)
    (hok : h.Ok external) (hobject : object ∈ h.ids) (hobject' : object ∈ h'.ids)
    (hbacking : backing ∈ h.ids)
    (hfits : ¬h.CollapseFits allowed object backing)
    (hmap : ¬((h.obj backing).pagerCreated = true ∧ (h.obj backing).existenceMap = none))
    (hbypass : h.Bypassable object backing) (hkeep : h.KeepsData allowed object backing) :
    Merged h h' object backing := by
  intro offset haligned hsize
  rw [hb.own hobject']
  have hnone : h.own object offset = none →
      h.own backing (offset + (h.obj object).shadowOffset) = none := by
    intro hown
    have halignedBack := haligned.add (hok.shadowOffset object hobject)
    -- What the object is said to have itself is an absent page, over nothing.
    have hlives : h.PageLives object offset →
        h.own backing (offset + (h.obj object).shadowOffset) = none := by
      intro hlives
      obtain ⟨pp, hpp, hoffset, habsent⟩ := hok.absent_of_lives hobject haligned hsize hlives hown
      have hover := hkeep.2 pp hpp habsent (by rwa [hoffset])
      rw [hoffset] at hover
      exact hover.resolve_right fun h => hfits h.1
    cases hlook : (h.obj backing).vmPageLookup (offset + (h.obj object).shadowOffset) with
    | some p =>
      obtain ⟨hp, hoffset⟩ := VmObject.offset_of_lookup hlook
      have hsub : p.offset - (h.obj object).shadowOffset = offset := by
        rw [hoffset, BitVec.add_sub_cancel]
      rcases hbypass.1 p hp with hwrap | hout | hlives'
      · have hown' := hkeep.1 p hp hwrap (by rwa [hsub])
        rw [hsub] at hown'
        exact absurd hown hown'
      · rw [hsub] at hout
        exact absurd hsize (BitVec.not_lt.mpr hout)
      · rw [hsub] at hlives'
        exact hlives hlives'
    | none =>
      rw [hok.own_of_lookup_eq_none hbacking halignedBack hlook]
      by_cases hcreated : (h.obj backing).pagerCreated = true
      · have hback : (h.obj backing).existenceMap ≠ none := fun hnone => hmap ⟨hcreated, hnone⟩
        obtain ⟨hin, hout⟩ := (hok.exact backing hbacking hback).2 _ halignedBack
        rcases hbypass.2 hcreated offset (mem_pageOffsets haligned hsize) with habsent | hlives'
        · by_cases hlt : offset + (h.obj object).shadowOffset < (h.obj backing).size
          · exact not_isSome_iff_eq_none.mp ((hin hlt).not.mp (by simp [habsent]))
          · exact hout (BitVec.not_lt.mp hlt)
        · rw [← hok.own_of_lookup_eq_none hbacking halignedBack hlook]
          exact hlives hlives'
      · have hpager := hok.pager backing hbacking
        rw [Bool.not_eq_true] at hcreated
        rw [hcreated, eq_comm, isSome_eq_false_iff, isNone_iff_eq_none] at hpager
        simp [pagedOut, hpager]
  cases hown : h.own object offset with
  | some data => rfl
  | none => rw [hnone hown]; rfl

end ObjectHeap

end MachVirtuTerm
