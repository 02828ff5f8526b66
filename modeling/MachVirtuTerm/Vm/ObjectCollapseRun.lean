import MachVirtuTerm.Vm.ObjectBypass

/-!
# The loop of collapse

`vm_object_collapse` ends, with all references counted and all existence maps exact, and every
page is found that was found before, in the calls in which no round takes an absent page, or a
page whose offset wraps around, for one that the object has.
-/

open Option

namespace MachVirtuTerm

variable {Data : Type*}

namespace ObjectHeap

variable {h : ObjectHeap Data} {rank external : ℕ → ℕ} {object backing x : ℕ} {offset : VmOffset}
  {allowed : CollapseAllowed}

/-- A condition on every round. -/
def EveryRound (P : Bool → ObjectHeap Data → Prop) (allowed : CollapseAllowed) (object : ℕ) :
    ℕ → (ℕ → Bool) → ObjectHeap Data → Prop
  | 0, _, _ => True
  | n + 1, locks, h => P (locks 0) h ∧
    ∀ h', h.collapseStep allowed (locks 0) object = some (.again h') →
      EveryRound P allowed object n (fun i => locks (i + 1)) h'

/-- A round that goes past the backing object has room for one more reference in the count of the
object behind it. -/
def CountsFit (allowed : CollapseAllowed) (object : ℕ) (_ : Bool) (h : ObjectHeap Data) : Prop :=
  ∀ backing ∈ h.backingObject object, h.Bypasses allowed object backing →
    ∀ next ∈ (h.obj backing).shadow, (h.obj next).refCount ≠ 32767

/-- A round that changes the chain keeps the data. -/
def KeepsRound (allowed : CollapseAllowed) (object : ℕ) (lock : Bool) (h : ObjectHeap Data) : Prop :=
  ∀ backing ∈ h.backingObject object,
    h.CollapseFits allowed object backing ∧ lock = true ∨ h.Bypasses allowed object backing →
      h.KeepsData allowed object backing

/-- What holds after rounds of the loop. -/
structure Collapsed (h h' : ObjectHeap Data) (external : ℕ → ℕ) (object : ℕ) : Prop where
  ok : h'.Ok external
  ids : h'.ids ⊆ h.ids
  live : object ∈ h'.ids
  size : (h'.obj object).size = (h.obj object).size

/-- All searches that come to the object at pages below its size find what they found. -/
def SameContents (h h' : ObjectHeap Data) (object : ℕ) : Prop :=
  ∀ x ∈ h'.ids, ∀ offset, h.Below object x offset →
    h'.Below object x offset ∧ ∀ r, h'.Finds x offset r ↔ h.Finds x offset r

/-- How far down the object a chain begins. -/
def depth (h : ObjectHeap Data) (rank : ℕ → ℕ) (object : ℕ) : ℕ :=
  (h.obj object).shadow.elim 0 fun s => rank s + 1

/-- An object that takes the place of another one keeps the contents of all. -/
theorem Shortened.sameContents {h' : ObjectHeap Data} (hs : Shortened h h' object backing)
    (hmerged : Merged h h' object backing) (hrank : h.Ranked rank) (hrank' : h'.Ranked rank)
    (hobject : object ∈ h'.ids) (hsize : (h'.obj object).size = (h.obj object).size) :
    SameContents h h' object := by
  intro x hx offset hbelow
  refine ⟨fun p hp => ?_, fun r => hs.finds_iff hmerged hrank hrank' hobject hx hbelow⟩
  rw [hsize]
  exact hbelow p (hs.reaches hrank' hx hp)

/-- It brings the chain closer to its end. -/
theorem Shortened.depth_lt {h' : ObjectHeap Data} (hs : Shortened h h' object backing)
    (hrank : h.Ranked rank) (hbacking : backing ∈ h.ids) : h'.depth rank object < h.depth rank object := by
  simp only [depth, hs.shadow, hs.shadow', elim_some]
  cases hnext : (h.obj backing).shadow with
  | none => simp
  | some s =>
    have hlt := (hrank backing hbacking s hnext).2
    simpa using hlt

/-- The object looked at is the one shadowed. -/
theorem shadow_of_backingObject {backing : ℕ} (hback : h.backingObject object = some backing) :
    (h.obj object).shadow = some backing := by
  unfold backingObject at hback
  dsimp only at hback
  split at hback
  · cases hback
  · exact (filter_eq_some_iff.mp hback).1

/-- A round that does not return. -/
theorem Ok.again {h' : ObjectHeap Data} {lock : Bool} (hok : h.Ok external) (hrank : h.Ranked rank)
    (hobject : object ∈ h.ids) (hfit : CountsFit allowed object lock h)
    (hstep : h.collapseStep allowed lock object = some (.again h')) :
    Collapsed h h' external object ∧ h'.Ranked rank ∧ h'.depth rank object < h.depth rank object ∧
      (KeepsRound allowed object lock h → SameContents h h' object) := by
  unfold collapseStep at hstep
  split at hstep
  · cases hstep
  rename_i backing hback
  have hshadow := shadow_of_backingObject hback
  obtain ⟨hbacking, hlt⟩ := hrank object hobject backing hshadow
  split at hstep
  · rename_i hfits
    split at hstep
    · rename_i hlock
      cases hstep
      have hshort := shortened_doCollapse (h := h) hshadow
      have hlive : object ∈ (h.vmObjectDoCollapse object backing).ids :=
        Finset.mem_erase.mpr ⟨fun heq => by simp [heq] at hlt, hobject⟩
      have hrank' := hok.ranked_doCollapse hrank hobject hshadow hfits.1
      have hsize : ((h.vmObjectDoCollapse object backing).obj object).size =
          (h.obj object).size := by
        rw [doCollapse_obj_self]
      exact ⟨⟨hok.doCollapse hobject hshadow hfits.1 hfits.2.1, hshort.ids, hlive, hsize⟩, hrank',
        hshort.depth_lt hrank hbacking, fun hkeep => hshort.sameContents
          (hok.merged_doCollapse hobject hshadow hfits (hkeep backing hback (.inl ⟨hfits, hlock⟩)))
          hrank hrank' hlive hsize⟩
    · cases hstep
  · rename_i hfits
    split at hstep
    · cases hstep
    rename_i hmap
    split at hstep
    · rename_i hbypass
      obtain ⟨h₁, hdo, heq⟩ := map_eq_some_iff.mp hstep
      cases heq
      have hpast : h.Bypasses allowed object backing := ⟨hfits, hmap, hbypass⟩
      rw [not_or] at hmap
      obtain ⟨h₂, hdo', hb⟩ := hok.doBypass hobject hshadow (hfit backing hback hpast)
      obtain rfl : h' = h₂ := Option.some.inj (hdo.symm.trans hdo')
      have hshort := hb.shortened hshadow
      have hlive : object ∈ h'.ids := by
        rcases hb.ids with hids | ⟨hids, -⟩
        · exact hids ▸ hobject
        · exact hids ▸ Finset.mem_erase.mpr ⟨fun heq => by simp [heq] at hlt, hobject⟩
      have hrank' := hb.ranked hrank hobject hshadow
      exact ⟨⟨hb.ok hok hobject hshadow, hb.subset, hlive, (hb.data object).size⟩, hrank',
        hshort.depth_lt hrank hbacking, fun hkeep => hshort.sameContents
          (hb.merged hok hobject hlive hbacking hfits hmap.2 hbypass (hkeep backing hback (.inr hpast)))
          hrank hrank' hlive (hb.data object).size⟩
    · cases hstep

/-- A round returns, or changes the chain. -/
theorem Ok.collapseStep (allowed : CollapseAllowed) (hok : h.Ok external)
    (hobject : object ∈ h.ids) {lock : Bool} (hfit : CountsFit allowed object lock h) :
    h.collapseStep allowed lock object = some .returned ∨
      ∃ h', h.collapseStep allowed lock object = some (.again h') := by
  unfold ObjectHeap.collapseStep
  split
  · exact Or.inl rfl
  rename_i backing hback
  have hshadow := shadow_of_backingObject hback
  split
  · split
    · exact Or.inr ⟨_, rfl⟩
    · exact Or.inl rfl
  rename_i hfits
  split
  · exact Or.inl rfl
  rename_i hmap
  split
  · rename_i hbypass
    obtain ⟨h', hdo, -⟩ :=
      hok.doBypass hobject hshadow (hfit backing hback ⟨hfits, hmap, hbypass⟩)
    exact Or.inr ⟨h', by rw [hdo]; rfl⟩
  · exact Or.inl rfl

/-- The loop ends. -/
theorem Ok.collapse (allowed : CollapseAllowed) (hok : h.Ok external) (hrank : h.Ranked rank)
    (hobject : object ∈ h.ids) (locks : ℕ → Bool)
    (hfit : ∀ n, EveryRound (CountsFit allowed object) allowed object n locks h) :
    ∃ n h', (∀ m, n ≤ m → vmObjectCollapse allowed object m locks h = some h') ∧
      Collapsed h h' external object ∧
      (EveryRound (KeepsRound allowed object) allowed object n locks h →
        SameContents h h' object) := by
  induction hd : h.depth rank object using Nat.strong_induction_on generalizing h locks with
  | _ d ih =>
    rcases hok.collapseStep allowed hobject (hfit 1).1 with hstep | ⟨h₁, hstep⟩
    · refine ⟨1, h, fun m hm => ?_, ⟨hok, Finset.Subset.refl _, hobject, rfl⟩,
        fun _ x hx offset hbelow => ⟨hbelow, fun r => Iff.rfl⟩⟩
      obtain ⟨m, rfl⟩ : ∃ k, m = k + 1 := ⟨m - 1, by omega⟩
      simp [vmObjectCollapse, hstep]
    · obtain ⟨hcollapsed, hrank₁, hdepth, hsame⟩ := hok.again hrank hobject (hfit 1).1 hstep
      obtain ⟨n, h', hrun, hcollapsed', hsame'⟩ := ih _ (hd ▸ hdepth) hcollapsed.ok hrank₁
        hcollapsed.live (fun i => locks (i + 1)) (fun n => (hfit (n + 1)).2 h₁ hstep) rfl
      refine ⟨n + 1, h', fun m hm => ?_, ⟨hcollapsed'.ok, hcollapsed'.ids.trans hcollapsed.ids,
        hcollapsed'.live, hcollapsed'.size.trans hcollapsed.size⟩, fun hkeep => ?_⟩
      · obtain ⟨m, rfl⟩ : ∃ k, m = k + 1 := ⟨m - 1, by omega⟩
        simp [vmObjectCollapse, hstep, hrun m (by omega)]
      · intro x hx offset hbelow
        obtain ⟨hbelow₁, hfinds₁⟩ := hsame hkeep.1 x (hcollapsed'.ids hx) offset hbelow
        obtain ⟨hbelow', hfinds'⟩ := hsame' (hkeep.2 h₁ hstep) x hx offset hbelow₁
        exact ⟨hbelow', fun r => (hfinds' r).trans (hfinds₁ r)⟩

/-- If no round takes a count out of a `short`, `vm_object_collapse` returns; then all references
are counted and all existence maps are exact, and if no round takes an absent page or one that
wraps around for a page of the object, every page of the object, and of every other object whose
search comes to the object below its size, has the contents it had. -/
theorem collapse_keeps_contents (allowed : CollapseAllowed) (object : ℕ) (locks : ℕ → Bool)
    (h : ObjectHeap Data) (external : ℕ → ℕ) (hok : h.Ok external) (hobject : object ∈ h.ids)
    (hfit : ∀ n, EveryRound (CountsFit allowed object) allowed object n locks h) :
    ∃ n h', (∀ m, n ≤ m → vmObjectCollapse allowed object m locks h = some h') ∧
      (∀ x ∈ h'.ids, (h'.obj x).refCount = external x + (h'.shadowers x).card) ∧
      (∀ x ∈ h'.ids, h'.MapExact x) ∧
      (EveryRound (KeepsRound allowed object) allowed object n locks h →
        (∀ offset, PageAligned offset → offset < (h.obj object).size →
          ∀ r, h'.Finds object offset r ↔ h.Finds object offset r) ∧
        ∀ x ∈ h'.ids, ∀ offset, h.Below object x offset →
          ∀ r, h'.Finds x offset r ↔ h.Finds x offset r) := by
  obtain ⟨rank, hrank⟩ := hok.acyclic
  obtain ⟨n, h', hrun, hcollapsed, hsame⟩ := hok.collapse allowed hrank hobject locks hfit
  refine ⟨n, h', hrun, hcollapsed.ok.refs, hcollapsed.ok.exact, fun hkeep => ⟨?_, ?_⟩⟩
  · intro offset haligned hlt
    refine (hsame hkeep object hcollapsed.live offset fun p hp => ?_).2
    cases hp with
    | here => exact ⟨haligned, hlt⟩
    | shadow hne _ _ _ => exact absurd rfl hne
  · intro x hx offset hbelow
    exact (hsame hkeep x hx offset hbelow).2

instance (h : ObjectHeap Data) (allowed : CollapseAllowed) (object backing : ℕ) :
    Decidable (h.KeepsData allowed object backing) :=
  inferInstanceAs (Decidable ((∀ p ∈ _, _ → _ → _ ≠ none) ∧ ∀ pp ∈ _, _ → _ → _ = none ∨ _ ∧ _ ≠ none))

instance (allowed : CollapseAllowed) (object : ℕ) (lock : Bool) (h : ObjectHeap Data) :
    Decidable (KeepsRound allowed object lock h) :=
  inferInstanceAs (Decidable (∀ backing ∈ _, _ → _))

instance (allowed : CollapseAllowed) (object : ℕ) (lock : Bool) (h : ObjectHeap Data) :
    Decidable (CountsFit allowed object lock h) :=
  inferInstanceAs (Decidable (∀ backing ∈ _, _ → ∀ next ∈ _, _ ≠ _))

variable {P : Bool → ObjectHeap Data → Prop}

/-- A condition that can be evaluated can be in every round. -/
theorem everyRound_succ_iff (allowed : CollapseAllowed) (object n : ℕ) (locks : ℕ → Bool)
    (h : ObjectHeap Data) : EveryRound P allowed object (n + 1) locks h ↔ P (locks 0) h ∧
      match h.collapseStep allowed (locks 0) object with
      | some (.again h') => EveryRound P allowed object n (fun i => locks (i + 1)) h'
      | _ => True := by
  simp only [EveryRound]
  cases hstep : h.collapseStep allowed (locks 0) object with
  | none => simp
  | some step =>
    cases step with
    | returned => simp
    | again h' =>
      refine and_congr_right fun _ => ⟨fun hk => hk h' rfl, fun hk h₁ heq => ?_⟩
      cases heq
      exact hk

instance decidableEveryRound [∀ lock, DecidablePred (P lock)] (allowed : CollapseAllowed)
    (object : ℕ) : (n : ℕ) → (locks : ℕ → Bool) → (h : ObjectHeap Data) →
      Decidable (EveryRound P allowed object n locks h)
  | 0, _, _ => isTrue trivial
  | n + 1, locks, h =>
    @decidable_of_iff' _ _ (everyRound_succ_iff allowed object n locks h)
      (@instDecidableAnd _ _ _ (match h.collapseStep allowed (locks 0) object with
      | some (.again h') => decidableEveryRound allowed object n (fun i => locks (i + 1)) h'
      | some .returned => isTrue trivial
      | none => isTrue trivial))

/-- The rounds of a call that has returned are all there are. -/
theorem EveryRound.of_returned {n : ℕ} {locks : ℕ → Bool} {h' : ObjectHeap Data}
    (hk : EveryRound P allowed object n locks h)
    (hrun : vmObjectCollapse allowed object n locks h = some h') (m : ℕ) :
    EveryRound P allowed object m locks h := by
  induction n generalizing m locks h with
  | zero => cases hrun
  | succ n ih =>
    cases m with
    | zero => trivial
    | succ m =>
      refine ⟨hk.1, fun h₁ hstep => ?_⟩
      simp only [vmObjectCollapse, hstep, bind_some] at hrun
      exact ih (hk.2 h₁ hstep) hrun m

/-- An internal object of one page, without a pager of its own. -/
def onePage (memq : List (VmPage ℕ)) (shadow : Option ℕ) : VmObject ℕ where
  memq := memq
  size := 0x1000
  refCount := 1
  shadow := shadow
  shadowOffset := 0
  copy := none
  pager := none
  pagingOffset := 0
  pagerCreated := false
  canPersist := false
  internal := true
  absentCount := 0
  pagingInProgress := 0
  existenceMap := none

/-- An object that shadows one with these pages and a pager, which shadows one with a page. -/
def threeObjects (memq : List (VmPage ℕ)) : ObjectHeap ℕ where
  ids := {0, 1, 2}
  obj
    | 0 => onePage [] (some 1)
    | 1 => { onePage memq (some 2) with pager := some 0, pagerCreated := true }
    | _ => onePage [⟨0, false, 5⟩] none
  paged _ _ := none
  stray _ := 0

/-- The first object is referred to from outside. -/
def firstReferred (x : ℕ) : ℕ := if x = 0 then 1 else 0

/-- The objects are in order, whatever page the middle one has. -/
theorem threeObjects_ok (page : VmPage ℕ) : (threeObjects [page]).Ok firstReferred := by
  have hids : ∀ {P : ℕ → Prop}, P 0 → P 1 → P 2 → ∀ x ∈ (threeObjects [page]).ids, P x := by
    intro P h₀ h₁ h₂ x hx
    simp only [threeObjects, Finset.mem_insert, Finset.mem_singleton] at hx
    rcases hx with rfl | rfl | rfl
    · exact h₀
    · exact h₁
    · exact h₂
  have hexact : ∀ x, (threeObjects [page]).MapExact x := by
    intro x hne
    have hnone : ((threeObjects [page]).obj x).existenceMap = none :=
      match x with
      | 0 | 1 | _ + 2 => rfl
    exact absurd hnone hne
  have hpagers : ∀ x ∈ (threeObjects [page]).ids, ∀ pager,
      ((threeObjects [page]).obj x).pager = some pager → x = 1 :=
    hids (fun _ h => by cases h) (fun _ _ => rfl) (fun _ h => by cases h)
  have hsize : PageAligned (0x1000 : VmOffset) := by decide
  have hzero : PageAligned (0 : VmOffset) := by decide
  have hone : (1 : ℤ) < 32768 := by decide
  refine ⟨⟨fun x => 2 - x, hids ?_ ?_ ?_⟩, hids ?_ ?_ ?_, hids hsize hsize hsize,
    hids hzero hzero hzero, hids rfl rfl rfl, hids hone hone hone,
    hids rfl rfl rfl, fun x hx y hy pager hxp hyp => ?_, fun x _ => hexact x⟩
  · rintro s ⟨⟩
    exact ⟨by simp [threeObjects], by decide⟩
  · rintro s ⟨⟩
    exact ⟨by simp [threeObjects], by decide⟩
  · rintro s ⟨⟩
  · exact List.nodup_nil
  · exact List.nodup_singleton _
  · exact List.nodup_singleton _
  · exact (hpagers x hx pager hxp).trans (hpagers y hy pager hyp).symm

/-- The middle object, with a real page, is collapsed, and the first object has its page. -/
theorem collapse_keeps_contents_real : ∃ n h',
    vmObjectCollapse ⟨true, true⟩ 0 n (fun _ => true) (threeObjects [⟨0, false, 7⟩]) = some h' ∧
      h'.Finds 0 0 (some 7) := by
  obtain ⟨h₃, hrun₃⟩ : ∃ h₃, vmObjectCollapse ⟨true, true⟩ 0 3 (fun _ => true)
      (threeObjects [⟨0, false, 7⟩]) = some h₃ := by
    have hsome : (vmObjectCollapse ⟨true, true⟩ 0 3 (fun _ => true)
        (threeObjects [⟨0, false, 7⟩])).isSome = true := by
      decide +kernel
    exact isSome_iff_exists.mp hsome
  have hfit₃ : EveryRound (CountsFit ⟨true, true⟩ 0) ⟨true, true⟩ 0 3 (fun _ => true)
      (threeObjects [⟨0, false, 7⟩]) := by
    decide +kernel
  have hkeep₃ : EveryRound (KeepsRound ⟨true, true⟩ 0) ⟨true, true⟩ 0 3 (fun _ => true)
      (threeObjects [⟨0, false, 7⟩]) := by
    decide +kernel
  obtain ⟨n, h', hrun, -, -, hsame⟩ := collapse_keeps_contents ⟨true, true⟩ 0 (fun _ => true)
    (threeObjects [⟨0, false, 7⟩]) firstReferred (threeObjects_ok _) (by decide)
    (hfit₃.of_returned hrun₃)
  have hfinds : (threeObjects [⟨0, false, 7⟩]).Finds 0 0 (some 7) :=
    .shadow rfl rfl (.own rfl)
  exact ⟨n, h', hrun n (Nat.le_refl n),
    ((hsame (hkeep₃.of_returned hrun₃ n)).1 0 (by decide) (by decide) (some 7)).mpr hfinds⟩

/-- The middle object has an absent page. It is collapsed, the absent page is taken for one of
the first object, the last object is bypassed and its page is lost. -/
theorem collapse_loses_page : ∃ (h : ObjectHeap ℕ) (external : ℕ → ℕ),
    h.Ok external ∧ 0 ∈ h.ids ∧ (h.obj 0).absentCount = 0 ∧
    ∃ h', vmObjectCollapse ⟨true, true⟩ 0 3 (fun _ => true) h = some h' ∧
      ¬∀ offset, PageAligned offset → offset < (h.obj 0).size →
        ∀ r, h'.Finds 0 offset r ↔ h.Finds 0 offset r := by
  refine ⟨threeObjects [⟨0, true, 0⟩], firstReferred, threeObjects_ok _, by decide, rfl, ?_⟩
  have hres : (vmObjectCollapse ⟨true, true⟩ 0 3 (fun _ => true) (threeObjects [⟨0, true, 0⟩])).map
      (fun h' => (h'.own 0 0, (h'.obj 0).shadow)) = some (none, none) := by
    decide +kernel
  obtain ⟨h', hrun, hown⟩ := map_eq_some_iff.mp hres
  obtain ⟨hown, hshadow⟩ := Prod.mk.inj hown
  refine ⟨h', hrun, fun hsame => ?_⟩
  have hzero := (hsame 0 (by decide) (by decide) none).mp (.zeroFill hown hshadow)
  have hfinds : (threeObjects [⟨0, true, 0⟩]).Finds 0 0 (some 5) :=
    .shadow rfl rfl (.shadow rfl rfl (.own rfl))
  cases hzero.unique hfinds

end ObjectHeap

end MachVirtuTerm
