import Mathlib.Data.Finset.Card
import MachVirtuTerm.Mach.VmParam
import MachVirtuTerm.Mach.Integer
import MachVirtuTerm.Vm.MapEntry

/-!
# Memory objects

Objects with their resident pages and pagers, the links to the objects they shadow, and the
search for a page along these links: an object has the page resident or its pager has it, and
otherwise the object it shadows is asked.
-/

open Function

namespace MachVirtuTerm

def atop (x : BitVec 32) : ℕ := x.toNat / pageSize

/-- `vm_external_map_t`. -/
abbrev VmExternalMap := List (BitVec 8)

/-- `vm_external_state_t`. -/
inductive VmExternalState
  | stateExists
  | stateUnknown
  | stateAbsent
  deriving DecidableEq

/-- `vm_external_state_get`; `stray` is what is read past the end of a map. -/
def vmExternalStateGet (stray : ℕ → BitVec 8) (map : Option VmExternalMap) (offset : VmOffset) :
    VmExternalState :=
  match map with
  | none => .stateUnknown
  | some map =>
    let bit := atop offset
    let byte := bit / 8
    if (map[byte]?.getD (stray byte)).getLsbD (bit % 8) then .stateExists else .stateAbsent

variable {Data : Type*}

/-- `struct vm_page`. An absent page stands for one that the pager does not have. -/
structure VmPage (Data : Type*) where
  offset : VmOffset
  absent : Bool
  data : Data
  deriving DecidableEq

/-- `struct vm_object`. -/
structure VmObject (Data : Type*) where
  memq : List (VmPage Data)
  size : VmOffset
  /-- A `short`. -/
  refCount : ℤ
  shadow : Option ℕ
  shadowOffset : VmOffset
  copy : Option ℕ
  pager : Option ℕ
  pagingOffset : VmOffset
  pagerCreated : Bool
  canPersist : Bool
  internal : Bool
  absentCount : BitVec 32
  pagingInProgress : ℕ
  existenceMap : Option VmExternalMap

def VmObject.vmPageLookup (object : VmObject Data) (offset : VmOffset) : Option (VmPage Data) :=
  object.memq.find? (·.offset = offset)

/-- The objects that exist, what each pager holds, and what is read past the end of an
existence map. -/
structure ObjectHeap (Data : Type*) where
  ids : Finset ℕ
  obj : ℕ → VmObject Data
  paged : ℕ → VmOffset → Option Data
  stray : ℕ → BitVec 8

namespace ObjectHeap

variable (h : ObjectHeap Data)

/-- A change of one object. -/
def set (x : ℕ) (object : VmObject Data) : ObjectHeap Data :=
  { h with obj := update h.obj x object }

/-- `vm_external_state_get` on the existence map of an object. -/
def state (x : ℕ) (offset : VmOffset) : VmExternalState :=
  vmExternalStateGet h.stray (h.obj x).existenceMap offset

/-- What the pager of an object has of a page. -/
def pagedOut (x : ℕ) (offset : VmOffset) : Option Data :=
  (h.obj x).pager.bind fun pager => h.paged pager (offset + (h.obj x).pagingOffset)

/-- `LOOK_FOR`, for an object with a pager. -/
def LookFor (x : ℕ) (offset : VmOffset) : Prop :=
  (h.obj x).pagerCreated = true ∧ h.state x offset ≠ .stateAbsent

instance (x : ℕ) (offset : VmOffset) : Decidable (h.LookFor x offset) :=
  inferInstanceAs (Decidable (_ ∧ _))

/-- The page an object itself has; the pager is asked for a page that is not resident, and
not again for one that is absent. -/
def own (x : ℕ) (offset : VmOffset) : Option Data :=
  match (h.obj x).vmPageLookup offset with
  | some page => if page.absent then none else some page.data
  | none => if h.LookFor x offset then h.pagedOut x offset else none

/-- The search of `vm_fault_page` along the chain of shadows; `none` is a page to be filled
with zeros. -/
inductive Finds : ℕ → VmOffset → Option Data → Prop
  | own {x : ℕ} {offset : VmOffset} {data : Data} (hown : h.own x offset = some data) :
    Finds x offset (some data)
  | shadow {x s : ℕ} {offset : VmOffset} {r : Option Data} (hown : h.own x offset = none)
    (hshadow : (h.obj x).shadow = some s) (hrest : Finds s (offset + (h.obj x).shadowOffset) r) :
    Finds x offset r
  | zeroFill {x : ℕ} {offset : VmOffset} (hown : h.own x offset = none)
    (hshadow : (h.obj x).shadow = none) : Finds x offset none

/-- The search for a page of an object comes to a page of another one. -/
inductive Reaches (object : ℕ) : ℕ → VmOffset → VmOffset → Prop
  | here {offset : VmOffset} : Reaches object object offset offset
  | shadow {x s : ℕ} {offset p : VmOffset} (hne : x ≠ object) (hown : h.own x offset = none)
    (hshadow : (h.obj x).shadow = some s)
    (hrest : Reaches object s (offset + (h.obj x).shadowOffset) p) : Reaches object x offset p

/-- The objects that shadow one. -/
def shadowers (x : ℕ) : Finset ℕ := h.ids.filter fun y => (h.obj y).shadow = some x

/-- Shadows exist and come further down. -/
def Ranked (rank : ℕ → ℕ) : Prop :=
  ∀ x ∈ h.ids, ∀ s, (h.obj x).shadow = some s → s ∈ h.ids ∧ rank s < rank x

/-- The existence map of an object, if there is one, says which pages its pager has. -/
def MapExact (x : ℕ) : Prop :=
  (h.obj x).existenceMap ≠ none → (h.obj x).pagerCreated = true ∧
    ∀ offset, PageAligned offset →
      (offset < (h.obj x).size →
        (h.state x offset = .stateExists ↔ (h.pagedOut x offset).isSome = true)) ∧
      ((h.obj x).size ≤ offset → h.pagedOut x offset = none)

/-- The objects at any time; `external` counts the references to an object from outside. -/
structure Ok (external : ℕ → ℕ) : Prop where
  acyclic : ∃ rank, h.Ranked rank
  memq : ∀ x ∈ h.ids, ((h.obj x).memq.map (·.offset)).Nodup
  size : ∀ x ∈ h.ids, PageAligned (h.obj x).size
  shadowOffset : ∀ x ∈ h.ids, PageAligned (h.obj x).shadowOffset
  refs : ∀ x ∈ h.ids, (h.obj x).refCount = external x + (h.shadowers x).card
  short : ∀ x ∈ h.ids, (h.obj x).refCount < 32768
  pager : ∀ x ∈ h.ids, (h.obj x).pagerCreated = (h.obj x).pager.isSome
  pagers : ∀ x ∈ h.ids, ∀ y ∈ h.ids, ∀ pager, (h.obj x).pager = some pager →
    (h.obj y).pager = some pager → x = y
  exact : ∀ x ∈ h.ids, h.MapExact x

variable {h} {rank : ℕ → ℕ} {external : ℕ → ℕ} {x s object : ℕ} {offset p : VmOffset}
  {r r' : Option Data}

@[simp]
theorem set_obj_self (object : VmObject Data) : (h.set x object).obj x = object :=
  update_self ..

@[simp]
theorem set_obj_of_ne {y : ℕ} (hne : y ≠ x) (object : VmObject Data) :
    (h.set x object).obj y = h.obj y :=
  update_of_ne hne ..

@[simp]
theorem set_ids (object : VmObject Data) : (h.set x object).ids = h.ids := rfl

@[simp]
theorem set_paged (object : VmObject Data) : (h.set x object).paged = h.paged := rfl

@[simp]
theorem set_stray (object : VmObject Data) : (h.set x object).stray = h.stray := rfl

theorem mem_shadowers {y : ℕ} : y ∈ h.shadowers x ↔ y ∈ h.ids ∧ (h.obj y).shadow = some x :=
  Finset.mem_filter

/-- A search finds one thing only. -/
theorem Finds.unique (hr : h.Finds x offset r) (hr' : h.Finds x offset r') : r = r' := by
  induction hr with
  | own hown =>
    cases hr' with
    | own hown' => exact hown.symm.trans hown'
    | shadow hown' _ _ => simp [hown] at hown'
    | zeroFill hown' _ => simp [hown] at hown'
  | shadow hown hshadow _ ih =>
    cases hr' with
    | own hown' => simp [hown] at hown'
    | shadow _ hshadow' hrest' =>
      obtain rfl : _ = _ := Option.some.inj (hshadow.symm.trans hshadow')
      exact ih hrest'
    | zeroFill _ hshadow' => simp [hshadow] at hshadow'
  | zeroFill hown hshadow =>
    cases hr' with
    | own hown' => simp [hown] at hown'
    | shadow _ hshadow' _ => simp [hshadow] at hshadow'
    | zeroFill _ _ => rfl

/-- Every search ends. -/
theorem Ranked.finds (hrank : h.Ranked rank) (hx : x ∈ h.ids) (offset : VmOffset) :
    ∃ r, h.Finds x offset r := by
  induction hn : rank x using Nat.strong_induction_on generalizing x offset with
  | _ n ih =>
    cases hown : h.own x offset with
    | some data => exact ⟨some data, .own hown⟩
    | none =>
      cases hshadow : (h.obj x).shadow with
      | none => exact ⟨none, .zeroFill hown hshadow⟩
      | some s =>
        obtain ⟨hs, hlt⟩ := hrank x hx s hshadow
        obtain ⟨r, hr⟩ := ih (rank s) (hn ▸ hlt) hs (offset + (h.obj x).shadowOffset) rfl
        exact ⟨r, .shadow hown hshadow hr⟩

/-- The page of an object does not depend on other objects. -/
theorem own_congr {h' : ObjectHeap Data} (hobj : h'.obj x = h.obj x)
    (hpaged : h'.pagedOut x offset = h.pagedOut x offset) (hstray : h'.stray = h.stray) :
    h'.own x offset = h.own x offset := by
  have hlook : h'.LookFor x offset ↔ h.LookFor x offset := by
    simp only [LookFor, state, hobj, hstray]
  simp only [own, hobj, hpaged, hlook]

end ObjectHeap

end MachVirtuTerm

/-!
# Collapse and bypass

`vm_object_collapse` with `vm_object_do_collapse` and `vm_object_do_bypass`, as configured
with existence maps. An object takes the pages and the pager of the object it shadows if it
alone refers to it, and goes past that object if it has all the pages it could ask it for.
-/

namespace MachVirtuTerm

variable {Data : Type*}

/-- The page offsets of an object: `for (offset = 0; offset < size; offset += PAGE_SIZE)`. -/
def pageOffsets (size : VmOffset) : List VmOffset :=
  (List.range ((size.toNat + (pageSize - 1)) / pageSize)).map fun i => BitVec.ofNat 32 (i * pageSize)

/-- One round of the loop of `vm_object_do_collapse`: a page of the backing object is moved
to the object, which keeps a real page of its own. -/
def VmObject.moveUp (backingOffset : VmOffset) (object : VmObject Data) (p : VmPage Data) :
    VmObject Data :=
  let newOffset := p.offset - backingOffset
  if p.offset < backingOffset ∨ newOffset ≥ object.size then object
  else
    match object.vmPageLookup newOffset with
    | none => { object with memq := object.memq ++ [{ p with offset := newOffset }] }
    | some pp =>
      -- The absent page is freed; the count of the object does not know of one it was given.
      if pp.absent then
        { object with
          memq := object.memq.filter (·.offset ≠ newOffset) ++ [{ p with offset := newOffset }]
          absentCount := object.absentCount - 1 }
      else object

namespace ObjectHeap

variable (h : ObjectHeap Data)

/-- The loop of `vm_object_do_collapse` through the pages of the backing object. -/
def movedUp (object backing : ℕ) : VmObject Data :=
  (h.obj backing).memq.foldl (VmObject.moveUp (h.obj object).shadowOffset) (h.obj object)

def vmObjectDoCollapse (object backing : ℕ) : ObjectHeap Data :=
  let x := h.obj object
  let back := h.obj backing
  let moved := h.movedUp object backing
  let x' := { moved with
    pager := if back.pager.isSome then back.pager else moved.pager
    pagerCreated := if back.pager.isSome then back.pagerCreated else moved.pagerCreated
    pagingOffset := back.pagingOffset + x.shadowOffset
    existenceMap :=
      if x.shadowOffset ≠ 0 ∨ x.size ≠ back.size then moved.existenceMap else back.existenceMap
    shadow := back.shadow
    shadowOffset := x.shadowOffset + back.shadowOffset }
  { h.set object x' with ids := h.ids.erase backing }

/-- `vm_object_terminate`. Its last reference is gone, and its pager goes with it. -/
def vmObjectTerminate (x : ℕ) : ObjectHeap Data :=
  let detached :=
    match (h.obj x).shadow with
    | some s => h.set s { h.obj s with copy := none }
    | none => h
  { detached with
    ids := h.ids.erase x
    paged :=
      match (h.obj x).pager with
      | some pager => update h.paged pager fun _ => none
      | none => h.paged }

/-- `vm_object_deallocate`; the first argument bounds the objects that it terminates. -/
def vmObjectDeallocate : ℕ → ObjectHeap Data → Option ℕ → Option (ObjectHeap Data)
  | _, h, none => some h
  | 0, _, some _ => none
  | n + 1, h, some x =>
    let object := h.obj x
    if object.refCount > 1 ∨ object.canPersist then
      some (h.set x { object with refCount := toShort (object.refCount - 1) })
    else vmObjectDeallocate n (h.vmObjectTerminate x) object.shadow

def vmObjectReference (x : Option ℕ) : ObjectHeap Data :=
  match x with
  | some x => h.set x { h.obj x with refCount := toShort ((h.obj x).refCount + 1) }
  | none => h

def vmObjectDoBypass (object backing : ℕ) : Option (ObjectHeap Data) :=
  let x := h.obj object
  let back := h.obj backing
  let h₁ := (h.vmObjectReference back.shadow).set object { x with
    shadow := back.shadow
    shadowOffset := x.shadowOffset + back.shadowOffset }
  let h₂ := h₁.set backing { back with copy := if back.copy = some object then none else back.copy }
  vmObjectDeallocate h.ids.card h₂ (some backing)

/-- A page of the object is resident, or its pager has it. -/
def PageLives (object : ℕ) (offset : VmOffset) : Prop :=
  (h.obj object).vmPageLookup offset ≠ none ∨ h.state object offset = .stateExists

/-- All pages of the backing object that the object could ask it for live in the object or in
its pager. -/
def Bypassable (object backing : ℕ) : Prop :=
  let x := h.obj object
  (∀ p ∈ (h.obj backing).memq, p.offset < x.shadowOffset ∨ p.offset - x.shadowOffset ≥ x.size ∨
    h.PageLives object (p.offset - x.shadowOffset)) ∧
  ((h.obj backing).pagerCreated = true → ∀ newOffset ∈ pageOffsets x.size,
    h.state backing (newOffset + x.shadowOffset) = .stateAbsent ∨ h.PageLives object newOffset)

/-- What a round of the loop leads to. -/
inductive CollapseStep (Data : Type*)
  | returned
  | again (h : ObjectHeap Data)

/-- The tunable `vm_object_collapse_allowed` and `vm_object_bypass_allowed`. -/
structure CollapseAllowed where
  collapse : Bool
  bypass : Bool

/-- The object a round works on: there is no paging in the object or in its backing object,
which is internal and no copy object. -/
def backingObject (object : ℕ) : Option ℕ :=
  let x := h.obj object
  if x.pagingInProgress ≠ 0 ∨ x.absentCount ≠ 0 then none
  else x.shadow.filter fun backing =>
    (h.obj backing).internal && (h.obj backing).pagingInProgress = 0 &&
      (h.obj backing).shadow.all fun s => (h.obj s).copy.isNone

/-- The object alone refers to the backing object and can take its pager. -/
def CollapseFits (allowed : CollapseAllowed) (object backing : ℕ) : Prop :=
  (h.obj backing).refCount = 1 ∧ (h.obj object).pagerCreated = false ∧ allowed.collapse = true

instance (object : ℕ) (offset : VmOffset) : Decidable (h.PageLives object offset) :=
  inferInstanceAs (Decidable (_ ≠ none ∨ _))

instance (object backing : ℕ) : Decidable (h.Bypassable object backing) :=
  inferInstanceAs (Decidable ((∀ p ∈ (h.obj backing).memq, _ ∨ _ ∨ _) ∧ (_ → ∀ newOffset ∈ _, _ ∨ _)))

instance (allowed : CollapseAllowed) (object backing : ℕ) :
    Decidable (h.CollapseFits allowed object backing) :=
  inferInstanceAs (Decidable (_ ∧ _ ∧ _))

/-- A round goes past the backing object. -/
def Bypasses (allowed : CollapseAllowed) (object backing : ℕ) : Prop :=
  ¬h.CollapseFits allowed object backing ∧ ¬(allowed.bypass = false ∨
    ((h.obj backing).pagerCreated = true ∧ (h.obj backing).existenceMap = none)) ∧
    h.Bypassable object backing

instance (allowed : CollapseAllowed) (object backing : ℕ) :
    Decidable (h.Bypasses allowed object backing) :=
  inferInstanceAs (Decidable (¬_ ∧ ¬(_ ∨ _) ∧ _))

/-- One round of the loop; `lock` is what `vm_object_cache_lock_try` returns. -/
def collapseStep (allowed : CollapseAllowed) (lock : Bool) (object : ℕ) :
    Option (CollapseStep Data) :=
  match h.backingObject object with
  | none => some .returned
  | some backing =>
    if h.CollapseFits allowed object backing then
      if lock then some (.again (h.vmObjectDoCollapse object backing)) else some .returned
    else if allowed.bypass = false ∨
        ((h.obj backing).pagerCreated = true ∧ (h.obj backing).existenceMap = none) then
      some .returned
    else if h.Bypassable object backing then (h.vmObjectDoBypass object backing).map .again
    else some .returned

/-- `vm_object_collapse`; the number bounds the rounds, and `locks` has what
`vm_object_cache_lock_try` returns in them. -/
def vmObjectCollapse (allowed : CollapseAllowed) (object : ℕ) :
    ℕ → (ℕ → Bool) → ObjectHeap Data → Option (ObjectHeap Data)
  | 0, _, _ => none
  | n + 1, locks, h =>
    (h.collapseStep allowed (locks 0) object).bind fun
      | .returned => some h
      | .again h' => vmObjectCollapse allowed object n (fun i => locks (i + 1)) h'

end ObjectHeap

end MachVirtuTerm
