import MachVirtuTerm.Ipc.KmsgCopyin
import Mathlib.Algebra.BigOperators.Group.List.Basic

/-!
# The passes of copying a body in

One lemma says what a round of the second pass does: which descriptors it accepts, what a
descriptor becomes, which part of the region it takes, and what an error exit releases.
-/

open List

namespace MachVirtuTerm

namespace Kmsg

variable {R M : Type*} {cfg : Config} {env : CopyinOracle R M} {msg : Message R}
  {state state' : CopyinState R M} {d : UserDescriptor}

/-! ## Which descriptors are accepted -/

section

variable (env : CopyinOracle R M)

/-- An element of an array is refused. -/
def RefusedAt (i j : ℕ) : Prop :=
  machPortValid (env.arrayName i j) ∧ env.objectCopyin i j = .refused

/-- An element of an array holds no right in the kernel: `MACH_PORT_NULL`, `MACH_PORT_DEAD`,
or the name of a dead right. -/
def HollowAt (i j : ℕ) : Prop :=
  ¬machPortValid (env.arrayName i j) ∨ env.objectCopyin i j = .dead

/-- An array comes into the kernel, so its elements are copied in. -/
def ArrayComes (i : ℕ) (d : UserDescriptor) : Prop :=
  d.size * 4 ≠ 0 ∧ (env.kalloc i).isSome ∧ env.copyinFails i = false ∧
    (objectCopyinType d.disposition).isSome

/-- A port descriptor is accepted. -/
def AcceptsPort (i : ℕ) (d : UserDescriptor) : Prop :=
  (objectCopyinType d.disposition).isSome ∧
    (machPortValid d.word → env.objectCopyin i 0 ≠ .refused)

end

/-- Memory that is copied physically through the region. -/
def UserDescriptor.Physical (cfg : Config) (ikot : Ikot) (d : UserDescriptor) : Prop :=
  ikot.vmPageList = false ∧ d.NeedsSpace cfg

instance (cfg : Config) (ikot : Ikot) (d : UserDescriptor) : Decidable (d.Physical cfg ikot) :=
  inferInstanceAs (Decidable (_ ∧ _))

/-- A descriptor of out-of-line memory is accepted. -/
def AcceptsOutOfLine (cfg : Config) (env : CopyinOracle R M) (ikot : Ikot) (i : ℕ)
    (d : UserDescriptor) : Prop :=
  ¬(d.deallocate ≠ 0 ∧ cfg.rt = true) ∧
    (d.size = 0 ∨
      if ikot.vmPageList then (env.mapCopyinPageList i).isSome = true
      else if cfg.Small d.size d.copy then (env.kalloc i).isSome ∧ env.copyinFails i = false
      else if d.copy = machMsgPhysicalCopy ∧ d.deallocate = 0 then
        env.copyinFails i = false ∧ (env.mapCopyin i).isSome
      else cfg.rt = false ∧ (env.mapCopyin i).isSome)

/-- A descriptor of out-of-line ports is accepted. -/
def AcceptsOolPorts (env : CopyinOracle R M) (i : ℕ) (d : UserDescriptor) : Prop :=
  d.size * 4 = 0 ∨ ArrayComes env i d ∧ ∀ j < d.size.toNat, ¬RefusedAt env i j

/-- The descriptor with a number is accepted. -/
def Accepts (cfg : Config) (env : CopyinOracle R M) (ikot : Ikot) (i : ℕ) (d : UserDescriptor) :
    Prop :=
  if d.type = machMsgPortDescriptor then AcceptsPort env i d
  else if d.IsOutOfLine then AcceptsOutOfLine cfg env ikot i d
  else d.type = machMsgOolPortsDescriptor ∧ AcceptsOolPorts env i d

/-- No elements are counted where the length in bytes is 0. -/
def UserDescriptor.CountFits (d : UserDescriptor) : Prop :=
  d.type = machMsgOolPortsDescriptor → d.size * 4 = 0 → d.size = 0

/-- The parts of the region through which memory is copied. -/
def physicalParts (paddr : VmOffset) (length : BitVec 32) : List (VmOffset × ℕ) :=
  (paddr, length.toNat) ::
    if PageAligned length then []
    else [(paddr + length, (roundPage length - length).toNat)]

/-- A region after memory was copied through it. -/
def CopyinState.afterPhysical (state : CopyinState R M) (length : BitVec 32) : CopyinState R M :=
  { state with
    touched := state.touched ++ physicalParts state.paddr length
    taken := state.taken ++ [(state.paddr, wholePages length)]
    paddr := state.paddr + roundPage length
    spaceNeeded := state.spaceNeeded - roundPage length }

open CopyinState

/-- The region and what became of it are the same. -/
structure SameRegion (state state' : CopyinState R M) : Prop where
  paddr : state'.paddr = state.paddr
  spaceNeeded : state'.spaceNeeded = state.spaceNeeded
  touched : state'.touched = state.touched
  taken : state'.taken = state.taken

/-- A round that goes on: the user's descriptor has become a descriptor of the kernel. -/
structure CopiedIn (cfg : Config) (ikot : Ikot) (state : CopyinState R M) (d : UserDescriptor)
    (kd : Descriptor R M) (state' : CopyinState R M) : Prop where
  inKernel : kd.InKernel
  counted : kd.Counted ↔ d.CountFits
  body : state'.body = state.body ++ [kd]
  acquired : state'.acquired = state.acquired ++ kd.carried
  uses : state'.uses = state.uses
  freed : state'.freed = state.freed
  region : SameRegion
    (if d.Physical cfg ikot ∧ d.size ≠ 0 then state.afterPhysical d.size else state) state'

variable {accepts : Prop}

variable {i : ℕ}

/-- What an element of an array became. -/
structure ElementAt (env : CopyinOracle R M) (i j : ℕ) (object : PortWord R) : Prop where
  accepted : ¬RefusedAt env i j
  whole : ¬HollowAt env i j → ∃ right, object = .right right
  hollow : HollowAt env i j → object = .null ∨ object = .dead

/-- What the elements behind the loop became. -/
def Elements (env : CopyinOracle R M) (i : ℕ) (objects : List (PortWord R)) : Prop :=
  ∀ j object, objects[j]? = some object → ElementAt env i j object

theorem ElementAt.inKernel {i j : ℕ} {object : PortWord R} (h : ElementAt env i j object) :
    object.InKernel := by
  by_cases hhollow : HollowAt env i j
  · rcases h.hollow hhollow with rfl | rfl
    · trivial
    · trivial
  · obtain ⟨right, rfl⟩ := h.whole hhollow
    trivial

theorem Elements.inKernel {objects : List (PortWord R)} (h : Elements env i objects) :
    ∀ object ∈ objects, object.InKernel := by
  intro object hobject
  obtain ⟨j, hj⟩ := mem_iff_getElem?.mp hobject
  exact (h j object hj).inKernel

theorem Elements.snoc {objects : List (PortWord R)} (h : Elements env i objects)
    {object : PortWord R} (hobject : ElementAt env i objects.length object) :
    Elements env i (objects ++ [object]) := by
  intro j o ho
  rcases Nat.lt_trichotomy j objects.length with hlt | rfl | hgt
  · rw [getElem?_append_left hlt] at ho
    exact h j o ho
  · rw [getElem?_concat_length, Option.some.injEq] at ho
    exact ho ▸ hobject
  · have hnone : (objects ++ [object])[j]? = none := by
      rw [List.getElem?_eq_none_iff, length_append, length_singleton]
      omega
    rw [hnone] at ho
    cases ho

/-- The bytes of the region that a descriptor takes. -/
def UserDescriptor.space (cfg : Config) (ikot : Ikot) (d : UserDescriptor) : ℕ :=
  if d.Physical cfg ikot then wholePages d.size else 0

/-- The bytes of the region that descriptors take together. -/
def spaceOf (cfg : Config) (ikot : Ikot) (ds : List UserDescriptor) : ℕ :=
  (ds.map (UserDescriptor.space cfg ikot)).sum

/-- Parts of memory that follow one another from an address on. -/
def Consecutive : VmOffset → List (VmOffset × ℕ) → Prop
  | _, [] => True
  | address, part :: parts =>
    part.1 = address ∧ Consecutive (address + BitVec.ofNat 32 part.2) parts

/-- The size of parts. -/
def sizeOfParts (parts : List (VmOffset × ℕ)) : ℕ := (parts.map Prod.snd).sum

/-- The second pass between the descriptors behind it and those to come. The region begins at
`start` and has `reserved` bytes. -/
structure Abreast (cfg : Config) (msg : Message R) (start : VmOffset) (reserved : BitVec 32)
    (pre : List UserDescriptor) (state : CopyinState R M) : Prop where
  length : state.body.length = pre.length
  acquired : state.acquired = .right msg.remotePort msg.remoteDisposition ::
    msg.localPort.carried msg.localDisposition ++ state.body.flatMap Descriptor.carried
  uses : state.uses = []
  freed : state.freed = []
  inKernel : ∀ kd ∈ state.body, kd.InKernel
  counted : (∀ kd ∈ state.body, kd.Counted) ↔ ∀ d ∈ pre, d.CountFits
  paddr : state.paddr = start + BitVec.ofNat 32 (spaceOf cfg msg.ikot pre)
  spaceNeeded : state.spaceNeeded = reserved - BitVec.ofNat 32 (spaceOf cfg msg.ikot pre)
  taken : Consecutive start state.taken
  sizeOfTaken : sizeOfParts state.taken = spaceOf cfg msg.ikot pre
  touched : ∀ part ∈ state.touched, 0 < part.2 ∧
    ∃ offset, part.1 = start + BitVec.ofNat 32 offset ∧
      offset + part.2 ≤ spaceOf cfg msg.ikot pre

variable (x : BitVec 32)

/-- `round_page` is rounding up in 32 bits. -/
theorem roundPage_eq : roundPage x = BitVec.ofNat 32 (wholePages x) := by
  refine BitVec.eq_of_toNat_eq ?_
  have hmask : pageMask.toNat = 4095 := by decide
  have hx := x.isLt
  rw [roundPage, toNat_truncPage, BitVec.toNat_ofNat, BitVec.toNat_add, hmask, wholePages, pageSize]
  omega

/-- What is filled up is the rest of the last page. -/
theorem toNat_roundPage_sub : (roundPage x - x).toNat = wholePages x - x.toNat := by
  have hx := x.isLt
  have hround : (roundPage x).toNat = wholePages x % 2 ^ 32 := by
    rw [roundPage_eq, BitVec.toNat_ofNat]
  have hwhole : wholePages x = (x.toNat + 4095) / 4096 * 4096 := rfl
  rw [BitVec.toNat_sub, hround]
  omega

theorem toNat_le_wholePages : x.toNat ≤ wholePages x := by
  have hwhole : wholePages x = (x.toNat + 4095) / 4096 * 4096 := rfl
  omega

theorem Consecutive.snoc {start address : VmOffset} {parts : List (VmOffset × ℕ)}
    (h : Consecutive start parts) (n : ℕ)
    (haddress : address = start + BitVec.ofNat 32 (sizeOfParts parts)) :
    Consecutive start (parts ++ [(address, n)]) := by
  induction parts generalizing start with
  | nil => exact ⟨by simpa [sizeOfParts] using haddress, trivial⟩
  | cons part parts ih =>
    refine ⟨h.1, ih h.2 ?_⟩
    rw [haddress, sizeOfParts, map_cons, sum_cons, BitVec.ofNat_add, BitVec.add_assoc]
    rfl

theorem sizeOfParts_append (parts₁ parts₂ : List (VmOffset × ℕ)) :
    sizeOfParts (parts₁ ++ parts₂) = sizeOfParts parts₁ + sizeOfParts parts₂ := by
  simp [sizeOfParts]

variable {start : VmOffset} {reserved : BitVec 32} {pre rest : List UserDescriptor}

theorem spaceOf_append (cfg : Config) (ikot : Ikot) (pre : List UserDescriptor)
    (d : UserDescriptor) :
    spaceOf cfg ikot (pre ++ [d]) = spaceOf cfg ikot pre + d.space cfg ikot := by
  simp [spaceOf]

/-- Before the second pass. -/
theorem abreast_start (cfg : Config) (msg : Message R) (start : VmOffset)
    (reserved : BitVec 32) :
    Abreast cfg msg start reserved [] (CopyinState.start (M := M) msg start reserved) where
  length := rfl
  acquired := by simp [CopyinState.start]
  uses := rfl
  freed := rfl
  inKernel := by simp [CopyinState.start]
  counted := by simp [CopyinState.start]
  paddr := by simp [CopyinState.start, spaceOf]
  spaceNeeded := by simp [CopyinState.start, spaceOf]
  taken := trivial
  sizeOfTaken := rfl
  touched := by simp [CopyinState.start]

/-- The parts through which memory is copied lie within whole pages. -/
theorem physicalParts_within {address : VmOffset} (offset : ℕ)
    (haddress : address = start + BitVec.ofNat 32 offset) {length : BitVec 32}
    (hlength : length ≠ 0) :
    ∀ part ∈ physicalParts address length, 0 < part.2 ∧
      ∃ o, part.1 = start + BitVec.ofNat 32 o ∧ o + part.2 ≤ offset + wholePages length := by
  have hle := toNat_le_wholePages length
  intro part hpart
  rcases mem_cons.mp hpart with rfl | hzero
  · have hpos : length.toNat ≠ 0 := fun h => hlength (BitVec.eq_of_toNat_eq (by simpa using h))
    exact ⟨Nat.pos_of_ne_zero hpos, offset, haddress, by dsimp only; omega⟩
  · split at hzero
    · cases hzero
    · next haligned =>
      obtain rfl := mem_singleton.mp hzero
      rw [pageAligned_iff] at haligned
      have hwhole : wholePages length = (length.toNat + 4095) / 4096 * 4096 := rfl
      have hpage : pageSize = 4096 := rfl
      rw [hpage] at haligned
      refine ⟨?_, offset + length.toNat, ?_, ?_⟩
      · dsimp only
        rw [toNat_roundPage_sub]
        omega
      · dsimp only
        rw [haddress, BitVec.ofNat_add, BitVec.ofNat_toNat, BitVec.setWidth_eq, BitVec.add_assoc]
      · dsimp only
        rw [toNat_roundPage_sub]
        omega

/-- A round that goes on keeps the pass abreast. -/
theorem Abreast.step (h : Abreast cfg msg start reserved pre state) {kd : Descriptor R M}
    (hnext : CopiedIn cfg msg.ikot state d kd state') :
    Abreast cfg msg start reserved (pre ++ [d]) state' := by
  have hregion : state'.paddr = start + BitVec.ofNat 32 (spaceOf cfg msg.ikot (pre ++ [d])) ∧
      state'.spaceNeeded = reserved - BitVec.ofNat 32 (spaceOf cfg msg.ikot (pre ++ [d])) ∧
      Consecutive start state'.taken ∧
      sizeOfParts state'.taken = spaceOf cfg msg.ikot (pre ++ [d]) ∧
      ∀ part ∈ state'.touched, 0 < part.2 ∧
        ∃ offset, part.1 = start + BitVec.ofNat 32 offset ∧
          offset + part.2 ≤ spaceOf cfg msg.ikot (pre ++ [d]) := by
    have hsame := hnext.region
    rw [spaceOf_append]
    split_ifs at hsame with hphysical
    · have hspace : d.space cfg msg.ikot = wholePages d.size := by
        rw [UserDescriptor.space, if_pos hphysical.1]
      rw [hspace, hsame.paddr, hsame.spaceNeeded, hsame.taken, hsame.touched]
      refine ⟨?_, ?_, h.taken.snoc _ ?_, ?_, ?_⟩
      · simp only [afterPhysical]
        rw [h.paddr, roundPage_eq, BitVec.ofNat_add, BitVec.add_assoc]
      · simp only [afterPhysical]
        rw [h.spaceNeeded, roundPage_eq, BitVec.ofNat_add, BitVec.sub_sub]
      · rw [h.paddr, h.sizeOfTaken]
      · simp only [afterPhysical]
        rw [sizeOfParts_append, h.sizeOfTaken]
        simp [sizeOfParts]
      · intro part hpart
        rcases mem_append.mp hpart with hold | hnew
        · obtain ⟨hpos, offset, haddress, hle⟩ := h.touched part hold
          exact ⟨hpos, offset, haddress, by omega⟩
        · exact physicalParts_within _ h.paddr hphysical.2 part hnew
    · have hspace : d.space cfg msg.ikot = 0 := by
        rw [UserDescriptor.space]
        split_ifs with hp
        · have hsize : d.size = 0 := by
            by_contra hne
            exact hphysical ⟨hp, hne⟩
          rw [hsize]
          decide
        · rfl
      rw [hspace, hsame.paddr, hsame.spaceNeeded, hsame.taken, hsame.touched]
      exact ⟨h.paddr, h.spaceNeeded, h.taken, h.sizeOfTaken, h.touched⟩
  refine ⟨?_, ?_, ?_, ?_, ?_, ?_, hregion.1, hregion.2.1, hregion.2.2.1, hregion.2.2.2.1,
    hregion.2.2.2.2⟩
  · rw [hnext.body, length_append, length_append, h.length]
    rfl
  · rw [hnext.acquired, h.acquired, hnext.body]
    simp
  · rw [hnext.uses, h.uses]
  · rw [hnext.freed, h.freed]
  · rw [hnext.body]
    intro kd' hkd
    rcases mem_append.mp hkd with hold | hnew
    · exact h.inKernel kd' hold
    · rw [mem_singleton.mp hnew]
      exact hnext.inKernel
  · rw [hnext.body]
    simp only [forall_mem_append, forall_mem_singleton, h.counted, hnext.counted]

/-- The descriptors before a place are accepted. -/
def AcceptedBefore (cfg : Config) (env : CopyinOracle R M) (ikot : Ikot)
    (ds : List UserDescriptor) (i : ℕ) : Prop :=
  ∀ k < i, ∀ d, ds[k]? = some d → Accepts cfg env ikot k d

theorem AcceptedBefore.succ {ikot : Ikot} {ds : List UserDescriptor} {i : ℕ}
    (h : AcceptedBefore cfg env ikot ds i) (hd : ds[i]? = some d)
    (haccepts : Accepts cfg env ikot i d) : AcceptedBefore cfg env ikot ds (i + 1) := by
  intro k hk e he
  rcases Nat.lt_succ_iff_lt_or_eq.mp hk with hlt | rfl
  · exact h k hlt e he
  · rw [hd] at he
    cases he
    exact haccepts

end Kmsg

end MachVirtuTerm
