import MachVirtuTerm.Vm.FaultCopyRun

/-!
# What a copy from object to object gets right

A call copies the parts in order until the map or the copy object changes. Two things go wrong.
Pages that are filled with zeros, for want of a source object, are not marked as modified, and
where an object is copied onto itself further up, bytes are read that were already overwritten.
-/

namespace MachVirtuTerm

namespace VmFaultCopy

open ForwardCopy Pages

variable {Obj : Type*}

/-! ## The parts of a call -/

namespace Call

/-- The local variables after a number of bytes. -/
def locals (c : Call Obj) (d : ℕ) : Locals :=
  ⟨c.srcOffset + .ofNat 32 d, c.dstOffset + .ofNat 32 d, c.size - .ofNat 32 d⟩

/-- The bytes before a round, if all rounds before it copy. -/
def done (c : Call Obj) : ℕ → ℕ
  | 0 => 0
  | k + 1 => c.done k + (c.locals (c.done k)).partSize.toNat

/-- The bytes of a round. -/
def part (c : Call Obj) (k : ℕ) : ℕ := (c.locals (c.done k)).partSize.toNat

/-- A byte of the destination. -/
def dstAt (c : Call Obj) (i : ℕ) : Obj × VmOffset := (c.dst, c.dstOffset + .ofNat 32 i)

/-- A byte of the source. -/
def srcAt (c : Call Obj) (src : Obj) (i : ℕ) : Obj × VmOffset := (src, c.srcOffset + .ofNat 32 i)

/-- The destination's page of a round. -/
def pageAt (c : Call Obj) (k : ℕ) : Page Obj := c.dstPage (c.locals (c.done k))

variable {c : Call Obj} {k d i : ℕ}

theorem toNat_amountLeft (hd : d ≤ c.size.toNat) :
    (c.locals d).amountLeft.toNat = c.size.toNat - d := by
  have := c.size.isLt
  simp only [locals, BitVec.toNat_sub, BitVec.toNat_ofNat]
  omega

theorem partOk (hd : d < c.size.toNat) : (c.locals d).PartOk := by
  refine Locals.partOk ?_
  rw [toNat_amountLeft hd.le]
  omega

theorem done_succ (c : Call Obj) (k : ℕ) : c.done (k + 1) = c.done k + c.part k := rfl

theorem part_pos (hk : c.done k < c.size.toNat) : 0 < c.part k := (partOk hk).pos

theorem done_succ_le (hk : c.done k < c.size.toNat) : c.done (k + 1) ≤ c.size.toNat := by
  have hle := (partOk hk).le
  rw [toNat_amountLeft hk.le] at hle
  rw [done]
  omega

theorem done_mono (c : Call Obj) {j k : ℕ} (h : j ≤ k) : c.done j ≤ c.done k :=
  monotone_nat_of_le_succ (fun k => by rw [done_succ]; omega) h

/-- The round after a part begins where it ended. -/
theorem locals_advance (c : Call Obj) (k : ℕ) :
    (c.locals (c.done k)).advance (c.locals (c.done k)).partSize = c.locals (c.done (k + 1)) := by
  have hpart : (c.locals (c.done k)).partSize =
      BitVec.ofNat 32 (c.locals (c.done k)).partSize.toNat := by simp
  rw [Locals.advance, done]
  generalize (c.locals (c.done k)).partSize = part at hpart ⊢
  rw [hpart]
  simp only [locals, BitVec.toNat_ofNat, Nat.mod_eq_of_lt part.isLt, BitVec.ofNat_add,
    Locals.mk.injEq, BitVec.add_assoc, true_and]
  bv_omega

/-- A byte is in the part of a round. -/
theorem exists_part (hi : i < c.done k) : ∃ j < k, ∃ r < c.part j, i = c.done j + r := by
  induction k with
  | zero => exact absurd hi (Nat.not_lt_zero i)
  | succ k ih =>
    by_cases hik : i < c.done k
    · obtain ⟨j, hj, r, hr, heq⟩ := ih hik
      exact ⟨j, by omega, r, hr, heq⟩
    · rw [done_succ] at hi
      exact ⟨k, by omega, i - c.done k, by omega, by omega⟩

/-- The bytes of a round are in its page. -/
theorem pageAt_eq (hk : c.done k < c.size.toNat) {r : ℕ} (hr : r < c.part k) :
    c.pageAt k = .own c.dst (truncPage (c.dstAt (c.done k + r)).2) := by
  have hdst := (partOk hk).dst
  rw [pageAt, dstPage, dstAt, BitVec.ofNat_add, ← BitVec.add_assoc]
  congr 1
  refine (truncPage_add_ofNat ?_).symm
  change r < (c.locals (c.done k)).partSize.toNat at hr
  omega

theorem dstAt_inj {j : ℕ} (hi : i < 2 ^ 32) (hj : j < 2 ^ 32) (h : c.dstAt i = c.dstAt j) :
    i = j := by
  have heq := congrArg BitVec.toNat ((BitVec.add_right_inj _).mp (Prod.mk.inj h).2)
  simp only [BitVec.toNat_ofNat] at heq
  omega

end Call

/-! ## The bytes of a part -/

/-- The bytes of a page from an offset on are those from the address on. -/
theorem bytesAt_eq (object : Obj) {page offset x y : VmOffset} {d : ℕ} (h : page + offset = x)
    (hx : x = y + .ofNat 32 d) :
    bytesAt (object, page) offset = fun r => (object, y + .ofNat 32 (d + r)) := by
  funext r
  rw [bytesAt, h, hx, BitVec.ofNat_add, BitVec.add_assoc]

theorem truncPage_add_zero {x : VmOffset} (h : PageAligned x) : truncPage x + 0 = x := by
  have hadd := truncPage_add x
  rwa [h] at hadd

/-! ## Runs -/

/-- A round is made. -/
def Reached (c : Call Obj) (env : ℕ → Answers Obj) (k : ℕ) : Prop :=
  c.done k < c.size.toNat ∧ ∀ j < k, Copies c (c.locals (c.done j)) (env j)

/-- The bytes that a round reads were not overwritten with others. -/
def Clear (c : Call Obj) (mem₀ : Obj × VmOffset → UInt8) (src : Obj) (k : ℕ) : Prop :=
  ∀ r < c.part k,
    Unharmed mem₀ c.dstAt (c.srcAt src) (c.done k + readAt (c.part k) r) (c.done k + r)

/-- What a number of rounds that copy, of those that begin, have done. -/
structure After (c : Call Obj) (env : ℕ → Answers Obj) (s s' : Pages Obj) (copied started : ℕ) :
    Prop where
  kept : Kept s s'
  zeros : c.src = none → ∀ y, ((∃ i < c.done copied, y = c.dstAt i) → s'.contents y = 0) ∧
    ((∀ i < c.done copied, y ≠ c.dstAt i) → s'.contents y = s.contents y)
  bytes : ∀ src, c.src = some src → CopiedWhen s.contents s'.contents c.dstAt (c.srcAt src)
    (c.done copied) (∀ k < copied, Clear c s.contents src k)
  dirty : ∀ p, s'.dirty p = true ↔ s.dirty p = true ∨
    (∃ k < copied, c.src ≠ none ∧ p = c.pageAt k) ∨
      ∃ k < started, (env k).dst = .success true ∧ p = c.pageAt k

variable {c : Call Obj} {env : ℕ → Answers Obj} {s s' : Pages Obj} {k : ℕ}

theorem After.start (c : Call Obj) (env : ℕ → Answers Obj) (s : Pages Obj) :
    After c env s s 0 0 where
  kept := .refl s
  zeros := fun _ y => ⟨fun ⟨i, hi, _⟩ => absurd hi (Nat.not_lt_zero i), fun _ => rfl⟩
  bytes := fun src _ => (CopiedWhen.refl s.contents c.dstAt (c.srcAt src)).congr (by simp)
  dirty := fun p => by simp

/-- A round that ends the call. -/
theorem After.stop {t : Pages Obj} (h : After c env s s' k k) (hkept : Kept s' t)
    (hcontents : t.contents = s'.contents)
    (hdirty : ∀ p, t.dirty p = true ↔
      s'.dirty p = true ∨ (env k).dst = .success true ∧ p = c.pageAt k) :
    After c env s t k (k + 1) where
  kept := h.kept.trans hkept
  zeros := hcontents ▸ h.zeros
  bytes := hcontents ▸ h.bytes
  dirty := by
    intro p
    rw [hdirty, h.dirty]
    simp only [Nat.exists_lt_succ_right, or_assoc]

/-- A call that returns `KERN_SUCCESS`: the rounds that begin are those that copy, and the one
that finds a change if there is one. -/
structure Succeeds (c : Call Obj) (env : ℕ → Answers Obj) (s : Pages Obj) (n : VmOffset)
    (s' : Pages Obj) (copied started : ℕ) : Prop where
  size : n.toNat = c.done copied
  after : After c env s s' copied started
  copied_le : copied ≤ started
  reached_iff : ∀ k, Reached c env k ↔ k < started
  finds : ∀ k < started, Finds c (c.locals (c.done k)) (env k)
  copies_iff : ∀ k < started, Copies c (c.locals (c.done k)) (env k) ↔ k < copied
  complete : copied = started → n = c.size

/-- How a call ends. -/
def Ends (c : Call Obj) (env : ℕ → Answers Obj) (s : Pages Obj)
    (result : Return × VmOffset × Pages Obj) : Prop :=
  (result.1 ≠ .kern .success ∧
      ∃ k, Reached c env k ∧ ¬Finds c (c.locals (c.done k)) (env k)) ∨
    result.1 = .kern .success ∧
      ∃ copied started, Succeeds c env s result.2.1 result.2.2 copied started

theorem toNat_copied (c : Call Obj) {d : ℕ} (hd : d ≤ c.size.toNat) :
    (c.size - (c.locals d).amountLeft).toNat = d := by
  have hleft := Call.toNat_amountLeft hd
  have hlt := c.size.isLt
  rw [BitVec.toNat_sub, hleft]
  omega

theorem Reached.copies_of_lt {j : ℕ} (h : Reached c env k) (hj : j < k) :
    Copies c (c.locals (c.done j)) (env j) := h.2 j hj

/-- The rounds before one that is made are made. -/
theorem Reached.of_le {j : ℕ} (h : Reached c env k) (hj : j ≤ k) : Reached c env j :=
  ⟨(c.done_mono hj).trans_lt h.1, fun i hi => h.2 i (by omega)⟩

/-- A call that a change ends. -/
theorem Reached.succeeds_stop {t : Pages Obj} (h : Reached c env k)
    (hfinds : Finds c (c.locals (c.done k)) (env k))
    (hstop : ¬Copies c (c.locals (c.done k)) (env k)) (hafter : After c env s t k (k + 1)) :
    Succeeds c env s (c.size - (c.locals (c.done k)).amountLeft) t k (k + 1) where
  size := toNat_copied c h.1.le
  after := hafter
  copied_le := by omega
  reached_iff := by
    refine fun j => ⟨fun hj => ?_, fun hj => h.of_le (by omega)⟩
    by_contra hlt
    exact hstop (hj.copies_of_lt (by omega))
  finds := by
    intro j hj
    obtain rfl | hlt := eq_or_ne j k
    · exact hfinds
    · exact (h.copies_of_lt (by omega)).1
  copies_iff := by
    refine fun j hj => ⟨fun hcopies => ?_, fun hlt => h.copies_of_lt hlt⟩
    obtain rfl | hne := eq_or_ne j k
    · exact absurd hcopies hstop
    · omega
  complete := by omega

/-- A call that copies everything. -/
theorem Reached.succeeds_done {t : Pages Obj} (h : Reached c env k)
    (hcopies : Copies c (c.locals (c.done k)) (env k)) (hdone : c.done (k + 1) = c.size.toNat)
    (hafter : After c env s t (k + 1) (k + 1)) :
    Succeeds c env s (c.size - (c.locals (c.done (k + 1))).amountLeft) t (k + 1) (k + 1) where
  size := toNat_copied c hdone.le
  after := hafter
  copied_le := le_rfl
  reached_iff := by
    refine fun j => ⟨fun hj => ?_, fun hj => h.of_le (by omega)⟩
    by_contra hlt
    have := c.done_mono (not_lt.mp hlt)
    exact absurd hj.1 (by omega)
  finds := by
    intro j hj
    obtain rfl | hlt := eq_or_ne j k
    · exact hcopies.1
    · exact (h.copies_of_lt (by omega)).1
  copies_iff := by
    refine fun j hj => ⟨fun _ => hj, fun _ => ?_⟩
    obtain rfl | hne := eq_or_ne j k
    · exact hcopies
    · exact h.copies_of_lt (by omega)
  complete := by
    intro _
    refine BitVec.eq_of_toNat_eq ?_
    rw [toNat_copied c hdone.le, hdone]

/-! ## What is copied -/

/-- What a call that returns `KERN_SUCCESS` is to do, with the size that it reports. -/
structure CopiesExactly (c : Call Obj) (env : ℕ → Answers Obj) (s : Pages Obj) (n : VmOffset)
    (s' : Pages Obj) : Prop where
  bytes : ∀ i < n.toNat, s'.contents (c.dstAt i) =
    c.src.elim 0 (fun src => s.contents (c.srcAt src i))
  frame : ∀ y, (∀ i < n.toNat, y ≠ c.dstAt i) → s'.contents y = s.contents y
  size : n = c.size ∨ ∃ k, Reached c env k ∧ ((env k).verified = false ∨ (env k).copyChanged = true)
  dirty : ∀ x, s'.contents (c.dst, x) ≠ s.contents (c.dst, x) →
    s'.dirty (.own c.dst (truncPage x)) = true
  kept : Kept s s'

/-- When a call does: a page is not found in some round, so that it does not return
`KERN_SUCCESS`; or, with no source, every page that is filled and held something is dirty, or a
fault of a round made it so; or, with a source, no round reads bytes that were overwritten with
others. -/
def CopiesWell (c : Call Obj) (env : ℕ → Answers Obj) (s : Pages Obj) : Prop :=
  (∃ k, Reached c env k ∧ ¬Finds c (c.locals (c.done k)) (env k)) ∨
    (c.src = none → ∀ k, Reached c env k → Copies c (c.locals (c.done k)) (env k) →
      ∀ r < c.part k, s.contents (c.dstAt (c.done k + r)) ≠ 0 →
        s.dirty (c.pageAt k) = true ∨
          ∃ j, Reached c env j ∧ (env j).dst = .success true ∧ c.pageAt j = c.pageAt k) ∧
    ∀ src, c.src = some src → ∀ k, Reached c env k → Copies c (c.locals (c.done k)) (env k) →
      Clear c s.contents src k

section Success

variable {n : VmOffset} {copied started : ℕ}

variable (h : Succeeds c env s n s' copied started)

include h

/-- The rounds that copy are those before the last one. -/
theorem Succeeds.copies_iff' (k : ℕ) :
    (Reached c env k ∧ Copies c (c.locals (c.done k)) (env k)) ↔ k < copied := by
  rw [h.reached_iff]
  constructor
  · rintro ⟨hk, hcopies⟩
    exact (h.copies_iff k hk).mp hcopies
  · intro hk
    have hstarted := hk.trans_le h.copied_le
    exact ⟨hstarted, (h.copies_iff k hstarted).mpr hk⟩

/-- No part is copied that is not left. -/
theorem Succeeds.done_lt {k : ℕ} (hk : k < copied) :
    c.done k < c.size.toNat := ((h.copies_iff' k).mpr hk).1.1

/-- The size that is reported is the requested one unless the map or the copy object changed. -/
theorem Succeeds.size_eq : n = c.size ∨
      ∃ k, Reached c env k ∧ ((env k).verified = false ∨ (env k).copyChanged = true) := by
  obtain heq | hlt := h.copied_le.eq_or_lt
  · exact .inl (h.complete heq)
  · have hstop : ¬Copies c (c.locals (c.done copied)) (env copied) := fun hcopies =>
      absurd ((h.copies_iff copied hlt).mp hcopies) (lt_irrefl _)
    refine .inr ⟨copied, (h.reached_iff copied).mpr hlt, ?_⟩
    by_contra hno
    simp only [not_or, Bool.not_eq_false, Bool.not_eq_true] at hno
    exact hstop ⟨h.finds copied hlt, hno⟩

/-- A page of the destination that changed is one of a round that copied. -/
theorem Succeeds.exists_part
    (hframe : ∀ y, (∀ i < c.done copied, y ≠ c.dstAt i) → s'.contents y = s.contents y)
    {x : VmOffset} (hx : s'.contents (c.dst, x) ≠ s.contents (c.dst, x)) :
    ∃ k < copied, ∃ r < c.part k, (c.dst, x) = c.dstAt (c.done k + r) ∧
      c.pageAt k = .own c.dst (truncPage x) := by
  have hin : ∃ i < c.done copied, (c.dst, x) = c.dstAt i := by
    by_contra hout
    push Not at hout
    exact hx (hframe _ hout)
  obtain ⟨i, hi, heq⟩ := hin
  obtain ⟨k, hk, r, hr, rfl⟩ := Call.exists_part hi
  refine ⟨k, hk, r, hr, heq, ?_⟩
  rw [Call.pageAt_eq (h.done_lt hk) hr, ← heq]

/-- With no source. -/
theorem Succeeds.exactly_iff_none (hsrc : c.src = none) : CopiesExactly c env s n s' ↔
      ∀ k < copied, ∀ r < c.part k, s.contents (c.dstAt (c.done k + r)) ≠ 0 →
        s.dirty (c.pageAt k) = true ∨
          ∃ j < started, (env j).dst = .success true ∧ c.pageAt j = c.pageAt k := by
  have hzeros := h.after.zeros hsrc
  constructor
  · intro hexact k hk r hr hne
    have hlt : c.done k + r < c.done copied := by
      have := c.done_mono (show k + 1 ≤ copied from hk)
      rw [Call.done_succ] at this
      omega
    have hzero := (hzeros (c.dstAt (c.done k + r))).1 ⟨_, hlt, rfl⟩
    have hdirty := hexact.dirty (c.dstAt (c.done k + r)).2 (by
      change s'.contents (c.dstAt (c.done k + r)) ≠ s.contents (c.dstAt (c.done k + r))
      rw [hzero]
      exact hne.symm)
    rw [← Call.pageAt_eq (h.done_lt hk) hr, h.after.dirty] at hdirty
    obtain hold | ⟨_, _, hsome, _⟩ | ⟨j, hj, hfault, hpage⟩ := hdirty
    · exact .inl hold
    · exact absurd hsrc hsome
    · exact .inr ⟨j, hj, hfault, hpage.symm⟩
  · intro hpages
    have hframe : ∀ y, (∀ i < c.done copied, y ≠ c.dstAt i) → s'.contents y = s.contents y :=
      fun y => (hzeros y).2
    refine ⟨fun i hi => ?_, h.size ▸ hframe, h.size_eq, fun x hx => ?_, h.after.kept⟩
    · rw [hsrc]
      exact (hzeros (c.dstAt i)).1 ⟨i, h.size ▸ hi, rfl⟩
    · obtain ⟨k, hk, r, hr, heq, hpage⟩ := h.exists_part hframe hx
      have hlt : c.done k + r < c.done copied := by
        have := c.done_mono (show k + 1 ≤ copied from hk)
        rw [Call.done_succ] at this
        omega
      have hzero := (hzeros (c.dst, x)).1 ⟨_, hlt, heq⟩
      rw [hzero, heq] at hx
      rw [← hpage, h.after.dirty]
      obtain hold | ⟨j, hj, hfault, hsame⟩ := hpages k hk r hr hx.symm
      · exact .inl hold
      · exact .inr (.inr ⟨j, hj, hfault, hsame.symm⟩)

/-- With a source. -/
theorem Succeeds.exactly_iff_some {src : Obj} (hsrc : c.src = some src) :
    CopiesExactly c env s n s' ↔ ∀ k < copied, Clear c s.contents src k := by
  have hcopied := h.after.bytes src hsrc
  rw [← hcopied.exact_iff]
  constructor
  · intro hexact i hi
    have hbyte := hexact.bytes i (h.size ▸ hi)
    rwa [hsrc] at hbyte
  · intro hbytes
    refine ⟨fun i hi => ?_, h.size ▸ hcopied.frame, h.size_eq, fun x hx => ?_, h.after.kept⟩
    · rw [hsrc]
      exact hbytes i (h.size ▸ hi)
    · obtain ⟨k, hk, _, _, _, hpage⟩ := h.exists_part hcopied.frame hx
      rw [← hpage, h.after.dirty]
      exact .inr (.inl ⟨k, hk, by simp [hsrc], rfl⟩)

/-- A successful call does what it is to do just if the condition holds. -/
theorem Succeeds.exactly_iff : CopiesExactly c env s n s' ↔ CopiesWell c env s := by
  have hfinds : ¬∃ k, Reached c env k ∧ ¬Finds c (c.locals (c.done k)) (env k) := by
    rintro ⟨k, hk, hnot⟩
    exact hnot (h.finds k ((h.reached_iff k).mp hk))
  have hrounds : ∀ P : ℕ → Prop,
      (∀ k, Reached c env k → Copies c (c.locals (c.done k)) (env k) → P k) ↔
        ∀ k < copied, P k := fun P =>
    ⟨fun hall k hk => have hmade := (h.copies_iff' k).mpr hk; hall k hmade.1 hmade.2,
      fun hall k hreached hcopies => hall k ((h.copies_iff' k).mp ⟨hreached, hcopies⟩)⟩
  rw [CopiesWell, or_iff_right hfinds]
  cases hsrc : c.src with
  | none =>
    rw [h.exactly_iff_none hsrc, hrounds]
    simp only [h.reached_iff]
    exact ⟨fun hpages => ⟨fun _ => hpages, fun src hsome => (nomatch hsome)⟩,
      fun hboth => hboth.1 trivial⟩
  | some src =>
    rw [h.exactly_iff_some hsrc, ← hrounds]
    refine ⟨fun hclear => ⟨fun hnone => (nomatch hnone), fun src' hsome => ?_⟩,
      fun hboth => hboth.2 src rfl⟩
    cases hsome
    exact hclear

end Success

/-- Copies from one object to another are right, wherever the parts are. -/
theorem copiesWell_of_ne {src : Obj} (hsrc : c.src = some src) (hne : src ≠ c.dst)
    (env : ℕ → Answers Obj) (s : Pages Obj) : CopiesWell c env s := by
  refine .inr ⟨fun hnone => ?_, fun src' hsome k _ _ r _ j _ heq => ?_⟩
  · rw [hsrc] at hnone
    cases hnone
  · rw [hsrc] at hsome
    cases hsome
    exact absurd (congrArg Prod.fst heq) hne

/-! ## The loop -/

variable [DecidableEq Obj]

/-- A part from a source is copied by `memcpy`. -/
theorem copyPart_some {src : Obj} (hsrc : c.src = some src) (d : ℕ) (s : Pages Obj) :
    (copyPart c (c.locals d) s).contents =
      memcpy (fun r => c.dstAt (d + r)) (fun r => c.srcAt src (d + r))
        (c.locals d).partSize.toNat s.contents := by
  have hpage : (pageMask + 1).toNat = pageSize := by decide
  unfold copyPart
  split <;> rename_i h <;> simp only [hsrc, setDirty]
  · rw [vmPagePartCopy, bytesAt_eq c.dst (Locals.truncPage_add_dstPo _) rfl,
      bytesAt_eq src (Locals.truncPage_add_srcPo _) rfl]
    rfl
  · have hpart : (c.locals d).partSize.toNat = pageSize := by rw [Locals.partSize, if_neg h, hpage]
    simp only [Locals.Unaligned, not_or, not_not] at h
    rw [vmPageCopy, bytesAt_eq c.dst (truncPage_add_zero h.2.1) rfl,
      bytesAt_eq src (truncPage_add_zero h.1) rfl, hpart]
    rfl

/-- A part with no source is filled by `bzero`. -/
theorem copyPart_none (hsrc : c.src = none) (d : ℕ) (s : Pages Obj) :
    (copyPart c (c.locals d) s).contents =
      bzero (fun r => c.dstAt (d + r)) (c.locals d).partSize.toNat s.contents := by
  have hpage : (pageMask + 1).toNat = pageSize := by decide
  unfold copyPart
  split <;> rename_i h <;> simp only [hsrc]
  · rw [vmPagePartZeroFill, bytesAt_eq c.dst (Locals.truncPage_add_dstPo _) rfl]
    rfl
  · have hpart : (c.locals d).partSize.toNat = pageSize := by rw [Locals.partSize, if_neg h, hpage]
    simp only [Locals.Unaligned, not_or, not_not] at h
    rw [vmPageZeroFill, bytesAt_eq c.dst (truncPage_add_zero h.2.1) rfl, hpart]
    rfl

/-- A round that copies. -/
theorem After.next {t : Pages Obj} (h : After c env s s' k k) (hk : c.done k < c.size.toNat)
    (hkept : Kept s' t) (hcontents : t.contents = (copyPart c (c.locals (c.done k)) s').contents)
    (hdirty : ∀ p, t.dirty p = true ↔
      s'.dirty p = true ∨ (c.src ≠ none ∨ (env k).dst = .success true) ∧ p = c.pageAt k) :
    After c env s t (k + 1) (k + 1) where
  kept := h.kept.trans hkept
  zeros := by
    intro hsrc y
    have hlt := (Call.done_succ_le hk).trans_lt c.size.isLt
    rw [Call.done_succ, Call.part] at hlt
    have hinj : ∀ i < (c.locals (c.done k)).partSize.toNat,
        ∀ j < (c.locals (c.done k)).partSize.toNat,
        c.dstAt (c.done k + i) = c.dstAt (c.done k + j) → i = j := by
      intro i hi j hj heq
      have := Call.dstAt_inj (by omega) (by omega) heq
      omega
    have hfill := bzero_eq s'.contents hinj y
    rw [hcontents, copyPart_none hsrc, Call.done_succ, Call.part]
    refine ⟨fun ⟨i, hi, heq⟩ => ?_, fun hne => ?_⟩
    · by_cases hin : i < c.done k
      · rw [hfill.2]
        · exact (h.zeros hsrc y).1 ⟨i, hin, heq⟩
        · intro r hr hy
          have := Call.dstAt_inj (by omega) (by omega) (heq.symm.trans hy)
          omega
      · obtain ⟨r, rfl⟩ := Nat.exists_eq_add_of_le (not_lt.mp hin)
        exact hfill.1 ⟨r, by omega, heq⟩
    · rw [hfill.2 fun r hr => hne _ (by omega)]
      exact (h.zeros hsrc y).2 fun i hi => hne i (by omega)
  bytes := by
    intro src hsrc
    have hlt := (Call.done_succ_le hk).trans_lt c.size.isLt
    rw [Call.done_succ, Call.part] at hlt
    rw [hcontents, copyPart_some hsrc, Call.done_succ]
    refine (memcpy_copied (h.bytes src hsrc)
      (fun i hi j hj => Call.dstAt_inj (by omega) (by omega)) (fun r _ => rfl)
      fun r _ => rfl).congr ?_
    rw [Nat.forall_lt_succ_right]
    rfl
  dirty := by
    intro p
    rw [hdirty, h.dirty]
    simp only [Nat.exists_lt_succ_right, or_and_right, or_assoc, or_left_comm]

/-- The loop ends in one of these ways. -/
theorem copyLoop_ends {fuel : ℕ} {t : Pages Obj} (hfuel : c.size.toNat - c.done k < fuel)
    (h : Reached c env k) (hafter : After c env s t k k) :
    ∃ result, copyLoop c env fuel k (c.locals (c.done k)) t = some result ∧
      Ends c env s result := by
  induction fuel generalizing k t with
  | zero => omega
  | succ fuel ih =>
    rw [copyLoop]
    by_cases hfinds : Finds c (c.locals (c.done k)) (env k)
    · by_cases hcopies : Copies c (c.locals (c.done k)) (env k)
      · obtain ⟨t', hround, hkept, hcontents, hdirty⟩ := copyRound_next hcopies t
        have hnext := hafter.next h.1 hkept hcontents hdirty
        have hle := Call.done_succ_le h.1
        have hpos := Call.part_pos h.1
        have hleft := Call.toNat_amountLeft hle
        rw [hround]
        simp only [Call.locals_advance]
        split
        · rename_i hmore
          rw [gt_iff_lt, BitVec.lt_def] at hmore
          have hzero : (0 : VmOffset).toNat = 0 := rfl
          have hsucc := c.done_succ k
          refine ih (by omega) ⟨by omega, fun j hj => ?_⟩ hnext
          · obtain rfl | hne := eq_or_ne j k
            · exact hcopies
            · exact h.copies_of_lt (by omega)
        · rename_i hnone
          rw [gt_iff_lt, BitVec.lt_def] at hnone
          have hzero : (0 : VmOffset).toNat = 0 := rfl
          exact ⟨_, rfl, .inr ⟨rfl, _, _, h.succeeds_done hcopies (by omega) hnext⟩⟩
      · obtain ⟨t', hround, hkept, hcontents, hdirty⟩ := copyRound_stop hfinds hcopies t
        rw [hround]
        exact ⟨_, rfl, .inr ⟨rfl, _, _,
          h.succeeds_stop hfinds hcopies (hafter.stop hkept hcontents hdirty)⟩⟩
    · obtain ⟨e, t', hround, he⟩ := copyRound_of_not_finds hfinds t
      rw [hround]
      obtain rfl | ⟨kr, hkr, rfl⟩ := he
      · exact ⟨_, rfl, .inl ⟨(nomatch ·), k, h, hfinds⟩⟩
      · refine ⟨_, rfl, .inl ⟨fun heq => hkr ?_, k, h, hfinds⟩⟩
        cases heq
        rfl

/-- Every call returns. -/
theorem vmFaultCopy_ends (hsize : 0 < c.size) (env : ℕ → Answers Obj) (s : Pages Obj) :
    ∃ result, vmFaultCopy c env s = some result ∧ Ends c env s result := by
  have hlocals : c.locals (c.done 0) = ⟨c.srcOffset, c.dstOffset, c.size⟩ := by
    simp [Call.locals, Call.done]
  rw [vmFaultCopy, ← hlocals]
  exact copyLoop_ends (Nat.lt_succ_of_le (Nat.sub_le _ _))
    ⟨hsize, fun j hj => absurd hj (Nat.not_lt_zero j)⟩ (After.start c env s)

/-- Every call returns, and if it returns `KERN_SUCCESS`, it copies as many bytes as it reports,
changes no others and marks the pages that changed just if the condition holds. -/
theorem vmFaultCopy_exactly_iff (hsize : 0 < c.size) (env : ℕ → Answers Obj) (s : Pages Obj) :
    (∃ kr n s', vmFaultCopy c env s = some (kr, n, s') ∧
      (kr = .kern .success → CopiesExactly c env s n s')) ↔ CopiesWell c env s := by
  obtain ⟨⟨kr, n, s'⟩, heq, hends⟩ := vmFaultCopy_ends hsize env s
  have hresult : (∃ kr n s', vmFaultCopy c env s = some (kr, n, s') ∧
      (kr = .kern .success → CopiesExactly c env s n s')) ↔
      (kr = .kern .success → CopiesExactly c env s n s') := by
    rw [heq]
    constructor
    · rintro ⟨_, _, _, hsome, himp⟩
      cases hsome
      exact himp
    · exact fun himp => ⟨_, _, _, rfl, himp⟩
  rw [hresult]
  obtain ⟨hfails, hround⟩ | ⟨hkr, copied, started, hsucceeds⟩ := hends
  · exact ⟨fun _ => .inl hround, fun _ hkr => absurd hkr hfails⟩
  · rw [← hsucceeds.exactly_iff]
    exact ⟨fun himp => himp hkr, fun hexact _ => hexact⟩

/-- Both faults succeed, and nothing changes meanwhile. -/
def quietAnswers {Obj : Type*} (_ : ℕ) : Answers Obj where
  dst := .success false
  src := .success none
  verified := true
  copyChanged := false

/-- Pages that are clean and that nobody uses. -/
def cleanPages {Obj : Type*} (contents : Obj × VmOffset → UInt8) : Pages Obj where
  contents := contents
  dirty := fun _ => false
  wireCount := fun _ => 0
  busy := fun _ => false
  topPage := fun _ => false
  pagingInProgress := fun _ => 0

/-- Two objects: one of zeros, and one whose bytes tell their offsets. -/
def twoObjects : Pages Bool :=
  cleanPages fun x => if x.1 then 0 else UInt8.ofBitVec (x.2.setWidth 8)

/-- From one object to the other, with different offsets in the pages. -/
theorem vmFaultCopy_exactly_iff_two_objects :
    ∃ kr n s', vmFaultCopy ⟨some false, 100, 5000, true, 300⟩ quietAnswers twoObjects =
        some (kr, n, s') ∧
      (kr = .kern .success →
        CopiesExactly ⟨some false, 100, 5000, true, 300⟩ quietAnswers twoObjects n s') :=
  (vmFaultCopy_exactly_iff (by decide) quietAnswers twoObjects).mpr
    (copiesWell_of_ne rfl (by decide) quietAnswers twoObjects)

/-- A byte that is filled with zero is on a page that stays clean, and an object that is copied
onto itself, one byte further, repeats one of its bytes. -/
theorem zero_fill_clean_and_overlap_wrong :
    (¬∃ kr n s', vmFaultCopy ⟨none, 0, 1, (), 0⟩ quietAnswers (cleanPages fun _ => 1) =
        some (kr, n, s') ∧
      (kr = .kern .success →
        CopiesExactly ⟨none, 0, 1, (), 0⟩ quietAnswers (cleanPages fun _ => 1) n s')) ∧
    ¬∃ kr n s', vmFaultCopy ⟨some (), 0, 8, (), 1⟩ quietAnswers
        (cleanPages fun x => .ofNat x.2.toNat) = some (kr, n, s') ∧
      (kr = .kern .success →
        CopiesExactly ⟨some (), 0, 8, (), 1⟩ quietAnswers (cleanPages fun x => .ofNat x.2.toNat)
          n s') := by
  constructor
  · rintro ⟨kr, n, s', heq, hexact⟩
    have hrun : (vmFaultCopy ⟨none, 0, 1, (), 0⟩ quietAnswers (cleanPages fun _ => 1)).map
        (fun r => (r.1, r.2.2.contents ((), 0), r.2.2.dirty (.own () 0))) =
          some (.kern .success, 0, false) := by decide
    rw [heq] at hrun
    simp only [Option.map_some, Option.some.injEq, Prod.mk.injEq] at hrun
    obtain ⟨hkr, hzero, hclean⟩ := hrun
    have hdirty := (hexact hkr).dirty 0 (by rw [hzero]; decide)
    rw [show truncPage (0 : VmOffset) = 0 by decide, hclean] at hdirty
    cases hdirty
  · rintro ⟨kr, n, s', heq, hexact⟩
    have hrun : (vmFaultCopy ⟨some (), 0, 8, (), 1⟩ quietAnswers
        (cleanPages fun x => .ofNat x.2.toNat)).map
        (fun r => (r.1, r.2.1, r.2.2.contents ((), 5))) = some (.kern .success, 8, 3) := by decide
    rw [heq] at hrun
    simp only [Option.map_some, Option.some.injEq, Prod.mk.injEq] at hrun
    obtain ⟨hkr, hn, hbyte⟩ := hrun
    have hright := (hexact hkr).bytes 4 (by rw [hn]; decide)
    change s'.contents ((), 5) = _ at hright
    rw [hbyte] at hright
    exact absurd hright (by decide)

end VmFaultCopy

end MachVirtuTerm
