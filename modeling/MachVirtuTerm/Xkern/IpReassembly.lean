import Mathlib.Data.Finset.Interval
import Mathlib.Order.Interval.Finset.Nat
import MachVirtuTerm.Lib.Run
import MachVirtuTerm.Xkern.IpFragInv

/-!
# Fragmentation and reassembly

The fragments of a message, received in whatever order and however often, are handed up as the
message each time they are complete, if each of them overlaps one hole at most. The bytes of a
datagram that is handed up come from fragments that carried them, if the fragments are as long as
their headers say.
-/

open List BitVec

namespace MachVirtuTerm

open IpPacket

variable {C : ℕ → Byte → Prop} {a : FragAllocs} {s : Option FragList} {p q : IpPacket}
  {msg : List Byte} {hole : ℕ × ℕ} {i : ℕ} {x : Byte}
  {id : BitVec 32 × BitVec 32 × BitVec 8 × BitVec 16}

section Reassemble

/-- A list is not done, its entries lie side by side, and `nholes` is right. -/
structure FragList.WellFormed (C : ℕ → Byte → Prop) (l : FragList) : Prop where
  tiles : ∃ top, top ≤ infiniteOffset ∧ Tiles C 0 l.frags top
  nholes : l.nholes = BitVec.ofNat 16 (holes l.frags).length
  waits : holes l.frags ≠ []

/-- The hole that a fragment is put in. -/
def fragHole (s : Option FragList) (p : IpPacket) : Option (ℕ × ℕ) :=
  firstHole p.offset p.len (fragListOf s).frags

/-- A packet carries a byte of the datagram. -/
def IpPacket.Carries (p : IpPacket) (i : ℕ) (x : Byte) : Prop :=
  p.offset ≤ i ∧ p.data[i - p.offset]? = some x

theorem fragListOf_none_wellFormed : (fragListOf none).WellFormed C := by
  constructor
  · exact ⟨infiniteOffset, le_refl _, rfl, by decide, rfl⟩
  · rfl
  · simp [fragListOf, holes]

/-- `nholes` counts the holes down to none. -/
theorem FragList.WellFormed.nholes_eq_zero_iff {l : FragList} {top : ℕ}
    (htiles : Tiles C 0 l.frags top) (htop : top ≤ infiniteOffset)
    (hnholes : l.nholes = BitVec.ofNat 16 (holes l.frags).length) :
    l.nholes = 0 ↔ holes l.frags = [] := by
  have hle := htiles.length_holes_le
  simp only [infiniteOffset] at htop
  rw [hnholes, ← toNat_inj, toNat_ofNat, ← List.length_eq_zero_iff]
  simp only [ofNat_eq_ofNat, toNat_ofNat]
  omega

/-- There is no memory for the list of a fragment, or for a hole that it leaves of the one it is
put in. -/
def Refused (a : FragAllocs) (s : Option FragList) (p : IpPacket) : Prop :=
  s = none ∧ a.list = false ∨
    ∃ hole ∈ fragHole s p, Lacks a p.offset p.len p.hdr.moreFragments hole.1 hole.2

instance : Decidable (Refused a s p) :=
  inferInstanceAs (Decidable (_ ∨ ∃ hole ∈ fragHole s p, _))

/-- What a fragment of the length its header says does to a list: nothing if it is refused, or
since it overlaps no hole, or it fills the first hole it overlaps. -/
inductive Reassembles (a : FragAllocs) (s : Option FragList) (p : IpPacket) : Reassembled → Prop
  | noList (hrefused : Refused a s p) (hs : s = none) : Reassembles a s p ⟨none, none, false⟩
  | noMemory (hrefused : Refused a s p) : Reassembles a s p ⟨some (fragListOf s), none, false⟩
  | nothing (haccepted : ¬ Refused a s p) (hnone : ∀ hole ∈ holes (fragListOf s).frags,
      ¬ Overlaps p.offset p.len hole.1 hole.2) : Reassembles a s p ⟨some (fragListOf s), none, true⟩
  | fills {pre post : List FragInfo} {first last : ℕ} {nholes : BitVec 16} {r : Reassembled}
    (haccepted : ¬ Refused a s p) (hl : (fragListOf s).frags = pre ++ .hole first last :: post)
    (hover : Overlaps p.offset p.len first last)
    (hpre : ∀ hole ∈ holes pre, ¬ Overlaps p.offset p.len hole.1 hole.2)
    (hnholes : nholes = BitVec.ofNat 16 (holes (pre ++
      filled p.offset p.len p.hdr.moreFragments p.data first last ++ post)).length)
    (hr : r = if nholes = 0 then
        if a.join then ⟨none, some (joinFrags (pre ++
          filled p.offset p.len p.hdr.moreFragments p.data first last ++ post) []), true⟩
        else ⟨none, none, false⟩
      else ⟨some ⟨nholes, pre ++
        filled p.offset p.len p.hdr.moreFragments p.data first last ++ post⟩, none, true⟩) :
    Reassembles a s p r

theorem firstHole_of_append {offset len first last : ℕ} {l pre post : List FragInfo}
    (hl : l = pre ++ .hole first last :: post) (hover : Overlaps offset len first last)
    (hpre : ∀ hole ∈ holes pre, ¬ Overlaps offset len hole.1 hole.2) :
    firstHole offset len l = some (first, last) := by
  have hnone : (holes pre).find? (fun hole => Overlaps offset len hole.1 hole.2) = none := by
    rw [find?_eq_none]
    simpa using hpre
  unfold firstHole
  rw [hl, holes_append, find?_append, hnone]
  simp [holes, hover]

theorem reassembles (hwf : (fragListOf s).WellFormed C) (hlen : p.data.length = p.len)
    (htrim : ∀ hole, fragHole s p = some hole →
      TrimOk a p.offset p.len p.hdr.moreFragments hole.1 hole.2) :
    Reassembles a s p (ipReassemble a s p) := by
  obtain ⟨top, htop, htiles⟩ := hwf.tiles
  unfold ipReassemble
  by_cases hrefused : s = none ∧ a.list = false
  · rw [if_pos hrefused]
    exact .noList (.inl hrefused) hrefused.1
  · rw [if_neg hrefused]
    have hzero : (fragListOf s).nholes ≠ 0 := by
      intro hzero
      exact hwf.waits ((FragList.WellFormed.nholes_eq_zero_iff htiles htop hwf.nholes).mp hzero)
    rcases insertFrag_eq hlen htiles htrim with
      ⟨heq, hnone⟩ | ⟨pre, first, last, post, hl, hpre, hover, heq⟩
    · have haccepted : ¬ Refused a s p := by
        rintro (hlist | ⟨hole, hhole, -⟩)
        · exact hrefused hlist
        · have hfound : hole ∈ holes (fragListOf s).frags := mem_of_find?_eq_some hhole
          exact hnone hole hfound (by simpa using find?_some hhole)
      simp only [heq, add_zero, if_neg hzero]
      exact .nothing haccepted hnone
    · have hfirst : fragHole s p = some (first, last) := firstHole_of_append hl hover hpre
      by_cases hlacks : Lacks a p.offset p.len p.hdr.moreFragments first last
      · rw [if_pos hlacks] at heq
        simp only [heq, add_zero]
        exact .noMemory (.inr ⟨_, hfirst, hlacks⟩)
      · rw [if_neg hlacks] at heq
        have haccepted : ¬ Refused a s p := by
          rintro (hlist | ⟨hole, hhole, hlacks'⟩)
          · exact hrefused hlist
          · cases hfirst.symm.trans hhole
            exact hlacks hlacks'
        simp only [heq]
        refine .fills haccepted hl hover hpre ?_ rfl
        have hcount := hwf.nholes
        rw [hl] at hcount
        rw [hcount]
        have hone : (1#16 : BitVec 16) = 1 := rfl
        simp only [holes_append, holes, length_append, length_cons, ofNat_add, hone]
        ring

/-- The entries lie side by side after a fragment was put in. -/
theorem Reassembles.fills_tiles {pre post : List FragInfo} {first last : ℕ}
    (hwf : (fragListOf s).WellFormed C) (hlen : p.data.length = p.len)
    (hl : (fragListOf s).frags = pre ++ .hole first last :: post)
    (hover : Overlaps p.offset p.len first last)
    (hlast : LastOk p.offset p.len p.hdr.moreFragments last)
    (hdata : ∀ i x, p.Carries i x → C i x) :
    ∃ top, top ≤ infiniteOffset ∧ Tiles C 0 (pre ++
      filled p.offset p.len p.hdr.moreFragments p.data first last ++ post) top := by
  obtain ⟨top, htop, htiles⟩ := hwf.tiles
  rw [hl] at htiles
  refine ⟨_, ?_, tiles_insert hlen htop htiles hover hlast ?_⟩
  · split
    next h =>
      rw [← h.2]
      exact Nat.min_le_right _ _
    next => exact htop
  · intro i x hx
    apply hdata
    exact ⟨by omega, by rwa [Nat.add_sub_cancel_left]⟩

end Reassemble

section Content

/-- A fragment is as long as its header says, and is put into a hole under the conditions that
keep the entries side by side. -/
structure FragOk (a : FragAllocs) (s : Option FragList) (p : IpPacket) : Prop where
  length : p.data.length = p.len
  trim : ∀ hole, fragHole s p = some hole →
    TrimOk a p.offset p.len p.hdr.moreFragments hole.1 hole.2
  last : ∀ hole, fragHole s p = some hole → LastOk p.offset p.len p.hdr.moreFragments hole.2

/-- The list that is there, if one is, is well formed. -/
def ListInv (C : ℕ → Byte → Prop) (s : Option FragList) : Prop := ∀ l, s = some l → l.WellFormed C

theorem ListInv.mono {D : ℕ → Byte → Prop} (h : ListInv C s) (hCD : ∀ i x, C i x → D i x) :
    ListInv D s := by
  intro l hl
  obtain ⟨⟨top, htop, htiles⟩, hnholes, hwaits⟩ := h l hl
  exact ⟨⟨top, htop, htiles.mono hCD⟩, hnholes, hwaits⟩

theorem ListInv.fragListOf (h : ListInv C s) : (fragListOf s).WellFormed C := by
  cases s with
  | none => exact fragListOf_none_wellFormed
  | some l => exact h l rfl

/-- A call of `ipReassemble` keeps the list well formed, and hands up bytes that were carried. -/
theorem ipReassemble_inv (h : ListInv C s) (hok : FragOk a s p)
    (hdata : ∀ i x, p.Carries i x → C i x) :
    ListInv C (ipReassemble a s p).list ∧
      ∀ d, (ipReassemble a s p).handed = some d → ∀ i x, d[i]? = some x → C i x := by
  have hwf := h.fragListOf
  have hcases := reassembles hwf hok.length hok.trim
  generalize ipReassemble a s p = r at hcases ⊢
  cases hcases with
  | noList => exact ⟨(fun l hl => nomatch hl), (fun d hd => nomatch hd)⟩
  | noMemory | nothing =>
    constructor
    · intro l hl
      cases hl
      exact hwf
    · exact fun d hd => nomatch hd
  | fills haccepted hl hover hpre hnholes hr =>
    have hlast := hok.last _ (firstHole_of_append hl hover hpre)
    obtain ⟨top, htop, htiles⟩ :=
      Reassembles.fills_tiles hwf hok.length hl hover hlast hdata
    have hiff := FragList.WellFormed.nholes_eq_zero_iff (l := ⟨_, _⟩) htiles htop hnholes
    rw [hr]
    split
    next hzero =>
      obtain ⟨d, hjoin, -, hd⟩ := htiles.joinFrags_eq (hiff.mp hzero) []
      split
      · refine ⟨(fun l hl => nomatch hl), ?_⟩
        intro d' hd' i x hx
        cases hd'
        rw [hjoin, append_nil] at hx
        rw [← zero_add i]
        exact hd i x hx
      · exact ⟨(fun l hl => nomatch hl), (fun d hd => nomatch hd)⟩
    next hzero =>
      constructor
      · intro l hl
        cases hl
        exact ⟨⟨top, htop, htiles⟩, hnholes, fun hnil => hzero (hiff.mpr hnil)⟩
      · exact fun d hd => nomatch hd

/-- What arrives passes `ipDemux`, and is put into a hole under the conditions that keep the
entries side by side, unless it is complete. -/
def ArrivalOk (a : FragAllocs) (s : Option FragList) (p : IpPacket) : Prop :=
  ∀ q, ipDemux p = some q → q.hdr.completePacket = false → FragOk a s q

/-- What `ipDemux` cuts was not more than what arrived. -/
theorem carries_of_ipDemux (h : ipDemux p = some q) (hq : q.Carries i x) : p.Carries i x := by
  unfold ipDemux at h
  split at h
  · cases h
  · dsimp only at h
    split at h
    · cases h
      obtain ⟨hle, hx⟩ := hq
      refine ⟨hle, ?_⟩
      rw [getElem?_take] at hx
      split at hx
      · exact hx
      · cases hx
    · cases h
      exact hq

/-- A complete packet is at the start of its datagram. -/
theorem completePacket_iff (h : IPheader) :
    h.completePacket = true ↔ h.fragOffset = 0 ∧ h.moreFragments = false := by
  have hmask : (0x1fff ||| 0x2000 : BitVec 16) = 0x3fff := by decide
  have hmod : (h.frag &&& 0x3fff).toNat = h.frag.toNat % 16384 := by
    rw [BitVec.toNat_and]
    exact Nat.and_two_pow_sub_one_eq_mod h.frag.toNat 14
  unfold IPheader.completePacket
  rw [hmask, decide_eq_true_iff, ← toNat_inj, hmod, Bool.eq_false_iff, ne_eq,
    moreFragments_iff, fragOffset_eq]
  simp only [ofNat_eq_ofNat, toNat_ofNat]
  omega

/-- A packet that arrives keeps the list well formed; what is handed up was carried. -/
theorem ipReceive_inv (h : ListInv C s) (hok : ArrivalOk a s p)
    (hdata : ∀ i x, p.Carries i x → C i x) :
    ListInv C (ipReceive a s p).list ∧
      ∀ d, (ipReceive a s p).handed = some d → ∀ i x, d[i]? = some x → C i x := by
  unfold ipReceive
  cases hdemux : ipDemux p with
  | none => exact ⟨h, fun d hd => nomatch hd⟩
  | some q =>
    have hcarried : ∀ i x, q.Carries i x → C i x := fun i x hq =>
      hdata i x (carries_of_ipDemux hdemux hq)
    cases hcomplete : q.hdr.completePacket with
    | true =>
      simp only [hcomplete, if_true]
      refine ⟨h, ?_⟩
      intro d hd i x hx
      cases hd
      apply hcarried
      have hoffset : q.offset = 0 := by
        have hzero := ((completePacket_iff q.hdr).mp hcomplete).1
        simp only [offset, hzero, Nat.zero_mul]
      exact ⟨by omega, by rwa [hoffset, Nat.sub_zero]⟩
    | false =>
      simp only [hcomplete, Bool.false_eq_true, if_false]
      exact ipReassemble_inv h (hok q hdemux hcomplete) hcarried

end Content

section Message

/-- The bytes of a message. -/
def ByteOf (msg : List Byte) (i : ℕ) (x : Byte) : Prop := msg[i]? = some x

/-- The list of a message of which these bytes have been received. -/
structure Collects (msg : List Byte) (got : Finset ℕ) (l : FragList) : Prop where
  tiles : ∃ top, (top = infiniteOffset ∨ top = msg.length) ∧ Tiles (ByteOf msg) 0 l.frags top
  nholes : l.nholes = BitVec.ofNat 16 (holes l.frags).length
  waits : holes l.frags ≠ []
  hole : ∀ hole ∈ holes l.frags,
    hole.1 < msg.length ∧ (hole.2 ≤ msg.length ∨ hole.2 = infiniteOffset)
  got : ∀ i < msg.length, (i ∈ got ↔ ∀ hole ∈ holes l.frags, ¬ (hole.1 ≤ i ∧ i < hole.2))

/-- The list that is there, if one is, and nothing has been received if none is. -/
def Collecting (msg : List Byte) (got : Finset ℕ) : Option FragList → Prop
  | none => got = ∅
  | some l => Collects msg got l

variable {got : Finset ℕ}

variable {l : FragList}

theorem Collects.wellFormed (h : Collects msg got l)
    (hmsg : msg.length ≤ ipMaxMessage) : l.WellFormed (ByteOf msg) := by
  obtain ⟨top, htop, htiles⟩ := h.tiles
  refine ⟨⟨top, ?_, htiles⟩, h.nholes, h.waits⟩
  simp only [ipMaxMessage, ipMaxPacket, ipHlen, infiniteOffset] at hmsg htop ⊢
  omega

theorem Collecting.fragListOf (h : Collecting msg got s) (hmsg : msg.length ≤ ipMaxMessage)
    (hpos : 0 < msg.length) : Collects msg got (fragListOf s) := by
  cases s with
  | some l => exact h
  | none =>
    have hnone : got = ∅ := h
    subst hnone
    constructor
    · exact ⟨infiniteOffset, .inl rfl, rfl, by decide, rfl⟩
    · rfl
    · simp [MachVirtuTerm.fragListOf, holes]
    · intro hole hmem
      simp only [MachVirtuTerm.fragListOf, Option.getD_none, holes, mem_singleton] at hmem
      subst hmem
      exact ⟨hpos, .inr rfl⟩
    · intro i hi
      simp only [ipMaxMessage, ipMaxPacket, ipHlen] at hmsg
      refine iff_of_false (Finset.notMem_empty i) ?_
      intro hnone
      exact hnone (0, infiniteOffset) (mem_singleton.mpr rfl)
        ⟨Nat.zero_le i, by simp only [infiniteOffset]; omega⟩

/-- The bytes that a fragment of a message carries. -/
def IpPacket.span (p : IpPacket) : Finset ℕ := Finset.Ico p.offset (p.offset + p.data.length)

/-- The fragment overlaps one hole at most. -/
def MeetsOne (s : Option FragList) (p : IpPacket) : Prop :=
  ((holes (fragListOf s).frags).filter fun hole => Overlaps p.offset p.len hole.1 hole.2).length ≤ 1

theorem IsFragmentOf.len_eq (hp : IsFragmentOf id msg p) (hmsg : msg.length ≤ ipMaxMessage) :
    p.data.length = p.len := by
  have hfits := hp.fits
  simp only [ipMaxMessage, ipMaxPacket, ipHlen] at hmsg
  unfold len
  rw [hp.hlen, toNat_sub, hp.dlen, toNat_ofNat]
  omega

theorem IsFragmentOf.byteOf (hp : IsFragmentOf id msg p) (h : p.Carries i x) : ByteOf msg i x := by
  obtain ⟨hle, hx⟩ := h
  rw [hp.data, getElem?_take] at hx
  split at hx
  · rw [getElem?_drop] at hx
    have hplace : p.offset + (i - p.offset) = i := by omega
    rwa [hplace] at hx
  · cases hx

variable {first last : ℕ}

variable {pre post : List FragInfo}

/-- The holes but the one that the fragment is put in do not overlap it. -/
theorem MeetsOne.not_overlaps (h : MeetsOne s p)
    (hl : (fragListOf s).frags = pre ++ .hole first last :: post)
    (hover : Overlaps p.offset p.len first last) (hmem : hole ∈ holes pre ++ holes post) :
    ¬ Overlaps p.offset p.len hole.1 hole.2 := by
  intro hover'
  unfold MeetsOne at h
  rw [hl, holes_append, holes, filter_append, filter_cons_of_pos (by simpa using hover),
    length_append, length_cons] at h
  have hpos : 0 < ((holes pre ++ holes post).filter fun hole =>
      Overlaps p.offset p.len hole.1 hole.2).length := by
    apply length_pos_of_mem
    exact mem_filter.mpr ⟨hmem, by simpa using hover'⟩
  rw [filter_append, length_append] at hpos
  omega

/-- The last fragment reaches the end of the hole, if the hole has one. -/
theorem Collects.lastOk (h : Collects msg got l) (hp : IsFragmentOf id msg p)
    (hlen : p.data.length = p.len) (hmem : hole ∈ holes l.frags) :
    LastOk p.offset p.len p.hdr.moreFragments hole.2 := by
  intro hlast
  have hend : ¬ p.offset + p.data.length < msg.length := by
    rw [← hp.more, hlast]
    exact Bool.false_ne_true
  have hfits := hp.fits
  rcases (h.hole hole hmem).2 with hle | hinfinite
  · left
    omega
  · exact .inr hinfinite

/-- A fragment that overlaps no hole has been received. -/
theorem Collects.of_not_overlaps (h : Collects msg got l) (hlen : p.data.length = p.len)
    (hnone : ∀ hole ∈ holes l.frags, ¬ Overlaps p.offset p.len hole.1 hole.2) :
    Collects msg (got ∪ p.span) l := by
  refine ⟨h.tiles, h.nholes, h.waits, h.hole, ?_⟩
  intro i hi
  rw [Finset.mem_union, h.got i hi, IpPacket.span, Finset.mem_Ico, or_iff_left_iff_imp]
  rintro hin hole hmem hhole
  apply hnone hole hmem
  exact ⟨by omega, by omega⟩

/-- Where a fragment is put in, the holes are those bytes that have not been received. -/
theorem Collects.got_filled
    (h : Collects msg got l) (hp : IsFragmentOf id msg p) (hlen : p.data.length = p.len)
    (hl : l.frags = pre ++ .hole first last :: post)
    (hover : Overlaps p.offset p.len first last)
    (hothers : ∀ hole ∈ holes pre ++ holes post, ¬ Overlaps p.offset p.len hole.1 hole.2)
    (hi : i < msg.length) :
    i ∈ got ∪ p.span ↔ ∀ hole ∈ holes (pre ++
      filled p.offset p.len p.hdr.moreFragments p.data first last ++ post),
        ¬ (hole.1 ≤ i ∧ i < hole.2) := by
  obtain ⟨h₁, h₂⟩ := hover
  have hgot := h.got i hi
  rw [hl, holes_append, holes] at hgot
  have hmore := hp.more
  have hfits := hp.fits
  rw [Finset.mem_union, hgot, IpPacket.span, Finset.mem_Ico]
  simp only [holes_append, mem_append, mem_cons, mem_holes_filled] at hothers ⊢
  constructor
  · rintro (hold | hin) hole ((hmem | ⟨rfl, -, hpart⟩ | ⟨rfl, -⟩) | hmem) ⟨hle, hlt⟩
    · exact hold hole (.inl hmem) ⟨hle, hlt⟩
    · simp only at hle hlt
      exact hold (first, last) (.inr (.inl rfl)) ⟨by simp only; omega, hlt⟩
    · simp only at hle hlt
      exact hold (first, last) (.inr (.inl rfl)) ⟨hle, by simp only; omega⟩
    · exact hold hole (.inr (.inr hmem)) ⟨hle, hlt⟩
    · exact hothers hole (.inl hmem) ⟨by omega, by omega⟩
    · simp only at hle hlt
      omega
    · simp only at hle hlt
      omega
    · exact hothers hole (.inr hmem) ⟨by omega, by omega⟩
  · intro hnew
    by_cases hin : p.offset ≤ i ∧ i < p.offset + p.data.length
    · exact .inr hin
    · left
      rintro hole (hmem | rfl | hmem) ⟨hle, hlt⟩
      · exact hnew hole (.inl (.inl hmem)) ⟨hle, hlt⟩
      · simp only at hle hlt
        by_cases hbelow : i < p.offset
        · refine hnew (first, max p.offset first) (.inl (.inr (.inr ⟨rfl, ?_⟩))) ⟨hle, ?_⟩
          · omega
          · simp only
            omega
        · have hpart : p.hdr.moreFragments = true := hmore.mpr (by omega)
          refine hnew (min (p.offset + p.len) last, last) (.inl (.inr (.inl ⟨rfl, ?_, hpart⟩)))
            ⟨?_, hlt⟩
          · omega
          · simp only
            omega
      · exact hnew hole (.inr hmem) ⟨hle, hlt⟩

/-- A fragment that is put in leaves holes of the message only. -/
theorem Collects.hole_filled
    (h : Collects msg got l) (hp : IsFragmentOf id msg p) (hlen : p.data.length = p.len)
    (hl : l.frags = pre ++ .hole first last :: post)
    (hmem : hole ∈ holes (pre ++
      filled p.offset p.len p.hdr.moreFragments p.data first last ++ post)) :
    hole.1 < msg.length ∧ (hole.2 ≤ msg.length ∨ hole.2 = infiniteOffset) := by
  have hold := h.hole
  rw [hl, holes_append, holes] at hold
  have hfits := hp.fits
  have hmore := hp.more
  simp only [holes_append, mem_append, mem_cons, mem_holes_filled] at hold hmem
  obtain ⟨hfirst, hlast⟩ := hold (first, last) (.inr (.inl rfl))
  simp only at hfirst hlast
  rcases hmem with (hmem | ⟨rfl, -, hpart⟩ | ⟨rfl, hpart⟩) | hmem
  · exact hold hole (.inl hmem)
  · have hless := hmore.mp hpart
    constructor
    · simp only
      omega
    · exact hlast
  · constructor
    · exact hfirst
    · left
      simp only
      omega
  · exact hold hole (.inr (.inr hmem))

/-- A list without a hole is the message. -/
theorem joinFrags_eq_message {l : List FragInfo} {top : ℕ} (hmsg : msg.length ≤ ipMaxMessage)
    (htop : top = infiniteOffset ∨ top = msg.length) (htiles : Tiles (ByteOf msg) 0 l top)
    (hnone : holes l = []) : joinFrags l [] = msg := by
  obtain ⟨d, hjoin, hlength, hd⟩ := htiles.joinFrags_eq hnone []
  rw [hjoin, append_nil]
  have hbyte : ∀ (i : ℕ) (x : Byte), d[i]? = some x → msg[i]? = some x := by
    intro i x hx
    have hbyte := hd i x hx
    rwa [zero_add] at hbyte
  have hle : d.length ≤ msg.length := by
    by_contra hlong
    cases hx : d[msg.length]? with
    | none =>
      rw [List.getElem?_eq_none_iff] at hx
      omega
    | some x =>
      have hsome := hbyte _ _ hx
      rw [List.getElem?_eq_none (le_refl _)] at hsome
      cases hsome
  apply ext_getElem?
  intro i
  cases hx : d[i]? with
  | some x => exact (hbyte i x hx).symm
  | none =>
    rw [List.getElem?_eq_none_iff] at hx
    simp only [ipMaxMessage, ipMaxPacket, ipHlen, infiniteOffset] at hmsg htop
    symm
    rw [List.getElem?_eq_none_iff]
    omega

/-- The message has been received. -/
def Received (msg : List Byte) (got : Finset ℕ) : Prop := Finset.range msg.length ⊆ got

instance : Decidable (Received msg got) := 
  inferInstanceAs (Decidable (Finset.range msg.length ⊆ got))

/-- A call of `ipReassemble` with a fragment of the message: it fails just if the fragment is
refused, and if not the message is handed up just if it has been received. -/
theorem ipReassemble_collects (h : Collecting msg got s) (hmsg : msg.length ≤ ipMaxMessage)
    (hp : IsFragmentOf id msg p) (hpos : 0 < msg.length)
    (htrim : ∀ hole, fragHole s p = some hole →
      TrimOk a p.offset p.len p.hdr.moreFragments hole.1 hole.2)
    (hone : MeetsOne s p) (hjoin : a.join = true) :
    ((ipReassemble a s p).success = false ↔ Refused a s p) ∧
      if Refused a s p then
        (ipReassemble a s p).handed = none ∧ Collecting msg got (ipReassemble a s p).list
      else if Received msg (got ∪ p.span) then
        (ipReassemble a s p).handed = some msg ∧ (ipReassemble a s p).list = none
      else (ipReassemble a s p).handed = none ∧
        Collecting msg (got ∪ p.span) (ipReassemble a s p).list := by
  have hcollects := h.fragListOf hmsg hpos
  have hwf := hcollects.wellFormed hmsg
  have hlen := hp.len_eq hmsg
  -- As long as there is a hole, a byte of the message is missing.
  have hmissing (l : FragList) (hl : Collects msg (got ∪ p.span) l) :
      ¬ Received msg (got ∪ p.span) := by
    intro hall
    obtain ⟨hole, hmem⟩ := exists_mem_of_ne_nil _ hl.waits
    obtain ⟨hfirst, -⟩ := hl.hole hole hmem
    have hin := (hl.got hole.1 hfirst).mp (hall (Finset.mem_range.mpr hfirst)) hole hmem
    obtain ⟨top, -, htiles⟩ := hl.tiles
    exact hin ⟨le_refl _, (htiles.hole_le hmem).2.1⟩
  have hcases := reassembles hwf hlen htrim
  generalize ipReassemble a s p = r at hcases ⊢
  cases hcases with
  | noList hrefused hs =>
    subst hs
    rw [if_pos hrefused]
    exact ⟨iff_of_true rfl hrefused, rfl, h⟩
  | noMemory hrefused =>
    rw [if_pos hrefused]
    exact ⟨iff_of_true rfl hrefused, rfl, hcollects⟩
  | nothing haccepted hnone =>
    have hsame := hcollects.of_not_overlaps hlen hnone
    rw [if_neg haccepted, if_neg (hmissing _ hsame)]
    exact ⟨iff_of_false Bool.false_ne_true.symm haccepted, rfl, hsame⟩
  | @fills pre post first last nholes _ haccepted hl hover hpre hnholes hr =>
    have hmem : (first, last) ∈ holes (fragListOf s).frags := by
      rw [hl, holes_append]
      exact mem_append_right _ (mem_cons_self ..)
    obtain ⟨top, htop, htiles⟩ := hcollects.tiles
    have hlast := hcollects.lastOk hp hlen hmem
    have hothers (hole : ℕ × ℕ) (hmem : hole ∈ holes pre ++ holes post) :=
      hone.not_overlaps hl hover hmem
    rw [hl] at htiles
    have htiles' := tiles_insert hlen
      (by simp only [ipMaxMessage, ipMaxPacket, ipHlen, infiniteOffset] at hmsg htop ⊢; omega)
      htiles hover hlast (fun i x hx => hp.byteOf ⟨by omega, by rwa [Nat.add_sub_cancel_left]⟩)
    have htop' : (if p.hdr.moreFragments = false ∧ last = infiniteOffset then
        min (p.offset + p.len) last else top) = infiniteOffset ∨
        (if p.hdr.moreFragments = false ∧ last = infiniteOffset then
          min (p.offset + p.len) last else top) = msg.length := by
      split
      next hend =>
        right
        have hmore := hp.more
        rw [hend.1] at hmore
        have hend' : ¬ p.offset + p.data.length < msg.length := fun hlt =>
          absurd (hmore.mpr hlt) Bool.false_ne_true
        have hfits := hp.fits
        simp only [ipMaxMessage, ipMaxPacket, ipHlen, infiniteOffset] at hmsg hend
        omega
      next => exact htop
    have hiff := FragList.WellFormed.nholes_eq_zero_iff (l := ⟨nholes, _⟩) htiles'
      (by simp only [ipMaxMessage, ipMaxPacket, ipHlen, infiniteOffset] at hmsg htop' ⊢; omega)
      hnholes
    have hgot (i : ℕ) (hi : i < msg.length) :=
      hcollects.got_filled hp hlen hl hover hothers hi
    rw [hr, hjoin, if_neg haccepted]
    by_cases hzero : nholes = 0
    · have hnone := hiff.mp hzero
      have hall : Received msg (got ∪ p.span) := by
        intro i hi
        rw [hgot i (Finset.mem_range.mp hi), hnone]
        simp
      rw [if_pos hzero, if_pos rfl, if_pos hall, joinFrags_eq_message hmsg htop' htiles' hnone]
      exact ⟨iff_of_false Bool.false_ne_true.symm haccepted, rfl, rfl⟩
    · have hnew : Collects msg (got ∪ p.span) ⟨nholes, pre ++
          filled p.offset p.len p.hdr.moreFragments p.data first last ++ post⟩ :=
        ⟨⟨_, htop', htiles'⟩, hnholes, fun hnil => hzero (hiff.mpr hnil),
          fun hole hmem => hcollects.hole_filled hp hlen hl hmem, hgot⟩
      rw [if_neg hzero, if_neg (hmissing _ hnew)]
      exact ⟨iff_of_false Bool.false_ne_true.symm haccepted, rfl, hnew⟩

end Message

section Run

/-- A packet arrives: which allocations succeed, the packet, and what comes of it. -/
structure Arrival where
  allocs : FragAllocs
  packet : IpPacket
  result : Reassembled

/-- A step of the receiver of the packets of one datagram identification. -/
def receiveStep (s : Option FragList) (x : Arrival) (s' : Option FragList) : Prop :=
  x.result = ipReceive x.allocs s x.packet ∧ s' = x.result.list

/-- The bytes received since the message was handed up, from fragments that were not refused. -/
def gathered (msg : List Byte) : List (Option FragList × Arrival) → Finset ℕ
  | [] => ∅
  | (s, x) :: trace =>
    let got := gathered msg trace
    if x.packet.hdr.completePacket ∨ Refused x.allocs s x.packet then got
    else if Received msg (got ∪ x.packet.span) then ∅
    else got ∪ x.packet.span

/-- What is to be handed up: the message, if the packet is all of it, or if with its bytes the
message has been received. -/
def dueMessage (msg : List Byte) (trace : List (Option FragList × Arrival)) (s : Option FragList)
    (x : Arrival) : Option (List Byte) :=
  if x.packet.hdr.completePacket then some msg
  else if Refused x.allocs s x.packet then none
  else if Received msg (gathered msg trace ∪ x.packet.span) then some msg else none

/-- A fragment that is not complete overlaps one hole at most, reaches its end if it is trimmed
on the left and not the last, and memory does not run out between two holes or in joining. -/
structure FragmentOk (s : Option FragList) (x : Arrival) : Prop where
  trim : ∀ hole, fragHole s x.packet = some hole →
    TrimOk x.allocs x.packet.offset x.packet.len x.packet.hdr.moreFragments hole.1 hole.2
  one : MeetsOne s x.packet
  join : x.allocs.join = true

/-- A complete packet of a message is the message. -/
theorem IsFragmentOf.complete (hp : IsFragmentOf id msg p)
    (hcomplete : p.hdr.completePacket = true) : p.data = msg := by
  obtain ⟨hzero, hmore⟩ := (completePacket_iff p.hdr).mp hcomplete
  have hoffset : p.offset = 0 := by simp only [offset, hzero, Nat.zero_mul]
  have hend : ¬ p.offset + p.data.length < msg.length := by
    rw [← hp.more, hmore]
    exact Bool.false_ne_true
  rw [hp.data, hoffset, drop_zero]
  exact take_of_length_le (by omega)

/-- A packet that is not complete is part of a message that is not empty. -/
theorem IsFragmentOf.length_pos (hp : IsFragmentOf id msg p)
    (hpart : p.hdr.completePacket = false) : 0 < msg.length := by
  by_contra hzero
  have hfits := hp.fits
  have hmore := hp.more
  have hall : p.hdr.completePacket = true := by
    rw [completePacket_iff]
    have hoffset : p.hdr.fragOffset * 8 = p.offset := rfl
    constructor
    · omega
    · rw [Bool.eq_false_iff, ne_eq, hmore]
      omega
  rw [hall] at hpart
  cases hpart

variable {trace : List (Option FragList × Arrival)}

/-- A packet of the message arrives. -/
theorem ipReceive_collects {x : Arrival}
    (h : Collecting msg (gathered msg trace) s) (hmsg : msg.length ≤ ipMaxMessage)
    (hp : IsFragmentOf id msg x.packet)
    (hok : x.packet.hdr.completePacket = false → FragmentOk s x)
    (hx : x.result = ipReceive x.allocs s x.packet) :
    (x.result.handed = dueMessage msg trace s x ∧ (x.result.success = false ↔
        x.packet.hdr.completePacket = false ∧ Refused x.allocs s x.packet)) ∧
      Collecting msg (gathered msg ((s, x) :: trace)) x.result.list := by
  unfold ipReceive at hx
  rw [hp.ipDemux_eq] at hx
  unfold dueMessage
  simp only [gathered]
  cases hcomplete : x.packet.hdr.completePacket with
  | true =>
    simp only [hcomplete, if_true] at hx
    rw [hx]
    simpa [hp.complete hcomplete] using h
  | false =>
    simp only [hcomplete, Bool.false_eq_true, if_false] at hx
    obtain ⟨htrim, hone, hjoin⟩ := hok hcomplete
    obtain ⟨hfails, hcall⟩ :=
      ipReassemble_collects h hmsg hp (hp.length_pos hcomplete) htrim hone hjoin
    rw [← hx] at hcall hfails
    simp only [Bool.false_eq_true, if_false, false_or, true_and, hfails, and_true]
    split at hcall
    next hrefused =>
      rw [if_pos hrefused, if_pos hrefused]
      exact hcall
    next haccepted =>
      rw [if_neg haccepted, if_neg haccepted]
      split at hcall
      next hall =>
        rw [if_pos hall, if_pos hall, hcall.2]
        exact ⟨hcall.1, rfl⟩
      next hall =>
        rw [if_neg hall, if_neg hall]
        exact hcall

/-- All along a run the list is that of the message. -/
theorem collecting_of_run (hrun : Run receiveStep none trace s) (hmsg : msg.length ≤ ipMaxMessage)
    (hok : ∀ y ∈ trace, IsFragmentOf id msg y.2.packet ∧
      (y.2.packet.hdr.completePacket = false → FragmentOk y.1 y.2)) :
    Collecting msg (gathered msg trace) s := by
  induction hrun with
  | nil => rfl
  | @cons trace s s' x _ hstep ih =>
    obtain ⟨hp, hfrag⟩ := hok (s, x) (mem_cons_self ..)
    have hbefore := ih fun y hy => hok y (mem_cons_of_mem _ hy)
    rw [hstep.2]
    exact (ipReceive_collects hbefore hmsg hp hfrag hstep.1).2

/-- One more packet arrives. -/
theorem ipReceive_carried {y : Option FragList × Arrival}
    (h : ListInv (fun i b => ∃ y ∈ trace, y.2.packet.Carries i b) s)
    (hok : ArrivalOk y.2.allocs s y.2.packet) :
    ListInv (fun i b => ∃ z ∈ y :: trace, z.2.packet.Carries i b)
        (ipReceive y.2.allocs s y.2.packet).list ∧
      ∀ d, (ipReceive y.2.allocs s y.2.packet).handed = some d → ∀ (i : ℕ) b, d[i]? = some b →
        ∃ z ∈ y :: trace, z.2.packet.Carries i b := by
  have hmono : ListInv (fun i b => ∃ z ∈ y :: trace, z.2.packet.Carries i b) s := by
    apply h.mono
    rintro i b ⟨z, hz, hcarries⟩
    exact ⟨z, mem_cons_of_mem _ hz, hcarries⟩
  exact ipReceive_inv hmono hok fun i b hcarries => ⟨y, mem_cons_self .., hcarries⟩

/-- All along a run the list is well formed, with bytes that packets carried. -/
theorem listInv_of_run (hrun : Run receiveStep none trace s)
    (hok : ∀ y ∈ trace, ArrivalOk y.2.allocs y.1 y.2.packet) :
    ListInv (fun i x => ∃ y ∈ trace, y.2.packet.Carries i x) s := by
  induction hrun with
  | nil => exact fun l hl => nomatch hl
  | @cons trace s s' x _ hstep ih =>
    have hbefore := ih fun y hy => hok y (mem_cons_of_mem _ hy)
    rw [hstep.2, hstep.1]
    exact (ipReceive_carried hbefore (hok (s, x) (mem_cons_self ..))).1

end Run

/-- Fragmentation and reassembly. Sessions and forwarders cut a message into fragments that fit
the `mtu`. If the packets of the message that arrive overlap one hole each at most, the message
is handed up each time it is complete, nothing else is, and only want of memory is a failure.
What is handed up after packets as long as their headers say was carried by them. -/
theorem ip_fragmentation (s : IpSessn) (ident : BitVec 16) (msg : List Byte)
    (hmsg : msg.length ≤ ipMaxMessage) (hmtu : 28 ≤ s.mtu) :
    (∀ lower, ∃ r, ipPush s lower ident msg = some r ∧
      (∀ q ∈ r.packets, q.hdr.getHlen * 4 + q.data.length ≤ s.mtu) ∧
      ((∀ k, lower k = .sent) → r.packets.flatMap data = msg)) ∧
    (∀ p, Travels s ident msg p → ∀ mtu lower, 28 ≤ mtu →
      ∃ r, ipDemux p = some p ∧ ipForwardPop mtu lower p = some r ∧
        (∀ q ∈ r.packets, q.hdr.getHlen * 4 + q.data.length ≤ mtu) ∧
        ((∀ k, lower k = .sent) → p.hdr.time ≠ 1 →
          r.packets.flatMap data = p.data)) ∧
    (∀ trace l x l', Run receiveStep none ((l, x) :: trace) l' →
      (∀ y ∈ (l, x) :: trace, Travels s ident msg y.2.packet ∧
        (y.2.packet.hdr.completePacket = false → FragmentOk y.1 y.2)) →
      x.result.handed = dueMessage msg trace l x ∧ (x.result.success = false ↔
        x.packet.hdr.completePacket = false ∧ Refused x.allocs l x.packet)) ∧
    ∀ trace l x l' d, Run receiveStep none ((l, x) :: trace) l' →
      (∀ y ∈ (l, x) :: trace, ArrivalOk y.2.allocs y.1 y.2.packet) →
      x.result.handed = some d → ∀ (i : ℕ) b, d[i]? = some b →
        ∃ y ∈ (l, x) :: trace, y.2.packet.Carries i b := by
  refine ⟨?_, ?_, ?_, ?_⟩
  · intro lower
    obtain ⟨r, hr, hcovers⟩ := ipPush_covers s lower ident hmsg hmtu
    exact ⟨r, hr, hcovers.fit, hcovers.all⟩
  · intro p hp mtu lower hmtu'
    have hfragment := hp.isFragmentOf hmsg hmtu
    obtain ⟨r, hr, -, hfit, hall⟩ := ipForwardPop_covers lower hfragment hmsg hmtu'
    exact ⟨r, hfragment.ipDemux_eq, hr, hfit, hall⟩
  · intro trace l x l' hrun hok
    cases hrun with
    | cons hrun hstep =>
      have hfragments : ∀ y ∈ (l, x) :: trace, IsFragmentOf (s.hdr ident 0).fragId msg
          y.2.packet ∧ (y.2.packet.hdr.completePacket = false → FragmentOk y.1 y.2) :=
        fun y hy => ⟨(hok y hy).1.isFragmentOf hmsg hmtu, (hok y hy).2⟩
      have hbefore := collecting_of_run hrun hmsg fun y hy => hfragments y (mem_cons_of_mem _ hy)
      obtain ⟨hp, hfrag⟩ := hfragments (l, x) (mem_cons_self ..)
      exact (ipReceive_collects hbefore hmsg hp hfrag hstep.1).1
  · intro trace l x l' d hrun hok hd i b hb
    cases hrun with
    | cons hrun hstep =>
      have hbefore := listInv_of_run hrun fun y hy => hok y (mem_cons_of_mem _ hy)
      have hlast := ipReceive_carried hbefore (hok (l, x) (mem_cons_self ..))
      rw [← hstep.1] at hlast
      exact hlast.2 d hd i b hb

section Overlap

/-- A session whose fragments have four blocks. -/
def shortSessn : IpSessn := ⟨52, 17, 1, 2⟩

/-- A message of six blocks. -/
def sixBlocks : List Byte := (List.range 48).map (BitVec.ofNat 8)

/-- The fragment at a place of the message. -/
def sixBlocksAt (offset length : ℕ) (time : BitVec 8) : IpPacket where
  hdr := { shortSessn.hdr 1 (20 + length) with
    frag := BitVec.ofNat 16 (offset / 8) ||| (if offset + length < 48 then 0x2000 else 0)
    time := time }
  data := (sixBlocks.drop offset).take length

/-- Memory suffices. -/
def enoughMemory : FragAllocs := ⟨true, true, true, true⟩

/-- What arrived, one packet after the other, the last first. -/
def arrived : List IpPacket → List (Option FragList × Arrival) × Option FragList
  | [] => ([], none)
  | p :: ps =>
    let (trace, s) := arrived ps
    let r := ipReceive enoughMemory s p
    ((s, ⟨enoughMemory, p, r⟩) :: trace, r.list)

theorem run_arrived (ps : List IpPacket) : Run receiveStep none (arrived ps).1 (arrived ps).2 := by
  induction ps with
  | nil => exact .nil
  | cons p ps ih => exact .cons ih ⟨rfl, rfl⟩

theorem shortSessn_push : ipPush shortSessn (fun _ => .sent) 1 sixBlocks =
    some ⟨[sixBlocksAt 0 32 30, sixBlocksAt 32 16 30], false⟩ := by
  decide +kernel

theorem shortSessn_forward : ipForwardPop 28 (fun _ => .sent) (sixBlocksAt 0 32 30) =
    some ⟨[sixBlocksAt 0 8 29, sixBlocksAt 8 8 29, sixBlocksAt 16 8 29, sixBlocksAt 24 8 29],
      false⟩ := by
  decide +kernel

theorem travels_first : Travels shortSessn 1 sixBlocks (sixBlocksAt 0 32 30) :=
  .push shortSessn_push (mem_cons_self ..)

theorem travels_second : Travels shortSessn 1 sixBlocks (sixBlocksAt 32 16 30) :=
  .push shortSessn_push (mem_cons_of_mem _ (mem_cons_self ..))

theorem travels_piece : Travels shortSessn 1 sixBlocks (sixBlocksAt 0 8 29) :=
  .forward travels_first (by decide) (by decide +kernel) shortSessn_forward (mem_cons_self ..)

/-- The first fragment arrives after a part of it: what is left of it is taken to be as long as
the whole, and the datagram lacks a block. -/
theorem reassembly_loses_block :
    ¬ ∀ (s : IpSessn) (ident : BitVec 16) (msg : List Byte), msg.length ≤ ipMaxMessage →
      28 ≤ s.mtu → ∀ trace l x l', Run receiveStep none ((l, x) :: trace) l' →
        (∀ y ∈ (l, x) :: trace, Travels s ident msg y.2.packet) →
          x.result.handed = dueMessage msg trace l x := by
  intro hclaim
  have hrun := run_arrived [sixBlocksAt 32 16 30, sixBlocksAt 0 32 30, sixBlocksAt 0 8 29]
  have htravels : ∀ y ∈ (arrived [sixBlocksAt 32 16 30, sixBlocksAt 0 32 30,
      sixBlocksAt 0 8 29]).1, Travels shortSessn 1 sixBlocks y.2.packet := by
    intro y hy
    rcases mem_cons.mp hy with rfl | hy
    · exact travels_second
    rcases mem_cons.mp hy with rfl | hy
    · exact travels_first
    rw [mem_singleton.mp hy]
    exact travels_piece
  have hhanded := hclaim shortSessn 1 sixBlocks (by decide) (by decide) _ _ _ _ hrun htravels
  revert hhanded
  decide +kernel

/-- The fragments arrive in the opposite order. -/
theorem sixBlocks_handed :
    (ipReceive enoughMemory (arrived [sixBlocksAt 32 16 30]).2 (sixBlocksAt 0 32 30)).handed =
      some sixBlocks := by
  have hrun := run_arrived [sixBlocksAt 0 32 30, sixBlocksAt 32 16 30]
  have hdue := (ip_fragmentation shortSessn 1 sixBlocks (by decide) (by decide)).2.2.1 _ _ _ _ hrun
    (by
      intro y hy
      rcases mem_cons.mp hy with rfl | hy
      · refine ⟨travels_first, fun _ => ⟨?_, by unfold MeetsOne; decide +kernel, rfl⟩⟩
        intro hole hhole
        have hbelow : fragHole (arrived [sixBlocksAt 32 16 30]).2 (sixBlocksAt 0 32 30) =
            some (0, 32) := by
          decide +kernel
        cases hhole.symm.trans hbelow
        exact ⟨fun hleft => absurd hleft (Nat.not_lt_zero _), fun _ _ _ _ => rfl⟩
      · rw [mem_singleton.mp hy]
        refine ⟨travels_second, fun _ => ⟨?_, by unfold MeetsOne; decide +kernel, rfl⟩⟩
        intro hole hhole
        have hwhole : fragHole none (sixBlocksAt 32 16 30) = some (0, infiniteOffset) := by
          decide +kernel
        cases hhole.symm.trans hwhole
        exact ⟨fun hleft => absurd hleft (Nat.not_lt_zero _), fun _ _ _ _ => rfl⟩)
  exact hdue.1.trans (by decide +kernel)

end Overlap

end MachVirtuTerm
