import Mathlib.Data.BitVec
import Mathlib.Tactic.Ring

/-!
# Datagrams of the internet protocol

The header, and how a session sends a message: `ipPush` and `ipForwardPop` call `ipSend`, which
cuts what is longer than the lower session takes into fragments. Messages are byte strings.
-/

open List
open BitVec hiding not_not

namespace MachVirtuTerm

open BitVec

/-- A byte of a message. -/
abbrev Byte := BitVec 8

/-- `IPheader`, in the byte order of the host and without the checksum. -/
structure IPheader where
  versHlen : BitVec 8
  type : BitVec 8
  dlen : BitVec 16
  ident : BitVec 16
  frag : BitVec 16
  time : BitVec 8
  prot : BitVec 8
  source : BitVec 32
  dest : BitVec 32
  deriving DecidableEq

def ipHlen : ℕ := 20

def ipMaxPacket : ℕ := 0xffff - 60

def infiniteOffset : ℕ := 0xffff

namespace IPheader

variable (h : IPheader)

include h

/-- `GET_HLEN`, in words. -/
def getHlen : ℕ := (h.versHlen &&& 0x0f).toNat

/-- `FRAGOFFSET`, in blocks of eight bytes. -/
def fragOffset : ℕ := (h.frag &&& 0x1fff).toNat

/-- `MOREFRAGMENTS` is set. -/
def moreFragments : Bool := h.frag &&& 0x2000 ≠ 0

/-- `DONTFRAGMENT` is set. -/
def dontFragment : Bool := h.frag &&& 0x4000 ≠ 0

def completePacket : Bool := h.frag &&& (0x1fff ||| 0x2000) = 0

end IPheader

/-- A header and what follows it. -/
structure IpPacket where
  hdr : IPheader
  data : List Byte
  deriving DecidableEq

/-- What becomes of a message that is pushed: `msgPush` has no memory for the header, the lower
session fails, or it takes the message. -/
inductive LowerPush
  | noMemory
  | failed
  | sent
  deriving DecidableEq

/-- What `ipSend` sends, and whether it returns `XMSG_ERR_HANDLE`. -/
structure IpSent where
  packets : List IpPacket
  err : Bool
  deriving DecidableEq

/-- The fragment with the next `fraglen` bytes of a message, `offset` blocks from its start. -/
def fragment (hdr : IPheader) (msg : List Byte) (offset fraglen : ℕ) : IpPacket :=
  let frag := hdr.frag + BitVec.ofNat 16 offset
  { hdr := { hdr with
      frag := if fraglen ≠ msg.length then frag ||| 0x2000 else frag
      dlen := BitVec.ofNat 16 (hdr.getHlen * 4 + fraglen) }
    data := msg.take fraglen }

/-- The loop of `ipSend`, at most so many turns; `none` if it does not end by then. `lower` is
what becomes of each fragment. -/
def ipSendLoop (lower : ℕ → LowerPush) (hdr : IPheader) (fragblks : ℕ) :
    ℕ → ℕ → List Byte → Option IpSent
  | 0, _, _ => none
  | turns + 1, k, msg =>
    if msg = [] then some ⟨[], false⟩
    else
      let fraglen := if fragblks * 8 < msg.length then fragblks * 8 else msg.length
      match lower k with
      | .noMemory => some ⟨[], false⟩
      | .failed => some ⟨[], true⟩
      | .sent => (ipSendLoop lower hdr fragblks turns (k + 1) (msg.drop fraglen)).map fun rest =>
        ⟨fragment hdr msg (k * fragblks) fraglen :: rest.packets, rest.err⟩

/-- `ipSend`, with the `mtu` of the session; `none` if it never returns. -/
def ipSend (mtu : ℕ) (lower : ℕ → LowerPush) (hdr : IPheader) (msg : List Byte) : Option IpSent :=
  if msg.length + hdr.getHlen * 4 ≤ mtu then
    match lower 0 with
    | .sent => some ⟨[⟨hdr, msg⟩], false⟩
    | _ => some ⟨[], true⟩
  else if hdr.dontFragment then some ⟨[], false⟩
  else ipSendLoop lower hdr ((mtu - hdr.getHlen * 4) / 8) (msg.length + 1) 0 msg

/-- The part of a session that `ipPush` looks at: `IPVERS | 5` and `IPDEFAULTDGTTL` are in the
header since the session was created. -/
structure IpSessn where
  mtu : ℕ
  prot : BitVec 8
  source : BitVec 32
  dest : BitVec 32

/-- The header of a session, with an identification. -/
def IpSessn.hdr (s : IpSessn) (ident : BitVec 16) (dlen : ℕ) : IPheader where
  versHlen := 0x45
  type := 0
  dlen := BitVec.ofNat 16 dlen
  ident := ident
  frag := 0
  time := 30
  prot := s.prot
  source := s.source
  dest := s.dest

/-- `ipPush`; `ident` is what `get_ident` gives. -/
def ipPush (s : IpSessn) (lower : ℕ → LowerPush) (ident : BitVec 16) (msg : List Byte) :
    Option IpSent :=
  let dlen := msg.length + (s.hdr ident 0).getHlen * 4
  if ipMaxPacket < dlen then some ⟨[], true⟩
  else ipSend s.mtu lower (s.hdr ident dlen) msg

def ipForwardPop (mtu : ℕ) (lower : ℕ → LowerPush) (p : IpPacket) : Option IpSent :=
  let hdr := { p.hdr with time := p.hdr.time - 1 }
  if hdr.time = 0 then some ⟨[], false⟩ else ipSend mtu lower hdr p.data

/-- The part of `ipGetHdr` and `ipDemux` before the session is looked up: headers of another
length than five words are dropped, and what is longer than its header says is cut. -/
def ipDemux (p : IpPacket) : Option IpPacket :=
  if p.hdr.getHlen ≠ 5 then none
  else
    let dataLen : ℤ := p.hdr.dlen.toNat - ipHlen
    if dataLen < p.data.length then some { p with data := p.data.take dataLen.toNat }
    else some p

end MachVirtuTerm

/-!
# Reassembly of datagrams

For each identification of a datagram there is a list of what has been received and of the
holes between. `ipReassemble` puts a fragment into the first hole it overlaps, and hands the
datagram up once there is no hole.
-/

namespace MachVirtuTerm

/-- `FragInfo`: a hole, or what has been received. -/
inductive FragInfo
  | hole (first last : ℕ)
  | frag (data : List Byte)
  deriving DecidableEq

structure FragList where
  nholes : BitVec 16
  frags : List FragInfo
  deriving DecidableEq

/-- The allocations of `ipReassemble`: those for a new list, those for the holes above and below
the fragment, and those for joining the fragments. -/
structure FragAllocs where
  list : Bool
  above : Bool
  below : Bool
  join : Bool
  deriving DecidableEq

/-- A list of holes and fragments, what was added to `nholes`, and whether memory sufficed. -/
structure FragInserted where
  frags : List FragInfo
  added : BitVec 16
  success : Bool
  deriving DecidableEq

/-- What `ipReassemble` does to the hole it found: what overlaps fragments received before is
discarded, holes are made above and below, and the hole becomes a fragment. -/
def fillHole (a : FragAllocs) (offset len : ℕ) (more : Bool) (data : List Byte)
    (first last : ℕ) (rest : List FragInfo) : FragInserted :=
  -- Only `offset` and the message are trimmed on the left; `len` stays.
  let data := if offset < first then data.drop (first - offset) else data
  let offset := if offset < first then first else offset
  let data := if last < offset + len then data.take (last - offset) else data
  let len := if last < offset + len then last - offset else len
  let above := if offset + len < last ∧ more = true then [FragInfo.hole (offset + len) last] else []
  let below := if first < offset then [FragInfo.hole first offset] else []
  if above ≠ [] ∧ a.above = false then ⟨.hole first last :: rest, 0, false⟩
  else if below ≠ [] ∧ a.below = false then
    ⟨above ++ .hole first last :: rest, BitVec.ofNat 16 above.length, false⟩
  else
    ⟨above ++ .frag data :: below ++ rest,
      BitVec.ofNat 16 above.length + BitVec.ofNat 16 below.length - 1, true⟩

/-- The hole and the fragment overlap. -/
def Overlaps (offset len first last : ℕ) : Prop := offset < last ∧ first < offset + len

instance (offset len first last : ℕ) : Decidable (Overlaps offset len first last) :=
  inferInstanceAs (Decidable (_ ∧ _))

/-- The loop of `ipReassemble`, which ends at the first hole that the fragment overlaps. -/
def insertFrag (a : FragAllocs) (offset len : ℕ) (more : Bool) (data : List Byte) :
    List FragInfo → FragInserted
  | [] => ⟨[], 0, true⟩
  | .frag b :: rest =>
    let r := insertFrag a offset len more data rest
    { r with frags := .frag b :: r.frags }
  | .hole first last :: rest =>
    if Overlaps offset len first last then fillHole a offset len more data first last rest
    else
      let r := insertFrag a offset len more data rest
      { r with frags := .hole first last :: r.frags }

/-- `msgJoin` of one entry after the other, each before what was joined so far. -/
def joinFrags : List FragInfo → List Byte → List Byte
  | [], full => full
  | .hole _ _ :: rest, full => joinFrags rest full
  | .frag b :: rest, full => joinFrags rest (b ++ full)

/-- What a call comes to: the list that is left, what is given to `ipMsgComplete`, and whether
`XK_SUCCESS` is returned. -/
structure Reassembled where
  list : Option FragList
  handed : Option (List Byte)
  success : Bool
  deriving DecidableEq

/-- The length of a fragment, as its header has it. -/
def IpPacket.len (p : IpPacket) : ℕ := (p.hdr.dlen - BitVec.ofNat 16 (p.hdr.getHlen * 4)).toNat

/-- The place of a fragment in the datagram. -/
def IpPacket.offset (p : IpPacket) : ℕ := p.hdr.fragOffset * 8

/-- The list that a fragment is put in: the one that is there, or a new one with a hole for the
whole datagram. -/
def fragListOf (list : Option FragList) : FragList :=
  list.getD ⟨1, [.hole 0 infiniteOffset]⟩

/-- `ipReassemble`, for the datagram that a list is for. -/
def ipReassemble (a : FragAllocs) (list : Option FragList) (p : IpPacket) : Reassembled :=
  if list = none ∧ a.list = false then ⟨none, none, false⟩
  else
    let l := fragListOf list
    let r := insertFrag a p.offset p.len p.hdr.moreFragments p.data l.frags
    let l : FragList := ⟨l.nholes + r.added, r.frags⟩
    if r.success = false then ⟨some l, none, false⟩
    else if l.nholes = 0 then
      if a.join then ⟨none, some (joinFrags l.frags []), true⟩ else ⟨none, none, false⟩
    else ⟨some l, none, true⟩

/-- `ipDemux` and `ipStdPop`, for the datagram that a list is for. -/
def ipReceive (a : FragAllocs) (list : Option FragList) (p : IpPacket) : Reassembled :=
  match ipDemux p with
  | none => ⟨list, none, true⟩
  | some p =>
    if p.hdr.completePacket then ⟨list, some p.data, true⟩ else ipReassemble a list p

end MachVirtuTerm

/-!
# The fragments of a message

What `ipPush` sends, and what forwarders make of it, are parts of the message at the offsets
their headers give.
-/

namespace MachVirtuTerm

variable {h : IPheader} {p q : IpPacket} {msg : List Byte} {x : BitVec 16} {k : ℕ}

section Flags

theorem fragOffset_eq (h : IPheader) : h.fragOffset = h.frag.toNat % 8192 := by
  unfold IPheader.fragOffset
  rw [toNat_and]
  exact Nat.and_two_pow_sub_one_eq_mod h.frag.toNat 13

/-- The bit `i` of the field with flags and offset. -/
theorem and_twoPow_ne_zero_iff (x : BitVec 16) (i : ℕ) (hi : i < 16) :
    x &&& twoPow 16 i ≠ 0 ↔ x.toNat / 2 ^ i % 2 = 1 := by
  rw [and_twoPow]
  have hbit : x.getLsbD i = decide (x.toNat / 2 ^ i % 2 = 1) := by
    rw [getLsbD, Nat.testBit_eq_decide_div_mod_eq]
  have hne : twoPow 16 i ≠ 0 := by
    intro h
    have hzero := congrArg (fun y : BitVec 16 => y.getLsbD i) h
    simp [hi] at hzero
  rw [hbit]
  by_cases h : x.toNat / 2 ^ i % 2 = 1
  · simpa [h] using hne
  · simp [h]

theorem moreFragments_iff (h : IPheader) :
    h.moreFragments = true ↔ h.frag.toNat / 8192 % 2 = 1 := by
  have hbit := and_twoPow_ne_zero_iff h.frag 13 (by omega)
  have hpow : (0x2000 : BitVec 16) = twoPow 16 13 := by decide
  unfold IPheader.moreFragments
  rw [hpow, decide_eq_true_iff]
  exact hbit

theorem dontFragment_iff (h : IPheader) : h.dontFragment = true ↔ h.frag.toNat / 16384 % 2 = 1 := by
  have hbit := and_twoPow_ne_zero_iff h.frag 14 (by omega)
  have hpow : (0x4000 : BitVec 16) = twoPow 16 14 := by decide
  unfold IPheader.dontFragment
  rw [hpow, decide_eq_true_iff]
  exact hbit

/-- Adding to the offset leaves the flags, as long as the offset fits its field. -/
theorem toNat_frag_add (hk : x.toNat % 8192 + k < 8192) :
    (x + BitVec.ofNat 16 k).toNat = x.toNat + k := by
  rw [toNat_add, toNat_ofNat]
  have hx := x.isLt
  omega

/-- Setting `MOREFRAGMENTS` leaves the offset and the other flag. -/
theorem toNat_or_more (x : BitVec 16) :
    (x ||| 0x2000).toNat % 8192 = x.toNat % 8192 ∧
      (x ||| 0x2000).toNat / 8192 % 2 = 1 ∧
      ((x ||| 0x2000).toNat / 16384 % 2 = 1 ↔ x.toNat / 16384 % 2 = 1) := by
  have hlow (y : BitVec 16) : (y &&& 0x1fff).toNat = y.toNat % 8192 := by
    rw [toNat_and]
    exact Nat.and_two_pow_sub_one_eq_mod y.toNat 13
  have hmore : (0x2000 : BitVec 16) = twoPow 16 13 := by decide
  have hdont : (0x4000 : BitVec 16) = twoPow 16 14 := by decide
  refine ⟨?_, ?_, ?_⟩
  · rw [← hlow, ← hlow, and_or_distrib_right]
    simp
  · apply (and_twoPow_ne_zero_iff (x ||| 0x2000) 13 (by omega)).mp
    rw [← hmore, and_or_distrib_right]
    intro h
    have hbit := congrArg (fun y : BitVec 16 => y.getLsbD 13) h
    simp at hbit
  · have h₁ := and_twoPow_ne_zero_iff (x ||| 0x2000) 14 (by omega)
    have h₂ := and_twoPow_ne_zero_iff x 14 (by omega)
    rw [← hdont] at h₁ h₂
    have heq : (x ||| 0x2000) &&& 0x4000 = x &&& 0x4000 := by
      rw [and_or_distrib_right]
      simp
    rw [heq] at h₁
    exact h₁.symm.trans h₂

end Flags

/-- The identification of the datagram that a packet belongs to, the key of `fragMap`. -/
def IPheader.fragId (h : IPheader) : BitVec 32 × BitVec 32 × BitVec 8 × BitVec 16 :=
  (h.source, h.dest, h.prot, h.ident)

/-- A packet carries the part of a message that its header says. -/
structure IsFragmentOf (id : BitVec 32 × BitVec 32 × BitVec 8 × BitVec 16) (msg : List Byte)
    (p : IpPacket) : Prop where
  fragId : p.hdr.fragId = id
  hlen : p.hdr.getHlen = 5
  dlen : p.hdr.dlen.toNat = 20 + p.data.length
  fits : p.offset + p.data.length ≤ msg.length
  data : p.data = (msg.drop p.offset).take p.data.length
  more : p.hdr.moreFragments = true ↔ p.offset + p.data.length < msg.length
  mayFragment : p.hdr.dontFragment = false
  nonempty : p.data = [] → msg = []

/-- The longest message that `ipPush` accepts. -/
def ipMaxMessage : ℕ := ipMaxPacket - ipHlen

variable {id : BitVec 32 × BitVec 32 × BitVec 8 × BitVec 16}

/-- A part of a part of a message is a part of it. -/
theorem IsFragmentOf.fragment {b fraglen : ℕ} (hp : IsFragmentOf id msg p)
    (hmsg : msg.length ≤ ipMaxMessage) (hpos : 0 < fraglen)
    (hle : b * 8 + fraglen ≤ p.data.length) :
    IsFragmentOf id msg (fragment p.hdr (p.data.drop (b * 8)) b fraglen) := by
  have hoffset := hp.fits
  simp only [IpPacket.offset, fragOffset_eq] at hoffset
  simp only [ipMaxMessage, ipMaxPacket, ipHlen] at hmsg
  have hadd := toNat_frag_add (x := p.hdr.frag) (k := b) (by omega)
  have hdrop : (p.data.drop (b * 8)).length = p.data.length - b * 8 := length_drop
  have hlength : ((p.data.drop (b * 8)).take fraglen).length = fraglen := by
    rw [List.length_take]
    omega
  -- Where the fragment is, and what its flags are.
  have hwhere : (MachVirtuTerm.fragment p.hdr (p.data.drop (b * 8)) b fraglen).offset =
      p.offset + b * 8 := by
    simp only [IpPacket.offset, fragOffset_eq, MachVirtuTerm.fragment]
    split
    · rw [(toNat_or_more _).1, hadd]
      omega
    · rw [hadd]
      omega
  have hmore : (MachVirtuTerm.fragment p.hdr (p.data.drop (b * 8)) b fraglen).hdr.moreFragments =
      true ↔ p.offset + b * 8 + fraglen < msg.length := by
    rw [moreFragments_iff]
    have hbefore := hp.more
    rw [moreFragments_iff] at hbefore
    have hfits := hp.fits
    simp only [MachVirtuTerm.fragment]
    split
    next hpart =>
      refine iff_of_true (toNat_or_more _).2.1 ?_
      omega
    next hlast =>
      rw [hadd]
      have hsame : (p.hdr.frag.toNat + b) / 8192 = p.hdr.frag.toNat / 8192 := by omega
      rw [hsame, hbefore]
      have hlast : fraglen = p.data.length - b * 8 := by
        rw [← hdrop]
        exact not_not.mp hlast
      omega
  constructor
  · exact hp.fragId
  · exact hp.hlen
  · simp only [MachVirtuTerm.fragment, hp.hlen, hlength, toNat_ofNat]
    omega
  · rw [hwhere]
    simp only [MachVirtuTerm.fragment, hlength]
    have hfits := hp.fits
    omega
  · rw [hwhere]
    simp only [MachVirtuTerm.fragment, hlength]
    rw [hp.data, drop_take, drop_drop, take_take]
    congr 1
    omega
  · rw [hmore, hwhere]
    simp only [MachVirtuTerm.fragment, hlength]
  · have hbefore := hp.mayFragment
    rw [Bool.eq_false_iff, ne_eq, dontFragment_iff] at hbefore ⊢
    simp only [MachVirtuTerm.fragment]
    split
    · rw [(toNat_or_more _).2.2, hadd]
      omega
    · rw [hadd]
      omega
  · intro hnil
    simp only [MachVirtuTerm.fragment] at hnil
    rw [hnil] at hlength
    simp only [length_nil] at hlength
    omega

/-- The packets of `ipSend` are fragments no longer than the session takes, and unless the lower
session or memory fails they are all of what was to be sent. -/
structure IpSent.Covers (r : IpSent) (id : BitVec 32 × BitVec 32 × BitVec 8 × BitVec 16)
    (msg : List Byte) (mtu : ℕ) (lower : ℕ → LowerPush) (data : List Byte) : Prop where
  fragments : ∀ q ∈ r.packets, IsFragmentOf id msg q
  fit : ∀ q ∈ r.packets, q.hdr.getHlen * 4 + q.data.length ≤ mtu
  all : (∀ k, lower k = .sent) → r.packets.flatMap IpPacket.data = data

theorem ipSendLoop_covers (lower : ℕ → LowerPush) {blks turns mtu : ℕ} (k : ℕ)
    (hp : IsFragmentOf id msg p)
    (hmsg : msg.length ≤ ipMaxMessage) (hblks : 0 < blks) (hmtu : 20 + blks * 8 ≤ mtu)
    (hturns : (p.data.drop (k * blks * 8)).length < turns) :
    ∃ r, ipSendLoop lower p.hdr blks turns k (p.data.drop (k * blks * 8)) = some r ∧
      r.Covers id msg mtu lower (p.data.drop (k * blks * 8)) := by
  induction turns generalizing k with
  | zero => omega
  | succ turns ih =>
    unfold ipSendLoop
    by_cases hnil : p.data.drop (k * blks * 8) = []
    · rw [if_pos hnil]
      refine ⟨_, rfl, ?_⟩
      rw [hnil]
      constructor <;> simp
    · rw [if_neg hnil]
      have hlength : (p.data.drop (k * blks * 8)).length = p.data.length - k * blks * 8 :=
        length_drop
      have hpos : 0 < p.data.length - k * blks * 8 := by
        rw [← hlength]
        exact length_pos_iff.mpr hnil
      -- The next fragment, and what is left after it.
      obtain ⟨fraglen, hfraglen⟩ : ∃ n, n = if blks * 8 < (p.data.drop (k * blks * 8)).length
        then blks * 8 else (p.data.drop (k * blks * 8)).length := ⟨_, rfl⟩
      rw [← hfraglen]
      rw [hlength] at hfraglen
      have hfrag : 0 < fraglen ∧ fraglen ≤ blks * 8 ∧
          k * blks * 8 + fraglen ≤ p.data.length := by
        split at hfraglen <;> omega
      have hstep : (k + 1) * blks * 8 = k * blks * 8 + blks * 8 := by ring
      have hrest : (p.data.drop (k * blks * 8)).drop fraglen =
          p.data.drop ((k + 1) * blks * 8) := by
        rw [drop_drop, hstep]
        split at hfraglen
        · rw [hfraglen]
        · rw [drop_eq_nil_of_le (by omega), drop_eq_nil_of_le (by omega)]
      have hfragment := hp.fragment hmsg hfrag.1 hfrag.2.2
      have hfit : (fragment p.hdr (p.data.drop (k * blks * 8)) (k * blks) fraglen).hdr.getHlen * 4 +
          (fragment p.hdr (p.data.drop (k * blks * 8)) (k * blks) fraglen).data.length ≤ mtu := by
        rw [hfragment.hlen]
        simp only [fragment, List.length_take]
        omega
      cases hlower : lower k with
      | noMemory | failed =>
        refine ⟨_, rfl, ?_⟩
        constructor
        · simp
        · simp
        · intro hall
          rw [hall k] at hlower
          cases hlower
      | sent =>
        dsimp only
        rw [hrest]
        obtain ⟨r, hr, hcovers⟩ := ih (k + 1) (by rw [length_drop]; omega)
        simp only [hr, Option.map_some]
        refine ⟨_, rfl, ?_⟩
        constructor
        · intro q hq
          rcases mem_cons.mp hq with rfl | hq
          · exact hfragment
          · exact hcovers.fragments q hq
        · intro q hq
          rcases mem_cons.mp hq with rfl | hq
          · exact hfit
          · exact hcovers.fit q hq
        · intro hall
          rw [flatMap_cons, hcovers.all hall, ← hrest]
          exact take_append_drop _ _

/-- `ipSend` ends, and sends fragments of what it is given. -/
theorem ipSend_covers (lower : ℕ → LowerPush) {mtu : ℕ} (hp : IsFragmentOf id msg p)
    (hmsg : msg.length ≤ ipMaxMessage) (hmtu : 28 ≤ mtu) :
    ∃ r, ipSend mtu lower p.hdr p.data = some r ∧ r.Covers id msg mtu lower p.data := by
  unfold ipSend
  rw [hp.hlen]
  by_cases hshort : p.data.length + 5 * 4 ≤ mtu
  · rw [if_pos hshort]
    cases hlower : lower 0 with
    | noMemory | failed =>
      refine ⟨_, rfl, ?_⟩
      constructor
      · simp
      · simp
      · intro hall
        rw [hall 0] at hlower
        cases hlower
    | sent =>
      refine ⟨_, rfl, ?_⟩
      constructor
      · simpa using hp
      · intro q hq
        rw [mem_singleton] at hq
        subst hq
        simp only [hp.hlen]
        omega
      · simp
  · rw [if_neg hshort, hp.mayFragment, if_neg Bool.false_ne_true]
    have hblks : 0 < (mtu - 5 * 4) / 8 := by omega
    have hfit : 20 + (mtu - 5 * 4) / 8 * 8 ≤ mtu := by omega
    have hturns : (p.data.drop (0 * ((mtu - 5 * 4) / 8) * 8)).length < p.data.length + 1 := by
      simp
    simpa using ipSendLoop_covers lower 0 hp hmsg hblks hfit hturns

/-- The packets of a message on their way: what `ipPush` sends, and what forwarders send that
receive one of them. -/
inductive Travels (s : IpSessn) (ident : BitVec 16) (msg : List Byte) : IpPacket → Prop
  | push {lower : ℕ → LowerPush} {r : IpSent} {p : IpPacket}
    (h : ipPush s lower ident msg = some r) (hp : p ∈ r.packets) : Travels s ident msg p
  | forward {mtu : ℕ} {lower : ℕ → LowerPush} {r : IpSent} {p q p' : IpPacket}
    (h : Travels s ident msg p) (hmtu : 28 ≤ mtu) (hdemux : ipDemux p = some q)
    (hforward : ipForwardPop mtu lower q = some r) (hp' : p' ∈ r.packets) :
    Travels s ident msg p'

/-- Fragments pass `ipDemux` as they are. -/
theorem IsFragmentOf.ipDemux_eq (hp : IsFragmentOf id msg p) : ipDemux p = some p := by
  unfold ipDemux
  have hlength : ¬ (p.hdr.dlen.toNat : ℤ) - ipHlen < p.data.length := by
    rw [hp.dlen]
    simp only [ipHlen]
    omega
  rw [if_neg (not_not.mpr hp.hlen)]
  exact if_neg hlength

/-- A message that `ipPush` accepts is a fragment of itself. -/
theorem isFragmentOf_self (s : IpSessn) (ident : BitVec 16) (hmsg : msg.length ≤ ipMaxMessage) :
    IsFragmentOf (s.hdr ident 0).fragId msg ⟨s.hdr ident (msg.length + 20), msg⟩ := by
  simp only [ipMaxMessage, ipMaxPacket, ipHlen] at hmsg
  have hoffset : IpPacket.offset ⟨s.hdr ident (msg.length + 20), msg⟩ = 0 := by
    simp only [IpPacket.offset, fragOffset_eq, IpSessn.hdr]
    decide
  constructor
  · rfl
  · simp only [IPheader.getHlen, IpSessn.hdr]
    decide
  · simp only [IpSessn.hdr, toNat_ofNat]
    omega
  · simp [hoffset]
  · simp [hoffset]
  · rw [hoffset]
    simp [IPheader.moreFragments, IpSessn.hdr]
  · simp [IPheader.dontFragment, IpSessn.hdr]
  · exact fun hnil => hnil

/-- `ipPush` ends, and what it sends are the fragments of the message it accepts. -/
theorem ipPush_covers (s : IpSessn) (lower : ℕ → LowerPush) (ident : BitVec 16)
    (hmsg : msg.length ≤ ipMaxMessage) (hmtu : 28 ≤ s.mtu) :
    ∃ r, ipPush s lower ident msg = some r ∧
      r.Covers (s.hdr ident 0).fragId msg s.mtu lower msg := by
  have hhlen : (s.hdr ident 0).getHlen = 5 := by
    simp only [IPheader.getHlen, IpSessn.hdr]
    decide
  unfold ipPush
  rw [hhlen]
  simp only [ipMaxMessage, ipHlen] at hmsg
  rw [if_neg (by simp only [ipMaxPacket] at hmsg ⊢; omega)]
  exact ipSend_covers lower (isFragmentOf_self s ident hmsg) hmsg hmtu

/-- Forwarders make fragments of fragments. -/
theorem ipForwardPop_covers {mtu : ℕ} (lower : ℕ → LowerPush) (hp : IsFragmentOf id msg p)
    (hmsg : msg.length ≤ ipMaxMessage) (hmtu : 28 ≤ mtu) :
    ∃ r, ipForwardPop mtu lower p = some r ∧ (∀ q ∈ r.packets, IsFragmentOf id msg q) ∧
      (∀ q ∈ r.packets, q.hdr.getHlen * 4 + q.data.length ≤ mtu) ∧
      ((∀ k, lower k = .sent) → p.hdr.time ≠ 1 → r.packets.flatMap IpPacket.data = p.data) := by
  unfold ipForwardPop
  by_cases htime : p.hdr.time - 1 = 0
  · refine ⟨⟨[], false⟩, if_pos htime, by simp, by simp, ?_⟩
    intro _ hne
    exact absurd (sub_eq_zero.mp htime) hne
  · have hp' : IsFragmentOf id msg ⟨{ p.hdr with time := p.hdr.time - 1 }, p.data⟩ :=
      ⟨hp.fragId, hp.hlen, hp.dlen, hp.fits, hp.data, hp.more, hp.mayFragment, hp.nonempty⟩
    obtain ⟨r, hr, hcovers⟩ := ipSend_covers lower hp' hmsg hmtu
    refine ⟨r, ?_, hcovers.fragments, hcovers.fit, fun hall _ => hcovers.all hall⟩
    simp only [if_neg htime]
    exact hr

/-- All packets on their way are fragments of the message. -/
theorem Travels.isFragmentOf {s : IpSessn} {ident : BitVec 16} (hmsg : msg.length ≤ ipMaxMessage)
    (hmtu : 28 ≤ s.mtu) (h : Travels s ident msg p) :
    IsFragmentOf (s.hdr ident 0).fragId msg p := by
  induction h with
  | @push lower r p h hp =>
    obtain ⟨r', hr', hcovers⟩ := ipPush_covers s lower ident hmsg hmtu
    cases h.symm.trans hr'
    exact hcovers.fragments p hp
  | @forward mtu lower r p q p' _ hmtu' hdemux hforward hp' ih =>
    cases hdemux.symm.trans ih.ipDemux_eq
    obtain ⟨r', hr', hfragments, -⟩ := ipForwardPop_covers lower ih hmsg hmtu'
    cases hforward.symm.trans hr'
    exact hfragments p' hp'

end MachVirtuTerm
