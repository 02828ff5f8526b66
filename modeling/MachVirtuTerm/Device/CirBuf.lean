import MachVirtuTerm.Lib.RingBuffer
import MachVirtuTerm.Mach.Integer

/-!
# Circular buffers of the terminals

The bytes of a circular buffer lie between the read pointer `c_cf` and the write
pointer `c_cl`. Their number is also kept in a short integer, and so is the
greatest number there may be.
-/

open List

namespace MachVirtuTerm

open RingBuffer

/-- A circular buffer: `c_cl` is the head of the ring and `c_cf` its tail. -/
structure CirBuf (size : ℕ) where
  ring : RingBuffer UInt8 size
  cCc : ℤ
  cHog : ℤ

namespace CirBuf

variable {size : ℕ}

def cbAlloc (buf : ℕ → UInt8) (h : 0 < size) : CirBuf size where
  ring := ⟨buf, 0, 0, h, h⟩
  cCc := 0
  cHog := toShort (size - 1)

/-- Put one character in the buffer, unless it is full. -/
def putc (cb : CirBuf size) (c : UInt8) : Bool × CirBuf size :=
  let stored := cb.ring.store c
  if stored.head = stored.tail then (true, cb)
  else (false, { cb with ring := stored, cCc := toShort (cb.cCc + 1) })

/-- The number of successful `putc`s. -/
def cbSpace (cb : CirBuf size) : ℤ :=
  let space : ℤ := cb.ring.tail - cb.ring.head - 1
  if space < 0 then space + size else space

/-- Get one character, if there is one. -/
def getc (cb : CirBuf size) : Option UInt8 × CirBuf size :=
  if cb.ring.tail = cb.ring.head then (none, cb)
  else
    (some (cb.ring.buf cb.ring.tail), { cb with ring := cb.ring.skip, cCc := toShort (cb.cCc - 1) })

/-- The loop of `q_to_b`: every turn copies what lies in one piece. -/
def qToBLoop : ℕ → CirBuf size → ℕ → List UInt8 × CirBuf size
  | 0, cb, _ => ([], cb)
  | fuel + 1, cb, count =>
    if count = 0 then ([], cb)
    else if cb.ring.head = cb.ring.tail then ([], cb)
    else
      let piece :=
        if cb.ring.head < cb.ring.tail then size - cb.ring.tail else cb.ring.head - cb.ring.tail
      let i := if count < piece then count else piece
      let bytes := (List.range i).map fun j => cb.ring.buf (cb.ring.tail + j)
      let (rest, cb) := qToBLoop fuel
        { cb with ring := cb.ring.advance i, cCc := toShort (cb.cCc - i) } (count - i)
      (bytes ++ rest, cb)

/-- Get lots of characters. -/
def qToB (cb : CirBuf size) (count : ℕ) : List UInt8 × CirBuf size := cb.qToBLoop count count

/-! ## The bytes in the buffer -/

/-- The bytes that are to be read. -/
def toList (cb : CirBuf size) : List UInt8 := cb.ring.toList

/-- The short integers are what they are meant to be. -/
structure Ok (cb : CirBuf size) : Prop where
  cCc_eq : cb.cCc = cb.toList.length
  cHog_le : cb.cHog ≤ size - 1
  size_le : size ≤ 2 ^ 15

variable {cb : CirBuf size} {c : UInt8} {bytes : List UInt8}

theorem length_toList (cb : CirBuf size) : cb.toList.length = cb.ring.length :=
  cb.ring.length_toList

theorem length_toList_lt (cb : CirBuf size) : cb.toList.length < size := by
  rw [length_toList]
  exact cb.ring.length_lt

theorem Ok.cbAlloc {buf : ℕ → UInt8} {h : 0 < size} (hsize : size ≤ 2 ^ 15) :
    (CirBuf.cbAlloc buf h).Ok where
  cCc_eq := rfl
  cHog_le := (toShort_eq (by omega) (by omega)).le
  size_le := hsize

/-- The count tells whether there are bytes. -/
theorem Ok.cCc_le_zero_iff (h : cb.Ok) : cb.cCc ≤ 0 ↔ cb.toList = [] := by
  rw [h.cCc_eq, ← List.length_eq_zero_iff]
  omega

/-- `putc` adds the byte at the end, if there is room for it. -/
theorem Ok.putc (h : cb.Ok) (hroom : cb.toList.length + 1 < size) (c : UInt8) :
    ∃ cb', cb.putc c = (false, cb') ∧ cb'.Ok ∧ cb'.toList = cb.toList ++ [c] := by
  have hcc := h.cCc_eq
  have hlist : (cb.ring.store c).toList = cb.toList ++ [c] :=
    toList_store (by rwa [length_toList] at hroom) c
  have hne : ¬ (cb.ring.store c).head = (cb.ring.store c).tail :=
    store_head_ne_tail (by rwa [length_toList] at hroom) c
  have hsize := h.size_le
  refine ⟨_, if_neg hne, ⟨?_, h.cHog_le, hsize⟩, hlist⟩
  change toShort (cb.cCc + 1) = ((cb.ring.store c).toList.length : ℤ)
  rw [hlist, length_append, length_singleton, hcc, toShort_eq] <;> omega

/-- There is always one slot that stays free. -/
theorem cbSpace_eq (cb : CirBuf size) : cb.cbSpace = size - 1 - cb.toList.length := by
  have hhead := cb.ring.head_lt
  have htail := cb.ring.tail_lt
  rw [length_toList]
  unfold cbSpace RingBuffer.length
  dsimp only
  split <;> split <;> omega

theorem toList_eq_nil_iff : cb.toList = [] ↔ cb.ring.tail = cb.ring.head := by
  rw [← RingBuffer.length_eq_zero_iff]
  exact cb.ring.toList_eq_nil_iff

/-- Some bytes are taken from the start. -/
theorem Ok.advance (h : cb.Ok) {i : ℕ} (hi : i ≤ cb.toList.length) :
    CirBuf.Ok { cb with ring := cb.ring.advance i, cCc := toShort (cb.cCc - i) } ∧
      (cb.ring.advance i).toList = cb.toList.drop i := by
  have hlist : (cb.ring.advance i).toList = cb.toList.drop i :=
    toList_advance (by rwa [length_toList] at hi)
  have hlt := cb.length_toList_lt
  have hsize := h.size_le
  refine ⟨⟨?_, h.cHog_le, hsize⟩, hlist⟩
  change toShort (cb.cCc - i) = ((cb.ring.advance i).toList.length : ℤ)
  rw [hlist, length_drop, h.cCc_eq, toShort_eq] <;> omega

theorem getc_of_nil (h : cb.toList = []) : cb.getc = (none, cb) :=
  if_pos (toList_eq_nil_iff.mp h)

/-- `getc` takes the first byte. -/
theorem Ok.getc (h : cb.Ok) (hlist : cb.toList = c :: bytes) :
    ∃ cb', cb.getc = (some c, cb') ∧ cb'.Ok ∧ cb'.toList = bytes := by
  have hne : ¬ cb.ring.tail = cb.ring.head := by
    rw [← toList_eq_nil_iff, hlist]
    exact cons_ne_nil c bytes
  have hlength : 1 ≤ cb.toList.length := by
    rw [hlist, length_cons]
    omega
  have htail := cb.ring.tail_lt
  have hfirst := take_toList (r := cb.ring) (i := 1) (by rwa [length_toList] at hlength) (by omega)
  change cb.toList.take 1 = _ at hfirst
  rw [hlist] at hfirst
  have hc : c = cb.ring.buf cb.ring.tail := by simpa using hfirst
  obtain ⟨hok, hdrop⟩ := h.advance hlength
  refine ⟨{ cb with ring := cb.ring.advance 1, cCc := toShort (cb.cCc - 1) }, ?_, hok, ?_⟩
  · rw [hc]
    exact if_neg hne
  · rw [hlist] at hdrop
    exact hdrop

/-- `q_to_b` takes the first bytes, in as many pieces as they lie in. -/
theorem Ok.qToBLoop {fuel count : ℕ} (h : cb.Ok) (hfuel : count ≤ fuel) :
    ∃ cb', cb.qToBLoop fuel count = (cb.toList.take count, cb') ∧ cb'.Ok ∧
      cb'.toList = cb.toList.drop count := by
  induction fuel generalizing cb count with
  | zero =>
    obtain rfl : count = 0 := by omega
    exact ⟨cb, by rw [take_zero]; rfl, h, by rw [drop_zero]⟩
  | succ fuel ih =>
    unfold CirBuf.qToBLoop
    by_cases hcount : count = 0
    · subst hcount
      rw [if_pos rfl]
      exact ⟨cb, by rw [take_zero], h, by rw [drop_zero]⟩
    rw [if_neg hcount]
    by_cases hempty : cb.ring.head = cb.ring.tail
    · have hnil := toList_eq_nil_iff.mpr hempty.symm
      rw [if_pos hempty, hnil, take_nil, drop_nil]
      exact ⟨cb, rfl, h, hnil⟩
    rw [if_neg hempty]
    -- What lies in one piece, up to the end of the array or to the write pointer.
    obtain ⟨piece, hpiece⟩ : ∃ piece, piece = if cb.ring.head < cb.ring.tail then
        size - cb.ring.tail else cb.ring.head - cb.ring.tail := ⟨_, rfl⟩
    obtain ⟨i, hi⟩ : ∃ i, i = if count < piece then count else piece := ⟨_, rfl⟩
    have hbounds : 0 < i ∧ i ≤ count ∧ i ≤ cb.toList.length ∧ cb.ring.tail + i ≤ size := by
      have hhead := cb.ring.head_lt
      have htail := cb.ring.tail_lt
      rw [length_toList, hi, hpiece]
      unfold RingBuffer.length
      split_ifs <;> omega
    obtain ⟨hpos, hle, hlength, hend⟩ := hbounds
    obtain ⟨hok, hdrop⟩ := h.advance hlength
    have htake := take_toList (by rwa [length_toList] at hlength) hend
    obtain ⟨cb', hloop, hok', hlist⟩ := ih hok (show count - i ≤ fuel by omega)
    refine ⟨cb', ?_, hok', ?_⟩
    · simp only [← hpiece, ← hi, hloop]
      congr 1
      rw [← htake]
      change cb.toList.take i ++ (cb.ring.advance i).toList.take (count - i) = _
      rw [hdrop, ← take_add, Nat.add_sub_cancel' hle]
    · rw [hlist]
      change (cb.ring.advance i).toList.drop (count - i) = _
      rw [hdrop, drop_drop, Nat.add_sub_cancel' hle]

theorem Ok.qToB (h : cb.Ok) (count : ℕ) :
    ∃ cb', cb.qToB count = (cb.toList.take count, cb') ∧ cb'.Ok ∧
      cb'.toList = cb.toList.drop count :=
  h.qToBLoop le_rfl

end CirBuf

end MachVirtuTerm

/-!
# Circular buffers with their pointers

The functions of a circular buffer work on a pointer to read at and one to write at, which wrap
around at the end. One slot stays empty, so that an empty buffer can be told from a full one.
Strings are copied in pieces that do not wrap around. A function here comes to `none` where it
leaves the buffer or does not end.
-/

namespace MachVirtuTerm

/-- `struct cirbuf`, with pointers counted from `c_start` on. -/
structure CirBuf.Pointers where
  /-- What is at `c_start` and behind it. -/
  mem : ℕ → UInt8
  /-- `c_end`. -/
  size : ℕ
  /-- `c_cf`. -/
  cf : ℕ
  /-- `c_cl`. -/
  cl : ℕ
  /-- `c_cc`, a `short`. -/
  cc : BitVec 16

namespace CirBuf.Pointers

/-- `cb_alloc`, with what is in the memory. -/
def cbAlloc (mem : ℕ → UInt8) (bufSize : ℕ) : Pointers := ⟨mem, bufSize, 0, 0, 0⟩

variable (cb : Pointers)

/-- A pointer that has come to the end is at the start. -/
def wrap (p : ℕ) : ℕ := if p = cb.size then 0 else p

/-- `putc`: whether the character was not entered. -/
def putc (c : UInt8) : Option (Bool × Pointers) :=
  let nw := cb.wrap (cb.cl + 1)
  if nw = cb.cf then some (true, cb)
  else if cb.size ≤ cb.cl then none
  else
    some (false, { cb with
      mem := Function.update cb.mem cb.cl c
      cl := nw
      cc := cb.cc + 1 })

def cbSpace : ℤ :=
  let space : ℤ := cb.cf - cb.cl - 1
  if space < 0 then space + cb.size else space

def getc : Option (Option UInt8 × Pointers) :=
  if cb.cf = cb.cl then some (none, cb)
  else if cb.size ≤ cb.cf then none
  else
    some (some (cb.mem cb.cf), { cb with
      cf := cb.wrap (cb.cf + 1)
      cc := cb.cc - 1 })

/-- The characters up to the end or up to the last one. -/
def filled : ℕ := if cb.cl < cb.cf then cb.size - cb.cf else cb.cl - cb.cf

/-- Some characters are taken away. -/
def advance (i : ℕ) : Pointers :=
  { cb with
    cf := cb.wrap (cb.cf + i)
    cc := cb.cc - BitVec.ofNat 16 i }

/-- `q_to_b`: the characters that were moved. -/
def qToB (cb : Pointers) (count : ℕ) : Option (List UInt8 × Pointers) :=
  if count = 0 then some ([], cb)
  else if cb.cl = cb.cf then some ([], cb)
  else
    let i := min cb.filled count
    if _h : i = 0 ∨ cb.size < cb.cf + i then none
    else
      ((cb.advance i).qToB (count - i)).map fun r =>
        ((List.range i).map (fun k => cb.mem (cb.cf + k)) ++ r.1, r.2)
termination_by count
decreasing_by omega

def ndflush (cb : Pointers) (count : ℕ) : Option Pointers :=
  if count = 0 then some cb
  else if cb.cl = cb.cf then some cb
  else
    let i := min cb.filled count
    if _h : i = 0 ∨ cb.size < cb.cf + i then none
    else (cb.advance i).ndflush (count - i)
termination_by count
decreasing_by omega

/-- The limit of `b_to_q`, one before the characters. -/
def lim : ℕ := if cb.cf = 0 then cb.size - 1 else cb.cf - 1

/-- The slots up to the limit or up to the end. -/
def free : ℕ := if cb.cl < cb.lim then cb.lim - cb.cl else cb.size - cb.cl

/-- Characters are copied to where they are written. -/
def append (cp : List UInt8) : Pointers :=
  { cb with
    mem := fun k => if cb.cl ≤ k ∧ k < cb.cl + cp.length then cp.getD (k - cb.cl) 0 else cb.mem k
    cl := cb.wrap (cb.cl + cp.length)
    cc := cb.cc + BitVec.ofNat 16 cp.length }

/-- `b_to_q`: the number of characters that were not entered. -/
def bToQ (cb : Pointers) (cp : List UInt8) : Option (ℕ × Pointers) :=
  if cp.length = 0 then some (0, cb)
  else if cb.cl = cb.lim then some (cp.length, cb)
  else
    let i := min cb.free cp.length
    if _h : i = 0 ∨ cb.size < cb.cl + i then none
    else (cb.append (cp.take i)).bToQ (cp.drop i)
termination_by cp.length
decreasing_by
  rw [length_drop]
  omega

def ndqb (mask : UInt8) : ℕ :=
  let lim := if cb.cl < cb.cf then cb.size else cb.cl
  if mask = 0 then lim - cb.cf
  else
    ((List.range (lim - cb.cf)).takeWhile fun k => (cb.mem (cb.cf + k) &&& mask) = 0).length

/-! ## Calls -/

/-- What can be done with a buffer. -/
inductive Call
  | putc (c : UInt8)
  | getc
  | bToQ (cp : List UInt8)
  | qToB (count : ℕ)
  | ndflush (count : ℕ)

/-- What comes back: a number, or characters. -/
inductive Result
  | count (n : ℕ)
  | chars (l : List UInt8)
  | done
  deriving DecidableEq

/-- A call. -/
def call : Call → Option (Result × Pointers)
  | .putc c => (cb.putc c).map fun r => (.count r.1.toNat, r.2)
  | .getc => cb.getc.map fun r => (.chars r.1.toList, r.2)
  | .bToQ cp => (cb.bToQ cp).map fun r => (.count r.1, r.2)
  | .qToB count => (cb.qToB count).map fun r => (.chars r.1, r.2)
  | .ndflush count => (cb.ndflush count).map fun cb => (.done, cb)

/-- Calls one after the other. -/
def calls (cb : Pointers) : List Call → Option (List Result × Pointers)
  | [] => some ([], cb)
  | x :: xs =>
    match cb.call x with
    | none => none
    | some (result, cb) => (cb.calls xs).map fun r => (result :: r.1, r.2)

/-! ## Queues of characters -/

/-- A call, on a queue of at most some characters. -/
def Call.onQueue (bound : ℕ) (q : List UInt8) : Call → Result × List UInt8
  | .putc c => if q.length = bound then (.count 1, q) else (.count 0, q ++ [c])
  | .getc => (.chars (q.take 1), q.drop 1)
  | .bToQ cp =>
    (.count (cp.length - (bound - q.length)), q ++ cp.take (bound - q.length))
  | .qToB count => (.chars (q.take count), q.drop count)
  | .ndflush count => (.done, q.drop count)

/-- Calls one after the other, on a queue. -/
def Call.listOnQueue (bound : ℕ) (q : List UInt8) : List Call → List Result × List UInt8
  | [] => ([], q)
  | x :: xs =>
    let r := x.onQueue bound q
    let rs := Call.listOnQueue bound r.2 xs
    (r.1 :: rs.1, rs.2)

/-- The length of a buffer. -/
def length : ℕ := (cb.cl + cb.size - cb.cf) % cb.size

/-- The characters of a buffer, first in first. -/
def contents : List UInt8 :=
  (List.range cb.length).map fun k => cb.mem ((cb.cf + k) % cb.size)

end CirBuf.Pointers

end MachVirtuTerm
