import MachVirtuTerm.Device.CirBuf

/-!
# The input of a terminal

The input queue of a terminal holds bytes and, between them, quoted bytes and
events, which begin with a quote byte. Reads take the bytes; an event that they
come to is put in a place of its own, where a status call finds it. Reads that
find nothing are delayed, and filled when something comes in.
-/

open List

namespace MachVirtuTerm

namespace CharIo

/-- TTY_QUOTEC. -/
def ttyQuotec : UInt8 := 0xff

/-- TTMINBUF. -/
def ttMinBuf : ℤ := 90

/-- What follows the quote byte: TQ_QUOTEC and the others. -/
inductive Tq where
  | quotec
  | brk
  | badParity
  | flushed
  deriving DecidableEq

/-- Its byte in the queue. -/
def Tq.toByte : Tq → UInt8
  | .quotec => 0
  | .brk => 1
  | .badParity => 2
  | .flushed => 3

/-- The values of `t_outofband`. -/
inductive Toob where
  | noEvent
  | brk
  | badParity
  | flushed
  deriving DecidableEq

/-- An event, with its argument. -/
inductive Event where
  | brk (arg : UInt8)
  | badParity (arg : UInt8)
  | flushed
  deriving DecidableEq

/-- What is put in the queue. -/
inductive Sym where
  | byte (b : UInt8)
  | event (e : Event)
  deriving DecidableEq

/-- How a read fails. -/
inductive IoReturn where
  | outOfBand
  | ioError
  | wouldBlock
  deriving DecidableEq

/-- What a step shows. -/
inductive Out where
  /-- The input was put in the queue. -/
  | accepted (sym : Sym)
  /-- A read was successful, with these bytes. -/
  | data (bytes : List UInt8)
  /-- An event was stored in `t_outofband`. -/
  | reported (e : Event)
  /-- A read failed. -/
  | failed (ret : IoReturn)
  /-- A status call told what was in `t_outofband`. -/
  | status (event : Toob) (arg : UInt8)
  /-- The queue was emptied. -/
  | flushed
  | panic
  deriving DecidableEq

/-- A request to read. -/
structure Ior where
  ioCount : ℕ
  nowait : Bool
  deriving DecidableEq

/-- A terminal, as far as its input is concerned. -/
structure Tty (size : ℕ) where
  inq : CirBuf size
  nquoted : ℕ
  outofband : Toob
  outofbandarg : UInt8
  /-- TS_CARR_ON. -/
  carrOn : Bool
  /-- TS_ONDELAY. -/
  onDelay : Bool
  /-- TS_MIN: keep some input back. -/
  min : Bool
  /-- TS_MIN_TO: a timeout is set for that. -/
  minTo : Bool
  /-- TS_RTS_DOWN. -/
  rtsDown : Bool
  /-- There is a modem control routine. -/
  mctl : Bool
  delayedRead : List Ior
  /-- The delayed reads on their way to `char_read_done`. -/
  ioDone : List Ior

namespace Tty

variable {size : ℕ}

/-- The new queue of `ttychars`, with room to spare if there might be modem flow control. -/
def newInq (buf : ℕ → UInt8) (h : 0 < size) (mctl : Bool) : CirBuf size :=
  let inq := .cbAlloc buf h
  if mctl = true ∧ 30 < inq.cHog then { inq with cHog := inq.cHog - 30 } else inq

/-- A terminal as `ttychars` makes it, with a new queue. -/
def init (buf : ℕ → UInt8) (h : 0 < size) (carrOn onDelay min mctl : Bool) : Tty size where
  inq := newInq buf h mctl
  nquoted := 0
  outofband := .noEvent
  outofbandarg := 0
  carrOn := carrOn
  onDelay := onDelay
  min := min
  minTo := false
  rtsDown := false
  mctl := mctl
  delayedRead := []
  ioDone := []

/-! ## Reading -/

/-- An event with an argument: `getarg` in `char_read_quoted`. -/
def getArg (t : Tty size) (toob : Toob) (event : UInt8 → Event) : Tty size × List Out :=
  match t.inq.getc with
  | (none, _) => ({ t with outofband := toob, outofbandarg := 0 }, [.reported (event 0)])
  | (some c, inq) =>
    ({ t with inq := inq, outofband := toob, outofbandarg := c }, [.reported (event c)])

/-- What follows a quote byte: the switch in `char_read_quoted`. -/
def readQuoted (t : Tty size) : List UInt8 × Tty size × List Out :=
  match t.inq.getc with
  | (none, _) => ([], t, [])
  | (some q, inq) =>
    let t := { t with inq := inq }
    if q = Tq.quotec.toByte then ([ttyQuotec], t, [])
    else if q = Tq.brk.toByte then ([], t.getArg .brk .brk)
    else if q = Tq.badParity.toByte then ([], t.getArg .badParity .badParity)
    else if q = Tq.flushed.toByte then
      ([], { t with outofband := .flushed, outofbandarg := 0 }, [.reported .flushed])
    else ([], t, [])

/-- Read when there are some quoted characters, until there are none. Every turn
takes a byte from the queue, or ends the loop. -/
def charReadQuoted : ℕ → Tty size → ℕ → List UInt8 × Tty size × List Out
  | 0, t, _ => ([], t, [])
  | _ + 1, t, 0 => ([], t, [])
  | fuel + 1, t, count + 1 =>
    match t.inq.getc with
    | (none, _) => ([], { t with nquoted := 0 }, [])
    | (some c, inq) =>
      let t := { t with inq := inq }
      if c = ttyQuotec then
        let (bytes, t, outs) := t.readQuoted
        let t := { t with nquoted := t.nquoted - 1 }
        if t.outofband ≠ .noEvent ∨ t.nquoted = 0 then (bytes, t, outs)
        else
          let (rest, t, outs') := charReadQuoted fuel t (count + 1 - bytes.length)
          (bytes ++ rest, t, outs ++ outs')
      else
        let (rest, t, outs) := charReadQuoted fuel t count
        (c :: rest, t, outs)

/-- `q_to_b` of the input queue. -/
def inqToB (t : Tty size) (count : ℕ) : List UInt8 × Tty size :=
  let (bytes, inq) := t.inq.qToB count
  (bytes, { t with inq := inq })

def doCharRead (t : Tty size) (ior : Ior) : Tty size × List Out :=
  if t.outofband ≠ .noEvent then (t, [.failed .outOfBand])
  else if t.inq.cCc ≤ 0 then
    if !t.carrOn && !t.onDelay then (t, [.failed .ioError])
    else if !t.carrOn && ior.nowait then (t, [.failed .wouldBlock])
    else ({ t with delayedRead := t.delayedRead ++ [ior] }, [])
  else if 0 < t.nquoted then
    let (bytes, t, outs) := charReadQuoted size t ior.ioCount
    if t.outofband ≠ .noEvent then
      if bytes.length = 0 then (t, outs ++ [.failed .outOfBand])
      else (t, .data bytes :: outs)
    else
      let (rest, t) := t.inqToB (ior.ioCount - bytes.length)
      (t, .data (bytes ++ rest) :: outs)
  else
    let (bytes, t) := t.inqToB ior.ioCount
    (t, [.data bytes])

/-- The loop of `tty_queue_filled_reads`, over the delayed reads. -/
def fillReads : List Ior → Tty size → Tty size × List Out
  | [], t => ({ t with delayedRead := [] }, [])
  | ior :: qh, t =>
    if t.inq.cCc ≤ 0 then ({ t with delayedRead := ior :: qh }, [])
    else
      let (bytes, t, outs) :=
        if 0 < t.nquoted then
          let (bytes, t, outs) := charReadQuoted size t ior.ioCount
          let (rest, t) := t.inqToB (ior.ioCount - bytes.length)
          (bytes ++ rest, t, outs)
        else
          let (bytes, t) := t.inqToB ior.ioCount
          (bytes, t, [])
      let (t, outs') := fillReads qh t
      (t, .data bytes :: (outs ++ outs'))

def ttyQueueFilledReads (t : Tty size) : Tty size × List Out := fillReads t.delayedRead t

/-! ## Input -/

/-- The symbol of a quoted character. -/
def symOf (qc : Tq) (qarg : Option UInt8) : Sym :=
  match qc with
  | .quotec => .byte ttyQuotec
  | .brk => .event (.brk (qarg.getD 0))
  | .badParity => .event (.badParity (qarg.getD 0))
  | .flushed => .event .flushed

/-- Add a quoted character to the input queue, with its argument if there is
one. -/
def ttyquoted (t : Tty size) (qc : Tq) (qarg : Option UInt8) : Tty size × List Out :=
  let spaceneeded : ℤ := if qarg.isSome then 3 else 2
  if spaceneeded ≤ t.inq.cbSpace then
    let (full, inq) := t.inq.putc ttyQuotec
    let (full', inq) := inq.putc qc.toByte
    let (full'', inq) := match qarg with
      | none => (false, inq)
      | some arg => inq.putc arg
    if full || full' || full'' then (t, [.panic])
    else
      let (t, outs) := ttyQueueFilledReads { t with inq := inq, nquoted := t.nquoted + 1 }
      (t, .accepted (symOf qc qarg) :: outs)
  else (t, [])

/-- Put an input character on the input queue. -/
def ttyinput (t : Tty size) (c : BitVec 32) : Tty size × List Out :=
  if t.inq.cHog ≤ t.inq.cCc then
    ttyQueueFilledReads { t with rtsDown := t.rtsDown || t.mctl }
  else
    let c := UInt8.ofBitVec (c.truncate 8)
    let (full, inq) := t.inq.putc c
    let t := { t with rtsDown := false, inq := inq }
    let entered := if full then [] else [Out.accepted (.byte c)]
    let awakeit := !t.min || ttMinBuf < t.inq.cCc
    if awakeit then
      let (t, outs) := ttyQueueFilledReads { t with minTo := false }
      (t, entered ++ outs)
    else ({ t with minTo := true }, entered)

/-- Send any input that was kept back up to the user. -/
def ttypush (t : Tty size) : Tty size × List Out :=
  if t.minTo && t.inq.cCc ≠ 0 then
    let (t, outs) := t.ttyQueueFilledReads
    ({ t with minTo := false }, outs)
  else ({ t with minTo := false }, [])

/-- `getc` until there is nothing more. -/
def drain : ℕ → CirBuf size → CirBuf size
  | 0, inq => inq
  | fuel + 1, inq =>
    match inq.getc with
    | (none, _) => inq
    | (some _, inq) => drain fuel inq

/-- Flush the input: the delayed reads are tried again. -/
def ttyflush (t : Tty size) : Tty size × List Out :=
  ({ t with
    inq := drain size t.inq
    nquoted := 0
    delayedRead := []
    ioDone := t.ioDone ++ t.delayedRead }, [.flushed])

/-- The status call for the event. -/
def ttyGetOutOfBand (t : Tty size) : Tty size × List Out :=
  ({ t with outofband := .noEvent }, [.status t.outofband t.outofbandarg])

end Tty

/-- A step on the terminal, each under its lock. -/
inductive Action where
  | input (c : BitVec 32)
  | quoted (qc : Tq) (qarg : Option UInt8)
  | read (ior : Ior)
  /-- A delayed read comes to `char_read_done`. -/
  | readDone (ior : Ior)
  | status
  | flush
  | push
  /-- The state of the line is changed. -/
  | mode (carrOn onDelay min mctl : Bool)
  deriving DecidableEq

/-- What a step does, and what it shows. -/
def Tty.step {size : ℕ} (t : Tty size) : Action → Option (Tty size × List Out)
  | .input c => some (t.ttyinput c)
  | .quoted qc qarg => some (t.ttyquoted qc qarg)
  | .read ior => some (t.doCharRead ior)
  | .readDone ior =>
    if ior ∈ t.ioDone then some ({ t with ioDone := t.ioDone.erase ior }.doCharRead ior) else none
  | .status => some t.ttyGetOutOfBand
  | .flush => some t.ttyflush
  | .push => some t.ttypush
  | .mode carrOn onDelay min mctl =>
    some ({ t with carrOn := carrOn, onDelay := onDelay, min := min, mctl := mctl }, [])

end CharIo

end MachVirtuTerm

/-!
# What lies in the input queue of a terminal

The bytes of the queue are those of a list of items: bytes, quoted quote bytes
and events. A read takes the bytes of the items up to its count, and comes to an
event only if it wants more than the bytes before it.
-/

namespace MachVirtuTerm

namespace CharIo

/-- What lies in the queue. -/
inductive Item where
  | raw (b : UInt8)
  | quotec
  | event (e : Event)
  deriving DecidableEq

open Item

/-- The value of `t_outofband` for an event. -/
def Event.toob : Event → Toob
  | .brk _ => .brk
  | .badParity _ => .badParity
  | .flushed => .flushed

/-- The value of `t_outofbandarg` for an event. -/
def Event.arg : Event → UInt8
  | .brk arg => arg
  | .badParity arg => arg
  | .flushed => 0

namespace Item

/-- The bytes of an item in the queue. -/
def bytes : Item → List UInt8
  | .raw b => [b]
  | .quotec => [ttyQuotec, Tq.quotec.toByte]
  | .event (.brk arg) => [ttyQuotec, Tq.brk.toByte, arg]
  | .event (.badParity arg) => [ttyQuotec, Tq.badParity.toByte, arg]
  | .event .flushed => [ttyQuotec, Tq.flushed.toByte]

/-- What an item stands for. -/
def sym : Item → Sym
  | .raw b => .byte b
  | .quotec => .byte ttyQuotec
  | .event e => .event e

/-- The items with a quote byte before them. -/
def quoted : Item → Bool
  | .raw _ => false
  | _ => true

theorem bytes_ne_nil (item : Item) : item.bytes ≠ [] := by
  cases item with
  | raw b => exact cons_ne_nil b []
  | quotec => exact cons_ne_nil _ _
  | event e => cases e <;> exact cons_ne_nil _ _

end Item

/-- The bytes that a read may take, and what is left. -/
def takeBytes : ℕ → List Item → List UInt8 × List Item
  | _, [] => ([], [])
  | 0, item :: items => ([], item :: items)
  | n + 1, .raw b :: items => (b :: (takeBytes n items).1, (takeBytes n items).2)
  | n + 1, .quotec :: items => (ttyQuotec :: (takeBytes n items).1, (takeBytes n items).2)
  | _ + 1, .event e :: items => ([], .event e :: items)

variable {items items' : List Item} {n count : ℕ} {raws : List UInt8}

@[simp] theorem takeBytes_zero : takeBytes 0 items = ([], items) := by
  cases items <;> rfl

/-- What is taken stood at the start. -/
theorem takeBytes_syms (n : ℕ) (items : List Item) :
    items.map sym = (takeBytes n items).1.map Sym.byte ++ (takeBytes n items).2.map sym := by
  induction items generalizing n with
  | nil => simp [takeBytes]
  | cons item items ih =>
    cases n with
    | zero => simp
    | succ n =>
      cases item with
      | raw b => simp [takeBytes, sym, ← ih n]
      | quotec => simp [takeBytes, sym, ← ih n]
      | event e => simp [takeBytes]

/-- What is left stood at the end. -/
theorem takeBytes_suffix (n : ℕ) (items : List Item) : (takeBytes n items).2 <:+ items := by
  induction items generalizing n with
  | nil => cases n <;> exact suffix_rfl
  | cons item items ih =>
    cases n with
    | zero => exact suffix_rfl
    | succ n =>
      cases item with
      | raw b => exact (ih n).trans (suffix_cons _ _)
      | quotec => exact (ih n).trans (suffix_cons _ _)
      | event e => exact suffix_rfl

/-- Of bytes that are not quoted, any number can be taken. -/
theorem takeBytes_raws : takeBytes n (raws.map .raw) = (raws.take n, (raws.drop n).map .raw) := by
  induction raws generalizing n with
  | nil => simp [takeBytes]
  | cons b raws ih =>
    cases n with
    | zero => simp
    | succ n => simp [takeBytes, ih]

/-- A read comes to an event. -/
def Reaches (n : ℕ) (items : List Item) : Prop :=
  (takeBytes n items).1.length < n ∧ ∃ e items', (takeBytes n items).2 = .event e :: items'

theorem not_reaches_zero : ¬ Reaches 0 items := fun h => absurd h.1 (Nat.not_lt_zero _)

theorem reaches_raw {b : UInt8} : Reaches (n + 1) (.raw b :: items) ↔ Reaches n items := by
  simp only [Reaches, takeBytes, length_cons, Nat.add_lt_add_iff_right]

theorem reaches_quotec : Reaches (n + 1) (.quotec :: items) ↔ Reaches n items := by
  simp only [Reaches, takeBytes, length_cons, Nat.add_lt_add_iff_right]

theorem reaches_event {e : Event} : Reaches (n + 1) (.event e :: items) :=
  ⟨Nat.succ_pos n, e, items, rfl⟩

theorem not_reaches_raws : ¬ Reaches n (raws.map .raw) := by
  rintro ⟨-, e, items', heq⟩
  rw [takeBytes_raws] at heq
  change (raws.drop n).map raw = _ at heq
  have hmem : event e ∈ (raws.drop n).map raw := heq ▸ mem_cons_self
  obtain ⟨b, -, hb⟩ := mem_map.mp hmem
  cases hb

/-- A read takes something, unless an event comes first. -/
theorem takeBytes_ne_nil (hn : 0 < n) (hitems : items ≠ []) (hevent : ¬ Reaches n items) :
    (takeBytes n items).1 ≠ [] := by
  obtain ⟨n, rfl⟩ : ∃ k, n = k + 1 := ⟨n - 1, by omega⟩
  cases items with
  | nil => exact absurd rfl hitems
  | cons item items =>
    cases item with
    | raw b => exact cons_ne_nil _ _
    | quotec => exact cons_ne_nil _ _
    | event e => exact absurd reaches_event hevent

/-- Without quoted items there are only bytes. -/
theorem exists_raws (h : items.countP quoted = 0) : ∃ raws : List UInt8, items = raws.map .raw := by
  induction items with
  | nil => exact ⟨[], rfl⟩
  | cons item items ih =>
    rw [countP_cons] at h
    obtain ⟨raws, rfl⟩ := ih (by omega)
    cases item with
    | raw b => exact ⟨b :: raws, rfl⟩
    | quotec => simp [quoted] at h
    | event e => simp [quoted] at h

theorem countP_raws : (raws.map raw).countP quoted = 0 := by
  rw [countP_eq_zero]
  intro item hitem
  obtain ⟨b, -, rfl⟩ := mem_map.mp hitem
  simp [quoted]

theorem flatMap_raws : (raws.map raw).flatMap Item.bytes = raws := by
  induction raws with
  | nil => rfl
  | cons b raws ih => simp [Item.bytes, ih]

namespace Tty

variable {size : ℕ}

/-- The queue holds the items. A byte that looks like a quote byte does not lie before
a quoted one. -/
structure Holds (t : Tty size) (items : List Item) : Prop where
  ok : t.inq.Ok
  toList_eq : t.inq.toList = items.flatMap Item.bytes
  nquoted_eq : t.nquoted = items.countP quoted
  unmixed : items.Pairwise fun x y => x = .raw ttyQuotec → y.quoted = false

variable {t t' : Tty size} {c : UInt8} {bytes : List UInt8}

theorem Holds.cCc_le_zero_iff (h : t.Holds items) : t.inq.cCc ≤ 0 ↔ items = [] := by
  rw [h.ok.cCc_le_zero_iff, h.toList_eq]
  cases items with
  | nil => simp
  | cons item items =>
    simp only [flatMap_cons, append_eq_nil_iff, item.bytes_ne_nil, false_and, reduceCtorEq]

/-- The reads that wait are the same. -/
structure SameReads (t t' : Tty size) : Prop where
  delayedRead : t'.delayedRead = t.delayedRead
  ioDone : t'.ioDone = t.ioDone

/-- The event is stored. -/
structure Stored (t : Tty size) (e : Event) : Prop where
  outofband : t.outofband = e.toob
  outofbandarg : t.outofbandarg = e.arg

/-- An event with its argument is taken from the queue. -/
theorem getArg_spec {toob : Toob} {event : UInt8 → Event} (hok : t.inq.Ok)
    (hlist : t.inq.toList = c :: bytes) :
    ∃ inq, t.getArg toob event =
        ({ t with inq := inq, outofband := toob, outofbandarg := c }, [.reported (event c)]) ∧
      inq.Ok ∧ inq.toList = bytes := by
  obtain ⟨inq, hget, hok', hbytes⟩ := hok.getc hlist
  refine ⟨inq, ?_, hok', hbytes⟩
  unfold getArg
  rw [hget]

/-- A quoted item is taken from the queue, behind its quote byte. -/
theorem readQuoted_quotec (hok : t.inq.Ok)
    (hlist : t.inq.toList = Tq.quotec.toByte :: bytes) :
    ∃ inq, t.readQuoted = ([ttyQuotec], { t with inq := inq }, []) ∧ inq.Ok ∧
      inq.toList = bytes := by
  obtain ⟨inq, hget, hok', hbytes⟩ := hok.getc hlist
  refine ⟨inq, ?_, hok', hbytes⟩
  unfold readQuoted
  rw [hget]
  rfl

theorem readQuoted_event {e : Event} (hok : t.inq.Ok)
    (hlist : ttyQuotec :: t.inq.toList = (event e).bytes ++ bytes) :
    ∃ inq, t.readQuoted =
        ([], { t with inq := inq, outofband := e.toob, outofbandarg := e.arg },
          [.reported e]) ∧ inq.Ok ∧ inq.toList = bytes := by
  cases e with
  | brk arg =>
    obtain ⟨inq, hget, hok', hbytes⟩ := hok.getc (List.cons.inj hlist).2
    obtain ⟨inq', harg, hok'', hbytes'⟩ :=
      @getArg_spec _ { t with inq := inq } arg bytes .brk .brk hok' hbytes
    refine ⟨inq', ?_, hok'', hbytes'⟩
    unfold readQuoted
    rw [hget]
    exact congrArg (fun r => (([] : List UInt8), r)) harg
  | badParity arg =>
    obtain ⟨inq, hget, hok', hbytes⟩ := hok.getc (List.cons.inj hlist).2
    obtain ⟨inq', harg, hok'', hbytes'⟩ :=
      @getArg_spec _ { t with inq := inq } arg bytes .badParity .badParity hok' hbytes
    refine ⟨inq', ?_, hok'', hbytes'⟩
    unfold readQuoted
    rw [hget]
    exact congrArg (fun r => (([] : List UInt8), r)) harg
  | flushed =>
    obtain ⟨inq, hget, hok', hbytes⟩ := hok.getc (List.cons.inj hlist).2
    refine ⟨inq, ?_, hok', hbytes⟩
    unfold readQuoted
    rw [hget]
    rfl

/-- What `char_read_quoted` leaves: it has taken bytes up to the count, or up to
the last quoted one, or up to an event and the event. -/
inductive ReadQuoted (t : Tty size) (items : List Item) (count : ℕ) :
    List UInt8 × Tty size × List Out → Prop
  | bytes {bytes : List UInt8} {t' : Tty size} {items' : List Item} (holds : t'.Holds items')
      (same : SameReads t t') (outofband : t'.outofband = t.outofband)
      (outofbandarg : t'.outofbandarg = t.outofbandarg)
      (taken : takeBytes count items = (bytes ++ (takeBytes (count - bytes.length) items').1,
        (takeBytes (count - bytes.length) items').2))
      (done : bytes.length = count ∨ t'.nquoted = 0) (clear : ¬ Reaches count items) :
      ReadQuoted t items count (bytes, t', [])
  | event {bytes : List UInt8} {t' : Tty size} {items' : List Item} {e : Event}
      (holds : t'.Holds items') (same : SameReads t t') (free : t.outofband = .noEvent)
      (stored : t'.Stored e) (taken : takeBytes count items = (bytes, .event e :: items'))
      (short : bytes.length < count) : ReadQuoted t items count (bytes, t', [.reported e])

/-- The items behind the first one lie in the queue. -/
theorem Holds.tail {item : Item} {inq : CirBuf size} {nquoted : ℕ} {toob : Toob} {arg : UInt8}
    (h : t.Holds (item :: items)) (hok : inq.Ok) (hlist : inq.toList = items.flatMap Item.bytes)
    (hnquoted : nquoted = items.countP quoted) :
    Holds { t with inq := inq, nquoted := nquoted, outofband := toob, outofbandarg := arg } items :=
  ⟨hok, hlist, hnquoted, (pairwise_cons.mp h.unmixed).2⟩

/-- An item that is a byte comes before what is read after it. -/
theorem ReadQuoted.cons {item : Item} {b : UInt8} {r : List UInt8 × Tty size × List Out}
    (hbyte : ∀ n, takeBytes (n + 1) (item :: items) =
      (b :: (takeBytes n items).1, (takeBytes n items).2))
    (h : ReadQuoted t' items count r) (hsame : SameReads t t')
    (hband : t'.outofband = t.outofband) (harg : t'.outofbandarg = t.outofbandarg) :
    ReadQuoted t (item :: items) (count + 1) (b :: r.1, r.2.1, r.2.2) := by
  cases h with
  | bytes holds same outofband outofbandarg taken done clear =>
    refine .bytes holds ⟨same.1.trans hsame.1, same.2.trans hsame.2⟩ (outofband.trans hband)
      (outofbandarg.trans harg) ?_ (done.imp_left fun heq => by rw [length_cons, heq])
      fun hreaches => clear ?_
    · rw [hbyte, taken, length_cons, Nat.add_sub_add_right, cons_append]
    · simpa only [Reaches, hbyte, length_cons, Nat.add_lt_add_iff_right] using hreaches
  | event holds same free stored taken short =>
    refine .event holds ⟨same.1.trans hsame.1, same.2.trans hsame.2⟩ (hband ▸ free) stored ?_ ?_
    · rw [hbyte, taken]
    · exact Nat.succ_lt_succ short

/-- `char_read_quoted` reads the items one after the other. -/
theorem charReadQuoted_spec {fuel : ℕ} (h : t.Holds items) (hq : 0 < t.nquoted)
    (hfree : t.outofband = .noEvent ∨ t.nquoted = 1 ∧ ¬ Reaches count items)
    (hfuel : t.inq.toList.length < fuel) :
    ReadQuoted t items count (charReadQuoted fuel t count) := by
  induction fuel generalizing t items count with
  | zero => omega
  | succ fuel ih =>
    cases count with
    | zero =>
      unfold charReadQuoted
      refine .bytes h ⟨rfl, rfl⟩ rfl rfl ?_ (.inl rfl) not_reaches_zero
      rw [takeBytes_zero, length_nil, Nat.sub_zero, takeBytes_zero, nil_append]
    | succ count =>
      have hcount := h.nquoted_eq
      have hlength := congrArg List.length h.toList_eq
      cases items with
      | nil =>
        rw [countP_nil] at hcount
        omega
      | cons item items =>
        rw [countP_cons] at hcount
        rw [flatMap_cons, length_append] at hlength
        cases item with
        | raw b =>
          have hb : ¬ b = ttyQuotec := by
            rintro rfl
            have hnone : items.countP quoted = 0 := by
              rw [countP_eq_zero]
              intro item hitem
              rw [(pairwise_cons.mp h.unmixed).1 item hitem rfl]
              exact Bool.false_ne_true
            simp only [quoted, Bool.false_eq_true, if_false] at hcount
            omega
          obtain ⟨inq, hget, hok, hlist⟩ := h.ok.getc
            (show t.inq.toList = b :: items.flatMap Item.bytes from h.toList_eq)
          have hholds : Holds { t with inq := inq } items :=
            h.tail hok hlist (by simpa [quoted] using hcount)
          have hread : ReadQuoted { t with inq := inq } items count
              (charReadQuoted fuel { t with inq := inq } count) := by
            refine ih hholds hq (hfree.imp_right fun hand => ⟨hand.1, hand.2 ∘ reaches_raw.mpr⟩) ?_
            simp only [Item.bytes, length_singleton] at hlength
            rw [hlist]
            omega
          unfold charReadQuoted
          simp only [hget, if_neg hb]
          exact hread.cons (fun _ => rfl) ⟨rfl, rfl⟩ rfl rfl
        | quotec =>
          obtain ⟨inq, hget, hok, hlist⟩ := h.ok.getc
            (show t.inq.toList = ttyQuotec :: Tq.quotec.toByte :: items.flatMap Item.bytes
              from h.toList_eq)
          obtain ⟨inq', hquoted, hok', hlist'⟩ :=
            @readQuoted_quotec size { t with inq := inq } _ hok hlist
          have hnquoted : t.nquoted - 1 = items.countP quoted := by
            simp only [quoted, if_true] at hcount
            omega
          have hholds : Holds { t with inq := inq', nquoted := t.nquoted - 1 } items :=
            h.tail hok' hlist' hnquoted
          unfold charReadQuoted
          simp only [hget, if_true, hquoted]
          by_cases hlast : t.outofband ≠ .noEvent ∨ t.nquoted - 1 = 0
          · have hzero : t.nquoted - 1 = 0 := by
              rcases hlast with hband | hzero
              · have hone := (hfree.resolve_left hband).1
                omega
              · exact hzero
            rw [if_pos hlast]
            obtain ⟨raws, hraws⟩ := exists_raws (hnquoted ▸ hzero)
            refine .bytes hholds ⟨rfl, rfl⟩ rfl rfl ?_ (.inr hzero) ?_
            · rw [takeBytes, length_singleton, Nat.add_sub_cancel, singleton_append]
            · rw [reaches_quotec, hraws]
              exact not_reaches_raws
          · rw [if_neg hlast]
            rw [not_or, not_not] at hlast
            have hread : ReadQuoted { t with inq := inq', nquoted := t.nquoted - 1 } items count
                (charReadQuoted fuel { t with inq := inq', nquoted := t.nquoted - 1 } count) := by
              refine ih hholds (Nat.pos_of_ne_zero hlast.2) (.inl hlast.1) ?_
              simp only [Item.bytes, length_cons, length_nil] at hlength
              rw [hlist']
              omega
            exact hread.cons (fun _ => rfl) ⟨rfl, rfl⟩ rfl rfl
        | event e =>
          have hband : t.outofband = .noEvent :=
            hfree.resolve_right fun hand => hand.2 reaches_event
          have hbytes : ∃ rest, (event e).bytes = ttyQuotec :: rest := by
            cases e <;> exact ⟨_, rfl⟩
          obtain ⟨rest, hrestBytes⟩ := hbytes
          have hfirst : t.inq.toList = ttyQuotec :: (rest ++ items.flatMap Item.bytes) := by
            rw [h.toList_eq, flatMap_cons, hrestBytes, cons_append]
          obtain ⟨inq, hget, hok, hlist⟩ := h.ok.getc hfirst
          obtain ⟨inq', hquoted, hok', hlist'⟩ :=
            @readQuoted_event size { t with inq := inq } (items.flatMap Item.bytes) e hok
              (by rw [hlist, hrestBytes, cons_append])
          have hnquoted : t.nquoted - 1 = items.countP quoted := by
            simp only [quoted, if_true] at hcount
            omega
          have hstored : e.toob ≠ .noEvent := by
            cases e <;> simp [Event.toob]
          unfold charReadQuoted
          simp only [hget, if_true, hquoted]
          rw [if_pos (.inl hstored)]
          refine .event (h.tail hok' hlist' hnquoted) ⟨rfl, rfl⟩ hband ⟨rfl, rfl⟩ ?_ ?_
          · rw [takeBytes]
          · rw [length_nil]
            omega

/-- `q_to_b` takes bytes that are not quoted. -/
theorem inqToB_spec (h : t.Holds items) (hq : count = 0 ∨ t.nquoted = 0) :
    ∃ inq, t.inqToB count = ((takeBytes count items).1, { t with inq := inq }) ∧
      Holds { t with inq := inq } (takeBytes count items).2 := by
  rcases hq with rfl | hq
  · obtain ⟨inq, hget, hok, hlist⟩ := h.ok.qToB 0
    rw [drop_zero] at hlist
    refine ⟨inq, ?_, ?_⟩
    · unfold inqToB
      rw [hget, takeBytes_zero, take_zero]
    · rw [takeBytes_zero]
      exact ⟨hok, hlist.trans h.toList_eq, h.nquoted_eq, h.unmixed⟩
  have hunmixed := h.unmixed.sublist (takeBytes_suffix count items).sublist
  obtain ⟨raws, rfl⟩ := exists_raws (h.nquoted_eq ▸ hq)
  obtain ⟨inq, hget, hok, hlist⟩ := h.ok.qToB count
  have hraws := h.toList_eq
  rw [flatMap_raws] at hraws
  rw [hraws] at hget hlist
  refine ⟨inq, ?_, ⟨hok, ?_, ?_, hunmixed⟩⟩
  · unfold inqToB
    rw [hget, takeBytes_raws]
  · rw [takeBytes_raws, flatMap_raws]
    exact hlist
  · rw [takeBytes_raws, countP_raws]
    exact hq

/-- What `q_to_b` adds to it are the other bytes up to the count. -/
theorem inqToB_rest (h : t.Holds items') (hdone : bytes.length = count ∨ t.nquoted = 0)
    (htaken : takeBytes count items = (bytes ++ (takeBytes (count - bytes.length) items').1,
      (takeBytes (count - bytes.length) items').2)) :
    ∃ rest inq, t.inqToB (count - bytes.length) = (rest, { t with inq := inq }) ∧
      bytes ++ rest = (takeBytes count items).1 ∧
      Holds { t with inq := inq } (takeBytes count items).2 := by
  obtain ⟨inq, hget, hholds⟩ := inqToB_spec h
    (show count - bytes.length = 0 ∨ t.nquoted = 0 from hdone.imp_left fun heq => by omega)
  rw [htaken]
  exact ⟨_, inq, hget, rfl, hholds⟩

end Tty

end CharIo

end MachVirtuTerm
