import MachVirtuTerm.Device.TtyInput
import MachVirtuTerm.Lib.Run

/-!
# The input of a terminal, from end to end

What a terminal shows is what a channel of bytes and events may show: reads get
the bytes in the order in which they were accepted, an event is stored when it is
next and no other one is pending, and no successful read is empty.
-/

open List

namespace MachVirtuTerm

namespace CharIo

/-- A channel: what was accepted and not yet given, and the event that is
pending. -/
structure Channel where
  queue : List Sym
  pending : Option Event

namespace Channel

/-- What a status call tells. -/
def Tells (c : Channel) (event : Toob) (arg : UInt8) : Prop :=
  match c.pending with
  | none => event = .noEvent
  | some .flushed => event = .flushed
  | some e => event = e.toob ∧ arg = e.arg

instance (c : Channel) (event : Toob) (arg : UInt8) : Decidable (c.Tells event arg) := by
  unfold Tells
  split <;> infer_instance

/-- What a channel may show next. -/
def step (c : Channel) : Out → Option Channel
  | .accepted sym => some { c with queue := c.queue ++ [sym] }
  | .data bytes =>
    if bytes ≠ [] ∧ bytes.map Sym.byte <+: c.queue then
      some { c with queue := c.queue.drop bytes.length }
    else none
  | .reported e =>
    if c.pending = none ∧ c.queue.head? = some (.event e) then some ⟨c.queue.tail, some e⟩
    else none
  | .status event arg => if c.Tells event arg then some { c with pending := none } else none
  | .failed _ => some c
  | .flushed => some { c with queue := [] }
  | .panic => none

/-- What it may show one after the other. -/
def run (c : Channel) (outs : List Out) : Option Channel := outs.foldlM step c

variable {c c' : Channel} {outs outs' : List Out} {out : Out} {bytes : List UInt8}
  {queue : List Sym} {pending : Option Event}

theorem run_append (h : c.run outs = some c') : c.run (outs ++ outs') = c'.run outs' := by
  unfold run at h ⊢
  rw [foldlM_append, h]
  rfl

theorem run_cons (h : c.step out = some c') : c.run (out :: outs) = c'.run outs := by
  unfold run
  rw [foldlM_cons, h]
  rfl

/-- A read takes the first bytes. -/
theorem step_data (h : bytes ≠ []) :
    step ⟨bytes.map .byte ++ queue, pending⟩ (.data bytes) = some ⟨queue, pending⟩ := by
  refine (if_pos ⟨h, prefix_append _ _⟩).trans ?_
  simp

/-- An event is stored if it comes next. -/
theorem step_reported {e : Event} :
    step ⟨.event e :: queue, none⟩ (.reported e) = some ⟨queue, some e⟩ :=
  if_pos ⟨rfl, rfl⟩

end Channel

namespace Tty

variable {size : ℕ} {t t' : Tty size} {items items' : List Item} {raws : List UInt8}

/-- The event that is pending. -/
def pending (t : Tty size) : Option Event :=
  match t.outofband with
  | .noEvent => none
  | .brk => some (.brk t.outofbandarg)
  | .badParity => some (.badParity t.outofbandarg)
  | .flushed => some .flushed

theorem pending_of_stored {e : Event} (h : t.Stored e) : t.pending = some e := by
  unfold pending
  rw [h.outofband, h.outofbandarg]
  cases e <;> rfl

theorem pending_eq_none_iff : t.pending = none ↔ t.outofband = .noEvent := by
  unfold pending
  cases t.outofband <;> simp

theorem pending_congr (h : t'.outofband = t.outofband) (harg : t'.outofbandarg = t.outofbandarg) :
    t'.pending = t.pending := by
  unfold pending
  rw [h, harg]

/-- The channel that a terminal with some items in its queue is. -/
def channel (t : Tty size) (items : List Item) : Channel := ⟨items.map Item.sym, t.pending⟩

/-- The invariant: nothing quoted lies in the queue while a read waits. -/
structure Inv (t : Tty size) (items : List Item) : Prop where
  holds : t.Holds items
  waiting : t.delayedRead ≠ [] → t.nquoted = 0
  count_pos : ∀ ior ∈ t.delayedRead ++ t.ioDone, 0 < ior.ioCount

/-! ## Reads -/

variable {n count : ℕ}

/-- A read that does not come to an event takes what it may. -/
theorem channel_data (hne : (takeBytes n items).1 ≠ []) (hpending : t'.pending = t.pending) :
    (t.channel items).step (.data (takeBytes n items).1) =
      some (t'.channel (takeBytes n items).2) := by
  unfold channel
  rw [takeBytes_syms n items, hpending]
  exact Channel.step_data hne

/-- A read that comes to an event stores it, if none is pending. -/
theorem channel_event {e : Event} {bytes : List UInt8}
    (htaken : takeBytes n items = (bytes, .event e :: items')) (hfree : t.pending = none)
    (hstored : t'.pending = some e) (hne : bytes ≠ []) :
    (t.channel items).run [.data bytes, .reported e] = some (t'.channel items') := by
  unfold channel
  rw [takeBytes_syms n items, htaken, hfree, hstored, Channel.run_cons (Channel.step_data hne)]
  exact Channel.run_cons Channel.step_reported

/-- What is read from a queue without quoted items. -/
theorem readRaw (h : t.Holds items) (hq : t.nquoted = 0) (hne : items ≠ []) (hcount : 0 < count) :
    ∃ inq, t.inqToB count = ((takeBytes count items).1, { t with inq := inq }) ∧
      Holds { t with inq := inq } (takeBytes count items).2 ∧
      (t.channel items).step (.data (takeBytes count items).1) =
        some (channel { t with inq := inq } (takeBytes count items).2) := by
  obtain ⟨inq, hget, hholds⟩ := @inqToB_spec items count size t h (.inr hq)
  have hclear : ¬ Reaches count items := by
    obtain ⟨raws, rfl⟩ := exists_raws (h.nquoted_eq ▸ hq)
    exact not_reaches_raws
  exact ⟨inq, hget, hholds, channel_data (takeBytes_ne_nil hcount hne hclear) rfl⟩

/-- What is read from a queue with quoted items. -/
theorem readQuotedFirst (h : t.Holds items) (hq : 0 < t.nquoted) (hne : items ≠ [])
    (hcount : 0 < count)
    (hfree : t.outofband = .noEvent ∨ t.nquoted = 1 ∧ ¬ Reaches count items) :
    (∃ bytes t₁ rest t', charReadQuoted size t count = (bytes, t₁, []) ∧
      t₁.outofband = t.outofband ∧ t₁.inqToB (count - bytes.length) = (rest, t') ∧
      t'.Holds (takeBytes count items).2 ∧ SameReads t t' ∧ t'.outofband = t.outofband ∧
      ¬ Reaches count items ∧
      (t.channel items).step (.data (bytes ++ rest)) =
        some (t'.channel (takeBytes count items).2)) ∨
    ∃ bytes t' e items', charReadQuoted size t count = (bytes, t', [.reported e]) ∧
      t'.Holds items' ∧ SameReads t t' ∧ t'.Stored e ∧ t.outofband = .noEvent ∧
      takeBytes count items = (bytes, .event e :: items') ∧ bytes.length < count := by
  have hread := @charReadQuoted_spec items count size t size h hq hfree t.inq.length_toList_lt
  cases hresult : charReadQuoted size t count with
  | mk bytes r =>
    obtain ⟨t₁, outs⟩ := r
    rw [hresult] at hread
    cases hread with
    | bytes holds same outofband outofbandarg taken done clear =>
      obtain ⟨rest, inq, hget, heq, hholds⟩ := inqToB_rest holds done taken
      refine .inl ⟨bytes, t₁, rest, _, rfl, outofband, hget, hholds, ⟨same.1, same.2⟩, outofband,
        clear, ?_⟩
      rw [heq]
      exact channel_data (takeBytes_ne_nil hcount hne clear) (pending_congr outofband outofbandarg)
    | event holds same free stored taken short =>
      exact .inr ⟨bytes, t₁, _, _, rfl, holds, same, stored, free, taken, short⟩

/-- The reads that wait are the same, and nothing more is quoted. -/
theorem Inv.mono (h : t.Inv items) (hholds : t'.Holds items') (hsame : SameReads t t')
    (hle : t.nquoted = 0 → t'.nquoted = 0) : t'.Inv items' where
  holds := hholds
  waiting hwaits := hle (h.waiting (hsame.delayedRead ▸ hwaits))
  count_pos := by
    rw [hsame.delayedRead, hsame.ioDone]
    exact h.count_pos

/-- A read shows what the channel may show. -/
theorem doCharRead_spec {ior : Ior} (h : t.Inv items) (hcount : 0 < ior.ioCount) :
    ∃ items', (t.doCharRead ior).1.Inv items' ∧
      (t.channel items).run (t.doCharRead ior).2 = some ((t.doCharRead ior).1.channel items') := by
  unfold doCharRead
  by_cases hband : t.outofband = .noEvent
  · rw [if_neg (not_not.mpr hband)]
    by_cases hempty : t.inq.cCc ≤ 0
    · rw [if_pos hempty]
      split
      · exact ⟨items, h, rfl⟩
      · split
        · exact ⟨items, h, rfl⟩
        · refine ⟨items, ⟨⟨h.holds.1, h.holds.2, h.holds.3, h.holds.4⟩, ?_, ?_⟩, rfl⟩
          · intro _
            have hnil := h.holds.cCc_le_zero_iff.mp hempty
            have hnquoted := h.holds.nquoted_eq
            rw [hnil] at hnquoted
            exact hnquoted
          · intro ior' hior
            rw [append_assoc, mem_append, mem_append, mem_singleton] at hior
            rcases hior with hior | rfl | hior
            · exact h.count_pos ior' (mem_append_left _ hior)
            · exact hcount
            · exact h.count_pos ior' (mem_append_right _ hior)
    · rw [if_neg hempty]
      have hne : items ≠ [] := fun hnil => hempty (h.holds.cCc_le_zero_iff.mpr hnil)
      by_cases hq : 0 < t.nquoted
      · rw [if_pos hq]
        have hzero (n : ℕ) : t.nquoted = 0 → n = 0 := fun hzero => by omega
        rcases readQuotedFirst h.holds hq hne hcount (.inl hband) with
          ⟨bytes, t₁, rest, t', hread, hband₁, hget, hholds, hsame, -, -, hstep⟩ |
          ⟨bytes, t', e, items', hread, hholds, hsame, hstored, -, htaken, -⟩
        · simp only [hread, hband₁, hband, ne_eq, not_true_eq_false, if_false, hget]
          exact ⟨_, h.mono hholds hsame (hzero _), Channel.run_cons hstep⟩
        · have hinv : t'.Inv items' := h.mono hholds hsame (hzero _)
          have hset : t'.outofband ≠ .noEvent := by
            rw [hstored.outofband]
            cases e <;> simp [Event.toob]
          simp only [hread, if_pos hset]
          by_cases hnone : bytes.length = 0
          · rw [if_pos hnone]
            refine ⟨items', hinv, ?_⟩
            obtain rfl := List.length_eq_zero_iff.mp hnone
            unfold channel
            rw [takeBytes_syms ior.ioCount items, htaken, pending_eq_none_iff.mpr hband,
              pending_of_stored hstored]
            exact Channel.run_cons Channel.step_reported
          · rw [if_neg hnone]
            refine ⟨items', hinv, channel_event htaken (pending_eq_none_iff.mpr hband)
              (pending_of_stored hstored) fun hnil => hnone ?_⟩
            rw [hnil, length_nil]
      · rw [if_neg hq]
        obtain ⟨inq, hget, hholds, hstep⟩ := readRaw h.holds (by omega) hne hcount
        simp only [hget]
        exact ⟨_, h.mono hholds ⟨rfl, rfl⟩ id, Channel.run_cons hstep⟩
  · rw [if_pos hband]
    exact ⟨items, h, rfl⟩

/-! ## Delayed reads -/

/-- The delayed reads come to no event, or to the last item only, after some bytes
and while no other event is pending. -/
def Fillable (free : Prop) : List ℕ → List Item → Prop
  | [], _ => True
  | count :: counts, items =>
    (Reaches count items →
      free ∧ (takeBytes count items).1 ≠ [] ∧ (takeBytes count items).2.length = 1) ∧
    (¬ Reaches count items → Fillable free counts (takeBytes count items).2)

variable {free : Prop} {counts : List ℕ}

/-- Where no event is none is come to. -/
theorem Fillable.of_clear (h : ∀ e, Item.event e ∉ items) : Fillable free counts items := by
  induction counts generalizing items with
  | nil => trivial
  | cons count counts ih =>
    have hsuffix := takeBytes_suffix count items
    constructor
    · rintro ⟨-, e, items', heq⟩
      exact absurd (hsuffix.subset (heq ▸ mem_cons_self)) (h e)
    · exact fun _ => ih fun e hmem => h e (hsuffix.subset hmem)

/-- The delayed reads are filled as the channel allows. -/
theorem fillReads_spec {qh : List Ior} (h : t.Holds items) (hq : qh ≠ [] → t.nquoted ≤ 1)
    (hcount : ∀ ior ∈ qh, 0 < ior.ioCount)
    (hfill : Fillable (t.outofband = .noEvent) (qh.map Ior.ioCount) items) :
    ∃ t' outs items', fillReads qh t = (t', outs) ∧ t'.Holds items' ∧
      (t'.delayedRead ≠ [] → t'.nquoted = 0) ∧ (∀ ior ∈ t'.delayedRead, ior ∈ qh) ∧
      t'.ioDone = t.ioDone ∧ (t.channel items).run outs = some (t'.channel items') := by
  induction qh generalizing t items with
  | nil =>
    exact ⟨_, _, items, rfl, ⟨h.1, h.2, h.3, h.4⟩, fun hne => absurd rfl hne,
      fun ior hior => hior, rfl, rfl⟩
  | cons ior qh ih =>
    unfold fillReads
    by_cases hempty : t.inq.cCc ≤ 0
    · rw [if_pos hempty]
      refine ⟨_, _, items, rfl, ⟨h.1, h.2, h.3, h.4⟩, fun _ => ?_, fun ior hior => hior, rfl, rfl⟩
      have hnquoted := h.nquoted_eq
      rw [h.cCc_le_zero_iff.mp hempty] at hnquoted
      exact hnquoted
    rw [if_neg hempty]
    have hne : items ≠ [] := fun hnil => hempty (h.cCc_le_zero_iff.mpr hnil)
    have hpos := hcount ior mem_cons_self
    have hrest := fun ior' hior => hcount ior' (mem_cons_of_mem _ hior)
    have hone := hq (cons_ne_nil _ _)
    by_cases hquoted : 0 < t.nquoted
    · rw [if_pos hquoted]
      have hfree : t.outofband = .noEvent ∨ t.nquoted = 1 ∧ ¬ Reaches ior.ioCount items := by
        by_cases hreach : Reaches ior.ioCount items
        · exact .inl (hfill.1 hreach).1
        · exact .inr ⟨by omega, hreach⟩
      rcases readQuotedFirst h hquoted hne hpos hfree with
        ⟨bytes, t₁, rest, t₂, hread, -, hget, hholds, hsame, hband, hclear, hstep⟩ |
        ⟨bytes, t₁, e, items', hread, hholds, hsame, hstored, hband, htaken, hshort⟩
      · have hle : t₂.nquoted ≤ t.nquoted := by
          rw [hholds.nquoted_eq, h.nquoted_eq]
          exact (takeBytes_suffix ior.ioCount items).sublist.countP_le
        have hfill' := hfill.2 hclear
        rw [← hband] at hfill'
        obtain ⟨t', outs, items', hloop, hholds', hwaiting, hsub, hdone, hrun⟩ :=
          ih hholds (fun _ => hle.trans hone) hrest hfill'
        refine ⟨t', _, items', ?_, hholds', hwaiting,
          fun ior' hior => mem_cons_of_mem _ (hsub ior' hior), hdone.trans hsame.ioDone,
          (Channel.run_cons hstep).trans hrun⟩
        simp only [hread, hget, hloop, nil_append]
      · have hreach : Reaches ior.ioCount items := by
          unfold Reaches
          rw [htaken]
          exact ⟨hshort, e, items', rfl⟩
        obtain ⟨-, hbytes, hlast⟩ := hfill.1 hreach
        rw [htaken] at hbytes hlast
        -- The event was the last item.
        obtain rfl : items' = [] := List.length_eq_zero_iff.mp (Nat.succ.inj hlast)
        have hnquoted : t₁.nquoted = 0 := hholds.nquoted_eq
        obtain ⟨inq, hget, hholds'⟩ :=
          @inqToB_spec [] (ior.ioCount - bytes.length) size t₁ hholds (.inr hnquoted)
        rw [takeBytes] at hget hholds'
        obtain ⟨t', outs, items', hloop, hholds'', hwaiting, hsub, hdone, hrun⟩ :=
          ih hholds' (fun _ => by change t₁.nquoted ≤ 1; omega) hrest
            (Fillable.of_clear fun e => not_mem_nil)
        refine ⟨t', .data bytes :: ([.reported e] ++ outs), items', ?_, hholds'', hwaiting,
          fun ior' hior => mem_cons_of_mem _ (hsub ior' hior), hdone.trans hsame.ioDone, ?_⟩
        · simp only [hread, hget, hloop, append_nil]
        · exact (Channel.run_append (channel_event htaken (pending_eq_none_iff.mpr hband)
            (pending_of_stored hstored) hbytes)).trans hrun
    · rw [if_neg hquoted]
      obtain ⟨inq, hget, hholds, hstep⟩ := readRaw h (by omega) hne hpos
      have hclear : ¬ Reaches ior.ioCount items := by
        obtain ⟨raws, rfl⟩ := exists_raws (h.nquoted_eq ▸ (show t.nquoted = 0 by omega))
        exact not_reaches_raws
      obtain ⟨t', outs, items', hloop, hholds', hwaiting, hsub, hdone, hrun⟩ :=
        @ih { t with inq := inq } _ hholds (fun _ => hone) hrest (hfill.2 hclear)
      refine ⟨t', _, items', ?_, hholds', hwaiting,
        fun ior' hior => mem_cons_of_mem _ (hsub ior' hior), hdone,
        (Channel.run_cons hstep).trans hrun⟩
      simp only [hget, hloop, nil_append]

end Tty

end CharIo

end MachVirtuTerm

/-!
# The steps of a terminal

Every step keeps the queue a list of items and shows what the channel may show,
unless it puts something quoted behind a quote byte that is not, or an event that a
waiting read would come to.
-/

namespace MachVirtuTerm

namespace CharIo

/-- The quoted characters with an argument. -/
def Tq.takesArg : Tq → Bool
  | .brk => true
  | .badParity => true
  | _ => false

/-- What a quoted character is in the queue. -/
def itemOf (qc : Tq) (qarg : Option UInt8) : Item :=
  match qc with
  | .quotec => .quotec
  | .brk => .event (.brk (qarg.getD 0))
  | .badParity => .event (.badParity (qarg.getD 0))
  | .flushed => .event .flushed

/-- The waiting reads, of these counts, take all of `n` bytes and leave none
waiting for what comes behind them; or the last of them takes it with the bytes
before it. -/
def Clear (free : Prop) : List ℕ → ℕ → Prop
  | [], _ => True
  | _ :: _, 0 => False
  | count :: counts, n + 1 =>
    if n + 1 < count then free else Clear free counts (n + 1 - count)

/-- Reads ask for something, and just the events that have one get an argument. -/
def Action.Allowed : Action → Prop
  | .quoted qc qarg => qarg.isSome = qc.takesArg
  | .read ior => 0 < ior.ioCount
  | _ => True

/-- The condition under which a step does what it should. Something quoted does not
come behind a byte that looks like a quote byte; an event is stored only if no other
is pending, and no waiting read finds nothing but the event. -/
def Tty.Meets {size : ℕ} (t : Tty size) : Action → Prop
  | .quoted qc qarg =>
    (if qarg.isSome then 3 else 2) ≤ t.inq.cbSpace →
      (∀ items, t.Holds items → Item.raw ttyQuotec ∉ items) ∧
        (qc ≠ .quotec →
          Clear (t.outofband = .noEvent) (t.delayedRead.map Ior.ioCount) t.inq.toList.length)
  | _ => True

variable {qc : Tq} {qarg : Option UInt8} {free : Prop} {counts : List ℕ} {raws : List UInt8}
  {items items' : List Item}

theorem itemOf_bytes (h : qarg.isSome = qc.takesArg) :
    (itemOf qc qarg).bytes = ttyQuotec :: qc.toByte :: qarg.toList := by
  cases qc <;> cases qarg <;> first | rfl | cases h

theorem itemOf_sym : (itemOf qc qarg).sym = Tty.symOf qc qarg := by
  cases qc <;> rfl

theorem itemOf_quoted : (itemOf qc qarg).quoted = true := by
  cases qc <;> rfl

/-- An event behind bytes that are not quoted stays where it is. -/
theorem takeBytes_raws_event {n : ℕ} {e : Event} :
    takeBytes n (raws.map .raw ++ [.event e]) =
      (raws.take n, (raws.drop n).map .raw ++ [.event e]) := by
  induction raws generalizing n with
  | nil =>
    cases n with
    | zero => rfl
    | succ n => simp [takeBytes]
  | cons b raws ih =>
    cases n with
    | zero => simp
    | succ n => simp [takeBytes, ih]

theorem reaches_raws_event {n : ℕ} {e : Event} :
    Reaches n (raws.map .raw ++ [.event e]) ↔ raws.length < n := by
  unfold Reaches
  rw [takeBytes_raws_event, List.length_take]
  constructor
  · rintro ⟨hlt, -⟩
    omega
  · intro hlt
    rw [drop_eq_nil_of_le hlt.le]
    exact ⟨by omega, e, [], rfl⟩

/-- Where the condition holds, the delayed reads can be filled. -/
theorem Clear.fillable {e : Event} (h : Clear free counts raws.length) :
    Tty.Fillable free counts (raws.map .raw ++ [.event e]) := by
  induction counts generalizing raws with
  | nil => trivial
  | cons count counts ih =>
    cases hraws : raws with
    | nil =>
      rw [hraws] at h
      cases h
    | cons b rest =>
      rw [← hraws]
      rw [hraws, length_cons, Clear, ← length_cons (a := b), ← hraws] at h
      constructor
      · intro hreach
        have hlt := reaches_raws_event.mp hreach
        rw [if_pos hlt] at h
        rw [takeBytes_raws_event, take_of_length_le hlt.le, drop_eq_nil_of_le hlt.le]
        exact ⟨h, hraws ▸ cons_ne_nil b rest, rfl⟩
      · intro hreach
        have hle : ¬ raws.length < count := reaches_raws_event.not.mp hreach
        rw [if_neg hle, ← length_drop] at h
        rw [takeBytes_raws_event]
        exact ih h

namespace Tty

variable {size : ℕ} {t t' : Tty size}

/-- An item is put behind the others. -/
theorem Holds.put {item : Item} {inq : CirBuf size} {nquoted : ℕ} (h : t.Holds items)
    (hok : inq.Ok) (hlist : inq.toList = t.inq.toList ++ item.bytes)
    (hnquoted : nquoted = t.nquoted + if item.quoted then 1 else 0)
    (hunmixed : item.quoted = true → Item.raw ttyQuotec ∉ items) :
    Holds { t with inq := inq, nquoted := nquoted } (items ++ [item]) where
  ok := hok
  toList_eq := by
    change inq.toList = _
    rw [hlist, h.toList_eq, flatMap_append, flatMap_singleton]
  nquoted_eq := by
    change nquoted = _
    rw [hnquoted, h.nquoted_eq, countP_append, countP_singleton]
  unmixed := by
    refine pairwise_append.mpr ⟨h.unmixed, pairwise_singleton _ _, ?_⟩
    rintro x hx y hy rfl
    rw [mem_singleton.mp hy]
    by_contra hquoted
    exact hunmixed (by simpa using hquoted) hx

/-- Without waiting reads, or with nothing quoted, no event is come to. -/
theorem Inv.fillable (h : t.Inv items) : Fillable free (t.delayedRead.map Ior.ioCount) items := by
  by_cases hidle : t.delayedRead = []
  · rw [hidle]
    trivial
  · have hzero := h.holds.nquoted_eq.symm.trans (h.waiting hidle)
    obtain ⟨raws, rfl⟩ := exists_raws hzero
    apply Fillable.of_clear
    intro e hmem
    obtain ⟨b, -, hb⟩ := mem_map.mp hmem
    cases hb

/-- The waiting reads are filled. -/
theorem fill_spec (h : t.Holds items) (hq : t.delayedRead ≠ [] → t.nquoted ≤ 1)
    (hcount : ∀ ior ∈ t.delayedRead ++ t.ioDone, 0 < ior.ioCount)
    (hfill : Fillable (t.outofband = .noEvent) (t.delayedRead.map Ior.ioCount) items) :
    ∃ t' outs items', t.ttyQueueFilledReads = (t', outs) ∧ t'.Inv items' ∧
      (t.channel items).run outs = some (t'.channel items') := by
  obtain ⟨t', outs, items', hloop, hholds, hwaiting, hsub, hdone, hrun⟩ :=
    fillReads_spec h hq (fun ior hior => hcount ior (mem_append_left _ hior)) hfill
  refine ⟨t', outs, items', hloop, ⟨hholds, hwaiting, fun ior hior => hcount ior ?_⟩, hrun⟩
  rw [hdone] at hior
  rcases mem_append.mp hior with hior | hior
  · exact mem_append_left _ (hsub ior hior)
  · exact mem_append_right _ hior

/-- They are, where the invariant holds. -/
theorem Inv.fill (h : t.Inv items) :
    ∃ t' outs items', t.ttyQueueFilledReads = (t', outs) ∧ t'.Inv items' ∧
      (t.channel items).run outs = some (t'.channel items') :=
  fill_spec h.holds (fun hwaits => (h.waiting hwaits).le.trans zero_le_one) h.count_pos h.fillable

/-- The channel accepts what is put in the queue. -/
theorem channel_accepted {item : Item} (hpending : t'.pending = t.pending) :
    (t.channel items).step (.accepted item.sym) = some (t'.channel (items ++ [item])) := by
  unfold channel Channel.step
  rw [hpending, map_append, map_singleton]

/-- If there is space for it, all bytes of a quoted character are put in the queue. -/
theorem ttyquoted_eq (hok : t.inq.Ok) (hallowed : (Action.quoted qc qarg).Allowed)
    (hspace : (if qarg.isSome then 3 else 2) ≤ t.inq.cbSpace) :
    ∃ inq, inq.Ok ∧ inq.toList = t.inq.toList ++ (itemOf qc qarg).bytes ∧
      t.ttyquoted qc qarg =
        ((ttyQueueFilledReads { t with inq := inq, nquoted := t.nquoted + 1 }).1,
          .accepted (symOf qc qarg) ::
            (ttyQueueFilledReads { t with inq := inq, nquoted := t.nquoted + 1 }).2) := by
  have hroom := hspace
  rw [CirBuf.cbSpace_eq] at hroom
  have htwo : t.inq.toList.length + 2 < size := by
    split at hroom <;> omega
  obtain ⟨inq₁, hput₁, hok₁, hlist₁⟩ := hok.putc (by omega) ttyQuotec
  have hlength₁ := congrArg List.length hlist₁
  rw [length_append, length_singleton] at hlength₁
  obtain ⟨inq₂, hput₂, hok₂, hlist₂⟩ := hok₁.putc (by omega) qc.toByte
  have hlength₂ := congrArg List.length hlist₂
  rw [length_append, length_singleton] at hlength₂
  unfold ttyquoted
  rw [itemOf_bytes hallowed]
  cases qarg with
  | none =>
    refine ⟨inq₂, hok₂, ?_, ?_⟩
    · rw [hlist₂, hlist₁, append_assoc]
      rfl
    · simp only [if_pos hspace, hput₁, hput₂, Bool.or_self, Bool.false_eq_true, if_false]
  | some arg =>
    rw [if_pos (show (some arg).isSome = true from rfl)] at hroom
    obtain ⟨inq₃, hput₃, hok₃, hlist₃⟩ := hok₂.putc (by omega) arg
    refine ⟨inq₃, hok₃, ?_, ?_⟩
    · rw [hlist₃, hlist₂, hlist₁, append_assoc, append_assoc]
      rfl
    · simp only [if_pos hspace, hput₁, hput₂, hput₃, Bool.or_self, Bool.false_eq_true, if_false]

/-- A quoted character. -/
theorem ttyquoted_spec (h : t.Inv items) (hallowed : (Action.quoted qc qarg).Allowed)
    (hmeets : t.Meets (.quoted qc qarg)) :
    ∃ items', (t.ttyquoted qc qarg).1.Inv items' ∧
      (t.channel items).run (t.ttyquoted qc qarg).2 =
        some ((t.ttyquoted qc qarg).1.channel items') := by
  by_cases hspace : (if qarg.isSome then 3 else 2) ≤ t.inq.cbSpace
  · obtain ⟨hquotes, hclear⟩ := hmeets hspace
    obtain ⟨inq, hok, hlist, heq⟩ := ttyquoted_eq h.holds.ok hallowed hspace
    have hholds := h.holds.put hok hlist (by rw [itemOf_quoted, if_pos rfl]) fun _ =>
      hquotes items h.holds
    have hfill : Fillable (t.outofband = .noEvent) (t.delayedRead.map Ior.ioCount)
        (items ++ [itemOf qc qarg]) := by
      by_cases hidle : t.delayedRead = []
      · rw [hidle]
        trivial
      obtain ⟨raws, rfl⟩ := exists_raws (h.holds.nquoted_eq.symm.trans (h.waiting hidle))
      by_cases hevent : qc = .quotec
      · subst hevent
        apply Fillable.of_clear
        intro e hmem
        rcases mem_append.mp hmem with hmem | hmem
        · obtain ⟨b, -, hb⟩ := mem_map.mp hmem
          cases hb
        · cases mem_singleton.mp hmem
      · have hbytes := h.holds.toList_eq
        rw [flatMap_raws] at hbytes
        rw [hbytes] at hclear
        have hitem : ∃ e, itemOf qc qarg = .event e := by
          cases qc with
          | quotec => exact absurd rfl hevent
          | _ => exact ⟨_, rfl⟩
        obtain ⟨e, he⟩ := hitem
        rw [he]
        exact (hclear hevent).fillable
    obtain ⟨t', outs, items', hfilled, hinv, hrun⟩ := fill_spec hholds
      (fun hwaits => by
        change t.nquoted + 1 ≤ 1
        rw [h.waiting hwaits])
      h.count_pos hfill
    rw [heq, hfilled]
    refine ⟨items', hinv, ?_⟩
    rw [← itemOf_sym]
    exact (Channel.run_cons (channel_accepted rfl)).trans hrun
  · unfold ttyquoted
    simp only [if_neg hspace]
    exact ⟨items, h, rfl⟩

/-- An input character. -/
theorem ttyinput_spec {c : BitVec 32} (h : t.Inv items) :
    ∃ items', (t.ttyinput c).1.Inv items' ∧
      (t.channel items).run (t.ttyinput c).2 = some ((t.ttyinput c).1.channel items') := by
  have hcc := h.holds.ok.cCc_eq
  have hhog := h.holds.ok.cHog_le
  have hlt := t.inq.length_toList_lt
  unfold ttyinput
  by_cases hfull : t.inq.cHog ≤ t.inq.cCc
  · rw [if_pos hfull]
    have hinv : Inv { t with rtsDown := t.rtsDown || t.mctl } items :=
      h.mono ⟨h.holds.1, h.holds.2, h.holds.3, h.holds.4⟩ ⟨rfl, rfl⟩ id
    obtain ⟨t', outs, items', hfilled, hinv', hrun⟩ := hinv.fill
    rw [hfilled]
    exact ⟨items', hinv', hrun⟩
  · rw [if_neg hfull]
    have hroom : t.inq.toList.length + 1 < size := by omega
    obtain ⟨b, hb⟩ : ∃ b, b = UInt8.ofBitVec (c.truncate 8) := ⟨_, rfl⟩
    obtain ⟨inq, hput, hok, hlist⟩ := h.holds.ok.putc hroom b
    have hholds : Holds { t with inq := inq } (items ++ [.raw b]) := by
      exact h.holds.put hok hlist rfl fun hquoted => absurd hquoted Bool.false_ne_true
    have haccepted : (t.channel items).run [.accepted (.byte b)] =
        some (channel { t with inq := inq } (items ++ [.raw b])) :=
      Channel.run_cons (@channel_accepted items size t { t with inq := inq } (.raw b) rfl)
    simp only [← hb, hput, Bool.false_eq_true, if_false]
    split
    · have hinv : Inv { t with inq := inq, rtsDown := false, minTo := false } (items ++ [.raw b]) :=
        h.mono ⟨hholds.1, hholds.2, hholds.3, hholds.4⟩ ⟨rfl, rfl⟩ id
      obtain ⟨t', outs, items', hfilled, hinv', hrun⟩ := hinv.fill
      rw [hfilled]
      exact ⟨items', hinv', (Channel.run_append haccepted).trans hrun⟩
    · refine ⟨items ++ [.raw b], h.mono ⟨hholds.1, hholds.2, hholds.3, hholds.4⟩ ⟨rfl, rfl⟩ id, ?_⟩
      exact haccepted

/-- Input that was kept back. -/
theorem ttypush_spec (h : t.Inv items) :
    ∃ items', t.ttypush.1.Inv items' ∧
      (t.channel items).run t.ttypush.2 = some (t.ttypush.1.channel items') := by
  unfold ttypush
  split
  · obtain ⟨t', outs, items', hfilled, hinv, hrun⟩ := h.fill
    rw [hfilled]
    exact ⟨items', hinv.mono ⟨hinv.holds.1, hinv.holds.2, hinv.holds.3, hinv.holds.4⟩
      ⟨rfl, rfl⟩ id, hrun⟩
  · exact ⟨items, h.mono ⟨h.holds.1, h.holds.2, h.holds.3, h.holds.4⟩ ⟨rfl, rfl⟩ id, rfl⟩

/-- Nothing is left in a queue that was flushed. -/
theorem drain_spec {fuel : ℕ} {inq : CirBuf size} (hok : inq.Ok)
    (hfuel : inq.toList.length ≤ fuel) : (drain fuel inq).Ok ∧ (drain fuel inq).toList = [] := by
  induction fuel generalizing inq with
  | zero => exact ⟨hok, List.length_eq_zero_iff.mp (Nat.le_zero.mp hfuel)⟩
  | succ fuel ih =>
    unfold drain
    cases hlist : inq.toList with
    | nil =>
      rw [CirBuf.getc_of_nil hlist]
      exact ⟨hok, hlist⟩
    | cons c bytes =>
      obtain ⟨inq', hget, hok', hlist'⟩ := hok.getc hlist
      rw [hget]
      rw [hlist, length_cons] at hfuel
      exact ih hok' (by rw [hlist']; omega)

theorem ttyflush_spec (h : t.Inv items) :
    t.ttyflush.1.Inv [] ∧
      (t.channel items).run t.ttyflush.2 = some (t.ttyflush.1.channel []) := by
  obtain ⟨hok, hlist⟩ := drain_spec h.holds.ok t.inq.length_toList_lt.le
  refine ⟨⟨⟨hok, hlist, rfl, List.Pairwise.nil⟩, fun hne => absurd rfl hne, ?_⟩, rfl⟩
  intro ior hior
  apply h.count_pos
  rw [mem_append, or_comm]
  exact mem_append.mp hior

/-- A status call tells what is pending. -/
theorem ttyGetOutOfBand_spec (h : t.Inv items) :
    t.ttyGetOutOfBand.1.Inv items ∧
      (t.channel items).run t.ttyGetOutOfBand.2 = some (t.ttyGetOutOfBand.1.channel items) := by
  refine ⟨h.mono ⟨h.holds.1, h.holds.2, h.holds.3, h.holds.4⟩ ⟨rfl, rfl⟩ id, ?_⟩
  have htells : (t.channel items).Tells t.outofband t.outofbandarg := by
    unfold Channel.Tells channel pending
    cases t.outofband <;> simp [Event.toob, Event.arg]
  exact Channel.run_cons (if_pos htells)

/-- Every step that meets the condition. -/
theorem step_spec {action : Action} {outs : List Out} (h : t.Inv items)
    (hallowed : action.Allowed) (hmeets : t.Meets action)
    (hstep : t.step action = some (t', outs)) :
    ∃ items', t'.Inv items' ∧ (t.channel items).run outs = some (t'.channel items') := by
  cases action with
  | input c =>
    have hinput := @ttyinput_spec items size t c h
    rwa [show t.ttyinput c = (t', outs) from Option.some.inj hstep] at hinput
  | quoted qc qarg =>
    have hquoted := ttyquoted_spec h hallowed hmeets
    rwa [show t.ttyquoted qc qarg = (t', outs) from Option.some.inj hstep] at hquoted
  | read ior =>
    have hread := doCharRead_spec h hallowed
    rwa [show t.doCharRead ior = (t', outs) from Option.some.inj hstep] at hread
  | readDone ior =>
    simp only [step] at hstep
    split at hstep
    next hmem =>
      have hinv : Inv { t with ioDone := t.ioDone.erase ior } items := by
        refine ⟨⟨h.holds.1, h.holds.2, h.holds.3, h.holds.4⟩, h.waiting, fun ior' hior => ?_⟩
        apply h.count_pos
        rcases mem_append.mp hior with hior | hior
        · exact mem_append_left _ hior
        · exact mem_append_right _ (mem_of_mem_erase hior)
      have hread := doCharRead_spec hinv (h.count_pos ior (mem_append_right _ hmem))
      rwa [Option.some.inj hstep] at hread
    next => cases hstep
  | status =>
    have hstatus := ttyGetOutOfBand_spec h
    rw [show t.ttyGetOutOfBand = (t', outs) from Option.some.inj hstep] at hstatus
    exact ⟨items, hstatus⟩
  | flush =>
    have hflush := ttyflush_spec h
    rw [show t.ttyflush = (t', outs) from Option.some.inj hstep] at hflush
    exact ⟨[], hflush⟩
  | push =>
    have hpush := ttypush_spec h
    rwa [show t.ttypush = (t', outs) from Option.some.inj hstep] at hpush
  | mode carrOn onDelay min mctl =>
    cases hstep
    exact ⟨items, h.mono ⟨h.holds.1, h.holds.2, h.holds.3, h.holds.4⟩ ⟨rfl, rfl⟩ id, rfl⟩

end Tty

/-! ## Runs -/

variable {size : ℕ} {t : Tty size} {trace : List (Tty size × Action × List Out)}

/-- What a terminal has shown, in order. -/
def shown (trace : List (Tty size × Action × List Out)) : List Out :=
  trace.reverse.flatMap fun x => x.2.2

end CharIo

end MachVirtuTerm
