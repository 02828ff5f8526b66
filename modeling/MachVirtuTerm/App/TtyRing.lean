import Mathlib.Data.List.DropRight
import MachVirtuTerm.Lib.Run
import MachVirtuTerm.Lib.RingBuffer

/-!
# The output of the tty

The TTY channel of `jni_bridge.cpp`. Any number of threads write to the tty: each pushes its bytes
on the ring under the lock, takes all pending bytes under the lock, and gives them to the callback
when it no longer holds the lock.
-/

open List Function

namespace MachVirtuTerm

def ttyRingSize : ℕ := 64 * 1024

abbrev TtyRing := RingBuffer UInt8 ttyRingSize

namespace TtyRing

/-- `tty_push_locked`: a full ring loses its oldest byte. -/
def ttyPushLocked (g : TtyRing) (c : UInt8) : TtyRing :=
  if (g.store c).head = (g.store c).tail then (g.store c).skip else g.store c

/-- The ring after `tty_push_locked` of some bytes. -/
def pushAll (g : TtyRing) (bytes : List UInt8) : TtyRing := bytes.foldl ttyPushLocked g

variable {g : TtyRing} {c : UInt8} {bytes : List UInt8}

theorem toList_ttyPushLocked (h : g.length + 1 < ttyRingSize) (c : UInt8) :
    (g.ttyPushLocked c).toList = g.toList ++ [c] := by
  unfold ttyPushLocked
  rw [if_neg (RingBuffer.store_head_ne_tail h c)]
  exact RingBuffer.toList_store h c

/-- As long as the ring does not fill up, all bytes are behind those pending. -/
theorem toList_pushAll (h : g.length + bytes.length < ttyRingSize) :
    (g.pushAll bytes).toList = g.toList ++ bytes := by
  induction bytes generalizing g with
  | nil => exact (append_nil _).symm
  | cons c bytes ih =>
    rw [length_cons] at h
    have hlist := toList_ttyPushLocked (g := g) (by omega) c
    have hlength := congrArg List.length hlist
    rw [length_append, RingBuffer.length_toList, RingBuffer.length_toList,
      length_singleton] at hlength
    change ((g.ttyPushLocked c).pushAll bytes).toList = _
    rw [ih (by omega), hlist, append_assoc, singleton_append]

end TtyRing

namespace Tty

/-- A call that writes to the tty. -/
inductive Call where
  | ttyPutc (c : UInt8)
  | ttyPuts (s : List UInt8)

/-- The bytes it pushes: those of a string end at a NUL. -/
def Call.bytes : Call → List UInt8
  | .ttyPutc c => [c]
  | .ttyPuts s => s.takeWhile (· ≠ 0)

/-- Where a thread is in its call. -/
inductive Phase where
  /-- In no call. -/
  | idle
  /-- In `tty_flush`, before it takes the lock. -/
  | flushing
  /-- In `tty_flush`, with an array for the callback. -/
  | delivering (arr : List UInt8)
  deriving DecidableEq

/-- The bytes a thread holds. -/
def Phase.array : Phase → List UInt8
  | .delivering arr => arr
  | _ => []

/-- A step of a thread. -/
inductive Action (T : Type*) where
  /-- It begins a call and pushes the bytes. -/
  | push (t : T) (call : Call)
  /-- It takes the pending bytes. -/
  | snapshot (t : T)
  /-- It gives them to the callback. -/
  | deliver (t : T)

/-- The ring, the threads and the callback. -/
structure State (T : Type*) where
  tty : TtyRing
  phase : T → Phase
  /-- The arrays `onTtyOutput` was given, in the order of the calls. -/
  output : List (List UInt8)
  /-- The bytes pushed so far, which nothing reads. -/
  pushed : List UInt8
  /-- The threads that hold an array, in the order they took them, which nothing reads. -/
  holders : List T

/-- The ring at the start, `g_tty`. -/
def ttyInit : TtyRing := ⟨fun _ => 0, 0, 0, by decide, by decide⟩

variable {T : Type*}

/-- Nothing is written and no thread is in a call. -/
def State.init : State T := ⟨ttyInit, fun _ => .idle, [], [], []⟩

/-- The bytes the threads hold, in the order they took them. -/
def State.inHand (s : State T) : List UInt8 := s.holders.flatMap fun t => (s.phase t).array

/-- Fewer than `TTY_RING_SIZE` bytes are pending, at any moment of the step. -/
def State.Fits (s : State T) : Action T → Prop
  | .push _ call => s.tty.length + call.bytes.length < ttyRingSize
  | .snapshot _ => True
  | .deliver _ => True

/-- A thread that calls the callback took its array before any other that holds one. -/
def State.InOrder (s : State T) : Action T → Prop
  | .push _ _ => True
  | .snapshot _ => True
  | .deliver t => s.holders.head? = some t

instance (s : State T) : DecidablePred s.Fits
  | .push _ _ => inferInstanceAs (Decidable (_ < _))
  | .snapshot _ => isTrue trivial
  | .deliver _ => isTrue trivial

instance [DecidableEq T] (s : State T) : DecidablePred s.InOrder
  | .push _ _ => isTrue trivial
  | .snapshot _ => isTrue trivial
  | .deliver _ => inferInstanceAs (Decidable (_ = _))

/-- The bytes are in the output, held by a thread, or pending, in this order. -/
structure State.Inv (s : State T) : Prop where
  bytes : s.output.flatten ++ s.inHand ++ s.tty.toList = s.pushed
  nodup : s.holders.Nodup
  holders : ∀ t, t ∈ s.holders ↔ ∃ arr, s.phase t = .delivering arr
  pending : s.tty.toList ≠ [] → ∃ t, s.phase t = .flushing

theorem State.init_inv : (State.init : State T).Inv where
  bytes := rfl
  nodup := nodup_nil
  holders t := by simp [State.init]
  pending h := absurd rfl h

variable [DecidableEq T]

/-- The step of a thread, if it can take it. -/
def step (s : State T) : Action T → Option (State T)
  | .push t call =>
    if s.phase t = .idle then
      some { s with
        tty := s.tty.pushAll call.bytes
        phase := update s.phase t .flushing
        pushed := s.pushed ++ call.bytes }
    else none
  | .snapshot t =>
    if s.phase t = .flushing then
      if s.tty.length = 0 then some { s with phase := update s.phase t .idle }
      else
        some { s with
          tty := s.tty.reset
          phase := update s.phase t (.delivering (s.tty.slices.1 ++ s.tty.slices.2))
          holders := s.holders ++ [t] }
    else none
  | .deliver t =>
    match s.phase t with
    | .delivering arr =>
      some { s with
        phase := update s.phase t .idle
        output := s.output ++ [arr]
        holders := s.holders.erase t }
    | _ => none

variable {s s' : State T} {t : T}

/-- The arrays of other threads are as before. -/
theorem flatMap_update {holders : List T} (phase : T → Phase) (h : t ∉ holders) (p : Phase) :
    (holders.flatMap fun u => (update phase t p u).array) =
      holders.flatMap fun u => (phase u).array := by
  apply flatMap_congr
  intro u hu
  rw [update_of_ne (ne_of_mem_of_not_mem hu h)]

theorem State.Inv.push {call : Call} (h : s.Inv) (hfits : s.Fits (.push t call))
    (hstep : step s (.push t call) = some s') : s'.Inv := by
  simp only [step] at hstep
  split at hstep
  next hidle =>
    cases hstep
    have hnot : t ∉ s.holders := by
      rw [h.holders, hidle]
      rintro ⟨arr, harr⟩
      cases harr
    constructor
    · change s.output.flatten ++ s.holders.flatMap _ ++ (s.tty.pushAll call.bytes).toList = _
      rw [flatMap_update s.phase hnot, TtyRing.toList_pushAll hfits, ← append_assoc]
      change s.output.flatten ++ s.inHand ++ s.tty.toList ++ call.bytes = _
      rw [h.bytes]
    · exact h.nodup
    · intro u
      rw [h.holders]
      rcases eq_or_ne u t with rfl | hne
      · simp [hidle]
      · simp [update_of_ne hne]
    · intro _
      exact ⟨t, update_self ..⟩
  next => cases hstep

theorem State.Inv.snapshot (h : s.Inv) (hstep : step s (.snapshot t) = some s') : s'.Inv := by
  simp only [step] at hstep
  split at hstep
  next hflushing =>
    have hnot : t ∉ s.holders := by
      rw [h.holders, hflushing]
      rintro ⟨arr, harr⟩
      cases harr
    split at hstep
    next hempty =>
      cases hstep
      have hnil := (RingBuffer.toList_eq_nil_iff _).mpr hempty
      constructor
      · change s.output.flatten ++ s.holders.flatMap _ ++ s.tty.toList = _
        rw [flatMap_update s.phase hnot]
        exact h.bytes
      · exact h.nodup
      · intro u
        rw [h.holders]
        rcases eq_or_ne u t with rfl | hne
        · simp [hflushing]
        · simp [update_of_ne hne]
      · intro hpending
        exact absurd hnil hpending
    next =>
      cases hstep
      constructor
      · change s.output.flatten ++ (s.holders ++ [t]).flatMap _ ++ s.tty.reset.toList = _
        rw [flatMap_append, flatMap_update s.phase hnot, flatMap_singleton]
        dsimp only
        rw [update_self, RingBuffer.toList_reset, append_nil, ← append_assoc]
        change s.output.flatten ++ s.inHand ++ (s.tty.slices.1 ++ s.tty.slices.2) = _
        rw [RingBuffer.slices_append, h.bytes]
      · exact (perm_append_singleton t s.holders).nodup_iff.mpr (nodup_cons.mpr ⟨hnot, h.nodup⟩)
      · intro u
        rw [mem_append, mem_singleton, h.holders]
        rcases eq_or_ne u t with rfl | hne
        · simp
        · simp [hne]
      · intro hpending
        exact absurd (RingBuffer.toList_reset _) hpending
  next => cases hstep

theorem State.Inv.deliver (h : s.Inv) (horder : s.InOrder (.deliver t))
    (hstep : step s (.deliver t) = some s') : s'.Inv := by
  simp only [step] at hstep
  split at hstep
  next arr hphase =>
    cases hstep
    obtain ⟨rest, hrest⟩ : ∃ rest, s.holders = t :: rest := head?_eq_some_iff.mp horder
    have hnodup := h.nodup
    rw [hrest] at hnodup
    have hnot := (nodup_cons.mp hnodup).1
    have herase : s.holders.erase t = rest := by
      rw [hrest, erase_cons_head]
    constructor
    · change (s.output ++ [arr]).flatten ++ (s.holders.erase t).flatMap _ ++ s.tty.toList = _
      rw [herase, flatMap_update s.phase hnot, flatten_append, flatten_singleton]
      have hbytes := h.bytes
      rw [State.inHand, hrest, flatMap_cons, hphase, ← append_assoc] at hbytes
      exact hbytes
    · change (s.holders.erase t).Nodup
      rw [herase]
      exact (nodup_cons.mp hnodup).2
    · intro u
      change u ∈ s.holders.erase t ↔ _
      rw [h.nodup.mem_erase_iff, h.holders]
      rcases eq_or_ne u t with rfl | hne
      · simp
      · simp [hne]
    · intro hpending
      obtain ⟨u, hu⟩ := h.pending hpending
      refine ⟨u, ?_⟩
      have hne : u ≠ t := by
        rintro rfl
        rw [hphase] at hu
        cases hu
      dsimp only
      rw [update_of_ne hne, hu]
  next => cases hstep

theorem State.Inv.step {a : Action T} (h : s.Inv) (hfits : s.Fits a) (horder : s.InOrder a)
    (hstep : step s a = some s') : s'.Inv := by
  cases a with
  | push t call => exact h.push hfits hstep
  | snapshot t => exact h.snapshot hstep
  | deliver t => exact h.deliver horder hstep

/-- Where the arrays are given to the callback in the order they were taken, the bytes given, held
and pending are those pushed, in this order; and all were given when no thread is in a call. -/
theorem ordered_delivery {trace : List (State T × Action T)}
    (hrun : Run (fun s a s' => Tty.step s a = some s') .init trace s)
    (hfits : ∀ x ∈ trace, x.1.Fits x.2) (horder : ∀ x ∈ trace, x.1.InOrder x.2) :
    s.output.flatten ++ s.inHand ++ s.tty.toList = s.pushed ∧
      ((∀ t, s.phase t = .idle) → s.output.flatten = s.pushed) := by
  have hinv : s.Inv := by
    let fine := fun (s : State T) (a : Action T) => s.Fits a ∧ s.InOrder a
    have hfine : ∀ x ∈ trace, fine x.1 x.2 := fun x hx => ⟨hfits x hx, horder x hx⟩
    apply hrun.invariant State.Inv hfine State.init_inv
    intro s a s' h hok hstep
    exact h.step hok.1 hok.2 hstep
  refine ⟨hinv.bytes, fun hidle => ?_⟩
  have hholders : s.holders = [] := by
    rw [eq_nil_iff_forall_not_mem]
    intro t ht
    obtain ⟨arr, harr⟩ := (hinv.holders t).mp ht
    rw [hidle t] at harr
    cases harr
  have hpending : s.tty.toList = [] := by
    by_contra hne
    obtain ⟨t, ht⟩ := hinv.pending hne
    rw [hidle t] at ht
    cases ht
  have hbytes := hinv.bytes
  rw [State.inHand, hholders, hpending, append_nil, flatMap_nil, append_nil] at hbytes
  exact hbytes

/-- Two threads that write while the other is in its call. -/
theorem two_writers_in_order : ∃ (trace : List (State Bool × Action Bool)) (s : State Bool),
    Run (fun s a s' => Tty.step s a = some s') .init trace s ∧
      s.output = [[97], [98, 99], [100]] ∧ s.output.flatten = s.pushed := by
  have hfollow := @Run.of_follow (State Bool) (Action Bool) step .init
    [.push false (.ttyPutc 97), .snapshot false, .push true (.ttyPuts [98, 99]), .snapshot true,
      .deliver false, .push false (.ttyPutc 100), .deliver true, .snapshot false, .deliver false]
    (fun trace s => (∀ x ∈ trace, x.1.Fits x.2) ∧ (∀ x ∈ trace, x.1.InOrder x.2) ∧
      s.output = [[97], [98, 99], [100]] ∧ ∀ t, s.phase t = .idle)
    (by decide +kernel)
  obtain ⟨trace, s, hrun, hfits, horder, houtput, hidle⟩ := hfollow
  exact ⟨trace, s, hrun, houtput, (ordered_delivery hrun hfits horder).2 hidle⟩

/-- Two threads that call the callback in the other order. -/
theorem two_writers_swapped :
    ¬ ∀ (trace : List (State Bool × Action Bool)) (s : State Bool),
      Run (fun s a s' => Tty.step s a = some s') .init trace s → (∀ x ∈ trace, x.1.Fits x.2) →
        (∀ t, s.phase t = .idle) → s.output.flatten = s.pushed := by
  intro h
  have hfollow := @Run.of_follow (State Bool) (Action Bool) step .init
    [.push false (.ttyPutc 97), .snapshot false, .push true (.ttyPutc 98),
      .snapshot true, .deliver true, .deliver false]
    (fun trace s => (∀ x ∈ trace, x.1.Fits x.2) ∧ (∀ t, s.phase t = .idle) ∧
      s.output.flatten = [98, 97] ∧ s.pushed = [97, 98])
    (by decide +kernel)
  obtain ⟨trace, s, hrun, hfits, hidle, houtput, hpushed⟩ := hfollow
  have heq := h trace s hrun hfits hidle
  rw [houtput, hpushed] at heq
  exact absurd heq (by decide)

end Tty

end MachVirtuTerm

/-!
# What a flush delivers

A ring that fills up loses its oldest bytes. A flush delivers the newest of the bytes that were
pushed since the ring was last emptied.
-/

namespace MachVirtuTerm

namespace TtyRing

/-- The newest bytes, as many as the ring holds. -/
def newest (bytes : List UInt8) : List UInt8 := bytes.rtake (ttyRingSize - 1)

/-- What the virtual machine answers in `tty_flush`. -/
structure FlushAnswers where
  /-- `g_ttyCallback` and `g_jvm` are set. -/
  registered : Bool
  /-- The thread has an environment, or is attached and gets one. -/
  env : Bool
  /-- `NewByteArray` gives an array. -/
  arr : Bool
  /-- `GetByteArrayElements` gives its elements. -/
  dst : Bool

/-- `tty_flush`: the ring afterwards, and the array that the callback is given. -/
def ttyFlush (g : TtyRing) (a : FlushAnswers) : TtyRing × Option (List UInt8) :=
  if ¬a.registered then (g.reset, none)
  else if ¬a.env then (g, none)
  else if g.length = 0 then (g, none)
  else
    -- an array into which nothing is copied is as it was made
    (g.reset, if a.arr then
      some (if a.dst then g.slices.1 ++ g.slices.2 else replicate g.length 0)
    else none)

/-- The rings that come of the calls, with the bytes pushed since a flush last emptied them. -/
inductive Reaches : TtyRing → List UInt8 → Prop
  | init : Reaches Tty.ttyInit []
  | push {g : TtyRing} {pending : List UInt8} (h : Reaches g pending) (c : UInt8) :
    Reaches (g.ttyPushLocked c) (pending ++ [c])
  | flush {g : TtyRing} {pending : List UInt8} (h : Reaches g pending) (a : FlushAnswers) :
    Reaches (g.ttyFlush a).1 (if a.registered ∧ ¬a.env then pending else [])

variable {g : TtyRing} {pending bytes : List UInt8} {c : UInt8}

theorem newest_of_le (h : bytes.length ≤ ttyRingSize - 1) : newest bytes = bytes := by
  rw [newest, List.rtake, Nat.sub_eq_zero_of_le h, drop_zero]

@[simp] theorem newest_nil : newest [] = [] := rtake_nil _

/-- Only the newest bytes count for those that are pushed next. -/
theorem newest_newest_concat (bytes : List UInt8) (c : UInt8) :
    newest (newest bytes ++ [c]) = newest (bytes ++ [c]) := by
  unfold newest
  generalize ttyRingSize - 1 = n
  cases n with
  | zero => simp only [rtake_zero]
  | succ n =>
    rw [rtake_concat_succ, rtake_concat_succ]
    simp only [List.rtake, drop_drop, length_drop]
    congr 2
    omega

/-- A byte is behind the newest ones. -/
theorem toList_ttyPushLocked_eq (g : TtyRing) (c : UInt8) :
    (g.ttyPushLocked c).toList = newest (g.toList ++ [c]) := by
  have hlength := g.length_lt
  have hsize : ttyRingSize = 65536 := rfl
  by_cases hroom : g.length + 1 < ttyRingSize
  · rw [toList_ttyPushLocked hroom, newest_of_le]
    rw [length_append, RingBuffer.length_toList, length_singleton]
    omega
  · have hfull : g.length + 1 = ttyRingSize := by omega
    have hlist : (g.toList ++ [c]).length - (ttyRingSize - 1) = 1 := by
      rw [length_append, RingBuffer.length_toList, length_singleton]
      omega
    rw [ttyPushLocked, if_pos (RingBuffer.store_head_eq_tail hfull c),
      RingBuffer.toList_store_skip hfull (by omega), newest, List.rtake, hlist,
      drop_append_of_le_length]
    rw [RingBuffer.length_toList]
    omega

theorem toList_pushAll_eq (h : g.toList = newest pending) (bytes : List UInt8) :
    (g.pushAll bytes).toList = newest (pending ++ bytes) := by
  induction bytes generalizing g pending with
  | nil => rw [append_nil]; exact h
  | cons c bytes ih =>
    have hpush : (g.ttyPushLocked c).toList = newest (pending ++ [c]) := by
      rw [toList_ttyPushLocked_eq, h, newest_newest_concat]
    rw [← singleton_append, ← append_assoc]
    exact ih hpush

/-- What is on the ring is the newest of what is pending. -/
theorem Reaches.toList_eq (h : Reaches g pending) : g.toList = newest pending := by
  induction h with
  | init => exact newest_nil.symm
  | push h c ih => rw [toList_ttyPushLocked_eq, ih, newest_newest_concat]
  | @flush g pending h a ih =>
    unfold ttyFlush
    by_cases hregistered : a.registered = true
    · rw [if_neg (by simp [hregistered])]
      by_cases henv : a.env = true
      · have hgone : ¬(a.registered = true ∧ ¬a.env = true) := fun hboth => hboth.2 henv
        rw [if_neg (by simp [henv]), if_neg hgone, newest_nil]
        by_cases hempty : g.length = 0
        · rw [if_pos hempty]
          exact (RingBuffer.toList_eq_nil_iff g).mpr hempty
        · rw [if_neg hempty]
          exact RingBuffer.toList_reset g
      · rw [if_pos (by simpa using henv), if_pos ⟨hregistered, henv⟩]
        exact ih
    · rw [if_pos hregistered, if_neg fun hboth => hregistered hboth.1, newest_nil]
      exact RingBuffer.toList_reset g

/-- The bytes that a flush copies, and where they are in the array. -/
theorem slices_bounds (g : TtyRing) :
    g.tail + g.slices.1.length ≤ ttyRingSize ∧ g.slices.2.length ≤ ttyRingSize ∧
      g.slices.1.length + g.slices.2.length = g.length := by
  have hlength := g.length_lt
  have htail := g.tail_lt
  unfold RingBuffer.slices
  simp only [length_map, length_range]
  split <;> omega

/-- After any bytes, a flush with a callback to which the virtual machine gives the elements of the
array delivers the newest of the bytes pending, or nothing where there are none or no array; and
it reads inside of the buffer. -/
theorem newest_delivered (h : Reaches g pending) (bytes : List UInt8) (a : FlushAnswers)
    (hregistered : a.registered = true) (hdst : a.arr = true → a.dst = true) :
    (g.pushAll bytes).head < ttyRingSize ∧ (g.pushAll bytes).tail < ttyRingSize ∧
      (g.pushAll bytes).tail + (g.pushAll bytes).slices.1.length ≤ ttyRingSize ∧
      (g.pushAll bytes).slices.2.length ≤ ttyRingSize ∧
      (g.pushAll bytes).slices.1.length + (g.pushAll bytes).slices.2.length =
        min (pending ++ bytes).length (ttyRingSize - 1) ∧
      ((g.pushAll bytes).ttyFlush a).2 =
        if a.env ∧ a.arr ∧ pending ++ bytes ≠ [] then some (newest (pending ++ bytes))
        else none := by
  have hlist := toList_pushAll_eq h.toList_eq bytes
  generalize g.pushAll bytes = g' at hlist ⊢
  have hlength := congrArg List.length hlist
  rw [RingBuffer.length_toList, newest, List.rtake, length_drop] at hlength
  obtain ⟨hfirst, hsecond, hsum⟩ := slices_bounds g'
  refine ⟨g'.head_lt, g'.tail_lt, hfirst, hsecond, by omega, ?_⟩
  have hempty : g'.length = 0 ↔ pending ++ bytes = [] := by
    have hsize : ttyRingSize = 65536 := rfl
    rw [← List.length_eq_zero_iff]
    omega
  unfold ttyFlush
  rw [if_neg (by simp [hregistered])]
  by_cases henv : a.env = true
  · rw [if_neg (by simp [henv])]
    by_cases hnone : pending ++ bytes = []
    · rw [if_pos (hempty.mpr hnone), if_neg fun hboth => hboth.2.2 hnone]
    · rw [if_neg (mt hempty.mp hnone)]
      by_cases harr : a.arr = true
      · rw [if_pos harr, if_pos (hdst harr), if_pos ⟨henv, harr, hnone⟩, RingBuffer.slices_append,
          hlist]
      · rw [if_neg harr, if_neg fun hboth => harr hboth.2.1]
  · rw [if_pos (by simpa using henv), if_neg fun hboth => henv hboth.1]

/-- A byte is flushed, and then more bytes come than the ring holds: they go round it, and the oldest
two are lost. -/
theorem newest_delivered_overflow : ∃ g, Reaches g [] ∧
    ((g.pushAll (replicate ttyRingSize 97 ++ [98])).ttyFlush ⟨true, true, true, true⟩).2 =
      some (replicate (ttyRingSize - 2) 97 ++ [98]) := by
  have hreaches : Reaches ((Tty.ttyInit.ttyPushLocked 96).ttyFlush ⟨true, true, true, true⟩).1 [] :=
    (Reaches.init.push 96).flush ⟨true, true, true, true⟩
  refine ⟨_, hreaches, ?_⟩
  have hall := newest_delivered hreaches (replicate ttyRingSize 97 ++ [98])
    ⟨true, true, true, true⟩ rfl fun _ => rfl
  have hne : [] ++ (replicate ttyRingSize (97 : UInt8) ++ [98]) ≠ [] :=
    append_ne_nil_of_right_ne_nil _ (append_ne_nil_of_right_ne_nil _ (cons_ne_nil _ _))
  have hnewest : newest (replicate ttyRingSize 97 ++ [98]) =
      replicate (ttyRingSize - 2) 97 ++ [98] := by
    have hsize : 2 ≤ ttyRingSize := by decide
    unfold newest List.rtake
    generalize ttyRingSize = n at hsize ⊢
    rw [length_append, length_replicate, length_singleton, show n + 1 - (n - 1) = 2 by omega,
      drop_append_of_le_length (by rwa [length_replicate]), drop_replicate]
  rw [hall.2.2.2.2.2, if_pos ⟨rfl, rfl, hne⟩, nil_append, hnewest]

/-- Where the virtual machine does not give the elements of the array, the bytes are lost. -/
theorem newest_not_delivered : ¬ ∀ (g : TtyRing) (pending bytes : List UInt8) (a : FlushAnswers),
    Reaches g pending → a.registered = true → pending ++ bytes ≠ [] →
      ((g.pushAll bytes).ttyFlush a).2 = some (newest (pending ++ bytes)) := by
  intro hclaim
  have hnewest := hclaim _ [] [97] ⟨true, true, true, false⟩ .init rfl (by simp)
  rw [nil_append, newest_of_le (by simp [ttyRingSize])] at hnewest
  exact absurd hnewest (by decide)

end TtyRing

end MachVirtuTerm
