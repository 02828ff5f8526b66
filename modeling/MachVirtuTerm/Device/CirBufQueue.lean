import MachVirtuTerm.Device.CirBuf
import Mathlib.Data.List.GetD
import Mathlib.Tactic.Ring

/-!
# Circular buffers are queues

A buffer of `n` bytes is a queue of at most `n - 1` characters, in whatever way its pointers
lie. The number of characters that it keeps is their number as long as a `short` holds it.
-/

open List BitVec

namespace MachVirtuTerm

namespace CirBuf.Pointers

variable {cb cb' : Pointers} {n i : ℕ}

/-- The pointers are in the buffer. -/
structure Bounded (cb : Pointers) : Prop where
  cf : cb.cf < cb.size
  cl : cb.cl < cb.size

theorem mod_of_lt_two_mul {a : ℕ} (h : a < 2 * n) : a % n = if a < n then a else a - n := by
  split
  next hlt => exact Nat.mod_eq_of_lt hlt
  next hge =>
    rw [Nat.mod_eq_sub_mod (by omega), Nat.mod_eq_of_lt (by omega)]

theorem Bounded.length_eq (h : cb.Bounded) :
    cb.length = if cb.cf ≤ cb.cl then cb.cl - cb.cf else cb.cl + cb.size - cb.cf := by
  have hcf := h.cf
  have hcl := h.cl
  rw [length, mod_of_lt_two_mul (by omega)]
  split <;> split <;> omega

theorem Bounded.length_lt (h : cb.Bounded) : cb.length < cb.size := by
  have hcf := h.cf
  have hcl := h.cl
  rw [h.length_eq]
  split <;> omega

theorem length_contents : cb.contents.length = cb.length := by
  rw [contents, length_map, length_range]

theorem getElem_contents {k : ℕ} (hk : k < cb.contents.length) :
    cb.contents[k] = cb.mem ((cb.cf + k) % cb.size) := by
  simp [contents]

/-! ## Pieces -/

section

variable (h : cb.Bounded)

include h

theorem Bounded.filled_le : cb.filled ≤ cb.length ∧ cb.cf + cb.filled ≤ cb.size := by
  have hcf := h.cf
  have hcl := h.cl
  rw [h.length_eq, filled]
  split <;> split <;> omega

theorem Bounded.filled_pos (hne : cb.cl ≠ cb.cf) : 0 < cb.filled := by
  have hcf := h.cf
  rw [filled]
  split <;> omega

/-- Characters up to the end are taken away. -/
theorem Bounded.advance (hi : i ≤ cb.filled) :
    (cb.advance i).Bounded ∧ (cb.advance i).contents = cb.contents.drop i ∧
      cb.contents.take i = (List.range i).map fun k => cb.mem (cb.cf + k) := by
  have hcf := h.cf
  have hcl := h.cl
  obtain ⟨hlength, hend⟩ := h.filled_le
  have hbounded : (cb.advance i).Bounded := by
    constructor
    · change cb.wrap (cb.cf + i) < cb.size
      rw [wrap]
      split <;> omega
    · exact hcl
  have hnew : (cb.advance i).length = cb.length - i := by
    rw [hbounded.length_eq]
    rw [h.length_eq] at hlength ⊢
    rw [filled] at hi hend
    simp only [Pointers.advance, wrap]
    split_ifs at * <;> omega
  refine ⟨hbounded, ?_, ?_⟩
  · apply ext_getElem
    · rw [length_drop, length_contents, length_contents, hnew]
    · intro k hk hk'
      rw [getElem_drop, getElem_contents, getElem_contents]
      rw [length_contents, hnew] at hk
      have hlt := h.length_lt
      change cb.mem ((cb.wrap (cb.cf + i) + k) % cb.size) = _
      congr 1
      rw [wrap, mod_of_lt_two_mul (n := cb.size) (by split <;> omega), mod_of_lt_two_mul (by omega)]
      split_ifs <;> omega
  · apply ext_getElem
    · rw [List.length_take, length_contents, length_map, length_range]
      omega
    · intro k hk hk'
      rw [length_map, length_range] at hk'
      rw [getElem_take, getElem_contents, getElem_map, getElem_range]
      rw [Nat.mod_eq_of_lt (by omega)]

/-- The free slots up to the limit. -/
theorem Bounded.free_le (hne : cb.cl ≠ cb.lim) :
    0 < cb.free ∧ cb.length + cb.free ≤ cb.size - 1 ∧ cb.cl + cb.free ≤ cb.size := by
  have hcf := h.cf
  have hcl := h.cl
  rw [h.length_eq, free]
  rw [lim] at hne ⊢
  split_ifs at * <;> omega

/-- The buffer is full at the limit. -/
theorem Bounded.cl_eq_lim_iff : cb.cl = cb.lim ↔ cb.length = cb.size - 1 := by
  have hcf := h.cf
  have hcl := h.cl
  rw [h.length_eq, lim]
  split_ifs <;> omega

/-- Characters are copied to the free slots up to the end. -/
theorem Bounded.append {cp : List UInt8}
    (hlength : cb.length + cp.length ≤ cb.size - 1) (hend : cb.cl + cp.length ≤ cb.size) :
    (cb.append cp).Bounded ∧ (cb.append cp).contents = cb.contents ++ cp := by
  have hcf := h.cf
  have hcl := h.cl
  have hbounded : (cb.append cp).Bounded := by
    constructor
    · exact hcf
    · change cb.wrap (cb.cl + cp.length) < cb.size
      rw [wrap]
      split <;> omega
  have hnew : (cb.append cp).length = cb.length + cp.length := by
    rw [hbounded.length_eq]
    rw [h.length_eq] at hlength ⊢
    simp only [Pointers.append, wrap]
    split_ifs at * <;> omega
  refine ⟨hbounded, ?_⟩
  apply ext_getElem
  · rw [length_append, length_contents, length_contents, hnew]
  · intro k hk hk'
    rw [length_contents, hnew] at hk
    rw [getElem_contents]
    change (if _ ∧ _ then _ else _) = _
    have hmod : (cb.cf + k) % cb.size =
        if cb.cf + k < cb.size then cb.cf + k else cb.cf + k - cb.size :=
      mod_of_lt_two_mul (by omega)
    have hlen := h.length_eq
    change (if cb.cl ≤ (cb.cf + k) % cb.size ∧ (cb.cf + k) % cb.size < cb.cl + cp.length
      then cp.getD ((cb.cf + k) % cb.size - cb.cl) 0 else cb.mem ((cb.cf + k) % cb.size)) = _
    by_cases hold : k < cb.length
    · have hout : ¬(cb.cl ≤ (cb.cf + k) % cb.size ∧
          (cb.cf + k) % cb.size < cb.cl + cp.length) := by
        rw [hmod]
        split_ifs at * <;> omega
      rw [if_neg hout, getElem_append_left (by rwa [length_contents]), getElem_contents]
    · have hin : (cb.cf + k) % cb.size = cb.cl + (k - cb.length) := by
        rw [hmod]
        split_ifs at * <;> omega
      rw [hin, if_pos (by omega), getElem_append_right (by rw [length_contents]; omega)]
      have hindex : cb.cl + (k - cb.length) - cb.cl = k - cb.contents.length := by
        rw [length_contents]
        omega
      rw [hindex, getD_eq_getElem]

end

/-! ## Functions -/

/-- A buffer of a size denotes a queue. -/
structure Denotes (cb : Pointers) (n : ℕ) (q : List UInt8) : Prop where
  bounded : cb.Bounded
  size : cb.size = n
  contents : cb.contents = q
  cc : cb.cc = BitVec.ofNat 16 q.length

variable {q : List UInt8}

section

variable (h : cb.Denotes n q)

include h

theorem Denotes.length : cb.length = q.length := by
  rw [← h.contents, length_contents]

theorem Denotes.length_lt : q.length < n := by
  have hlt := h.bounded.length_lt
  rwa [h.length, h.size] at hlt

/-- An empty buffer has one place for both pointers. -/
theorem Denotes.cl_eq_cf_iff : cb.cl = cb.cf ↔ q = [] := by
  have hcf := h.bounded.cf
  have hcl := h.bounded.cl
  rw [← List.length_eq_zero_iff, ← h.length, h.bounded.length_eq]
  split <;> omega

theorem Denotes.advance (hi : i ≤ cb.filled) : (cb.advance i).Denotes n (q.drop i) := by
  obtain ⟨hbounded, hcontents, -⟩ := h.bounded.advance hi
  have hle : i ≤ q.length := h.length ▸ hi.trans h.bounded.filled_le.1
  refine ⟨hbounded, h.size, hcontents.trans (by rw [h.contents]), ?_⟩
  change cb.cc - BitVec.ofNat 16 i = _
  rw [h.cc, length_drop]
  apply eq_of_toNat_eq
  simp only [toNat_sub, toNat_ofNat]
  omega

theorem Denotes.append {cp : List UInt8}
    (hlength : q.length + cp.length ≤ n - 1) (hend : cb.cl + cp.length ≤ cb.size) :
    (cb.append cp).Denotes n (q ++ cp) := by
  rw [← h.length, ← h.size] at hlength
  obtain ⟨hbounded, hcontents⟩ := h.bounded.append hlength hend
  refine ⟨hbounded, h.size, hcontents.trans (by rw [h.contents]), ?_⟩
  change cb.cc + BitVec.ofNat 16 cp.length = _
  rw [h.cc, length_append, ofNat_add]

end

theorem denotes_cbAlloc (mem : ℕ → UInt8) (hn : 0 < n) : (cbAlloc mem n).Denotes n [] where
  bounded := ⟨hn, hn⟩
  size := rfl
  contents := by simp [contents, length, cbAlloc]
  cc := rfl

/-- A character in a buffer with room is a string of one. -/
theorem Bounded.putc_eq (h : cb.Bounded) (hne : cb.wrap (cb.cl + 1) ≠ cb.cf) (c : UInt8) :
    cb.putc c = some (false, cb.append [c]) := by
  have hmem : Function.update cb.mem cb.cl c = (cb.append [c]).mem := by
    funext k
    by_cases hk : k = cb.cl
    · subst hk
      simp [Pointers.append]
    · have hout : ¬(cb.cl ≤ k ∧ k < cb.cl + [c].length) := by
        rw [length_singleton]
        omega
      rw [Function.update_of_ne hk]
      exact (if_neg hout).symm
  rw [putc, if_neg hne, if_neg (not_le.mpr h.cl), hmem]
  rfl

/-- The pointer before the characters is the limit. -/
theorem Bounded.wrap_eq_cf_iff (h : cb.Bounded) :
    cb.wrap (cb.cl + 1) = cb.cf ↔ cb.length = cb.size - 1 := by
  have hcf := h.cf
  have hcl := h.cl
  rw [h.length_eq, wrap]
  split_ifs <;> omega

theorem Denotes.putc (h : cb.Denotes n q) (c : UInt8) :
    ∃ cb', cb.putc c = some (decide (q.length = n - 1), cb') ∧
      cb'.Denotes n (if q.length = n - 1 then q else q ++ [c]) := by
  have hfull := h.bounded.wrap_eq_cf_iff
  rw [h.length, h.size] at hfull
  by_cases hlength : q.length = n - 1
  · refine ⟨cb, ?_, by rwa [if_pos hlength]⟩
    rw [Pointers.putc, if_pos (hfull.mpr hlength), decide_eq_true hlength]
  · have hlt := h.length_lt
    have hcl := h.bounded.cl
    refine ⟨cb.append [c], ?_, ?_⟩
    · rw [h.bounded.putc_eq (fun heq => hlength (hfull.mp heq)), decide_eq_false hlength]
    · rw [if_neg hlength]
      exact h.append (by rw [length_singleton]; omega) hcl

theorem Denotes.getc (h : cb.Denotes n q) :
    ∃ cb', cb.getc = some (q.head?, cb') ∧ cb'.Denotes n (q.drop 1) := by
  by_cases hempty : q = []
  · subst hempty
    refine ⟨cb, ?_, h⟩
    rw [Pointers.getc, if_pos (h.cl_eq_cf_iff.mpr rfl).symm]
    rfl
  · have hne : cb.cl ≠ cb.cf := fun heq => hempty (h.cl_eq_cf_iff.mp heq)
    have hpos := h.bounded.filled_pos hne
    obtain ⟨-, -, htake⟩ := h.bounded.advance (i := 1) hpos
    refine ⟨cb.advance 1, ?_, h.advance hpos⟩
    obtain ⟨c, rest, rfl⟩ := exists_cons_of_ne_nil hempty
    rw [h.contents] at htake
    have hc : c = cb.mem cb.cf := by simpa using htake
    rw [Pointers.getc, if_neg (Ne.symm hne), if_neg (not_le.mpr h.bounded.cf), hc]
    rfl

theorem Denotes.qToB (count : ℕ) : ∀ {cb : Pointers} {q : List UInt8}, cb.Denotes n q →
    ∃ cb', cb.qToB count = some (q.take count, cb') ∧ cb'.Denotes n (q.drop count) := by
  induction count using Nat.strongRecOn with
  | ind count ih =>
    intro cb q h
    rw [Pointers.qToB]
    by_cases hcount : count = 0
    · subst hcount
      exact ⟨cb, by simp, h⟩
    rw [if_neg hcount]
    by_cases hempty : cb.cl = cb.cf
    · rw [if_pos hempty, h.cl_eq_cf_iff.mp hempty]
      exact ⟨cb, by simp, by simpa [h.cl_eq_cf_iff.mp hempty] using h⟩
    rw [if_neg hempty]
    have hpos := h.bounded.filled_pos hempty
    have hend := h.bounded.filled_le.2
    have hi : min cb.filled count ≤ cb.filled := min_le_left _ _
    have hle : min cb.filled count ≤ count := min_le_right _ _
    have hmin : 0 < min cb.filled count := lt_min hpos (by omega)
    obtain ⟨-, -, htake⟩ := h.bounded.advance hi
    obtain ⟨cb', heq, hdenotes⟩ := ih (count - min cb.filled count) (by omega) (h.advance hi)
    rw [h.contents] at htake
    refine ⟨cb', ?_, ?_⟩
    · rw [dif_neg (by omega), heq, Option.map_some, ← htake, ← take_add, Nat.add_sub_cancel' hle]
    · rwa [drop_drop, Nat.add_sub_cancel' hle] at hdenotes

/-- A flush takes off what is read. -/
theorem ndflush_eq (count : ℕ) (cb : Pointers) :
    cb.ndflush count = (cb.qToB count).map Prod.snd := by
  induction count using Nat.strongRecOn generalizing cb with
  | ind count ih =>
    rw [Pointers.ndflush, Pointers.qToB]
    dsimp only
    split_ifs with hcount hempty hzero
    · rfl
    · rfl
    · rfl
    · rw [ih _ (by omega), Option.map_map]
      rfl

theorem Denotes.ndflush (count : ℕ) {cb : Pointers} {q : List UInt8} (h : cb.Denotes n q) :
    ∃ cb', cb.ndflush count = some cb' ∧ cb'.Denotes n (q.drop count) := by
  obtain ⟨cb', heq, hdenotes⟩ := h.qToB count
  exact ⟨cb', by rw [ndflush_eq, heq]; rfl, hdenotes⟩

theorem Denotes.bToQ : ∀ (k : ℕ) {cb : Pointers} {q cp : List UInt8}, cp.length = k →
    cb.Denotes n q → ∃ cb', cb.bToQ cp = some (cp.length - (n - 1 - q.length), cb') ∧
      cb'.Denotes n (q ++ cp.take (n - 1 - q.length)) := by
  intro k
  induction k using Nat.strongRecOn with
  | ind k ih =>
    intro cb q cp hk h
    rw [Pointers.bToQ]
    by_cases hcp : cp.length = 0
    · rw [if_pos hcp, List.length_eq_zero_iff.mp hcp]
      exact ⟨cb, by simp, by simpa using h⟩
    rw [if_neg hcp]
    have hlim := h.bounded.cl_eq_lim_iff
    rw [h.length, h.size] at hlim
    by_cases hfull : cb.cl = cb.lim
    · have hroom : n - 1 - q.length = 0 := by
        rw [hlim.mp hfull]
        omega
      rw [if_pos hfull, hroom]
      exact ⟨cb, rfl, by simpa using h⟩
    rw [if_neg hfull]
    obtain ⟨hpos, hfree, hend⟩ := h.bounded.free_le hfull
    rw [h.length, h.size] at hfree
    have hi : min cb.free cp.length ≤ cb.free := min_le_left _ _
    have hle : min cb.free cp.length ≤ cp.length := min_le_right _ _
    have hmin : 0 < min cb.free cp.length := lt_min hpos (by omega)
    generalize min cb.free cp.length = i at hi hle hmin
    have htake : (cp.take i).length = i := by rw [List.length_take, min_eq_left hle]
    have hdrop : (cp.drop i).length = cp.length - i := length_drop
    have happend : (cb.append (cp.take i)).Denotes n (q ++ cp.take i) :=
      h.append (by rw [htake]; omega) (by rw [htake]; omega)
    obtain ⟨cb', heq, hdenotes⟩ := ih (cp.length - i) (by omega) hdrop happend
    have hroom : n - 1 - (q ++ cp.take i).length = n - 1 - q.length - i := by
      rw [length_append, htake]
      omega
    rw [hroom] at heq hdenotes
    refine ⟨cb', ?_, ?_⟩
    · rw [dif_neg (by omega), heq, hdrop]
      congr 2
      omega
    · have hsplit : cp.take i ++ (cp.drop i).take (n - 1 - q.length - i) =
          cp.take (n - 1 - q.length) := by
        rw [← take_add, Nat.add_sub_cancel' (by omega)]
      rwa [List.append_assoc, hsplit] at hdenotes

/-! ## Calls -/

/-- A call does to the buffer what it does to the queue. -/
theorem Denotes.call (h : cb.Denotes n q) (x : Call) :
    ∃ cb', cb.call x = some ((x.onQueue (n - 1) q).1, cb') ∧
      cb'.Denotes n (x.onQueue (n - 1) q).2 := by
  cases x with
  | putc c =>
    obtain ⟨cb', heq, hdenotes⟩ := h.putc c
    refine ⟨cb', ?_, ?_⟩
    · rw [Pointers.call, heq, Call.onQueue]
      by_cases hfull : q.length = n - 1 <;> simp [hfull]
    · rw [Call.onQueue]
      split at hdenotes
      next hfull => rwa [if_pos hfull]
      next hroom => rwa [if_neg hroom]
  | getc =>
    obtain ⟨cb', heq, hdenotes⟩ := h.getc
    refine ⟨cb', ?_, hdenotes⟩
    rw [Pointers.call, heq, Call.onQueue]
    cases q <;> rfl
  | bToQ cp =>
    obtain ⟨cb', heq, hdenotes⟩ := Denotes.bToQ _ rfl h
    exact ⟨cb', by rw [Pointers.call, heq]; rfl, hdenotes⟩
  | qToB count =>
    obtain ⟨cb', heq, hdenotes⟩ := Denotes.qToB count h
    exact ⟨cb', by rw [Pointers.call, heq]; rfl, hdenotes⟩
  | ndflush count =>
    obtain ⟨cb', heq, hdenotes⟩ := Denotes.ndflush count h
    exact ⟨cb', by rw [Pointers.call, heq]; rfl, hdenotes⟩

/-- Calls do to the buffer what they do to the queue. -/
theorem Denotes.calls (xs : List Call) : ∀ {cb : Pointers} {q : List UInt8},
    cb.Denotes n q → ∃ cb', cb.calls xs = some ((Call.listOnQueue (n - 1) q xs).1, cb') ∧
      cb'.Denotes n (Call.listOnQueue (n - 1) q xs).2 := by
  induction xs with
  | nil => exact fun h => ⟨_, rfl, h⟩
  | cons x xs ih =>
    intro cb q h
    obtain ⟨cb₁, heq₁, h₁⟩ := h.call x
    obtain ⟨cb₂, heq₂, h₂⟩ := ih h₁
    exact ⟨cb₂, by rw [Pointers.calls, heq₁]; simp only [heq₂]; rfl, h₂⟩

/-! ## What a buffer says of itself -/

/-- A buffer after some calls says of itself what its queue is. -/
structure Truthful (cb : Pointers) (n : ℕ) (q : List UInt8) : Prop where
  bounded : cb.Bounded
  size : cb.size = n
  contents : cb.contents = q
  room : q.length ≤ n - 1
  cc : cb.cc.toInt = q.length
  length : cb.length = q.length
  cbSpace : cb.cbSpace = (n : ℤ) - 1 - q.length
  /-- The characters up to the end of the buffer or of the queue. -/
  ndqb : cb.ndqb 0 = min q.length (n - cb.cf)
  ndqb_le : (cb.ndqb 0 : ℤ) ≤ cb.cc.toInt

theorem Denotes.cbSpace (h : cb.Denotes n q) : cb.cbSpace = (n : ℤ) - 1 - q.length := by
  have hcf := h.bounded.cf
  have hcl := h.bounded.cl
  rw [← h.length, h.bounded.length_eq, Pointers.cbSpace, ← h.size]
  split_ifs <;> omega

theorem Denotes.ndqb (h : cb.Denotes n q) : cb.ndqb 0 = min q.length (n - cb.cf) := by
  have hcf := h.bounded.cf
  have hcl := h.bounded.cl
  rw [← h.length, h.bounded.length_eq, Pointers.ndqb, if_pos rfl, ← h.size]
  split_ifs <;> omega

/-- All is right but for the number of characters, which is as long as a `short` holds it. -/
theorem Denotes.truthful_iff (h : cb.Denotes n q) : cb.Truthful n q ↔ q.length < 2 ^ 15 := by
  constructor
  · intro ht
    have hlt := toInt_lt (x := cb.cc)
    rw [ht.cc] at hlt
    exact_mod_cast hlt
  · intro hlength
    have hcc : cb.cc.toInt = q.length := by
      rw [h.cc, toInt_eq_toNat_of_lt] <;> rw [toNat_ofNat] <;> omega
    have hlt := h.length_lt
    refine ⟨h.bounded, h.size, h.contents, by omega, hcc, h.length, h.cbSpace, h.ndqb, ?_⟩
    rw [h.ndqb, hcc]
    exact_mod_cast min_le_left _ _

/-- Whatever is done with a buffer of a size, it does what a queue does and is truthful. -/
def IsQueue (n : ℕ) : Prop :=
  ∀ mem xs, ∃ cb, (cbAlloc mem n).calls xs = some ((Call.listOnQueue (n - 1) [] xs).1, cb) ∧
    cb.Truthful n (Call.listOnQueue (n - 1) [] xs).2

/-- A buffer can be filled. -/
theorem le_of_isQueue (hn : 2 ≤ n) (h : IsQueue n) : n ≤ 2 ^ 15 := by
  have hpos : 0 < n := by omega
  obtain ⟨cb, heq, ht⟩ := h (fun _ => 0) [.bToQ (List.replicate (n - 1) 0)]
  obtain ⟨cb', heq', hdenotes⟩ :=
    (denotes_cbAlloc (fun _ => 0) hpos).calls [.bToQ (List.replicate (n - 1) 0)]
  rw [heq'] at heq
  cases heq
  have hlength := hdenotes.truthful_iff.mp ht
  have hfull : (Call.listOnQueue (n - 1) [] [.bToQ (List.replicate (n - 1) 0)]).2.length =
      n - 1 := by
    simp [Call.listOnQueue, Call.onQueue]
  rw [hfull] at hlength
  omega

/-- Buffers are queues if and only if a `short` holds the number of their characters. -/
theorem isQueue_iff (hn : 2 ≤ n) : IsQueue n ↔ n ≤ 2 ^ 15 := by
  constructor
  · exact le_of_isQueue hn
  · intro hle mem xs
    have hpos : 0 < n := by omega
    obtain ⟨cb, heq, hdenotes⟩ := (denotes_cbAlloc mem hpos).calls xs
    have hlt := hdenotes.length_lt
    exact ⟨cb, heq, hdenotes.truthful_iff.mpr (by omega)⟩

/-- A buffer of a page. -/
theorem isQueue_4096 : IsQueue 4096 := (isQueue_iff (by decide)).mpr (by decide)

/-- A buffer that is too large for its count. -/
theorem not_isQueue_32769 : ¬IsQueue 32769 := fun h =>
  absurd (le_of_isQueue (by decide) h) (by decide)

end CirBuf.Pointers

end MachVirtuTerm
