import Mathlib.Data.List.Basic
import Mathlib.Tactic.IntervalCases

/-!
# Decoding UTF-8 byte by byte

A decoder that remembers the bytes of a character it has seen. What cannot become a character is
replaced: the longest part that began like one, or a single byte. A text that is decoded in parts
is the text decoded at once unless a part ends where the next one goes on with a character.
-/

open BitVec

namespace Utf8

open List

/-- U+FFFD, which stands for what is no character. -/
def replacement : BitVec 16 := 0xfffd

/-- A decoder between two bytes. -/
structure Decoder where
  /-- How many bytes the character still needs. -/
  more : ℕ
  codePoint : ℕ
  /-- The bytes that may come next. -/
  lower : ℕ
  upper : ℕ
  deriving DecidableEq

open Decoder

/-- A decoder between two characters. -/
def Decoder.start : Decoder := ⟨0, 0, 0x80, 0xbf⟩

/-- The code units of a character in UTF-16. -/
def utf16 (codePoint : ℕ) : List (BitVec 16) :=
  if codePoint < 0x10000 then [BitVec.ofNat 16 codePoint]
  else [BitVec.ofNat 16 (codePoint / 0x400 + 0xd7c0), BitVec.ofNat 16 (codePoint % 0x400 + 0xdc00)]

/-- The first byte of a character, or a byte that is none. -/
def lead (b : ℕ) : Decoder × List (BitVec 16) :=
  if b < 0x80 then (.start, [BitVec.ofNat 16 b])
  else if b < 0xc2 then (.start, [replacement])
  else if b < 0xe0 then (⟨1, b - 0xc0, 0x80, 0xbf⟩, [])
  else if b < 0xf0 then
    (⟨2, b - 0xe0, if b = 0xe0 then 0xa0 else 0x80, if b = 0xed then 0x9f else 0xbf⟩, [])
  else if b < 0xf5 then
    (⟨3, b - 0xf0, if b = 0xf0 then 0x90 else 0x80, if b = 0xf4 then 0x8f else 0xbf⟩, [])
  else (.start, [replacement])

namespace Decoder

/-- A byte goes on with the character that has begun. -/
def Continues (d : Decoder) (b : UInt8) : Prop :=
  d.more ≠ 0 ∧ d.lower ≤ b.toNat ∧ b.toNat ≤ d.upper

instance (d : Decoder) (b : UInt8) : Decidable (d.Continues b) :=
  inferInstanceAs (Decidable (_ ∧ _))

/-- What stands for a character that has begun, where it does not go on. -/
def flush (d : Decoder) : List (BitVec 16) := if d.more = 0 then [] else [replacement]

/-- The next byte. -/
def step (d : Decoder) (b : UInt8) : Decoder × List (BitVec 16) :=
  if d.Continues b then
    let codePoint := d.codePoint * 64 + b.toNat % 64
    if d.more = 1 then (.start, utf16 codePoint)
    else (⟨d.more - 1, codePoint, 0x80, 0xbf⟩, [])
  else ((lead b.toNat).1, d.flush ++ (lead b.toNat).2)

/-- Some bytes. -/
def run : Decoder → List UInt8 → Decoder × List (BitVec 16)
  | d, [] => (d, [])
  | d, b :: bs =>
    (((d.step b).1.run bs).1, (d.step b).2 ++ ((d.step b).1.run bs).2)

end Decoder

/-- The decoder behind some bytes. -/
def after (bs : List UInt8) : Decoder := (start.run bs).1

/-- The text of the bytes. -/
def decode (bs : List UInt8) : List (BitVec 16) :=
  (start.run bs).2 ++ (after bs).flush

section Parts

variable {d : Decoder} {b : UInt8} {bs cs : List UInt8}

theorem run_append (d : Decoder) (bs cs : List UInt8) :
    d.run (bs ++ cs) = (((d.run bs).1.run cs).1, (d.run bs).2 ++ ((d.run bs).1.run cs).2) := by
  induction bs generalizing d with
  | nil => rfl
  | cons b bs ih =>
    rw [List.cons_append, run, ih]
    simp only [run, List.append_assoc]

/-- A byte that does not go on with a character is as at the start. -/
theorem step_of_not_continues (h : ¬ d.Continues b) :
    d.step b = ((start.step b).1, d.flush ++ (start.step b).2) := by
  have hstart : ¬ start.Continues b := fun hcontinues => hcontinues.1 rfl
  unfold step
  rw [if_neg h, if_neg hstart]
  rfl

theorem run_of_not_continues (h : ¬ d.Continues b) :
    d.run (b :: bs) = ((start.run (b :: bs)).1, d.flush ++ (start.run (b :: bs)).2) := by
  simp only [run]
  rw [step_of_not_continues h]
  simp only [List.append_assoc]

theorem after_append (bs cs : List UInt8) : after (bs ++ cs) = ((after bs).run cs).1 := by
  unfold after
  rw [run_append]

/-- A cut at the end of a character, or in what is none, does not show. -/
theorem decode_append_of_not_continues (h : ¬ (after bs).Continues b) :
    decode (bs ++ b :: cs) = decode bs ++ decode (b :: cs) := by
  have hrun := @run_of_not_continues _ _ cs h
  have hafter : after (bs ++ b :: cs) = after (b :: cs) := by
    rw [after_append, hrun]
    rfl
  unfold decode
  rw [hafter, run_append]
  change (start.run bs).2 ++ ((after bs).run (b :: cs)).2 ++ _ = _
  rw [hrun]
  simp only [List.append_assoc]

/-- What stands for a character that has begun is not in the text yet. -/
theorem decode_append (bs cs : List UInt8) :
    decode (bs ++ cs) = (start.run bs).2 ++
      (((after bs).run cs).2 ++ ((after bs).run cs).1.flush) := by
  unfold decode
  rw [after_append, run_append]
  exact List.append_assoc _ _ _

end Parts

section Characters

/-- What a decoder knows of the character that has begun: it will be none of the first 128, and
not too large. -/
structure Decoder.Ok (d : Decoder) : Prop where
  more : d.more ≤ 3
  lower : 0x80 ≤ d.lower
  upper : d.upper ≤ 0xbf
  least : d.more ≠ 0 → 0x80 ≤ (d.codePoint * 64 + (d.lower - 0x80)) * 64 ^ (d.more - 1)
  most : d.codePoint * 64 ^ d.more < 2 ^ 21

theorem Decoder.start_ok : start.Ok := by
  constructor <;> simp [start]

theorem lead_ok (b : ℕ) : (lead b).1.Ok := by
  unfold lead
  split
  · exact start_ok
  · split
    · exact start_ok
    · split
      · constructor <;> simp <;> omega
      · split
        · constructor
          · dsimp only
            omega
          · dsimp only
            split <;> omega
          · dsimp only
            split <;> omega
          · intro _
            dsimp only
            split <;> omega
          · dsimp only
            omega
        · split
          · constructor
            · dsimp only
              omega
            · dsimp only
              split <;> omega
            · dsimp only
              split <;> omega
            · intro _
              dsimp only
              split <;> omega
            · dsimp only
              omega
          · exact start_ok

/-- A character, or what stands for it: one code unit that is none of the first 128, or two, the
second of which is a low surrogate. -/
def IsCharacter (text : List (BitVec 16)) : Prop :=
  (∃ u : BitVec 16, 0x80 ≤ u ∧ text = [u]) ∨
    ∃ u v : BitVec 16, 0x80 ≤ u ∧ 0x80 ≤ v ∧ v ≠ replacement ∧ text = [u, v]

theorem isCharacter_replacement : IsCharacter [replacement] := .inl ⟨_, by decide, rfl⟩

theorem utf16_isCharacter {n : ℕ} (hleast : 0x80 ≤ n) (hmost : n < 2 ^ 21) :
    IsCharacter (utf16 n) := by
  unfold utf16
  split
  next hsmall =>
    refine .inl ⟨_, ?_, rfl⟩
    rw [le_def, toNat_ofNat, Nat.mod_eq_of_lt (by omega)]
    exact hleast
  next hlarge =>
    refine .inr ⟨_, _, ?_, ?_, ?_, rfl⟩
    · rw [le_def, toNat_ofNat, Nat.mod_eq_of_lt (by omega)]
      change 128 ≤ _
      omega
    · rw [le_def, toNat_ofNat, Nat.mod_eq_of_lt (by omega)]
      change 128 ≤ _
      omega
    · intro heq
      have hnat := congrArg BitVec.toNat heq
      rw [toNat_ofNat, Nat.mod_eq_of_lt (by omega)] at hnat
      have hrep : replacement.toNat = 0xfffd := rfl
      omega

variable {d : Decoder} {b : UInt8}

/-- A byte that goes on with a character makes it complete, or leaves it open. -/
theorem step_of_continues (hok : d.Ok) (h : d.Continues b) :
    (d.step b).1.Ok ∧ ((d.step b).2 = [] ∧ (d.step b).1.flush = [replacement] ∨
      IsCharacter (d.step b).2 ∧ (d.step b).1 = .start) := by
  have hstep : d.step b = if d.more = 1 then
      (.start, utf16 (d.codePoint * 64 + (b.toNat - 0x80)))
    else (⟨d.more - 1, d.codePoint * 64 + (b.toNat - 0x80), 0x80, 0xbf⟩, []) := by
    have hfrom := hok.lower
    have hto := hok.upper
    have hmod : b.toNat % 64 = b.toNat - 0x80 := by
      have hlower := h.2.1
      have hupper := h.2.2
      omega
    unfold step
    rw [if_pos h, hmod]
  obtain ⟨hmore, hlower, hupper⟩ := h
  obtain ⟨hthree, hfrom, hto, hleast, hmost⟩ := hok
  have hleast := hleast hmore
  rw [hstep]
  generalize b.toNat = x at hlower hupper ⊢
  generalize d.codePoint = n at hleast hmost ⊢
  have hcases : d.more = 1 ∨ d.more = 2 ∨ d.more = 3 := by omega
  rcases hcases with hn | hn | hn
  · rw [if_pos hn]
    rw [hn] at hleast hmost
    norm_num at hleast hmost
    have hbound : n < 32768 := by omega
    have hchar : IsCharacter (utf16 (n * 64 + (x - 0x80))) := by
      apply utf16_isCharacter
      · omega
      · norm_num
        omega
    dsimp only
    exact ⟨start_ok, .inr ⟨hchar, rfl⟩⟩
  · rw [if_neg (by omega), hn]
    rw [hn] at hleast hmost
    norm_num at hleast hmost
    refine ⟨⟨by simp, le_rfl, le_rfl, ?_, ?_⟩, .inl ⟨rfl, rfl⟩⟩
    · intro _
      norm_num
      omega
    · have hbound : n * 64 + (x - 128) < 32768 := by omega
      norm_num
      omega
  · rw [if_neg (by omega), hn]
    rw [hn] at hleast hmost
    norm_num at hleast hmost
    refine ⟨⟨by simp, le_rfl, le_rfl, ?_, ?_⟩, .inl ⟨rfl, rfl⟩⟩
    · intro _
      norm_num
      omega
    · have hbound : n * 64 + (x - 128) < 512 := by omega
      norm_num
      exact Nat.mul_lt_mul_of_pos_right hbound (by norm_num)

theorem step_ok (hok : d.Ok) (b : UInt8) : (d.step b).1.Ok := by
  by_cases h : d.Continues b
  · exact (step_of_continues hok h).1
  · unfold step
    rw [if_neg h]
    exact lead_ok b.toNat

theorem run_ok (hok : d.Ok) (bs : List UInt8) : (d.run bs).1.Ok := by
  induction bs generalizing d with
  | nil => exact hok
  | cons b bs ih => exact ih (step_ok hok b)

theorem after_ok (bs : List UInt8) : (after bs).Ok := run_ok start_ok bs

/-- A byte that goes on with a character gives one, or what stands for it. -/
theorem run_isCharacter (hok : d.Ok) (h : d.Continues b) :
    IsCharacter ((d.run [b]).2 ++ (d.run [b]).1.flush) := by
  simp only [run, append_nil]
  obtain ⟨-, ⟨hnone, hflush⟩ | ⟨hchar, hstart⟩⟩ := step_of_continues hok h
  · rw [hnone, hflush]
    exact isCharacter_replacement
  · rw [hstart, show start.flush = [] from rfl, append_nil]
    exact hchar

/-- A byte that could go on with a character is none by itself. -/
theorem decode_cons_of_continues (hok : d.Ok) (h : d.Continues b) (bs : List UInt8) :
    decode (b :: bs) = replacement :: decode bs := by
  have hfrom := hok.lower
  have hto := hok.upper
  obtain ⟨-, hlower, hupper⟩ := h
  have hlead : lead b.toNat = (.start, [replacement]) := by
    unfold lead
    rw [if_neg (by omega), if_pos (by omega)]
  have hstart : ¬ start.Continues b := fun hcontinues => hcontinues.1 rfl
  unfold decode after
  simp only [run, step]
  rw [if_neg hstart, hlead]
  rfl

/-- A character that has begun comes to something, whatever follows. -/
theorem run_of_begun (hok : d.Ok) (hmore : d.more ≠ 0) (bs : List UInt8) :
    ∃ (u : BitVec 16) (text : List (BitVec 16)), 0x80 ≤ u ∧
      (d.run bs).2 ++ (d.run bs).1.flush = u :: text := by
  induction bs generalizing d with
  | nil =>
    refine ⟨replacement, [], by decide, ?_⟩
    simp only [run, flush, nil_append]
    exact if_neg hmore
  | cons b bs ih =>
    simp only [run]
    by_cases hcontinues : d.Continues b
    · obtain ⟨hok', ⟨hnone, hflush⟩ | ⟨hchar, -⟩⟩ := step_of_continues hok hcontinues
      · have hmore' : (d.step b).1.more ≠ 0 := by
          intro hzero
          rw [flush, if_pos hzero] at hflush
          cases hflush
        rw [hnone, nil_append]
        exact ih hok' hmore'
      · rcases hchar with ⟨u, hu, heq⟩ | ⟨u, v, hu, -, -, heq⟩
        · exact ⟨u, _, hu, by rw [heq]; rfl⟩
        · exact ⟨u, _, hu, by rw [heq]; rfl⟩
    · rw [step_of_not_continues hcontinues, flush, if_neg hmore]
      exact ⟨replacement, _, by decide, rfl⟩

end Characters

/-!
# Encoding a text
-/

/-- The bytes of a character. -/
def utf8 (codePoint : ℕ) : List UInt8 :=
  if codePoint < 0x80 then [UInt8.ofNat codePoint]
  else if codePoint < 0x800 then
    [UInt8.ofNat (0xc0 + codePoint / 0x40), UInt8.ofNat (0x80 + codePoint % 0x40)]
  else if codePoint < 0x10000 then
    [UInt8.ofNat (0xe0 + codePoint / 0x1000), UInt8.ofNat (0x80 + codePoint / 0x40 % 0x40),
      UInt8.ofNat (0x80 + codePoint % 0x40)]
  else
    [UInt8.ofNat (0xf0 + codePoint / 0x40000), UInt8.ofNat (0x80 + codePoint / 0x1000 % 0x40),
      UInt8.ofNat (0x80 + codePoint / 0x40 % 0x40), UInt8.ofNat (0x80 + codePoint % 0x40)]

/-- The first half of a character that takes two code units, and the second one. -/
def IsHigh (u : BitVec 16) : Prop := 0xd800 ≤ u.toNat ∧ u.toNat < 0xdc00

def IsLow (u : BitVec 16) : Prop := 0xdc00 ≤ u.toNat ∧ u.toNat < 0xe000

instance (u : BitVec 16) : Decidable (IsHigh u) := inferInstanceAs (Decidable (_ ∧ _))

instance (u : BitVec 16) : Decidable (IsLow u) := inferInstanceAs (Decidable (_ ∧ _))

/-- The text with a `?` for each half of a character that stands by itself. -/
def wellFormed : List (BitVec 16) → List (BitVec 16)
  | [] => []
  | [u] => if IsHigh u ∨ IsLow u then [0x3f] else [u]
  | u :: v :: text =>
    if IsHigh u ∧ IsLow v then u :: v :: wellFormed text
    else (if IsHigh u ∨ IsLow u then 0x3f else u) :: wellFormed (v :: text)

/-- The bytes of a text, with a `?` for each half of a character that stands by itself. -/
def encode : List (BitVec 16) → List UInt8
  | [] => []
  | [u] => if IsHigh u ∨ IsLow u then utf8 0x3f else utf8 u.toNat
  | u :: v :: text =>
    if IsHigh u ∧ IsLow v then
      utf8 (0x10000 + (u.toNat - 0xd800) * 0x400 + (v.toNat - 0xdc00)) ++ encode text
    else (if IsHigh u ∨ IsLow u then utf8 0x3f else utf8 u.toNat) ++ encode (v :: text)

theorem toNat_ofNat {b : ℕ} (hb : b < 256) : (UInt8.ofNat b).toNat = b :=
  UInt8.toNat_ofNat_of_lt' hb

/-- A byte that goes on with a character. -/
theorem step_tail {more codePoint lower upper x : ℕ} (hx : x < 0x40) (hlower : lower ≤ 0x80 + x)
    (hupper : 0x80 + x ≤ upper) :
    (⟨more + 1, codePoint, lower, upper⟩ : Decoder).step (UInt8.ofNat (0x80 + x)) =
      if more = 0 then (.start, utf16 (codePoint * 64 + x))
      else (⟨more, codePoint * 64 + x, 0x80, 0xbf⟩, []) := by
  have hbyte := toNat_ofNat (b := 0x80 + x) (by omega)
  have hmod : (0x80 + x) % 64 = x := by omega
  have hcontinues : (⟨more + 1, codePoint, lower, upper⟩ : Decoder).Continues
      (UInt8.ofNat (0x80 + x)) := ⟨Nat.succ_ne_zero more, by rwa [hbyte], by rwa [hbyte]⟩
  unfold step
  rw [if_pos hcontinues, hbyte, hmod]
  cases more <;> rfl

theorem step_lead {b : ℕ} (hb : b < 256) : start.step (UInt8.ofNat b) = lead b := by
  unfold step
  rw [if_neg fun hcontinues => hcontinues.1 rfl, toNat_ofNat hb]
  rfl

/-- The bytes of a character are decoded as it. -/
theorem run_utf8 {n : ℕ} (hn : n < 0xd800 ∨ 0xe000 ≤ n ∧ n < 0x110000) (bs : List UInt8) :
    start.run (utf8 n ++ bs) = ((start.run bs).1, utf16 n ++ (start.run bs).2) := by
  unfold utf8
  split_ifs with h1 h2 h3 <;>
    simp only [List.cons_append, nil_append, run] <;>
    rw [step_lead (by omega), lead]
  · rw [if_pos h1, utf16, if_pos (by omega)]
  · rw [if_neg (by omega), if_neg (by omega), if_pos (by omega)]
    dsimp only
    rw [step_tail (by omega) (by omega) (by omega), if_pos rfl]
    have hcode : (0xc0 + n / 0x40 - 0xc0) * 64 + n % 0x40 = n := by omega
    rw [nil_append, hcode]
  · rw [if_neg (by omega), if_neg (by omega), if_neg (by omega), if_pos (by omega)]
    dsimp only
    have hstep := @step_tail 1 (0xe0 + n / 0x1000 - 0xe0)
      (if 0xe0 + n / 0x1000 = 0xe0 then 0xa0 else 0x80)
      (if 0xe0 + n / 0x1000 = 0xed then 0x9f else 0xbf) (n / 0x40 % 0x40) (by omega)
      (by split_ifs <;> omega) (by split_ifs <;> omega)
    rw [if_neg one_ne_zero] at hstep
    rw [hstep]
    dsimp only
    rw [step_tail (by omega) (by omega) (by omega), if_pos rfl]
    have hcode : ((0xe0 + n / 0x1000 - 0xe0) * 64 + n / 0x40 % 0x40) * 64 + n % 0x40 = n := by omega
    rw [nil_append, nil_append, hcode]
  · rw [if_neg (by omega), if_neg (by omega), if_neg (by omega), if_neg (by omega),
      if_pos (by omega)]
    dsimp only
    have hstep := @step_tail 2 (0xf0 + n / 0x40000 - 0xf0)
      (if 0xf0 + n / 0x40000 = 0xf0 then 0x90 else 0x80)
      (if 0xf0 + n / 0x40000 = 0xf4 then 0x8f else 0xbf) (n / 0x1000 % 0x40) (by omega)
      (by split_ifs <;> omega) (by split_ifs <;> omega)
    rw [if_neg two_ne_zero] at hstep
    rw [hstep]
    dsimp only
    have hnext := @step_tail 1 ((0xf0 + n / 0x40000 - 0xf0) * 64 + n / 0x1000 % 0x40) 0x80 0xbf
      (n / 0x40 % 0x40) (by omega) (by omega) (by omega)
    rw [if_neg one_ne_zero] at hnext
    rw [hnext]
    dsimp only
    rw [step_tail (by omega) (by omega) (by omega), if_pos rfl]
    have hcode : (((0xf0 + n / 0x40000 - 0xf0) * 64 + n / 0x1000 % 0x40) * 64 +
        n / 0x40 % 0x40) * 64 + n % 0x40 = n := by omega
    rw [nil_append, nil_append, nil_append, hcode]

/-- What is encoded is decoded again, where each character is whole. -/
theorem decode_encode (text : List (BitVec 16)) : decode (encode text) = wellFormed text := by
  have hrun : start.run (encode text) = (.start, wellFormed text) := by
    have hunit : ∀ (u : BitVec 16) (bs : List UInt8),
        start.run ((if IsHigh u ∨ IsLow u then utf8 0x3f else utf8 u.toNat) ++ bs) =
          ((start.run bs).1, (if IsHigh u ∨ IsLow u then 0x3f else u) :: (start.run bs).2) := by
      intro u bs
      have hlt := u.isLt
      unfold IsHigh IsLow
      split_ifs with hhalf
      · exact run_utf8 (by omega) bs
      · rw [run_utf8 (by omega), utf16, if_pos (by omega), BitVec.ofNat_toNat, BitVec.setWidth_eq]
        rfl
    induction text using encode.induct with
    | case1 => rfl
    | case2 u hhalf | case3 u hhalf =>
      have hone := hunit u []
      rw [append_nil] at hone
      rw [encode, wellFormed, hone]
      exact congrArg _ (apply_ite (· :: []) _ _ _)
    | case4 u v text hpair ih =>
      rw [encode, wellFormed, if_pos hpair, if_pos hpair]
      obtain ⟨⟨hu, hu'⟩, hv, hv'⟩ := hpair
      rw [run_utf8 (by omega), ih, utf16, if_neg (by omega)]
      have hhigh : BitVec.ofNat 16 ((0x10000 + (u.toNat - 0xd800) * 0x400 + (v.toNat - 0xdc00)) /
          0x400 + 0xd7c0) = u := by
        apply BitVec.eq_of_toNat_eq
        rw [BitVec.toNat_ofNat]
        omega
      have hlow : BitVec.ofNat 16 ((0x10000 + (u.toNat - 0xd800) * 0x400 + (v.toNat - 0xdc00)) %
          0x400 + 0xdc00) = v := by
        apply BitVec.eq_of_toNat_eq
        rw [BitVec.toNat_ofNat]
        omega
      rw [hhigh, hlow]
      rfl
    | case5 u v text hpair ih => 
      rw [encode, wellFormed, if_neg hpair, if_neg hpair, hunit, ih]
  unfold decode after
  rw [hrun]
  exact append_nil _

end Utf8
