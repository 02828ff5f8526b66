import Mathlib.Data.List.Induction
import MachVirtuTerm.Lib.Utf8

/-!
# The text buffer of the terminal

`TerminalBuffer.java` keeps the lines of the terminal and the column of the cursor. The bytes of
the tty come in arrays, and each array is decoded by itself: a character whose bytes are in two
arrays is decoded as none in both.
-/

open List Option

namespace MachVirtuTerm

open Utf8

def maxLines : ℕ := 2000

/-- A `TerminalBuffer`: its lines, of UTF-16 code units, and `cursorCol`, an `int`. -/
@[ext]
structure TerminalBuffer where
  lines : List (List (BitVec 16))
  cursorCol : BitVec 32
  lines_ne_nil : lines ≠ []

namespace TerminalBuffer

/-- `TerminalBuffer()`. -/
def new : TerminalBuffer := ⟨[[]], 0, by simp⟩

def last (s : TerminalBuffer) : List (BitVec 16) := s.lines.getLast s.lines_ne_nil

/-- `trim`, which removes the oldest lines. -/
def trim (lines : List (List (BitVec 16))) : List (List (BitVec 16)) :=
  lines.drop (lines.length - maxLines)

theorem trim_ne_nil {lines : List (List (BitVec 16))} (h : lines ≠ []) : trim lines ≠ [] := by
  intro hnil
  have hlength := congrArg List.length hnil
  rw [trim, length_drop, length_nil] at hlength
  have hpos := length_pos_of_ne_nil h
  simp only [maxLines] at hlength
  omega

def newline (s : TerminalBuffer) : TerminalBuffer where
  lines := trim (s.lines ++ [[]])
  cursorCol := 0
  lines_ne_nil := trim_ne_nil (by simp)

def clear (_ : TerminalBuffer) : TerminalBuffer := new

/-- The last line is another one. -/
def setLast (s : TerminalBuffer) (line : List (BitVec 16)) (cursorCol : BitVec 32) :
    TerminalBuffer where
  lines := s.lines.dropLast ++ [line]
  cursorCol := cursorCol
  lines_ne_nil := by simp

/-- `putChar`. `setCharAt` with a negative index throws a `StringIndexOutOfBoundsException`, which
nothing catches: the result is `none`. -/
def putChar (s : TerminalBuffer) (c : BitVec 16) : Option TerminalBuffer :=
  let line := s.last ++ replicate (s.cursorCol.toInt - s.last.length).toNat 0x20
  if s.cursorCol.toInt < line.length then
    if s.cursorCol.toInt < 0 then none
    else some (s.setLast (line.set s.cursorCol.toInt.toNat c) (s.cursorCol + 1))
  else some (s.setLast (line ++ [c]) (s.cursorCol + 1))

/-- One character of `write(String)`. -/
def writeUnit (s : TerminalBuffer) (c : BitVec 16) : Option TerminalBuffer :=
  if c = 0x0d then some { s with cursorCol := 0 }
  else if c = 0x0a then some s.newline
  else if c = 0x08 then
    some { s with cursorCol := if (s.cursorCol - 1).toInt < 0 then 0 else s.cursorCol - 1 }
  else if c = 0x09 then some { s with cursorCol := (s.cursorCol.sdiv 8 + 1) * 8 }
  else if c = 0x0c then some s.clear
  else if 0x20 ≤ c then s.putChar c
  else some s

/-- `write(String)`. -/
def writeText (s : TerminalBuffer) (text : List (BitVec 16)) : Option TerminalBuffer :=
  text.foldlM writeUnit s

/-- `write(byte[])`. -/
def write (s : TerminalBuffer) (data : List UInt8) : Option TerminalBuffer :=
  s.writeText (decode data)

/-- The arrays of bytes one after the other. -/
def writeChunks (s : TerminalBuffer) (chunks : List (List UInt8)) : Option TerminalBuffer :=
  chunks.foldlM write s

section Text

variable {s t : TerminalBuffer} {c u v : BitVec 16}

theorem writeText_append (s : TerminalBuffer) (text text' : List (BitVec 16)) :
    s.writeText (text ++ text') = (s.writeText text).bind fun t => t.writeText text' := by
  unfold writeText
  rw [foldlM_append]
  rfl

theorem writeText_cons (s : TerminalBuffer) (c : BitVec 16) (text : List (BitVec 16)) :
    s.writeText (c :: text) = (s.writeUnit c).bind fun t => t.writeText text := rfl

theorem writeUnit_of_le (s : TerminalBuffer) (h : 0x80 ≤ c) : s.writeUnit c = s.putChar c := by
  have hne : ∀ n : BitVec 16, n.toNat < 0x80 → c ≠ n := by
    intro n hn heq
    rw [heq, BitVec.le_def] at h
    change 128 ≤ n.toNat at h
    omega
  have hle : (0x20 : BitVec 16) ≤ c := by
    rw [BitVec.le_def] at h ⊢
    exact le_trans (by decide) h
  unfold writeUnit
  rw [if_neg (hne _ (by decide)), if_neg (hne _ (by decide)), if_neg (hne _ (by decide)),
    if_neg (hne _ (by decide)), if_neg (hne _ (by decide)), if_pos hle]

/-- The app is lost exactly where the column is negative. -/
theorem putChar_eq_none_iff : s.putChar c = none ↔ s.cursorCol.toInt < 0 := by
  unfold putChar
  dsimp only
  constructor
  · intro h
    split_ifs at h with hlength hneg
    exact hneg
  · intro h
    rw [if_pos (lt_of_lt_of_le h (Int.natCast_nonneg _)), if_pos h]

/-- What a character does to the line and the column. -/
theorem putChar_eq_some (h : s.putChar c = some t) :
    t.cursorCol = s.cursorCol + 1 ∧ t.last[s.cursorCol.toInt.toNat]? = some c := by
  unfold putChar at h
  dsimp only at h
  split_ifs at h with hlength hneg
  · cases h
    refine ⟨rfl, ?_⟩
    simp only [last, setLast, getLast_append_singleton]
    have hindex : s.cursorCol.toInt.toNat < (s.last ++ replicate
        (s.cursorCol.toInt - s.last.length).toNat (0x20 : BitVec 16)).length := by
      omega
    exact getElem?_set_self hindex
  · cases h
    refine ⟨rfl, ?_⟩
    simp only [last, setLast, getLast_append_singleton]
    rw [length_append, length_replicate] at hlength
    have hindex : (s.last ++ replicate (s.cursorCol.toInt - s.last.length).toNat
        (0x20 : BitVec 16)).length = s.cursorCol.toInt.toNat := by
      rw [length_append, length_replicate]
      push_cast at hlength
      omega
    rw [← hindex]
    exact getElem?_concat_length

/-- A text that begins with a character of a line needs a column. -/
theorem writeText_of_negative (hneg : s.cursorCol.toInt < 0) (hu : 0x80 ≤ u)
    (text : List (BitVec 16)) : s.writeText (u :: text) = none := by
  rw [writeText_cons, writeUnit_of_le s hu, putChar_eq_none_iff.mpr hneg]
  rfl

theorem writeText_singleton (hu : 0x80 ≤ u) : s.writeText [u] = s.putChar u := by
  rw [writeText_cons, writeUnit_of_le s hu]
  cases s.putChar u <;> rfl

theorem writeText_pair (hu : 0x80 ≤ u) (hv : 0x80 ≤ v) :
    s.writeText [u, v] = (s.putChar u).bind fun t => t.putChar v := by
  rw [writeText_cons, writeUnit_of_le s hu]
  congr 1
  funext t
  exact writeText_singleton hv

/-- Two characters that stand for none are no character. -/
theorem replacements_ne {text : List (BitVec 16)} (hchar : Utf8.IsCharacter text)
    (hsome : s.writeText text ≠ none) :
    s.writeText [replacement, replacement] ≠ s.writeText text := by
  have hrep : (0x80 : BitVec 16) ≤ replacement := by decide
  intro heq
  obtain ⟨t, ht⟩ := ne_none_iff_exists'.mp hsome
  rw [ht, writeText_pair hrep hrep, bind_eq_some_iff] at heq
  obtain ⟨m, hm, hmt⟩ := heq
  have hm := putChar_eq_some hm
  have hmt := putChar_eq_some hmt
  rcases hchar with ⟨u, hu, rfl⟩ | ⟨u, v, hu, hv, hne, rfl⟩
  · rw [writeText_singleton hu] at ht
    have hcol := (putChar_eq_some ht).1
    rw [hmt.1, hm.1] at hcol
    bv_omega
  · rw [writeText_pair hu hv, bind_eq_some_iff] at ht
    obtain ⟨m', hm', hmt'⟩ := ht
    have hlast := (putChar_eq_some hmt').2
    rw [(putChar_eq_some hm').1, ← hm.1, hmt.2] at hlast
    exact hne (Option.some.inj hlast).symm

end Text

section Chunks

variable {s : TerminalBuffer} {b : UInt8} {bs cs : List UInt8} {chunks part : List (List UInt8)}

theorem writeChunks_concat (s : TerminalBuffer) (chunks : List (List UInt8)) (c : List UInt8) :
    s.writeChunks (chunks ++ [c]) = (s.writeChunks chunks).bind fun t => t.write c := by
  unfold writeChunks
  rw [foldlM_append]
  cases h : List.foldlM write s chunks with
  | none => rfl
  | some t =>
    change (t.write c).bind some = t.write c
    cases t.write c <;> rfl

/-- Bytes that go on with no character are written by themselves. -/
theorem write_append_of_not_continues (h : ¬ (after bs).Continues b) :
    s.write (bs ++ b :: cs) = (s.write bs).bind fun t => t.write (b :: cs) := by
  unfold write
  rw [decode_append_of_not_continues h, writeText_append]

/-- Bytes that go on with a character follow the text before it. -/
theorem write_append (s : TerminalBuffer) (bs cs : List UInt8) :
    s.write (bs ++ cs) = (s.writeText (Utf8.Decoder.start.run bs).2).bind fun t =>
      t.writeText (((after bs).run cs).2 ++ ((after bs).run cs).1.flush) := by
  unfold write
  rw [decode_append, writeText_append]

/-- A character that has begun is written as one that is none. -/
theorem write_of_begun (hmore : (after bs).more ≠ 0) :
    s.write bs = (s.writeText (Utf8.Decoder.start.run bs).2).bind fun t =>
      t.putChar replacement := by
  have happend := write_append s bs []
  rw [append_nil] at happend
  rw [happend]
  congr 1
  funext t
  have hflush : (after bs).flush = [replacement] := if_neg hmore
  change t.writeText ([] ++ (after bs).flush) = _
  rw [hflush]
  exact writeText_singleton (by decide)

/-- An app that is lost stays so. -/
theorem write_append_eq_none (h : s.write bs = none) (cs : List UInt8) :
    s.write (bs ++ cs) = none := by
  by_cases hmore : (after bs).more = 0
  · cases cs with
    | nil => rwa [append_nil]
    | cons b cs =>
      have hcontinues : ¬ (after bs).Continues b := fun hcontinues => hcontinues.1 hmore
      rw [write_append_of_not_continues hcontinues, h]
      rfl
  · rw [write_of_begun hmore] at h
    rw [write_append]
    cases htext : s.writeText (Utf8.Decoder.start.run bs).2 with
    | none => rfl
    | some t =>
      rw [htext] at h
      obtain ⟨u, text, hu, htail⟩ := run_of_begun (after_ok bs) hmore cs
      rw [htail]
      exact writeText_of_negative (putChar_eq_none_iff.mp h) hu text

/-- What has been written so far, where the last array may be cut short. -/
def SoFar (chunks part : List (List UInt8)) : Prop :=
  ∃ pre c rest post, chunks = pre ++ (c ++ rest) :: post ∧ part = pre ++ [c]

/-- No array begins with a byte that goes on with a character of the arrays before. -/
def CutsBetweenCharacters (chunks : List (List UInt8)) : Prop :=
  ∀ pre b c post, chunks = pre ++ (b :: c) :: post → ¬ (after pre.flatten).Continues b

theorem CutsBetweenCharacters.init {c : List UInt8} (h : CutsBetweenCharacters (chunks ++ [c])) :
    CutsBetweenCharacters chunks := by
  intro pre b c' post heq
  apply h pre b c' (post ++ [c])
  rw [heq, append_assoc, cons_append]

theorem CutsBetweenCharacters.soFar (h : CutsBetweenCharacters chunks)
    (hpart : SoFar chunks part) : CutsBetweenCharacters part := by
  obtain ⟨pre, c, rest, post, rfl, rfl⟩ := hpart
  intro pre' b c' post' heq
  rcases eq_nil_or_concat post' with rfl | ⟨post'', last, rfl⟩
  · obtain ⟨rfl, hlast⟩ := append_inj' heq rfl
    obtain rfl := singleton_injective hlast
    exact h pre b (c' ++ rest) post rfl
  · rw [concat_eq_append, ← cons_append, ← append_assoc] at heq
    obtain ⟨rfl, -⟩ := append_inj' heq rfl
    apply h pre' b c' (post'' ++ (c ++ rest) :: post)
    rw [append_assoc, cons_append]

/-- Arrays that begin between two characters leave what all their bytes leave at once. -/
theorem writeChunks_eq (s : TerminalBuffer) (h : CutsBetweenCharacters chunks) :
    s.writeChunks chunks = s.write chunks.flatten := by
  induction chunks using List.reverseRecOn with
  | nil => rfl
  | append_singleton chunks c ih =>
    rw [writeChunks_concat, ih h.init, flatten_append, flatten_singleton]
    cases c with
    | nil =>
      rw [append_nil]
      cases s.write chunks.flatten <;> rfl
    | cons b c => exact (write_append_of_not_continues (h chunks b c [] rfl)).symm

/-- An array that begins in the middle of a character shows at once. -/
theorem write_ne_of_continues (hcontinues : (after bs).Continues b)
    (h : s.write (bs ++ [b]) ≠ none) :
    ((s.write bs).bind fun t => t.write [b]) ≠ s.write (bs ++ [b]) := by
  have hok := after_ok bs
  rw [write_of_begun hcontinues.1]
  rw [write_append] at h ⊢
  cases htext : s.writeText (Utf8.Decoder.start.run bs).2 with
  | none =>
    rw [htext] at h
    exact absurd rfl h
  | some m =>
    rw [htext] at h
    have hne := replacements_ne (run_isCharacter hok hcontinues) h
    rw [writeText_pair (by decide) (by decide)] at hne
    have hdecode : decode [b] = [replacement] :=
      decode_cons_of_continues hok hcontinues []
    have hsecond : ∀ t : TerminalBuffer, t.write [b] = t.putChar replacement := by
      intro t
      rw [write, hdecode, writeText_singleton (by decide)]
    simp only [hsecond]
    exact hne

/-- The arrays of the tty leave the lines and the column that their bytes leave at once if each of
them begins between two characters; and where the bytes can be written at once, only then it is so
at every point of the output. -/
theorem chunked_output_iff (s : TerminalBuffer) (chunks : List (List UInt8)) :
    (CutsBetweenCharacters chunks → s.writeChunks chunks = s.write chunks.flatten) ∧
      (s.write chunks.flatten ≠ none →
        ((∀ part, SoFar chunks part → s.writeChunks part = s.write part.flatten) ↔
          CutsBetweenCharacters chunks)) := by
  refine ⟨writeChunks_eq s, fun hwrite => ⟨?_, ?_⟩⟩
  · intro hall pre b c post heq hcontinues
    have hpre : s.writeChunks pre = s.write pre.flatten := by
      rcases eq_nil_or_concat pre with rfl | ⟨pre', c', rfl⟩
      · rfl
      · apply hall
        refine ⟨pre', c', [], (b :: c) :: post, ?_, concat_eq_append⟩
        rw [heq, concat_eq_append, append_nil, append_assoc]
        rfl
    have hsome : s.write (pre.flatten ++ [b]) ≠ none := by
      intro hnone
      apply hwrite
      rw [heq, flatten_append, flatten_cons, cons_append]
      have happend := write_append_eq_none hnone (c ++ post.flatten)
      rwa [append_assoc, singleton_append] at happend
    have hnext := hall (pre ++ [[b]]) ⟨pre, [b], c, post, heq, rfl⟩
    rw [writeChunks_concat, hpre, flatten_append, flatten_singleton] at hnext
    exact write_ne_of_continues hcontinues hsome hnext
  · intro hcuts part hpart
    exact writeChunks_eq s (hcuts.soFar hpart)

end Chunks

/-- An é in one array, and an array after it, leave what their bytes leave at once. -/
theorem whole_character_same :
    new.writeChunks [[0xc3, 0xa9], [0x0a]] = new.write [0xc3, 0xa9, 0x0a] ∧
      ∀ part, SoFar [[0xc3, 0xa9], [0x0a]] part →
        new.writeChunks part = new.write part.flatten := by
  have hcuts : CutsBetweenCharacters [[0xc3, 0xa9], [0x0a]] := by
    intro pre b c post heq
    match pre with
    | [] => exact fun hcontinues => hcontinues.1 rfl
    | [_] =>
      simp only [cons_append, nil_append, List.cons.injEq] at heq
      obtain ⟨rfl, -⟩ := heq
      exact fun hcontinues => hcontinues.1 (by decide)
    | _ :: _ :: _ => simp at heq
  refine ⟨(chunked_output_iff _ _).1 hcuts, ((chunked_output_iff _ _).2 ?_).2 hcuts⟩
  decide +kernel

/-- The two bytes of an é in two arrays are two characters that stand for none. -/
theorem cut_character_differs :
    ¬ ∀ (s : TerminalBuffer) (chunks : List (List UInt8)),
      s.writeChunks chunks = s.write chunks.flatten := by
  intro h
  have hcut := congrArg (Option.map lines) (h new [[0xc3], [0xa9]])
  revert hcut
  decide +kernel

/-!
# Sequences of calls
-/

def backspace (s : TerminalBuffer) : TerminalBuffer :=
  if s.cursorCol.toInt ≤ 0 then s
  else
    let cursorCol := s.cursorCol - 1
    if cursorCol.toInt < s.last.length then
      s.setLast (s.last.eraseIdx cursorCol.toInt.toNat) cursorCol
    else { s with cursorCol := cursorCol }

/-- A call of the buffer. -/
inductive Call
  | writeBytes (data : List UInt8)
  | writeText (text : List (BitVec 16))
  | backspace
  | clear

/-- What a call does; `none` is an exception. -/
def call (s : TerminalBuffer) : Call → Option TerminalBuffer
  | .writeBytes data => s.write data
  | .writeText text => s.writeText text
  | .backspace => some s.backspace
  | .clear => some s.clear

/-- The calls do one of these after the other. -/
inductive Act
  | unit (c : BitVec 16)
  | backspace
  | clear

def act (s : TerminalBuffer) : Act → Option TerminalBuffer
  | .unit c => s.writeUnit c
  | .backspace => some s.backspace
  | .clear => some s.clear

/-- The acts of a call. -/
def Call.acts : Call → List Act
  | .writeBytes data => (decode data).map .unit
  | .writeText text => text.map .unit
  | .backspace => [.backspace]
  | .clear => [.clear]

/-- An act of the calls on a buffer that is new at first, and the buffer as it is there. -/
def Begins (calls : List Call) (s : TerminalBuffer) (a : Act) : Prop :=
  ∃ pre post, calls.flatMap Call.acts = pre ++ a :: post ∧ pre.foldlM act new = some s

/-- The column after an act, where nothing wraps. -/
def nextCol (s : TerminalBuffer) : Act → ℤ
  | .unit c =>
    if c = 0x0d ∨ c = 0x0a ∨ c = 0x0c then 0
    else if c = 0x08 then max 0 (s.cursorCol.toInt - 1)
    else if c = 0x09 then (s.cursorCol.toInt / 8 + 1) * 8
    else if 0x20 ≤ c then s.cursorCol.toInt + 1
    else s.cursorCol.toInt
  | .backspace => if s.cursorCol.toInt ≤ 0 then s.cursorCol.toInt else s.cursorCol.toInt - 1
  | .clear => 0

/-- A buffer with no more lines than there may be, and a cursor that is at a column. -/
structure Inv (s : TerminalBuffer) : Prop where
  lines_le : s.lines.length ≤ maxLines
  col_nonneg : 0 ≤ s.cursorCol.toInt

/-- What an act leaves: the column is the one that it means, and a character that is printed is at
the column, with what was before it, and blanks where there was nothing. -/
structure Lands (s : TerminalBuffer) (a : Act) (t : TerminalBuffer) : Prop where
  lines_pos : 1 ≤ t.lines.length
  inv : t.Inv
  col_eq : t.cursorCol.toInt = s.nextCol a
  printed : ∀ c, a = .unit c → 0x20 ≤ c →
    t.lines.dropLast = s.lines.dropLast ∧ t.last[s.cursorCol.toInt.toNat]? = some c ∧
      ∀ i < s.cursorCol.toInt.toNat, t.last[i]? = some (s.last[i]?.getD 0x20)

/-- The column after the act is an `int`. -/
def Fits (s : TerminalBuffer) (a : Act) : Prop :=
  (a = .unit 0x09 → s.cursorCol.toInt < 2 ^ 31 - 8) ∧
    ∀ c, a = .unit c → 0x20 ≤ c → s.cursorCol.toInt < 2 ^ 31 - 1

section Calls

variable {s t : TerminalBuffer} {a : Act} {col : BitVec 32} {calls : List Call}

theorem foldlM_map_unit (s : TerminalBuffer) (text : List (BitVec 16)) :
    (text.map Act.unit).foldlM act s = s.writeText text := by
  induction text generalizing s with
  | nil => rfl
  | cons c text ih =>
    rw [map_cons, foldlM_cons, writeText_cons]
    exact congrArg _ (funext ih)

theorem call_eq_foldlM (s : TerminalBuffer) (x : Call) : s.call x = x.acts.foldlM act s := by
  cases x with
  | writeBytes data => exact (foldlM_map_unit s _).symm
  | writeText text => exact (foldlM_map_unit s text).symm
  | backspace => rfl
  | clear => rfl

theorem calls_eq_foldlM (s : TerminalBuffer) (calls : List Call) :
    calls.foldlM call s = (calls.flatMap Call.acts).foldlM act s := by
  induction calls generalizing s with
  | nil => rfl
  | cons x calls ih =>
    rw [flatMap_cons, foldlM_append, foldlM_cons, call_eq_foldlM]
    exact congrArg _ (funext ih)

/-- One column further is an `int` but at the last one. -/
theorem toInt_add_one_iff (h : 0 ≤ col.toInt) :
    (col + 1).toInt = col.toInt + 1 ↔ col.toInt < 2 ^ 31 - 1 := by
  have hlt := col.toInt_lt
  have hone : (1 : BitVec 32).toInt = 1 := rfl
  rw [BitVec.toInt_add, hone, Int.bmod_def]
  constructor <;> intro hcol
  · split_ifs at hcol <;> omega
  · split_ifs <;> omega

theorem toInt_sub_one (h : 0 < col.toInt) : (col - 1).toInt = col.toInt - 1 := by
  have hlt := col.toInt_lt
  have hone : (1 : BitVec 32).toInt = 1 := rfl
  rw [BitVec.toInt_sub, hone]
  exact Int.bmod_eq_of_le (by omega) (by omega)

/-- The next tab stop is an `int` but for the last eight columns. -/
theorem toInt_tab_iff (h : 0 ≤ col.toInt) :
    ((col.sdiv 8 + 1) * 8).toInt = (col.toInt / 8 + 1) * 8 ↔ col.toInt < 2 ^ 31 - 8 := by
  have hlt := col.toInt_lt
  have hone : (1 : BitVec 32).toInt = 1 := rfl
  have height : (8 : BitVec 32).toInt = 8 := rfl
  have hdiv : (col.sdiv 8).toInt = col.toInt / 8 := by
    rw [BitVec.toInt_sdiv, height, Int.tdiv_eq_ediv_of_nonneg h]
    exact Int.bmod_eq_of_le (by omega) (by omega)
  have hsucc : (col.sdiv 8 + 1).toInt = col.toInt / 8 + 1 := by
    rw [BitVec.toInt_add, hdiv, hone]
    exact Int.bmod_eq_of_le (by omega) (by omega)
  rw [BitVec.toInt_mul, hsucc, height, Int.bmod_def]
  constructor <;> intro hcol
  · split_ifs at hcol <;> omega
  · split_ifs <;> omega

/-- A character that is printed changes the last line only, and there only its own column and the
gap before it. -/
theorem putChar_of_nonneg (h : 0 ≤ s.cursorCol.toInt) (c : BitVec 16) :
    ∃ row, s.putChar c = some (s.setLast row (s.cursorCol + 1)) ∧
      (row.length : ℤ) = max (s.last.length : ℤ) (s.cursorCol.toInt + 1) ∧
      ∀ i : ℕ, (i : ℤ) < row.length → row[i]? = some (if i = s.cursorCol.toInt then c
        else s.last[i]?.getD 0x20) := by
  unfold putChar
  dsimp only
  generalize hrow : s.last ++ replicate (s.cursorCol.toInt - s.last.length).toNat
    (0x20 : BitVec 16) = row
  have hlength : (row.length : ℤ) = max (s.last.length : ℤ) s.cursorCol.toInt := by
    rw [← hrow, length_append, length_replicate]
    omega
  have hget : ∀ i : ℕ, i < row.length → row[i]? = some (s.last[i]?.getD 0x20) := by
    intro i hi
    rw [← hrow] at hi ⊢
    by_cases hlast : i < s.last.length
    · rw [getElem?_append_left hlast, getElem?_eq_getElem hlast, getD_some]
    · rw [length_append, length_replicate] at hi
      rw [getElem?_append_right (by omega), getElem?_replicate_of_lt (by omega),
        getElem?_eq_none (by omega), getD_none]
  by_cases hinside : s.cursorCol.toInt < row.length
  · rw [if_pos hinside, if_neg (by omega)]
    refine ⟨_, rfl, ?_, ?_⟩
    · rw [length_set]
      omega
    · intro i hi
      rw [length_set] at hi
      rw [getElem?_set]
      by_cases heq : s.cursorCol.toInt.toNat = i
      · rw [if_pos heq, if_pos (by omega), if_pos (by omega)]
      · rw [if_neg heq, if_neg (by omega), hget i (by omega)]
  · rw [if_neg hinside]
    refine ⟨_, rfl, ?_, ?_⟩
    · rw [length_append, length_singleton]
      push_cast
      omega
    · intro i hi
      rw [length_append, length_singleton] at hi
      by_cases heq : i = row.length
      · rw [if_pos (by omega), heq, getElem?_concat_length]
      · rw [if_neg (by omega), getElem?_append_left (by omega), hget i (by omega)]

theorem writeUnit_of_printing {c : BitVec 16} (h : 0x20 ≤ c) : s.writeUnit c = s.putChar c := by
  unfold writeUnit
  split_ifs <;> first | rfl | (subst c; exact absurd h (by decide))

theorem nextCol_of_printing {c : BitVec 16} (h : 0x20 ≤ c) :
    s.nextCol (.unit c) = s.cursorCol.toInt + 1 := by
  unfold nextCol
  dsimp only
  split_ifs with hzero
  · rcases hzero with rfl | rfl | rfl <;> exact absurd h (by decide)
  · subst c; exact absurd h (by decide)
  · subst c; exact absurd h (by decide)
  · rfl

theorem length_trim_le (lines : List (List (BitVec 16))) : (trim lines).length ≤ maxLines := by
  unfold trim
  rw [length_drop]
  omega

theorem newline_lines_le (s : TerminalBuffer) : s.newline.lines.length ≤ maxLines := by
  simp only [newline]
  exact length_trim_le _

/-- An act that prints nothing. -/
theorem Lands.of_not_printing (hnot : ∀ c, a = .unit c → ¬0x20 ≤ c)
    (hlines : t.lines.length ≤ maxLines) (hcol : t.cursorCol.toInt = s.nextCol a)
    (hnext : 0 ≤ s.nextCol a) : Lands s a t where
  lines_pos := length_pos_of_ne_nil t.lines_ne_nil
  inv := ⟨hlines, hcol ▸ hnext⟩
  col_eq := hcol
  printed c ha hc := absurd hc (hnot c ha)

/-- A character that is printed at a column that is not the last `int`. -/
theorem putChar_lands (h : s.Inv) {c : BitVec 16} (hc : 0x20 ≤ c)
    (hcol : s.cursorCol.toInt < 2 ^ 31 - 1) :
    ∃ t, s.act (.unit c) = some t ∧ Lands s (.unit c) t := by
  obtain ⟨line, hput, hlength, hline⟩ := putChar_of_nonneg h.col_nonneg c
  have hnonneg := h.col_nonneg
  have hnext := (toInt_add_one_iff hnonneg).mpr hcol
  refine ⟨_, (writeUnit_of_printing hc).trans hput, ?_, ⟨?_, ?_⟩, ?_, ?_⟩
  · exact length_pos_of_ne_nil (setLast _ _ _).lines_ne_nil
  · have hpos := length_pos_of_ne_nil s.lines_ne_nil
    have hle := h.lines_le
    change (s.lines.dropLast ++ [line]).length ≤ maxLines
    rw [length_append, length_dropLast, length_singleton]
    omega
  · exact hnext ▸ (by omega)
  · exact hnext.trans (nextCol_of_printing hc).symm
  · rintro c' heq -
    cases heq
    have hlast : (s.setLast line (s.cursorCol + 1)).last = line := getLast_append_singleton _
    refine ⟨dropLast_concat, ?_, ?_⟩
    · rw [hlast, hline _ (by omega), if_pos (by omega)]
    · intro i hi
      rw [hlast, hline _ (by omega), if_neg (by omega)]

/-- An act whose column fits leaves what it means. -/
theorem act_lands (h : s.Inv) (hfits : s.Fits a) : ∃ t, s.act a = some t ∧ s.Lands a t := by
  have hcol := h.col_nonneg
  cases a with
  | clear => exact ⟨new, rfl, .of_not_printing nofun (by decide) rfl le_rfl⟩
  | backspace =>
    refine ⟨_, rfl, .of_not_printing nofun ?_ ?_ ?_⟩
    · have hpos := length_pos_of_ne_nil s.lines_ne_nil
      have hle := h.lines_le
      unfold backspace
      dsimp only
      split_ifs
      · exact hle
      · rw [setLast, length_append, length_dropLast, length_singleton]
        omega
      · exact hle
    · unfold backspace nextCol
      dsimp only
      split_ifs with hzero
      · rfl
      · exact toInt_sub_one (by omega)
      · exact toInt_sub_one (by omega)
    · unfold nextCol
      dsimp only
      split_ifs <;> omega
  | unit c =>
    by_cases hprint : 0x20 ≤ c
    · exact putChar_lands h hprint (hfits.2 c rfl hprint)
    have hnot : ∀ c', Act.unit c = .unit c' → ¬0x20 ≤ c' := by
      rintro c' heq
      cases heq
      exact hprint
    have hlines := h.lines_le
    by_cases hcr : c = 0x0d
    · subst hcr
      exact ⟨_, rfl, .of_not_printing hnot hlines rfl le_rfl⟩
    by_cases hlf : c = 0x0a
    · subst hlf
      exact ⟨s.newline, rfl, .of_not_printing hnot s.newline_lines_le rfl le_rfl⟩
    by_cases hbs : c = 0x08
    · subst hbs
      refine ⟨_, rfl, .of_not_printing hnot hlines ?_ (le_max_left _ _)⟩
      change BitVec.toInt (if (s.cursorCol - 1).toInt < 0 then 0 else s.cursorCol - 1) =
        max 0 (s.cursorCol.toInt - 1)
      rcases eq_or_lt_of_le hcol with hzero | hpos
      · have heq : s.cursorCol = 0 := BitVec.eq_of_toInt_eq hzero.symm
        rw [heq]
        decide
      · rw [toInt_sub_one hpos, if_neg (by omega), toInt_sub_one hpos]
        omega
    by_cases htab : c = 0x09
    · subst htab
      have hstop := (toInt_tab_iff hcol).mpr (hfits.1 rfl)
      refine ⟨_, rfl, .of_not_printing hnot hlines hstop ?_⟩
      change 0 ≤ (s.cursorCol.toInt / 8 + 1) * 8
      omega
    by_cases hff : c = 0x0c
    · subst hff
      exact ⟨new, rfl, .of_not_printing hnot (by decide) rfl le_rfl⟩
    have hnext : s.nextCol (.unit c) = s.cursorCol.toInt := by
      unfold nextCol
      dsimp only
      rw [if_neg (by tauto), if_neg hbs, if_neg htab, if_neg hprint]
    have hsame : s.writeUnit c = some s := by
      unfold writeUnit
      rw [if_neg hcr, if_neg hlf, if_neg hbs, if_neg htab, if_neg hff, if_neg hprint]
    exact ⟨s, hsame, .of_not_printing hnot hlines hnext.symm (hnext ▸ hcol)⟩

/-- Where an act leaves what it means, its column fits. -/
theorem Lands.fits (hinv : s.Inv) (h : s.Lands a t) (hact : s.act a = some t) : s.Fits a := by
  refine ⟨?_, ?_⟩
  · rintro rfl
    cases hact
    exact (toInt_tab_iff hinv.col_nonneg).mp h.col_eq
  · rintro c rfl hc
    obtain ⟨line, hput, -, -⟩ := putChar_of_nonneg hinv.col_nonneg c
    rw [act, writeUnit_of_printing hc, hput] at hact
    cases hact
    have hcol := h.col_eq
    rw [nextCol_of_printing hc] at hcol
    exact (toInt_add_one_iff hinv.col_nonneg).mp hcol

/-- What runs through acts that leave what they mean. -/
theorem run_acts {acts : List Act} (h : s.Inv)
    (hfits : ∀ pre a post t, acts = pre ++ a :: post → pre.foldlM act s = some t → t.Fits a) :
    ∃ t, acts.foldlM act s = some t ∧ t.Inv := by
  induction acts generalizing s with
  | nil => exact ⟨s, rfl, h⟩
  | cons a acts ih =>
    obtain ⟨t, hact, hlands⟩ := act_lands h (hfits [] a acts s rfl rfl)
    rw [foldlM_cons, hact]
    apply ih hlands.inv
    intro pre a' post u hsplit hpre
    apply hfits (a :: pre) a' post u (congrArg _ hsplit)
    rw [foldlM_cons, hact]
    exact hpre

theorem new_inv : new.Inv := ⟨by decide, le_rfl⟩

/-- Acts that all leave what they mean begin at buffers that are fine. -/
theorem inv_of_begins
    (h : ∀ s a, Begins calls s a → ∃ t, s.act a = some t ∧ s.Lands a t) (hbegins : Begins calls s a) :
    s.Inv := by
  obtain ⟨pre, post, hsplit, hpre⟩ := hbegins
  rcases eq_nil_or_concat pre with rfl | ⟨pre, b, rfl⟩
  · cases hpre
    exact new_inv
  · rw [concat_eq_append] at hsplit hpre
    rw [foldlM_append, bind_eq_bind, bind_eq_some_iff] at hpre
    obtain ⟨t, ht, hlast⟩ := hpre
    rw [append_assoc, singleton_append] at hsplit
    obtain ⟨s', hact, hlands⟩ := h t b ⟨pre, a :: post, hsplit, ht⟩
    rw [foldlM_cons, hact] at hlast
    cases hlast
    exact hlands.inv

/-- The calls throw nothing and each of their acts leaves what it means, exactly if at each of them
the column fits. -/
theorem calls_land_iff (calls : List Call) :
    ((calls.foldlM call new ≠ none) ∧
        ∀ s a, Begins calls s a → ∃ t, s.act a = some t ∧ s.Lands a t) ↔
      ∀ s a, Begins calls s a → s.Fits a := by
  constructor
  · rintro ⟨-, hlands⟩ s a hbegins
    obtain ⟨t, hact, hright⟩ := hlands s a hbegins
    exact hright.fits (inv_of_begins (fun s a h => hlands s a h) hbegins) hact
  · intro hfits
    have hrun : ∀ acts post, calls.flatMap Call.acts = acts ++ post →
        ∃ t, acts.foldlM act new = some t ∧ t.Inv := by
      intro acts post hsplit
      apply run_acts new_inv
      intro pre a post' t hacts hpre
      exact hfits t a ⟨pre, post' ++ post, by rw [hsplit, hacts, append_assoc]; rfl, hpre⟩
    refine ⟨?_, ?_⟩
    · obtain ⟨t, ht, -⟩ := hrun _ [] (append_nil _).symm
      rw [calls_eq_foldlM, ht]
      exact some_ne_none t
    · rintro s a ⟨pre, post, hsplit, hpre⟩
      obtain ⟨t, ht, hinv⟩ := hrun pre (a :: post) hsplit
      rw [hpre] at ht
      cases ht
      exact act_lands hinv (hfits s a ⟨pre, post, hsplit, hpre⟩)

/-- Tabs from a new buffer, as many as there are tab stops. -/
theorem writeText_tabs (n : ℕ) (h : n ≤ 2 ^ 28) :
    new.writeText (replicate n 0x09) = some { new with cursorCol := BitVec.ofNat 32 (8 * n) } := by
  induction n with
  | zero => rfl
  | succ n ih =>
    rw [replicate_succ', writeText_append, ih (by omega), bind_some]
    have hmsb : (BitVec.ofNat 32 (8 * n)).msb = false := by
      rw [BitVec.msb_eq_false_iff_two_mul_lt, BitVec.toNat_ofNat]
      omega
    have hcol : ((BitVec.ofNat 32 (8 * n)).sdiv 8 + 1) * 8 = BitVec.ofNat 32 (8 * (n + 1)) := by
      have hone : (1 : BitVec 32).toNat = 1 := rfl
      have height : (8 : BitVec 32).toNat = 8 := rfl
      have hsdiv : (BitVec.ofNat 32 (8 * n)).sdiv 8 = BitVec.ofNat 32 (8 * n) / 8 := by
        have hpos : (8 : BitVec 32).msb = false := rfl
        rw [BitVec.sdiv_eq, hmsb, hpos]
        rfl
      apply BitVec.eq_of_toNat_eq
      rw [hsdiv, BitVec.toNat_mul, BitVec.toNat_add, BitVec.toNat_udiv, BitVec.toNat_ofNat,
        BitVec.toNat_ofNat, hone, height]
      omega
    rw [← hcol]
    rfl

/-- A character after tabs that end at no column. -/
theorem tabs_throw :
    ¬ ∀ calls : List Call, calls.foldlM call new ≠ none ∧
      ∀ s a, Begins calls s a → ∃ t, s.act a = some t ∧ s.Lands a t := by
  intro h
  apply (h [.writeText (replicate (2 ^ 28) 0x09 ++ [0x61])]).1
  rw [foldlM_cons, call, writeText_append, writeText_tabs _ le_rfl, bind_some]
  have hput : ({ new with cursorCol := BitVec.ofNat 32 (8 * 2 ^ 28) } : TerminalBuffer).putChar
      0x61 = none := putChar_eq_none_iff.mpr (by decide)
  rw [writeText_cons, writeUnit_of_printing (by decide), hput]
  rfl

end Calls

end TerminalBuffer

end MachVirtuTerm
