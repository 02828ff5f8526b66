import MachVirtuTerm.App.TerminalBuffer

/-!
# Text that is being composed

A `TermInputConnection` of `TerminalView.java` shows the text that is being composed in the buffer
of the terminal, and takes it back with a backspace for each of its characters.
-/

open List Function

namespace MachVirtuTerm

open Utf8 Option

namespace TerminalBuffer

/-- `echoInput`, which writes a text through its bytes. -/
def echoInput (s : TerminalBuffer) (text : List (BitVec 16)) : Option TerminalBuffer :=
  s.write (encode (text.flatMap fun c => if c = 0x0d ∨ c = 0x0a then [0x0d, 0x0a] else [c]))

end TerminalBuffer

/-- A `TermInputConnection` with the buffer of its view. -/
structure TermInputConnection where
  buffer : TerminalBuffer
  composing : List (BitVec 16)

namespace TermInputConnection

open TerminalBuffer

variable (x : TermInputConnection)

def clearComposing : TermInputConnection :=
  ⟨backspace^[x.composing.length] x.buffer, []⟩

def setComposingText (text : Option (List (BitVec 16))) : Option TermInputConnection :=
  (x.clearComposing.buffer.echoInput (text.getD [])).map fun s => ⟨s, text.getD []⟩

/-- `commitText`, with the arrays that the listener is given, where there is one. -/
def commitText (text : Option (List (BitVec 16))) (listener : Bool) :
    Option (TermInputConnection × List (List UInt8)) :=
  match text with
  | none => some (x, [])
  | some text => (x.clearComposing.buffer.echoInput text).map fun s =>
    (⟨s, []⟩, if listener ∧ text ≠ [] then [encode text] else [])

def deleteSurroundingText (beforeLength : BitVec 32) : TermInputConnection :=
  ⟨backspace^[beforeLength.toInt.toNat] x.clearComposing.buffer, []⟩

end TermInputConnection

namespace TerminalBuffer

/-- A text of characters that are printed. -/
def Printing (text : List (BitVec 16)) : Prop := ∀ c ∈ text, 0x20 ≤ c

section Round

variable {s u : TerminalBuffer} {c : BitVec 16} {text : List (BitVec 16)}
  {texts : List (Option (List (BitVec 16)))}

theorem wellFormed_printing (h : Printing text) :
    Printing (wellFormed text) ∧ (wellFormed text).length = text.length := by
  have hunit : ∀ u : BitVec 16, 0x20 ≤ u →
      (0x20 : BitVec 16) ≤ if Utf8.IsHigh u ∨ Utf8.IsLow u then 0x3f else u := by
    intro u hu
    split_ifs
    · decide
    · exact hu
  unfold Printing at h ⊢
  induction text using wellFormed.induct with
  | case1 => exact ⟨h, rfl⟩
  | case2 u hhalf | case3 u hhalf =>
    have hone := hunit u (h u mem_cons_self)
    rw [wellFormed, ← apply_ite (· :: []), forall_mem_singleton]
    exact ⟨hone, rfl⟩
  | case4 u v text hpair ih =>
    rw [forall_mem_cons, forall_mem_cons] at h
    obtain ⟨hprint, hlength⟩ := ih h.2.2
    rw [wellFormed, if_pos hpair, forall_mem_cons, forall_mem_cons]
    exact ⟨⟨h.1, h.2.1, hprint⟩, congrArg (· + 2) hlength⟩
  | case5 u v text hpair ih =>
    rw [forall_mem_cons] at h
    obtain ⟨hprint, hlength⟩ := ih h.2
    rw [wellFormed, if_neg hpair, forall_mem_cons]
    exact ⟨⟨hunit u h.1, hprint⟩, congrArg (· + 1) hlength⟩

section

variable (s : TerminalBuffer)

/-- What is printed of a text that is echoed. -/
theorem echoInput_printing (h : Printing text) :
    s.echoInput text = s.writeText (wellFormed text) := by
  have hsame :
      (text.flatMap fun c => if c = 0x0d ∨ c = 0x0a then [0x0d, 0x0a] else [c]) = text := by
    conv_rhs => rw [← flatMap_singleton' text]
    apply flatMap_congr
    intro c hc
    apply if_neg
    rintro (rfl | rfl) <;> exact absurd (h _ hc) (by decide)
  rw [echoInput, hsame, write, decode_encode]

variable (line : List (BitVec 16))

variable (col : BitVec 32)

theorem last_setLast : (s.setLast line col).last = line := getLast_append_singleton _

theorem cursorCol_setLast : (s.setLast line col).cursorCol = col := rfl

/-- A last line that was changed gets back what it was. -/
theorem setLast_setLast : (s.setLast line col).setLast s.last s.cursorCol = s := by
  ext1
  · exact (congrArg (· ++ [s.last]) dropLast_concat).trans (dropLast_append_getLast _)
  · rfl

end

/-- The line and the column after the first character of a text. -/
theorem writeText_cons_printing (hc : 0x20 ≤ c) (hcol : 0 ≤ s.cursorCol.toInt)
    (text : List (BitVec 16)) :
    ∃ line, s.writeText (c :: text) = (s.setLast line (s.cursorCol + 1)).writeText text ∧
      (line.length : ℤ) = max (s.last.length : ℤ) (s.cursorCol.toInt + 1) ∧
      (s.cursorCol.toInt = s.last.length → line = s.last ++ [c]) := by
  obtain ⟨line, hput, hlength, hline⟩ := putChar_of_nonneg hcol c
  refine ⟨line, ?_, hlength, fun hend => ?_⟩
  · rw [writeText_cons, writeUnit_of_printing hc, hput]
    rfl
  · apply List.ext_getElem?
    intro i
    by_cases hi : (i : ℤ) < line.length
    · rw [hline i hi]
      by_cases heq : i = s.last.length
      · rw [if_pos (by omega), heq, getElem?_concat_length]
      · rw [if_neg (by omega), getElem?_append_left (by omega), getElem?_eq_getElem (by omega),
          getD_some]
    · rw [getElem?_eq_none (by omega), getElem?_eq_none]
      rw [length_append, length_singleton]
      omega

/-- A backspace in a line that the column is not beyond. -/
theorem backspace_of_inside (hpos : 0 < s.cursorCol.toInt)
    (hinside : s.cursorCol.toInt ≤ s.last.length) :
    s.backspace = s.setLast (s.last.eraseIdx (s.cursorCol - 1).toInt.toNat) (s.cursorCol - 1) := by
  unfold backspace
  rw [if_neg (by omega)]
  exact if_pos (by rw [toInt_sub_one hpos]; omega)

/-- A text at the end of the last line is taken back by as many backspaces. -/
theorem backspaces_writeText (h : Printing text) (hend : s.cursorCol.toInt = s.last.length)
    (hfits : s.last.length + text.length < 2 ^ 31) :
    ∃ u, s.writeText text = some u ∧ backspace^[text.length] u = s := by
  induction text generalizing s with
  | nil => exact ⟨s, rfl, rfl⟩
  | cons c text ih =>
    rw [Printing, forall_mem_cons] at h
    rw [length_cons] at hfits
    have hcol : 0 ≤ s.cursorCol.toInt := by omega
    obtain ⟨line, hwrite, -, hline⟩ := writeText_cons_printing h.1 hcol text
    obtain rfl := hline hend
    have hnext := (toInt_add_one_iff hcol).mpr (by omega)
    obtain ⟨u, hu, hback⟩ := @ih (s.setLast (s.last ++ [c]) (s.cursorCol + 1)) h.2
      (by rw [last_setLast, length_append, length_singleton, cursorCol_setLast]; omega)
      (by rw [last_setLast, length_append, length_singleton]; omega)
    refine ⟨u, hwrite.trans hu, ?_⟩
    have hsub : s.cursorCol + 1 - 1 = s.cursorCol := BitVec.add_sub_cancel _ _
    have herase : (s.last ++ [c]).eraseIdx s.cursorCol.toInt.toNat = s.last := by
      rw [hend, Int.toNat_natCast, eraseIdx_append_of_length_le le_rfl, Nat.sub_self]
      exact append_nil _
    rw [length_cons, iterate_succ_apply', hback, backspace_of_inside, cursorCol_setLast, hsub,
      last_setLast, herase, setLast_setLast]
    · rw [cursorCol_setLast]
      omega
    · rw [cursorCol_setLast, last_setLast, length_append, length_singleton]
      omega

/-- The column and the length of the last line after a text. -/
theorem writeText_length (h : Printing text) (hcol : 0 ≤ s.cursorCol.toInt)
    (hfits : s.cursorCol.toInt + text.length < 2 ^ 31) (hne : text ≠ []) :
    ∃ u, s.writeText text = some u ∧ u.cursorCol.toInt = s.cursorCol.toInt + text.length ∧
      (u.last.length : ℤ) = max (s.last.length : ℤ) (s.cursorCol.toInt + text.length) := by
  induction text generalizing s with
  | nil => exact absurd rfl hne
  | cons c text ih =>
    rw [Printing, forall_mem_cons] at h
    rw [length_cons] at hfits ⊢
    obtain ⟨line, hwrite, hlength, -⟩ := writeText_cons_printing h.1 hcol text
    have hnext := (toInt_add_one_iff hcol).mpr (by omega)
    rw [hwrite]
    by_cases hnil : text = []
    · subst hnil
      exact ⟨_, rfl, hnext, by rw [last_setLast, hlength]; rfl⟩
    · obtain ⟨u, hu, hucol, hulength⟩ := @ih (s.setLast line (s.cursorCol + 1)) h.2
        (by rw [cursorCol_setLast]; omega) (by rw [cursorCol_setLast]; omega) hnil
      rw [cursorCol_setLast] at hucol hulength
      rw [last_setLast] at hulength
      exact ⟨u, hu, by omega, by omega⟩

/-- A text that goes beyond the last column. -/
theorem writeText_wraps (h : Printing text) (hcol : 0 ≤ s.cursorCol.toInt)
    (hwraps : 2 ^ 31 ≤ s.cursorCol.toInt + text.length) (hsome : s.writeText text = some u) :
    u.cursorCol.toInt < 0 := by
  have hlt := s.cursorCol.toInt_lt
  induction text generalizing s with
  | nil => 
    rw [length_nil] at hwraps
    omega
  | cons c text ih =>
    rw [Printing, forall_mem_cons] at h
    rw [length_cons] at hwraps
    obtain ⟨line, hwrite, -, -⟩ := writeText_cons_printing h.1 hcol text
    rw [hwrite] at hsome
    by_cases hlast : s.cursorCol.toInt < 2 ^ 31 - 1
    · have hnext := (toInt_add_one_iff hcol).mpr hlast
      exact @ih (s.setLast line (s.cursorCol + 1)) h.2 (by rw [cursorCol_setLast]; omega)
        (by rw [cursorCol_setLast]; omega) hsome (s.cursorCol + 1).toInt_lt
    · have hone : (1 : BitVec 32).toInt = 1 := rfl
      have hneg : (s.cursorCol + 1).toInt < 0 := by
        rw [BitVec.toInt_add, hone, Int.bmod_def]
        split_ifs <;> omega
      cases text with
      | nil =>
        cases hsome
        exact hneg
      | cons d text =>
        have hnone : (s.setLast line (s.cursorCol + 1)).putChar d = none :=
          putChar_eq_none_iff.mpr hneg
        rw [writeText_cons, writeUnit_of_printing (h.2 d mem_cons_self), hnone] at hsome
        cases hsome

theorem iterate_backspace_of_nonpos (h : s.cursorCol.toInt ≤ 0) (n : ℕ) : backspace^[n] s = s := by
  have hfixed : s.backspace = s := if_pos h
  exact iterate_fixed hfixed n

/-- Backspaces in a line that the column is not beyond. -/
theorem backspaces_length {n : ℕ} (hcol : n ≤ s.cursorCol.toInt)
    (hinside : s.cursorCol.toInt ≤ s.last.length) :
    (backspace^[n] s).cursorCol.toInt = s.cursorCol.toInt - n ∧
      ((backspace^[n] s).last.length : ℤ) = s.last.length - n := by
  induction n generalizing s with
  | zero => exact ⟨(Int.sub_zero _).symm, (Int.sub_zero _).symm⟩
  | succ n ih =>
    have hsub := @toInt_sub_one s.cursorCol (by omega)
    have hback := backspace_of_inside (s := s) (by omega) hinside
    have hlength : (s.backspace.last.length : ℤ) = s.last.length - 1 := by
      rw [hback, last_setLast, length_eraseIdx_of_lt (by omega)]
      omega
    have hcol' : s.backspace.cursorCol.toInt = s.cursorCol.toInt - 1 := by
      rw [hback]
      exact hsub
    obtain ⟨hc, hl⟩ := @ih s.backspace (by omega) (by omega)
    rw [iterate_succ_apply]
    omega

end Round

/-- A text that is composed, and taken back. -/
def trial (s : TerminalBuffer) (text : Option (List (BitVec 16))) : Option TerminalBuffer :=
  (s.echoInput (text.getD [])).map backspace^[(text.getD []).length]

section Trials

variable {s u : TerminalBuffer} {text : Option (List (BitVec 16))}
  {texts : List (Option (List (BitVec 16)))}

theorem trial_empty (s : TerminalBuffer) (h : text.getD [] = []) : s.trial text = some s := by
  rw [trial, h]
  rfl

/-- What a text leaves that is not empty. -/
theorem trial_cases (h : Printing (text.getD [])) (hne : text.getD [] ≠ [])
    (hsome : s.trial text = some u) :
    0 ≤ s.cursorCol.toInt ∧ (u.cursorCol.toInt < 0 ∨
      s.cursorCol.toInt + (text.getD []).length < 2 ^ 31 ∧ u.cursorCol = s.cursorCol ∧
        (u.last.length : ℤ) = max (s.last.length : ℤ)
          (s.cursorCol.toInt + (text.getD []).length) - (text.getD []).length) := by
  obtain ⟨hprint, hlength⟩ := wellFormed_printing h
  rw [trial, echoInput_printing s h, map_eq_some_iff] at hsome
  obtain ⟨v, hv, rfl⟩ := hsome
  generalize text.getD [] = text at *
  generalize wellFormed text = shown at *
  have hne' : shown ≠ [] := by
    rwa [← length_pos_iff_ne_nil, hlength, length_pos_iff_ne_nil]
  by_cases hcol : 0 ≤ s.cursorCol.toInt
  · refine ⟨hcol, ?_⟩
    by_cases hfits : s.cursorCol.toInt + text.length < 2 ^ 31
    · right
      obtain ⟨v', hv', hcol', hlength'⟩ := writeText_length hprint hcol (by omega) hne'
      rw [hv'] at hv
      cases hv
      obtain ⟨hbackcol, hbacklength⟩ := @backspaces_length v text.length (by omega) (by omega)
      exact ⟨hfits, BitVec.eq_of_toInt_eq (by omega), by omega⟩
    · left
      have hneg := writeText_wraps hprint hcol (by omega) hv
      rwa [iterate_backspace_of_nonpos hneg.le]
  · obtain ⟨c, rest, rfl⟩ := exists_cons_of_ne_nil hne'
    have hnone : s.putChar c = none := putChar_eq_none_iff.mpr (by omega)
    rw [writeText_cons, writeUnit_of_printing (hprint c mem_cons_self), hnone] at hv
    cases hv

theorem trials_of_neg (hprint : ∀ text ∈ texts, Printing (text.getD []))
    (hneg : s.cursorCol.toInt < 0) (hsome : texts.foldlM trial s = some u) : u = s := by
  induction texts generalizing s with
  | nil =>
    cases hsome
    rfl
  | cons text texts ih =>
    rw [forall_mem_cons] at hprint
    rw [foldlM_cons, bind_eq_bind, bind_eq_some_iff] at hsome
    obtain ⟨v, hv, hrest⟩ := hsome
    by_cases hempty : text.getD [] = []
    · rw [trial_empty s hempty] at hv
      cases hv
      exact ih hprint.2 hneg hrest
    · have hcol := (trial_cases hprint.1 hempty hv).1
      omega

/-- What texts leave that are composed one after the other. -/
theorem trials_cases (hprint : ∀ text ∈ texts, Printing (text.getD []))
    (hsome : texts.foldlM trial s = some u) (hcol : u.cursorCol = s.cursorCol) :
    (∀ text ∈ texts, text.getD [] = []) ∧ u = s ∨
      (∀ text ∈ texts, s.cursorCol.toInt + (text.getD []).length < 2 ^ 31) ∧
        0 ≤ s.cursorCol.toInt ∧
        (s.last.length < s.cursorCol.toInt → u.last.length = s.cursorCol.toInt) ∧
        (s.last.length = s.cursorCol.toInt → u.last.length = s.cursorCol.toInt) ∧
        (s.cursorCol.toInt < s.last.length →
          s.cursorCol.toInt ≤ u.last.length ∧ u.last.length < s.last.length) := by
  induction texts generalizing s with
  | nil =>
    cases hsome
    exact .inl ⟨nofun, rfl⟩
  | cons text texts ih =>
    rw [forall_mem_cons] at hprint ⊢
    rw [foldlM_cons, bind_eq_bind, bind_eq_some_iff] at hsome
    obtain ⟨v, hv, hrest⟩ := hsome
    by_cases hempty : text.getD [] = []
    · rw [trial_empty s hempty] at hv
      cases hv
      have hlt := s.cursorCol.toInt_lt
      rcases ih hprint.2 hrest hcol with ⟨hall, rfl⟩ | ⟨hfits, hrest⟩
      · exact .inl ⟨⟨hempty, hall⟩, rfl⟩
      · refine .inr ⟨forall_mem_cons.mpr ⟨?_, hfits⟩, hrest⟩
        rw [hempty, length_nil]
        omega
    · right
      obtain ⟨hnonneg, hneg | ⟨hfits, hvcol, hvlength⟩⟩ := trial_cases hprint.1 hempty hv
      · obtain rfl := trials_of_neg hprint.2 hneg hrest
        rw [hcol] at hneg
        omega
      · have hpos := length_pos_of_ne_nil hempty
        rw [forall_mem_cons]
        rcases ih hprint.2 hrest (hcol.trans hvcol.symm) with ⟨hall, rfl⟩ | hcases
        · refine ⟨⟨hfits, fun text' htext' => ?_⟩, hnonneg, by omega, by omega, fun hlt => ?_⟩
          · have hlt := s.cursorCol.toInt_lt
            rw [hall text' htext', length_nil]
            omega
          · omega
        · rw [hvcol] at hcases
          obtain ⟨hall, -, hbeyond, hend, hinside⟩ := hcases
          exact ⟨⟨hfits, hall⟩, hnonneg, by omega, by omega, by omega⟩

/-- Texts that are taken back leave what was there: they are empty, or the column is the end of
the last line. -/
def Undoes (s : TerminalBuffer) (texts : List (Option (List (BitVec 16)))) : Prop :=
  (∀ text ∈ texts, Printing (text.getD [])) ∧
    ((∀ text ∈ texts, text.getD [] = []) ∨
      s.cursorCol.toInt = s.last.length ∧
        ∀ text ∈ texts, s.last.length + (text.getD []).length < 2 ^ 31)

theorem Undoes.trials (h : s.Undoes texts) : texts.foldlM trial s = some s := by
  obtain ⟨hprint, hcases⟩ := h
  induction texts with
  | nil => rfl
  | cons text texts ih =>
    simp only [forall_mem_cons] at hprint hcases
    have htrial : s.trial text = some s := by
      rcases hcases with hempty | ⟨hend, hfits⟩
      · exact trial_empty s hempty.1
      · obtain ⟨hshown, hlength⟩ := wellFormed_printing hprint.1
        obtain ⟨u, hwrite, hback⟩ := backspaces_writeText hshown hend (by
          rw [hlength]
          exact hfits.1)
        rw [trial, echoInput_printing s hprint.1, hwrite, map_some, ← hlength, hback]
    rw [foldlM_cons, htrial]
    exact ih hprint.2 (hcases.imp And.right fun hend => ⟨hend.1, hend.2.2⟩)

theorem undoes_of_trials (hprint : ∀ text ∈ texts, Printing (text.getD []))
    (hsome : texts.foldlM trial s = some s) : s.Undoes texts := by
  refine ⟨hprint, ?_⟩
  rcases trials_cases hprint hsome rfl with ⟨hempty, -⟩ | ⟨hfits, hnonneg, hbeyond, -, hinside⟩
  · exact .inl hempty
  · have hend : s.cursorCol.toInt = s.last.length := by omega
    refine .inr ⟨hend, fun text htext => ?_⟩
    have hfit := hfits text htext
    omega

end Trials

end TerminalBuffer

namespace TermInputConnection

open TerminalBuffer

variable {x y : TermInputConnection} {texts : List (Option (List (BitVec 16)))}

/-- Texts that are composed are taken back one after the other. -/
theorem clearComposing_compose (x : TermInputConnection)
    (texts : List (Option (List (BitVec 16)))) :
    (texts.foldlM setComposingText x).map clearComposing =
      (texts.foldlM trial x.clearComposing.buffer).map fun s => ⟨s, []⟩ := by
  induction texts generalizing x with
  | nil => rfl
  | cons text texts ih =>
    rw [foldlM_cons, foldlM_cons, setComposingText, trial]
    cases x.clearComposing.buffer.echoInput (text.getD []) with
    | none => rfl
    | some s => exact ih ⟨s, text.getD []⟩

/-- The composition has been taken back, before a call has its own effect. -/
structure Restored (s : TerminalBuffer) (y : TermInputConnection) : Prop where
  clear : y.clearComposing = ⟨s, []⟩
  empty : ∀ text, text.getD [] = [] → y.setComposingText text = some ⟨s, []⟩
  commit : ∀ text listener,
    y.commitText (some text) listener = commitText ⟨s, []⟩ (some text) listener
  delete : ∀ n, y.deleteSurroundingText n = deleteSurroundingText ⟨s, []⟩ n

theorem Restored.of_clear {s : TerminalBuffer} (h : y.clearComposing = ⟨s, []⟩) : Restored s y where
  clear := h
  empty text htext := by
    rw [setComposingText, h, htext]
    rfl
  commit text listener := by
    rw [commitText, commitText, h]
    rfl
  delete n := by
    rw [deleteSurroundingText, deleteSurroundingText, h]
    rfl

/-- Characters that are printed at the end of the last line are taken back, and of texts of
characters that are printed only these are. -/
theorem composition_restored (s : TerminalBuffer) (texts : List (Option (List (BitVec 16)))) :
    (s.Undoes texts → ∃ y, texts.foldlM setComposingText ⟨s, []⟩ = some y ∧ Restored s y) ∧
      ((∀ text ∈ texts, Printing (text.getD [])) →
        (∃ y, texts.foldlM setComposingText ⟨s, []⟩ = some y ∧ Restored s y) → s.Undoes texts) := by
  have hcompose := clearComposing_compose ⟨s, []⟩ texts
  constructor
  · intro h
    change _ = (texts.foldlM trial s).map _ at hcompose
    rw [h.trials, map_some, map_eq_some_iff] at hcompose
    obtain ⟨y, hy, hclear⟩ := hcompose
    exact ⟨y, hy, .of_clear hclear⟩
  · rintro hprint ⟨y, hy, hrestored⟩
    apply undoes_of_trials hprint
    rw [hy, map_some, hrestored.clear, eq_comm, map_eq_some_iff] at hcompose
    obtain ⟨t, ht, heq⟩ := hcompose
    cases heq
    exact ht

/-- Two texts that are composed at the end of a line, one after the other. -/
theorem composition_restored_appended : ∃ y,
    [some [0x62], some [0x62, 0x63]].foldlM setComposingText ⟨⟨[[0x61]], 1, by simp⟩, []⟩ = some y ∧
      Restored ⟨[[0x61]], 1, by simp⟩ y :=
  (composition_restored _ _).1 ⟨by simp [Printing], .inr ⟨by decide, by simp [last]⟩⟩

/-- A character that is composed at the beginning of a line that has one. -/
theorem composition_overwrites :
    ¬ ∀ (s : TerminalBuffer) (texts : List (Option (List (BitVec 16)))),
      ∃ y, texts.foldlM setComposingText ⟨s, []⟩ = some y ∧ Restored s y := by
  intro h
  have hprint : ∀ text ∈ [some [(0x62 : BitVec 16)]], Printing (text.getD []) := by
    rw [forall_mem_singleton]
    exact forall_mem_singleton.mpr (by decide)
  obtain ⟨-, hempty | ⟨hend, -⟩⟩ :=
    (composition_restored ⟨[[0x61]], 0, by simp⟩ [some [0x62]]).2 hprint (h _ _)
  · exact absurd (hempty _ mem_cons_self) (by decide)
  · exact absurd hend (by decide)

end TermInputConnection

end MachVirtuTerm
