import MachVirtuTerm.App.TerminalBuffer

/-!
# What the view shows

`TerminalView.java` wraps the lines of the buffer at the width of the screen and draws a window of
the rows. The soft keyboard hides the lower rows, and `ensureCursorVisible` scrolls.
-/

open List

namespace MachVirtuTerm

/-- What a `TerminalView` draws by. Its sizes are of `int`, and so small that what is computed from
them is too. -/
structure TerminalView where
  buffer : TerminalBuffer
  cols : ℕ
  cols_pos : 0 < cols
  rows : ℕ
  rows_pos : 0 < rows
  fontWidth : ℕ
  fontHeight : ℕ
  fontHeight_pos : 0 < fontHeight
  baseline : ℤ
  /-- `getHeight()`. -/
  height : ℤ
  imeHeightPx : ℤ
  scrollOffset : ℕ
  followOutput : Bool
  cursorVisible : Bool

namespace TerminalView

/-- The rows that a line takes. -/
def segCount (v : TerminalView) (line : List (BitVec 16)) : ℕ :=
  (max 1 line.length + v.cols - 1) / v.cols

def totalDisplayLines (v : TerminalView) : ℕ := (v.buffer.lines.map v.segCount).sum

def computeMaxScroll (v : TerminalView) : ℕ := v.totalDisplayLines - v.rows

/-- The first row that is drawn. -/
def startDisplay (v : TerminalView) : ℕ :=
  v.totalDisplayLines - v.rows - min v.scrollOffset v.computeMaxScroll

/-- The part of a line in one of its rows. -/
def segment (v : TerminalView) (line : List (BitVec 16)) (k : ℕ) : List (BitVec 16) :=
  (line.take (min line.length (k * v.cols + v.cols))).drop (k * v.cols)

def cursorSegment (v : TerminalView) : ℤ := v.buffer.cursorCol.toInt.tdiv v.cols

/-- The local variables of `onDraw`, with the texts drawn so far. -/
structure Drawing where
  display : ℕ
  y : ℤ
  texts : List (List (BitVec 16) × ℤ)
  /-- `cursorX` and `cursorRowInView`, where `cursorInView` is set. -/
  cursor : Option (ℤ × ℕ)

/-- A row of a line. -/
def drawSegment (v : TerminalView) (line : List (BitVec 16)) (isCursorLine : Bool) (d : Drawing)
    (k : ℕ) : Drawing :=
  let shown := v.startDisplay ≤ d.display ∧ d.display < v.startDisplay + v.rows
  { display := d.display + 1
    y := if shown then d.y + v.fontHeight else d.y
    texts := if shown then d.texts ++ [(v.segment line k, d.y)] else d.texts
    cursor :=
      if isCursorLine ∧ (k : ℤ) = v.cursorSegment then
        some (v.buffer.cursorCol.toInt.tmod v.cols * v.fontWidth, d.display)
      else d.cursor }

def drawLine (v : TerminalView) (line : List (BitVec 16)) (isCursorLine : Bool) (d : Drawing) :
    Drawing :=
  (range (v.segCount line)).foldl (v.drawSegment line isCursorLine) d

/-- The loop over the lines. -/
def drawLines (v : TerminalView) (d : Drawing) : List (List (BitVec 16)) → Drawing
  | [] => d
  | line :: lines =>
    let d' := v.drawLine line lines.isEmpty d
    if v.startDisplay + v.rows ≤ d'.display then d' else v.drawLines d' lines

/-- The texts of `onDraw`, and where the cursor is. -/
def drawing (v : TerminalView) : Drawing := v.drawLines ⟨0, v.baseline, [], none⟩ v.buffer.lines

/-- `onDraw`: the offset afterwards, the texts, and the corner of the block of the cursor. -/
def onDraw (v : TerminalView) : TerminalView × List (List (BitVec 16) × ℤ) × Option (ℤ × ℤ) :=
  ({ v with scrollOffset := min v.scrollOffset v.computeMaxScroll }, v.drawing.texts,
    if v.cursorVisible ∧ v.followOutput then
      v.drawing.cursor.map fun (x, row) => (x, ((row : ℤ) - v.startDisplay) * v.fontHeight)
    else none)

def visibleBottom (v : TerminalView) : ℤ := v.height - v.imeHeightPx

/-- The bottom of a row at an offset. -/
def rowBottom (v : TerminalView) (scrollOffset row : ℕ) : ℤ :=
  ((row : ℤ) - (v.totalDisplayLines - v.rows - scrollOffset : ℕ)) * v.fontHeight + v.fontHeight

/-- The rows by which `ensureCursorVisible` scrolls. -/
def needed (v : TerminalView) : ℤ :=
  (v.rowBottom v.scrollOffset (v.totalDisplayLines - 1) - v.visibleBottom + v.fontHeight - 1) /
    v.fontHeight

def ensureCursorVisible (v : TerminalView) : TerminalView :=
  if v.imeHeightPx ≤ 0 ∨ ¬v.followOutput then v
  else if v.visibleBottom < v.rowBottom v.scrollOffset (v.totalDisplayLines - 1) then
    { v with scrollOffset :=
        (max 0 (min (v.computeMaxScroll : ℤ) (v.scrollOffset + v.needed))).toNat }
  else v

/-- The rows of all lines. -/
def segments (v : TerminalView) (line : List (BitVec 16)) : List (List (BitVec 16)) :=
  (range (v.segCount line)).map (v.segment line)

/-- A row that is taken for the one of the cursor, by `ensureCursorVisible` or by `onDraw`. -/
def IsCursorRow (v : TerminalView) (row : ℕ) : Prop :=
  row + 1 = v.totalDisplayLines ∨
    0 ≤ v.cursorSegment ∧ v.cursorSegment < v.segCount v.buffer.last ∧
      (row : ℤ) = v.totalDisplayLines - v.segCount v.buffer.last + v.cursorSegment

/-- In follow mode the cursor is in a row that is drawn while the keyboard is hidden, and above the
keyboard after it was scrolled, where an offset is such; and what is drawn is a part of the rows
into which the lines are cut. -/
structure ShowsCursor (v : TerminalView) : Prop where
  hidden : v.followOutput = true → v.imeHeightPx ≤ 0 → v.scrollOffset = 0 →
    ∃ x row, v.drawing.cursor = some (x, row) ∧ v.startDisplay ≤ row ∧
      row < v.startDisplay + v.rows
  shown : v.followOutput = true → 0 < v.imeHeightPx → v.fontHeight ≤ v.visibleBottom →
    ∀ row, v.IsCursorRow row →
      (∃ offset ≤ v.computeMaxScroll, v.rowBottom offset row ≤ v.visibleBottom) →
        v.rowBottom v.ensureCursorVisible.scrollOffset row ≤ v.visibleBottom
  texts : v.drawing.texts.map Prod.fst =
    ((v.buffer.lines.flatMap v.segments).drop v.startDisplay).take v.rows
  lines : ∀ line, (v.segments line).flatten = line

/-- The number of rows up to the last one that the keyboard hides, one of them maybe in part. -/
def hiddenRows (v : TerminalView) : ℕ :=
  ((v.rowBottom v.scrollOffset (v.totalDisplayLines - 1) - v.visibleBottom).toNat +
    v.fontHeight - 1) / v.fontHeight

/-- When the cursor is seen. -/
structure Fits (v : TerminalView) : Prop where
  hidden : v.followOutput = true → v.imeHeightPx ≤ 0 → v.scrollOffset = 0 →
    0 ≤ v.cursorSegment ∧ v.cursorSegment < v.segCount v.buffer.last ∧
      v.segCount v.buffer.last ≤ v.cursorSegment + v.rows
  shown : v.followOutput = true → 0 < v.imeHeightPx → v.fontHeight ≤ v.visibleBottom →
    ∀ row, v.IsCursorRow row → v.rowBottom 0 row ≤ v.visibleBottom →
      v.rowBottom (v.scrollOffset + v.hiddenRows) row ≤ v.visibleBottom

section Rows

variable {v : TerminalView} {d : Drawing} {line : List (BitVec 16)} {row : ℕ}

section

variable (v : TerminalView)

/-- A line has a row, and its rows are as long as it. -/
theorem segCount_spec (line : List (BitVec 16)) :
    0 < v.segCount line ∧ line.length ≤ v.segCount line * v.cols := by
  have hcols := v.cols_pos
  have hdiv := Nat.div_add_mod (max 1 line.length + v.cols - 1) v.cols
  have hmod := Nat.mod_lt (max 1 line.length + v.cols - 1) hcols
  rw [mul_comm] at hdiv
  refine ⟨Nat.div_pos (by omega) hcols, ?_⟩
  unfold segCount
  omega

/-- The rows of a line are the line. -/
theorem flatten_segments (line : List (BitVec 16)) : (v.segments line).flatten = line := by
  have hpart : ∀ n, ((range n).map (v.segment line)).flatten = line.take (n * v.cols) := by
    intro n
    induction n with
    | zero => rw [zero_mul]; rfl
    | succ n ih =>
      have htake : line.take (min line.length (n * v.cols + v.cols)) =
          line.take (n * v.cols + v.cols) := by
        rw [take_eq_take_iff]
        omega
      rw [range_succ, map_append, flatten_append, ih, map_singleton, flatten_singleton, segment,
        htake, drop_take, Nat.add_sub_cancel_left, Nat.succ_mul, take_add]
  rw [segments, hpart]
  exact take_of_length_le (v.segCount_spec line).2

/-- The rows that are drawn of some rows. -/
def window (rows : List (List (BitVec 16))) : List (List (BitVec 16)) :=
  (rows.drop v.startDisplay).take v.rows

theorem window_concat (rows : List (List (BitVec 16))) (x : List (BitVec 16)) :
    v.window (rows ++ [x]) =
      if v.startDisplay ≤ rows.length ∧ rows.length < v.startDisplay + v.rows then
        v.window rows ++ [x]
      else v.window rows := by
  unfold window
  by_cases hstart : v.startDisplay ≤ rows.length
  · rw [drop_append_of_le_length hstart]
    split_ifs with hshown
    · rw [take_of_length_le (by rw [length_append, length_drop, length_singleton]; omega),
        take_of_length_le (by rw [length_drop]; omega)]
    · rw [take_append_of_le_length (by rw [length_drop]; omega)]
  · rw [if_neg (by omega), drop_of_length_le (by rw [length_append, length_singleton]; omega),
      drop_of_length_le (by omega)]

end

/-- Rows behind those that are drawn. -/
theorem window_append (rows rest : List (List (BitVec 16)))
    (h : v.startDisplay + v.rows ≤ rows.length) : v.window (rows ++ rest) = v.window rows := by
  unfold window
  rw [drop_append_of_le_length (by omega), take_append_of_le_length (by rw [length_drop]; omega)]

/-- Some rows have been passed, and those drawn that are in the window. -/
def Passed (v : TerminalView) (rows : List (List (BitVec 16))) (d : Drawing) : Prop :=
  d.display = rows.length ∧ d.texts.map Prod.fst = v.window rows

variable {rows : List (List (BitVec 16))}

theorem Passed.drawSegment (h : v.Passed rows d) (isCursorLine : Bool) (k : ℕ) :
    v.Passed (rows ++ [v.segment line k]) (v.drawSegment line isCursorLine d k) := by
  obtain ⟨hdisplay, htexts⟩ := h
  refine ⟨?_, ?_⟩
  · rw [length_append, length_singleton, ← hdisplay]
    rfl
  · rw [window_concat, ← hdisplay, TerminalView.drawSegment, ← htexts]
    dsimp only
    split_ifs
    · rw [map_append, map_singleton]
    · rfl

theorem Passed.drawLine (h : v.Passed rows d) (isCursorLine : Bool) :
    v.Passed (rows ++ v.segments line) (v.drawLine line isCursorLine d) := by
  have hpart : ∀ n, v.Passed (rows ++ (range n).map (v.segment line))
      ((range n).foldl (v.drawSegment line isCursorLine) d) := by
    intro n
    induction n with
    | zero => rwa [range_zero, map_nil, append_nil]
    | succ n ih =>
      rw [range_succ, map_append, ← append_assoc, foldl_append]
      exact ih.drawSegment isCursorLine n
  exact hpart _

theorem Passed.drawLines (h : v.Passed rows d) (lines : List (List (BitVec 16))) :
    (v.drawLines d lines).texts.map Prod.fst = v.window (rows ++ lines.flatMap v.segments) := by
  induction lines generalizing rows d with
  | nil =>
    rw [flatMap_nil, append_nil]
    exact h.2
  | cons line lines ih =>
    have hline := @Passed.drawLine v d line rows h lines.isEmpty
    rw [TerminalView.drawLines, flatMap_cons, ← append_assoc]
    split_ifs with hbreak
    · rw [window_append _ _ (hline.1 ▸ hbreak)]
      exact hline.2
    · exact ih hline

/-- The rows and the cursor after a line. -/
theorem drawLine_spec (v : TerminalView) (line : List (BitVec 16)) (isCursorLine : Bool)
    (d : Drawing) :
    (v.drawLine line isCursorLine d).display = d.display + v.segCount line ∧
      (v.drawLine line isCursorLine d).cursor =
        if isCursorLine ∧ 0 ≤ v.cursorSegment ∧ v.cursorSegment < v.segCount line then
          some (v.buffer.cursorCol.toInt.tmod v.cols * v.fontWidth,
            d.display + v.cursorSegment.toNat)
        else d.cursor := by
  unfold drawLine
  generalize v.segCount line = n
  induction n with
  | zero =>
    rw [if_neg (by omega)]
    exact ⟨rfl, rfl⟩
  | succ n ih =>
    rw [range_succ, foldl_append, foldl_cons, foldl_nil, drawSegment]
    dsimp only
    rw [ih.1, ih.2]
    refine ⟨rfl, ?_⟩
    by_cases hn : isCursorLine ∧ (n : ℤ) = v.cursorSegment
    · have hseg : v.cursorSegment.toNat = n := by omega
      rw [if_pos hn, if_pos ⟨hn.1, by omega, by omega⟩, hseg]
    · rw [if_neg hn]
      apply if_congr _ rfl rfl
      constructor
      · exact fun hin => ⟨hin.1, hin.2.1, by omega⟩
      · exact fun hin => ⟨hin.1, hin.2.1, by
          have hne : (n : ℤ) ≠ v.cursorSegment := fun heq => hn ⟨hin.1, heq⟩
          omega⟩

/-- The cursor, where the loop comes to the last line. -/
theorem cursor_drawLines (v : TerminalView) (d : Drawing) (lines : List (List (BitVec 16)))
    (last : List (BitVec 16))
    (h : d.display + ((lines ++ [last]).map v.segCount).sum ≤ v.startDisplay + v.rows) :
    (v.drawLines d (lines ++ [last])).cursor =
      if 0 ≤ v.cursorSegment ∧ v.cursorSegment < v.segCount last then
        some (v.buffer.cursorCol.toInt.tmod v.cols * v.fontWidth,
          d.display + (lines.map v.segCount).sum + v.cursorSegment.toNat)
      else d.cursor := by
  induction lines generalizing d with
  | nil =>
    have hspec := (v.drawLine_spec last true d).2
    rw [nil_append, drawLines, drawLines, isEmpty_nil, ite_self, hspec]
    simp
  | cons line lines ih =>
    have hspec := v.drawLine_spec line false d
    have hpos := (v.segCount_spec last).1
    have hempty : (lines ++ [last]).isEmpty = false := by simp
    simp only [cons_append, map_cons, map_append, sum_cons, sum_append, map_nil, sum_nil] at h ih ⊢
    rw [drawLines, hempty, if_neg (by omega), ih _ (by omega), hspec.1, hspec.2]
    simp only [Bool.false_eq_true, false_and, if_false, Nat.add_assoc]

/-- Where the cursor is in a row of the window. -/
theorem hidden_iff (hoffset : v.scrollOffset = 0) :
    (∃ x row, v.drawing.cursor = some (x, row) ∧ v.startDisplay ≤ row ∧
        row < v.startDisplay + v.rows) ↔
      0 ≤ v.cursorSegment ∧ v.cursorSegment < v.segCount v.buffer.last ∧
        v.segCount v.buffer.last ≤ v.cursorSegment + v.rows := by
  have hlines : v.buffer.lines.dropLast ++ [v.buffer.last] = v.buffer.lines :=
    dropLast_append_getLast _
  have htotal : v.totalDisplayLines =
      (v.buffer.lines.dropLast.map v.segCount).sum + v.segCount v.buffer.last := by
    rw [totalDisplayLines, ← hlines, map_append, sum_append, map_singleton, sum_singleton, hlines]
  have hstart : v.startDisplay = v.totalDisplayLines - v.rows := by
    rw [startDisplay, hoffset, Nat.zero_min, Nat.sub_zero]
  have hcursor := v.cursor_drawLines ⟨0, v.baseline, [], none⟩ v.buffer.lines.dropLast v.buffer.last
    (by
      rw [hlines, hstart, ← totalDisplayLines]
      dsimp only
      omega)
  rw [hlines, ← drawing] at hcursor
  rw [hcursor, hstart]
  dsimp only
  constructor
  · rintro ⟨x, row, hsome, hrow, -⟩
    split_ifs at hsome with hseg
    cases hsome
    exact ⟨hseg.1, hseg.2, by omega⟩
  · rintro ⟨hnonneg, hlt, hrows⟩
    rw [if_pos ⟨hnonneg, hlt⟩]
    exact ⟨_, _, rfl, by omega, by omega⟩

/-- A row is lower on the screen the more the view is scrolled back. -/
theorem rowBottom_le {offset offset' row' : ℕ} (hoffset : offset ≤ offset') (hrow : row ≤ row') :
    v.rowBottom offset row ≤ v.rowBottom offset' row' := by
  unfold rowBottom
  apply Int.add_le_add_right
  apply mul_le_mul_of_nonneg_right _ (Int.natCast_nonneg _)
  omega

/-- The offset after the keyboard was shown takes the rows down by those that it hides. -/
theorem rowBottom_ensureCursorVisible (hfollow : v.followOutput = true) (hime : 0 < v.imeHeightPx)
    (hrow : row < v.totalDisplayLines) :
    v.rowBottom v.ensureCursorVisible.scrollOffset row ≤ v.visibleBottom ↔
      v.rowBottom (v.scrollOffset + v.hiddenRows) row ≤ v.visibleBottom := by
  have hpos := v.fontHeight_pos
  unfold ensureCursorVisible
  rw [if_neg (by simp [hfollow, hime])]
  by_cases hbelow : v.visibleBottom < v.rowBottom v.scrollOffset (v.totalDisplayLines - 1)
  · have hneeded : v.needed = v.hiddenRows := by
      rw [needed, hiddenRows, Int.natCast_ediv]
      congr 1
      omega
    have hoffset : (max 0 (min (v.computeMaxScroll : ℤ) (v.scrollOffset + v.needed))).toNat =
        min v.computeMaxScroll (v.scrollOffset + v.hiddenRows) := by
      omega
    have hsame : v.rowBottom (min v.computeMaxScroll (v.scrollOffset + v.hiddenRows)) row =
        v.rowBottom (v.scrollOffset + v.hiddenRows) row := by
      unfold rowBottom computeMaxScroll
      congr 4
      omega
    rw [if_pos hbelow]
    dsimp only
    rw [hoffset, hsame]
  · have hle := rowBottom_le (v := v) (le_refl v.scrollOffset)
      (by omega : row ≤ v.totalDisplayLines - 1)
    have hnone : v.hiddenRows = 0 := Nat.div_eq_of_lt (by omega)
    rw [if_neg hbelow, hnone, Nat.add_zero]

theorem IsCursorRow.lt (h : v.IsCursorRow row) : row < v.totalDisplayLines := by
  rcases h with heq | ⟨-, hlt, heq⟩
  · omega
  · omega

/-- The cursor is seen exactly where it is in a row of the last line that the window has, and where
it stays above the keyboard although the rows are taken down by those that the keyboard hides. -/
theorem showsCursor_iff (v : TerminalView) : v.ShowsCursor ↔ v.Fits := by
  constructor
  · intro h
    refine ⟨fun hfollow hime hoffset => ?_, fun hfollow hime hroom row hrow hzero => ?_⟩
    · exact (hidden_iff hoffset).mp (h.hidden hfollow hime hoffset)
    · apply (rowBottom_ensureCursorVisible hfollow hime hrow.lt).mp
      exact h.shown hfollow hime hroom row hrow ⟨0, Nat.zero_le _, hzero⟩
  · intro h
    refine ⟨fun hfollow hime hoffset => ?_, fun hfollow hime hroom row hrow hsome => ?_, ?_,
      v.flatten_segments⟩
    · exact (hidden_iff hoffset).mpr (h.hidden hfollow hime hoffset)
    · obtain ⟨offset, -, hoffset⟩ := hsome
      apply (rowBottom_ensureCursorVisible hfollow hime hrow.lt).mpr
      exact h.shown hfollow hime hroom row hrow ((rowBottom_le offset.zero_le le_rfl).trans hoffset)
    · have hnone : v.Passed [] ⟨0, v.baseline, [], none⟩ := by
        refine ⟨rfl, ?_⟩
        rw [window, drop_nil, take_nil]
        rfl
      exact hnone.drawLines v.buffer.lines

end Rows

/-- A line as long as the screen is wide; and three rows on a screen of two, which is scrolled back
by one when the keyboard comes. -/
theorem cursor_at_width : (¬∀ v : TerminalView, v.imeHeightPx ≤ 0 → v.ShowsCursor) ∧
    ¬∀ v : TerminalView, 0 < v.imeHeightPx → v.ShowsCursor := by
  constructor
  · intro h
    have hfits := (showsCursor_iff ⟨⟨[[0x61, 0x62]], 2, by simp⟩, 2, by simp, 24, by simp, 8, 16,
      by simp, 12, 384, 0, 0, true, true⟩).mp (h _ le_rfl)
    have hseg := (hfits.hidden rfl le_rfl rfl).2.1
    revert hseg
    decide
  · intro h
    have hfits := (showsCursor_iff ⟨⟨[[0x61], [0x61], [0x61]], 1, by simp⟩, 2, by simp, 2, by simp,
      1, 1, by simp, 1, 3, 1, 1, true, true⟩).mp (h _ (by decide))
    have hshown := hfits.shown rfl (by decide) (by decide) 2 (.inl rfl) (by decide)
    revert hshown
    decide

end TerminalView

end MachVirtuTerm
