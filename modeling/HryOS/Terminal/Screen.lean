import HryOS.Lib.TextGrid
import HryOS.Terminal.Pixels
import HryOS.Terminal.Terminal

/-!
# The screen shows the text

The terminal draws a grid of characters with their colors: the buffer is the picture of the grid,
and the display is the buffer but for one cursor.

* `TextState`, `textStep` — the text terminal: what the operations do to a grid.
* `render` — the picture of a grid; the margins right of and below the grid are black.
* `Pixels` — what every function keeps; `Refines` — with the cursor and the color.
* `screen_shows_text`, `display_agrees` — over all runs from `clear_screen`.
-/

set_option autoImplicit false

namespace HryOS.Terminal

open ByteMemory Transition TextGrid

/-! ## The text terminal -/

/-- A character and the foreground color it was put in. -/
abbrev Glyph := UInt8 × TermColor

/-- The text and the foreground color. -/
structure TextState where
  grid : Grid Glyph
  color : TermColor

variable (S : Screen) (glyphs : Glyphs)

/-- `put_char`. -/
def textPut (t : TextState) (ch : UInt8) : TextState :=
  { t with grid := type (Impl.getWidth S) (Impl.getHeight S) t.grid (ch, t.color) }

/-- The operations on text. -/
def textStep (t : TextState) : Op → TextState
  | .putChar ch => textPut S t ch
  | .print fmt => (fmt.takeWhile (· ≠ 0)).foldl (textPut S) t
  | .nextLine => { t with grid := newline (Impl.getHeight S) t.grid }
  | .setForegroundColor color => { t with color }
  | .setBackgroundColor _ => t
  | .clearScreen => { t with grid := clear }
  | .putCharAt ch pos => { t with grid := typeAt t.grid (ch, t.color) pos.x pos.y }
  | .moveCursor pos => { t with grid := move t.grid pos.x pos.y }

/-- The picture of a cell: the bits of the glyph in its color, black elsewhere. -/
def renderCell (cell : Option Glyph) (d : Vec2u) : Color :=
  match cell with
  | some (ch, color) => (glyphPixels glyphs ch color d).getD {}
  | none => {}

/-- The picture of a grid. -/
def render (cells : ℕ → ℕ → Option Glyph) (i : ℕ) : Color :=
  let col := i % S.size.x / 8
  let row := i / S.size.x / 16
  if col < Impl.getWidth S ∧ row < Impl.getHeight S then
    renderCell glyphs (cells col row) (offset S i)
  else {}

/-- The display is the buffer, except in the column of the last cursor position. -/
def DisplayAgrees (s : State) : Prop := ∀ i, i < S.size.x * S.size.y →
  ¬ InColumn S s.lastCursorTextPos i → s.display i = s.bufferedScreen i

/-- The cursor is shown at the current position: its column has the inverted colors of the
    buffer. -/
structure CursorShown (s : State) : Prop where
  last : s.lastCursorTextPos = s.cursorPos
  inverted : ∀ i, i < S.size.x * S.size.y → InColumn S s.cursorPos i →
    s.display i = Impl.inverted (s.bufferedScreen i)

/-- The pixels show the cells. -/
structure Pixels (s : State) (cells : ℕ → ℕ → Option Glyph) : Prop where
  isInitialized : s.isInitialized = true
  vesaInitialized : s.vesaInitialized = true
  last : OnGrid S s.lastCursorTextPos
  buffer : ∀ i, i < S.size.x * S.size.y → s.bufferedScreen i = render S glyphs cells i
  display : DisplayAgrees S s

/-- The state shows the text, its cursor and its color. -/
structure Refines (s : State) (t : TextState) : Prop where
  pixels : Pixels S glyphs s t.grid.cells
  inRange : InRange (Impl.getWidth S) (Impl.getHeight S) t.grid
  cursor : s.cursorPos = ⟨t.grid.col, t.grid.row⟩
  color : s.currentColor.foreground = t.color

variable {S glyphs} {s : State} {t : TextState} {g : Grid Glyph} {cells : ℕ → ℕ → Option Glyph}
  {pos : Vec2u} {i : ℕ}

theorem getWidth_pos (S : Screen) : 0 < Impl.getWidth S :=
  Nat.div_pos S.width_le (by decide)

theorem getHeight_pos (S : Screen) : 0 < Impl.getHeight S :=
  Nat.div_pos S.height_le (by decide)

theorem getHeight_lt (S : Screen) : Impl.getHeight S < 4294967296 := by
  have hh := height_le_area S
  have hfits := S.fits
  have hle : S.size.y / 16 ≤ S.size.y := Nat.div_le_self _ _
  unfold Impl.getHeight
  simp only [fontSize]
  omega

theorem getWidth_lt (S : Screen) : Impl.getWidth S < 4294967296 := by
  have hw := width_le_area S
  have hfits := S.fits
  have hle : S.size.x / 8 ≤ S.size.x := Nat.div_le_self _ _
  unfold Impl.getWidth
  simp only [fontSize]
  omega

/-! ## Pictures -/

/-- No rendered color has an alpha byte: `copied` copies it exactly. -/
theorem copied_render (cells : ℕ → ℕ → Option Glyph) (i : ℕ) :
    Impl.copied (render S glyphs cells i) = render S glyphs cells i := by
  have hcolor : ∀ color, Impl.copied (terminalToVesaColor color) = terminalToVesaColor color := by
    intro color
    cases color <;> rfl
  unfold render
  simp only
  split
  · unfold renderCell
    split
    · unfold glyphPixels
      split
      · exact hcolor _
      · rfl
    · rfl
  · rfl

/-- Drawing a glyph over a blank cell. -/
theorem render_typeAt (h : OnGrid S pos) (a : Glyph) (i : ℕ) :
    render S glyphs (typeAt g a pos.x pos.y).cells i =
      if InCell S pos i then renderCell glyphs (some a) (offset S i)
      else render S glyphs g.cells i := by
  unfold render
  simp only [typeAt]
  by_cases hcell : InCell S pos i
  · obtain ⟨hx, hy⟩ := hcell
    rw [if_pos (⟨hx, hy⟩ : InCell S pos i), if_pos (by rw [hx, hy]; exact ⟨h.x, h.y⟩),
      if_pos ⟨hx, hy⟩]
  · have hnot : ¬ (i % S.size.x / 8 = pos.x ∧ i / S.size.x / 16 = pos.y) := hcell
    rw [if_neg hcell, if_neg hnot]

/-- A picture is black in the cells that are blank and outside the grid. -/
theorem render_black (h : cells (i % S.size.x / 8) (i / S.size.x / 16) = none ∨
    Impl.getHeight S ≤ i / S.size.x / 16) : render S glyphs cells i = {} := by
  unfold render
  simp only
  split
  · rename_i hin
    rw [h.resolve_right (by omega)]
    rfl
  · rfl

/-- The picture of the scrolled text, above the last text row. -/
theorem render_scroll (h : i / S.size.x / 16 + 1 < Impl.getHeight S) :
    render S glyphs (scroll (Impl.getHeight S) g).cells i =
      render S glyphs g.cells (i + S.size.x * 16) := by
  have hpos : 0 < S.size.x := by have := S.width_le; omega
  have hrow : (i / S.size.x + 16) / 16 = i / S.size.x / 16 + 1 := by omega
  have hoff : offset S (i + S.size.x * 16) = offset S i := by
    unfold offset
    rw [Raster.add_rows_mod, Raster.add_rows_div hpos, Nat.add_mod_right]
  unfold render
  simp only [scroll, Raster.add_rows_mod, Raster.add_rows_div hpos, hrow, hoff, h, if_true,
    and_true]
  congr 1
  simp only [eq_iff_iff]
  omega

/-! ## The functions of `vesa_impl.cpp` -/

/-- Only the pixels, the last cursor position and the two flags matter. -/
theorem Pixels.withCursor (hp : Pixels S glyphs s cells) (pos : Vec2u) :
    Pixels S glyphs { s with cursorPos := pos } cells :=
  ⟨hp.isInitialized, hp.vesaInitialized, hp.last, hp.buffer, hp.display⟩

/-- Drawing a character. -/
theorem pixels_putCharAt (hp : Pixels S glyphs s g.cells) (hpos : OnGrid S pos) (ch : UInt8) :
    ∃ s', putCharAt S glyphs s ch pos = some s' ∧
      Pixels S glyphs s' (typeAt g (ch, s.currentColor.foreground) pos.x pos.y).cells ∧
      s'.cursorPos = s.cursorPos ∧ s'.currentColor = s.currentColor := by
  have himpl : putCharAt S glyphs s ch pos = (resetChar S s pos).bind fun s' =>
      drawCell S s' pos (glyphPixels glyphs ch s.currentColor.foreground) := by
    unfold putCharAt
    rw [hp.isInitialized]
    rfl
  rw [himpl, resetChar, drawCell_eq hpos hp.vesaInitialized, Option.bind_some, drawCell_eq hpos]
  rotate_left
  · exact hp.vesaInitialized
  refine ⟨_, rfl, ⟨hp.isInitialized, hp.vesaInitialized, hp.last, ?_, ?_⟩, rfl, rfl⟩
  · intro i hi
    rw [render_typeAt hpos]
    simp only [paint]
    split
    · rfl
    · exact hp.buffer i hi
  · intro i hi hcol
    simp only [paint]
    split
    · rfl
    · exact hp.display i hi hcol

/-- Drawing the cursor at a new position, after it is erased at the old one. -/
theorem pixels_setCursorAt (hp : Pixels S glyphs s cells) (hpos : OnGrid S pos) :
    ∃ s', Impl.setCursorAt S s pos = some s' ∧ Pixels S glyphs s' cells ∧
      s'.lastCursorTextPos = pos ∧ s'.cursorPos = s.cursorPos ∧
      s'.currentColor = s.currentColor ∧
      ∀ i, i < S.size.x * S.size.y → InColumn S pos i →
        s'.display i = Impl.inverted (s'.bufferedScreen i) := by
  unfold Impl.setCursorAt
  rw [drawColumn_eq hp.last hp.vesaInitialized, Option.bind_eq_bind, Option.bind_some,
    drawColumn_eq hpos]
  rotate_left
  · exact hp.vesaInitialized
  refine ⟨_, rfl, ⟨hp.isInitialized, hp.vesaInitialized, hpos, hp.buffer, ?_⟩, rfl, rfl, rfl, ?_⟩
  · intro i hi hcol
    simp only [overlay, if_neg hcol]
    split
    · rw [hp.buffer i hi, copied_render]
    · rename_i hlast
      exact hp.display i hi hlast
  · intro i _ hcol
    simp only [overlay, if_pos hcol]

/-- Scrolling.  The scan lines below the text rows are black before and after it. -/
theorem pixels_scrollDown (hp : Pixels S glyphs s g.cells) :
    ∃ s', Impl.scrollDown S s = some s' ∧
      Pixels S glyphs s' (scroll (Impl.getHeight S) g).cells ∧
      s'.cursorPos = s.cursorPos ∧ s'.currentColor = s.currentColor := by
  have hpos : 0 < S.size.x := by have := S.width_le; omega
  have hheight := S.height_le
  have harea : S.size.x * (S.size.y - 16) + S.size.x * 16 = S.size.x * S.size.y := by
    rw [← Nat.mul_add]
    congr 1
    omega
  unfold Impl.scrollDown
  simp only [fontSize]
  rw [moveLoop_eq (by omega), Option.bind_eq_bind, Option.bind_some, clearLoop_eq (by omega)]
  refine ⟨_, rfl, ⟨hp.isInitialized, hp.vesaInitialized, hp.last, ?_, ?_⟩, rfl, rfl⟩
  · intro i hi
    simp only
    by_cases hmoved : i < S.size.x * (S.size.y - 16)
    · rw [if_neg (by omega), if_pos (by omega), hp.buffer _ (by omega)]
      by_cases hrow : i / S.size.x / 16 + 1 < Impl.getHeight S
      · rw [render_scroll hrow]
      · have hold : render S glyphs g.cells (i + S.size.x * 16) = {} := by
          apply render_black (Or.inr _)
          rw [Raster.add_rows_div hpos]
          omega
        have hnew : render S glyphs (scroll (Impl.getHeight S) g).cells i = {} := by
          apply render_black (Or.inl _)
          simp only [scroll, if_neg hrow]
        rw [hold, hnew]
    · -- the scan lines that are cleared begin in the last text row or below it
      have hline : S.size.y - 16 ≤ i / S.size.x := by
        apply (Nat.le_div_iff_mul_le hpos).mpr
        rw [Nat.mul_comm]
        omega
      rw [if_pos (by omega)]
      refine (render_black (Or.inl ?_)).symm
      have hrow : ¬ i / S.size.x / 16 + 1 < Impl.getHeight S := by
        unfold Impl.getHeight
        simp only [fontSize]
        omega
      simp only [scroll, if_neg hrow]
  · intro i hi _
    simp only
    split
    · rfl
    · rename_i hnot
      rw [if_pos (by omega), if_pos (by omega)]

/-- Clearing, whatever the pixels were. -/
theorem pixels_clearScreen (glyphs : Glyphs) (hi : s.isInitialized = true)
    (hv : s.vesaInitialized = true) (hlast : OnGrid S s.lastCursorTextPos) :
    ∃ s', Impl.clearScreen S s = some s' ∧ Pixels S glyphs s' (clear : Grid Glyph).cells ∧
      s'.currentColor = s.currentColor := by
  unfold Impl.clearScreen
  rw [clearLoop_eq (by omega)]
  refine ⟨_, rfl, ⟨hi, hv, hlast, ?_, ?_⟩, rfl⟩
  · intro i hi
    simp only
    rw [if_pos (by omega), render_black (Or.inl rfl)]
  · intro i hi _
    simp only
    rw [if_pos (by omega), if_pos (by omega)]

/-! ## The functions of `terminal.cpp` -/

/-- The cursor is placed and drawn. -/
theorem showCursor (hp : Pixels S glyphs s g.cells) (hpos : OnGrid S ⟨g.col, g.row⟩) :
    ∃ s', Impl.setCursorAt S { s with cursorPos := ⟨g.col, g.row⟩ } ⟨g.col, g.row⟩ = some s' ∧
      Refines S glyphs s' ⟨g, s.currentColor.foreground⟩ ∧ CursorShown S s' := by
  obtain ⟨s', hs', hp', hlast, hcursor, hcolor, hshown⟩ :=
    pixels_setCursorAt (hp.withCursor ⟨g.col, g.row⟩) hpos
  refine ⟨s', hs', ⟨hp', ⟨hpos.x, hpos.y⟩, hcursor, ?_⟩, hlast.trans hcursor.symm, ?_⟩
  · rw [hcolor]
  · rw [hcursor]
    exact hshown

theorem refines_moveCursor (h : Refines S glyphs s t) (hpos : OnGrid S pos) :
    ∃ s', moveCursor S s pos = some s' ∧
      Refines S glyphs s' { t with grid := move t.grid pos.x pos.y } ∧ CursorShown S s' := by
  have hcolor := h.color
  obtain ⟨s', hs', hr, hshown⟩ := showCursor (g := move t.grid pos.x pos.y) h.pixels hpos
  rw [hcolor] at hr
  refine ⟨s', ?_, hr, hshown⟩
  unfold moveCursor
  rw [if_neg (by simp [h.pixels.isInitialized])]
  exact hs'

/-- `next_line` from any column. -/
theorem refines_nextLine (hp : Pixels S glyphs s g.cells) (hy : s.cursorPos.y = g.row)
    (hrow : g.row < Impl.getHeight S) :
    ∃ s', nextLine S s = some s' ∧
      Refines S glyphs s' ⟨newline (Impl.getHeight S) g, s.currentColor.foreground⟩ ∧
      CursorShown S s' := by
  have hw := getWidth_pos S
  have hlt := getHeight_lt S
  have hsucc : u32 (g.row + 1) = g.row + 1 := u32_of_lt (by omega)
  unfold nextLine
  rw [if_neg (by simp [hp.isInitialized])]
  simp only [hy, hsucc]
  unfold newline
  by_cases hlast : g.row + 1 = Impl.getHeight S
  · -- the cursor leaves the grid, and scrolling brings it back
    obtain ⟨s₁, hs₁, hp', hcursor, hcolor⟩ := pixels_scrollDown (hp.withCursor ⟨0, g.row + 1⟩)
    have hback : u32 (g.row + 1 + 4294967295) = g.row := by
      unfold u32
      omega
    obtain ⟨s', hs', hr, hshown⟩ := showCursor (g := move (scroll (Impl.getHeight S) g) 0 g.row) hp'
      ⟨hw, hrow⟩
    rw [hcolor] at hr
    rw [if_pos hlast, if_pos hlast]
    refine ⟨s', ?_, hr, hshown⟩
    unfold scrollDown
    rw [if_neg (by simp [hp.isInitialized]), hs₁]
    simp only [Option.bind_eq_bind, Option.bind_some, Option.pure_def, hcursor, hback]
    exact hs'
  · obtain ⟨s', hs', hr, hshown⟩ := showCursor (g := move g 0 (g.row + 1)) hp
      ⟨hw, by simp only [move]; omega⟩
    rw [if_neg hlast, if_neg hlast]
    exact ⟨s', hs', hr, hshown⟩

theorem textPut_eq (S : Screen) (g : Grid Glyph) (color : TermColor) (ch : UInt8) :
    textPut S ⟨g, color⟩ ch =
      ⟨if Impl.getWidth S ≤ g.col + 1 then
          newline (Impl.getHeight S) (typeAt g (ch, color) g.col g.row)
        else move (typeAt g (ch, color) g.col g.row) (g.col + 1) g.row, color⟩ := rfl

theorem refines_putChar (h : Refines S glyphs s t) (ch : UInt8) :
    ∃ s', putChar S glyphs s ch = some s' ∧ Refines S glyphs s' (textPut S t ch) ∧
      CursorShown S s' := by
  obtain ⟨g, color⟩ := t
  have hcolor := h.color
  have hcursor := h.cursor
  have hin := h.inRange
  have hlt := getWidth_lt S
  simp only at hcolor hcursor hin
  have hpos : OnGrid S s.cursorPos := by
    rw [hcursor]
    exact ⟨hin.col, hin.row⟩
  obtain ⟨s₁, hs₁, hp₁, hcursor₁, hcolor₁⟩ := pixels_putCharAt (g := g) h.pixels hpos ch
  rw [hcursor] at hp₁ hcursor₁
  rw [hcolor] at hp₁
  have hsucc : u32 (g.col + 1) = g.col + 1 := u32_of_lt (by have := hin.col; omega)
  unfold putChar
  rw [if_neg (by simp [h.pixels.isInitialized]), hs₁]
  simp only [Option.bind_eq_bind, Option.bind_some, hcursor₁, hsucc]
  rw [textPut_eq]
  by_cases hwrap : Impl.getWidth S ≤ g.col + 1
  · obtain ⟨s₂, hs₂, hr₂, -⟩ := refines_nextLine (g := typeAt g (ch, color) g.col g.row)
      (hp₁.withCursor ⟨g.col + 1, g.row⟩) rfl hin.row
    obtain ⟨s₃, hs₃, hr₃, hshown⟩ := showCursor hr₂.pixels ⟨hr₂.inRange.col, hr₂.inRange.row⟩
    rw [← hr₂.cursor] at hs₃
    rw [hcolor₁, hcolor] at hr₂
    rw [hr₂.color] at hr₃
    rw [if_pos hwrap, if_pos hwrap, hs₂]
    exact ⟨s₃, hs₃, hr₃, hshown⟩
  · obtain ⟨s₂, hs₂, hr₂, hshown⟩ := showCursor
      (g := move (typeAt g (ch, color) g.col g.row) (g.col + 1) g.row) hp₁
      ⟨by simp only [move]; omega, hin.row⟩
    rw [hcolor₁, hcolor] at hr₂
    rw [if_neg hwrap, if_neg hwrap]
    exact ⟨s₂, hs₂, hr₂, hshown⟩

theorem refines_print (h : Refines S glyphs s t) (chars : List UInt8) :
    ∃ s', chars.foldlM (putChar S glyphs) s = some s' ∧
      Refines S glyphs s' (chars.foldl (textPut S) t) := by
  induction chars generalizing s t with
  | nil => exact ⟨s, rfl, h⟩
  | cons ch chars ih =>
    obtain ⟨s₁, hs₁, hr₁, -⟩ := refines_putChar h ch
    obtain ⟨s₂, hs₂, hr₂⟩ := ih hr₁
    refine ⟨s₂, ?_, hr₂⟩
    rw [List.foldlM_cons, hs₁]
    exact hs₂

/-- `clear_screen`, from any pixels. -/
theorem refines_clearScreen (glyphs : Glyphs) (hi : s.isInitialized = true)
    (hv : s.vesaInitialized = true) (hlast : OnGrid S s.lastCursorTextPos) :
    ∃ s', clearScreen S s = some s' ∧
      Refines S glyphs s' ⟨clear, s.currentColor.foreground⟩ ∧ CursorShown S s' := by
  obtain ⟨s₁, hs₁, hp, hcolor⟩ := pixels_clearScreen glyphs hi hv hlast
  obtain ⟨s', hs', hr, hshown⟩ := showCursor (g := clear) hp ⟨getWidth_pos S, getHeight_pos S⟩
  rw [hcolor] at hr
  refine ⟨s', ?_, hr, hshown⟩
  unfold clearScreen moveCursor
  rw [if_neg (by simp [hi]), hs₁]
  simp only [Option.bind_eq_bind, Option.bind_some]
  rw [if_neg (by simp [hp.isInitialized])]
  exact hs'

/-! ## Steps and runs -/

/-- The operations that end in `set_cursor_at`. -/
def Op.SetsCursor : Op → Prop
  | .putChar _ | .nextLine | .moveCursor _ | .clearScreen => True
  | _ => False

/-- **Step rule**: an operation with positions in range does to the pixels what it does to the
    text, and one that ends in `set_cursor_at` leaves the cursor shown. -/
theorem step_refines (h : Refines S glyphs s t) {op : Op} (hop : op.InRange S) :
    ∃ s', step S glyphs s op = some s' ∧ Refines S glyphs s' (textStep S t op) ∧
      (op.SetsCursor → CursorShown S s') := by
  cases op with
  | putChar ch =>
    obtain ⟨s', hs', hr, hshown⟩ := refines_putChar h ch
    exact ⟨s', hs', hr, fun _ => hshown⟩
  | print fmt =>
    obtain ⟨s', hs', hr⟩ := refines_print h (fmt.takeWhile (· ≠ 0))
    exact ⟨s', hs', hr, False.elim⟩
  | nextLine =>
    obtain ⟨s', hs', hr, hshown⟩ := refines_nextLine h.pixels (by rw [h.cursor]) h.inRange.row
    rw [h.color] at hr
    exact ⟨s', hs', hr, fun _ => hshown⟩
  | setForegroundColor color =>
    obtain ⟨hp, hin, hcursor, -⟩ := h
    exact ⟨_, rfl, ⟨⟨hp.isInitialized, hp.vesaInitialized, hp.last, hp.buffer, hp.display⟩, hin,
      hcursor, rfl⟩, False.elim⟩
  | setBackgroundColor color =>
    obtain ⟨hp, hin, hcursor, hcolor⟩ := h
    exact ⟨_, rfl, ⟨⟨hp.isInitialized, hp.vesaInitialized, hp.last, hp.buffer, hp.display⟩, hin,
      hcursor, hcolor⟩, False.elim⟩
  | clearScreen =>
    obtain ⟨s', hs', hr, hshown⟩ := refines_clearScreen glyphs h.pixels.isInitialized
      h.pixels.vesaInitialized h.pixels.last
    rw [h.color] at hr
    exact ⟨s', hs', hr, fun _ => hshown⟩
  | putCharAt ch pos =>
    obtain ⟨s', hs', hp, hcursor, hcolor⟩ := pixels_putCharAt h.pixels ⟨hop.1, hop.2⟩ ch
    rw [h.color] at hp
    exact ⟨s', hs', ⟨hp, ⟨h.inRange.col, h.inRange.row⟩, hcursor.trans h.cursor,
      by rw [hcolor]; exact h.color⟩, False.elim⟩
  | moveCursor pos =>
    have hpos : OnGrid S pos := ⟨hop.1, hop.2⟩
    obtain ⟨s', hs', hr, hshown⟩ := refines_moveCursor h hpos
    exact ⟨s', hs', hr, fun _ => hshown⟩

/-- The text after some operations, from the cleared screen. -/
def textRun (S : Screen) (ops : List Op) : TextState :=
  ops.foldl (textStep S) ⟨clear, .white⟩

theorem booted_clearScreen (S : Screen) (glyphs : Glyphs) (display bufferedScreen : ℕ → Color) :
    ∃ s, step S glyphs (booted display bufferedScreen) .clearScreen = some s ∧
      Refines S glyphs s ⟨clear, .white⟩ ∧ CursorShown S s :=
  refines_clearScreen glyphs rfl rfl ⟨getWidth_pos S, getHeight_pos S⟩

theorem run_refines {ops : List Op} (h : Refines S glyphs s t) (hops : ∀ op ∈ ops, op.InRange S) :
    ∃ s', run (step S glyphs) s ops = some s' ∧ Refines S glyphs s' (ops.foldl (textStep S) t) :=
  run_forward (R := Refines S glyphs) (fun s t op h hop => by
    obtain ⟨s', hs', hr, -⟩ := step_refines h hop
    exact ⟨s', hs', hr⟩) h hops

/-- **The screen shows the text**: after `clear_screen` and any operations with positions in range,
    no access was outside the buffer, the cursor is on the grid where the text has it, and the
    buffer is the picture of the text. -/
theorem screen_shows_text (S : Screen) (glyphs : Glyphs) (display bufferedScreen : ℕ → Color)
    (ops : List Op) (hops : ∀ op ∈ ops, op.InRange S) :
    ∃ s, run (step S glyphs) (booted display bufferedScreen) (.clearScreen :: ops) = some s ∧
      OnGrid S s.cursorPos ∧
      s.cursorPos = ⟨(textRun S ops).grid.col, (textRun S ops).grid.row⟩ ∧
      ∀ i, i < S.size.x * S.size.y →
        s.bufferedScreen i = render S glyphs (textRun S ops).grid.cells i := by
  obtain ⟨s₀, hs₀, hr₀, -⟩ := booted_clearScreen S glyphs display bufferedScreen
  obtain ⟨s, hs, hr⟩ := run_refines hr₀ hops
  refine ⟨s, run_cons_some.mpr ⟨s₀, hs₀, hs⟩, ?_, hr.cursor, hr.pixels.buffer⟩
  rw [hr.cursor]
  exact ⟨hr.inRange.col, hr.inRange.row⟩

/-- Three characters, a fourth put over the second one, and a scroll, on a screen of two columns and
    two rows with margins. -/
theorem screen_shows_text_example :
    ∃ s, run (step ⟨⟨20, 40⟩, by decide, by decide, by decide⟩ fun _ _ => 255)
        (booted (fun _ => {}) fun _ => {})
        [.clearScreen, .print [65, 66, 67], .putCharAt 68 ⟨1, 0⟩, .nextLine] = some s ∧
      s.cursorPos = ⟨0, 1⟩ := by
  obtain ⟨s, hs, -, hcursor, -⟩ := screen_shows_text ⟨⟨20, 40⟩, by simp, by simp, by simp⟩
    (fun _ _ => 255) (fun _ => {}) (fun _ => {})
    [.print [65, 66, 67], .putCharAt 68 ⟨1, 0⟩, .nextLine]
    (by simp [Op.InRange, Impl.getWidth, Impl.getHeight, fontSize])
  exact ⟨s, hs, hcursor.trans (by decide)⟩

/-- **Display and buffer agree up to one cursor**: after `clear_screen` and any operations with
    positions in range, the display is the buffer outside the column of the last cursor position,
    and after an operation that ends in `set_cursor_at` that column shows the cursor at the current
    position. -/
theorem display_agrees (S : Screen) (glyphs : Glyphs) (display bufferedScreen : ℕ → Color)
    (ops : List Op) (hops : ∀ op ∈ ops, op.InRange S) :
    ∃ s, run (step S glyphs) (booted display bufferedScreen) (.clearScreen :: ops) = some s ∧
      DisplayAgrees S s ∧
      ∀ op, (Op.clearScreen :: ops).getLast? = some op → op.SetsCursor → CursorShown S s := by
  obtain ⟨s₀, hs₀, hr₀, hshown₀⟩ := booted_clearScreen S glyphs display bufferedScreen
  rcases List.eq_nil_or_concat ops with rfl | ⟨front, last, rfl⟩
  · exact ⟨s₀, run_cons_some.mpr ⟨s₀, hs₀, rfl⟩, hr₀.pixels.display, fun _ _ _ => hshown₀⟩
  · rw [List.concat_eq_append] at hops ⊢
    obtain ⟨s₁, hs₁, hr₁⟩ := run_refines hr₀ fun op hop =>
      hops op (List.mem_append_left _ hop)
    obtain ⟨s, hs, hr, hshown⟩ := step_refines hr₁ (hops last (by simp))
    have hrun : run (step S glyphs) s₀ (front ++ [last]) = some s := by
      rw [run_append, hs₁]
      exact run_cons_some.mpr ⟨s, hs, rfl⟩
    refine ⟨s, run_cons_some.mpr ⟨s₀, hs₀, hrun⟩, hr.pixels.display, ?_⟩
    intro op hop hset
    rw [← List.cons_append, List.getLast?_concat] at hop
    cases hop
    exact hshown hset

/-- The same operations leave the cursor shown. -/
theorem display_agrees_example :
    ∃ s, run (step ⟨⟨20, 40⟩, by decide, by decide, by decide⟩ fun _ _ => 255)
        (booted (fun _ => {}) fun _ => {})
        [.clearScreen, .print [65, 66, 67], .putCharAt 68 ⟨1, 0⟩, .nextLine] = some s ∧
      CursorShown ⟨⟨20, 40⟩, by decide, by decide, by decide⟩ s := by
  obtain ⟨s, hs, -, hshown⟩ := display_agrees ⟨⟨20, 40⟩, by simp, by simp, by simp⟩
    (fun _ _ => 255) (fun _ => {}) (fun _ => {})
    [.print [65, 66, 67], .putCharAt 68 ⟨1, 0⟩, .nextLine]
    (by simp [Op.InRange, Impl.getWidth, Impl.getHeight, fontSize])
  exact ⟨s, hs, hshown .nextLine rfl trivial⟩

end HryOS.Terminal
