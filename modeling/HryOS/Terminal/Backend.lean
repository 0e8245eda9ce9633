import HryOS.Lib.TextGrid
import HryOS.Terminal.Terminal

/-!
# Implementations of the terminal

`terminal.cpp` against the functions of `impl.hpp` alone: which implementation is built in is
decided by `config.hpp`.

* `Backend` — the functions of `impl.hpp`; `TerminalStatics` and `backendStep` — the terminal over
  them.
* `ColorText`, `colorStep` — the text terminal, each character with both of its colors.
* `Backend.Correct` — what an implementation has to do to a grid of cells.
* `backend_run_refines` — over a correct implementation, every run is the run of the text terminal.
-/

set_option autoImplicit false

namespace HryOS.Terminal

open ByteMemory Transition TextGrid

/-- The functions of `impl.hpp`, over the statics of an implementation. -/
structure Backend (σ : Type) where
  clearScreen : σ → Option σ
  putCharAt : σ → UInt8 → Vec2u → CombinedColor → Option σ
  getWidth : ℕ
  getHeight : ℕ
  setCursorAt : σ → Vec2u → Option σ
  scrollDown : σ → Option σ

/-- The statics of `terminal.cpp`, and those of the implementation. -/
structure TerminalStatics (σ : Type) where
  isInitialized : Bool
  cursorPos : Vec2u
  currentColor : CombinedColor
  impl : σ
  deriving Repr

variable {σ : Type} (B : Backend σ)

namespace TerminalStatics

/-- `scroll_down`. -/
def scrollDown (s : TerminalStatics σ) : Option (TerminalStatics σ) :=
  if !s.isInitialized then some s
  else do
    let impl ← B.scrollDown s.impl
    return { s with impl, cursorPos := ⟨s.cursorPos.x, u32 (s.cursorPos.y + 4294967295)⟩ }

/-- `impl::set_cursor_at(cursor_pos)`. -/
def setCursorAt (s : TerminalStatics σ) : Option (TerminalStatics σ) := do
  let impl ← B.setCursorAt s.impl s.cursorPos
  return { s with impl }

/-- `next_line`. -/
def nextLine (s : TerminalStatics σ) : Option (TerminalStatics σ) :=
  if !s.isInitialized then some s
  else do
    let s := { s with cursorPos := ⟨0, u32 (s.cursorPos.y + 1)⟩ }
    let s ← if s.cursorPos.y = B.getHeight then scrollDown B s else some s
    setCursorAt B s

/-- `put_char_at`. -/
def putCharAt (s : TerminalStatics σ) (ch : UInt8) (pos : Vec2u) : Option (TerminalStatics σ) :=
  if !s.isInitialized then some s
  else do
    let impl ← B.putCharAt s.impl ch pos s.currentColor
    return { s with impl }

/-- `put_char`. -/
def putChar (s : TerminalStatics σ) (ch : UInt8) : Option (TerminalStatics σ) :=
  if !s.isInitialized then some s
  else do
    let s ← putCharAt B s ch s.cursorPos
    let s := { s with cursorPos := ⟨u32 (s.cursorPos.x + 1), s.cursorPos.y⟩ }
    let s ← if s.cursorPos.x ≥ B.getWidth then nextLine B s else some s
    setCursorAt B s

/-- `move_cursor`. -/
def moveCursor (s : TerminalStatics σ) (pos : Vec2u) : Option (TerminalStatics σ) :=
  if !s.isInitialized then some s else setCursorAt B { s with cursorPos := pos }

/-- `clear_screen`. -/
def clearScreen (s : TerminalStatics σ) : Option (TerminalStatics σ) :=
  if !s.isInitialized then some s
  else do
    let impl ← B.clearScreen s.impl
    moveCursor B { s with impl } ⟨0, 0⟩

/-- `print` of a string without arguments. -/
def print (s : TerminalStatics σ) (fmt : List UInt8) : Option (TerminalStatics σ) :=
  (fmt.takeWhile (· ≠ 0)).foldlM (putChar B) s

/-- After `terminal::init`. -/
def booted (impl : σ) : TerminalStatics σ :=
  { isInitialized := true, cursorPos := ⟨0, 0⟩,
    currentColor := { foreground := .white, background := .black }, impl }

end TerminalStatics

/-- One operation. -/
def backendStep : Step (TerminalStatics σ) Op
  | s, .putChar ch => s.putChar B ch
  | s, .print fmt => s.print B fmt
  | s, .nextLine => s.nextLine B
  | s, .setForegroundColor color =>
    some { s with currentColor := { s.currentColor with foreground := color } }
  | s, .setBackgroundColor color =>
    some { s with currentColor := { s.currentColor with background := color } }
  | s, .clearScreen => s.clearScreen B
  | s, .putCharAt ch pos => s.putCharAt B ch pos
  | s, .moveCursor pos => s.moveCursor B pos

/-! ## The text terminal -/

/-- A character and the colors it was put in. -/
abbrev ColorGlyph := UInt8 × CombinedColor

/-- The text and the current colors. -/
structure ColorText where
  grid : Grid ColorGlyph
  color : CombinedColor

namespace ColorText

/-- `put_char`. -/
def put (w h : ℕ) (t : ColorText) (ch : UInt8) : ColorText :=
  { t with grid := type w h t.grid (ch, t.color) }

/-- The text `terminal::clear_screen` leaves after `terminal::init`. -/
def cleared : ColorText := ⟨clear, ⟨.white, .black⟩⟩

end ColorText

/-- The operations on text. -/
def colorStep (w h : ℕ) (t : ColorText) : Op → ColorText
  | .putChar ch => t.put w h ch
  | .print fmt => (fmt.takeWhile (· ≠ 0)).foldl (ColorText.put w h) t
  | .nextLine => { t with grid := newline h t.grid }
  | .setForegroundColor color => { t with color := { t.color with foreground := color } }
  | .setBackgroundColor color => { t with color := { t.color with background := color } }
  | .clearScreen => { t with grid := clear }
  | .putCharAt ch pos => { t with grid := typeAt t.grid (ch, t.color) pos.x pos.y }
  | .moveCursor pos => { t with grid := move t.grid pos.x pos.y }

/-- A position given to `put_char_at` or `move_cursor` is on a grid of `w` columns, `h` rows. -/
def Op.Within (w h : ℕ) : Op → Prop
  | .putCharAt _ pos | .moveCursor pos => pos.x < w ∧ pos.y < h
  | _ => True

/-! ## Correct implementations -/

/-- What `terminal.cpp` relies on: `Ready` implementations can be cleared, `Shows` is the relation
    to the cells and `CursorAt` to the cell of the cursor. -/
structure Backend.Correct (Ready : σ → Prop) (Shows : σ → (ℕ → ℕ → Option ColorGlyph) → Prop)
    (CursorAt : σ → Vec2u → Prop) : Prop where
  width_pos : 0 < B.getWidth
  height_pos : 0 < B.getHeight
  width_lt : B.getWidth < 4294967296
  height_lt : B.getHeight < 4294967296
  ready : ∀ {s cells}, Shows s cells → Ready s
  clearScreen : ∀ {s}, Ready s →
    ∃ s', B.clearScreen s = some s' ∧ Shows s' (clear : Grid ColorGlyph).cells
  putCharAt : ∀ {s} {g : Grid ColorGlyph} (ch color pos), Shows s g.cells →
    pos.x < B.getWidth → pos.y < B.getHeight →
    ∃ s', B.putCharAt s ch pos color = some s' ∧
      Shows s' (typeAt g (ch, color) pos.x pos.y).cells ∧
      ∀ cursor, CursorAt s cursor → CursorAt s' cursor
  setCursorAt : ∀ {s cells} (pos), Shows s cells → pos.x < B.getWidth → pos.y < B.getHeight →
    ∃ s', B.setCursorAt s pos = some s' ∧ Shows s' cells ∧ CursorAt s' pos
  scrollDown : ∀ {s} {g : Grid ColorGlyph}, Shows s g.cells →
    ∃ s', B.scrollDown s = some s' ∧ Shows s' (scroll B.getHeight g).cells

variable {B} {Ready : σ → Prop} {Shows : σ → (ℕ → ℕ → Option ColorGlyph) → Prop}
  {CursorAt : σ → Vec2u → Prop}

/-- The terminal shows the text, its cursor and its colors. -/
structure ShowsText (B : Backend σ) (Shows : σ → (ℕ → ℕ → Option ColorGlyph) → Prop)
    (CursorAt : σ → Vec2u → Prop) (s : TerminalStatics σ) (t : ColorText) : Prop where
  isInitialized : s.isInitialized = true
  cells : Shows s.impl t.grid.cells
  inRange : InRange B.getWidth B.getHeight t.grid
  cursor : s.cursorPos = ⟨t.grid.col, t.grid.row⟩
  color : s.currentColor = t.color
  shown : CursorAt s.impl s.cursorPos

section Functions

variable {s : TerminalStatics σ} {t : ColorText} {g : Grid ColorGlyph}

/-- `set_cursor_at` after the cursor is placed. -/
theorem showsText_setCursorAt (hB : B.Correct Ready Shows CursorAt) (hi : s.isInitialized = true)
    (hs : Shows s.impl g.cells) (hin : InRange B.getWidth B.getHeight g)
    (hcursor : s.cursorPos = ⟨g.col, g.row⟩) :
    ∃ s', s.setCursorAt B = some s' ∧ ShowsText B Shows CursorAt s' ⟨g, s.currentColor⟩ := by
  obtain ⟨impl, himpl, hshows, hat⟩ := hB.setCursorAt s.cursorPos hs
    (by rw [hcursor]; exact hin.col) (by rw [hcursor]; exact hin.row)
  refine ⟨{ s with impl }, ?_, ⟨hi, hshows, hin, hcursor, rfl, hat⟩⟩
  unfold TerminalStatics.setCursorAt
  rw [himpl]
  rfl

theorem showsText_moveCursor (hB : B.Correct Ready Shows CursorAt) (hi : s.isInitialized = true)
    (hs : Shows s.impl g.cells) (pos : Vec2u) (hx : pos.x < B.getWidth) (hy : pos.y < B.getHeight) :
    ∃ s', s.moveCursor B pos = some s' ∧
      ShowsText B Shows CursorAt s' ⟨move g pos.x pos.y, s.currentColor⟩ := by
  obtain ⟨s', hs', hr⟩ := showsText_setCursorAt (s := { s with cursorPos := pos })
    (g := move g pos.x pos.y) hB hi hs ⟨hx, hy⟩ rfl
  refine ⟨s', ?_, hr⟩
  unfold TerminalStatics.moveCursor
  rw [if_neg (by simp [hi])]
  exact hs'

/-- `next_line` from any column. -/
theorem showsText_nextLine (hB : B.Correct Ready Shows CursorAt) (hi : s.isInitialized = true)
    (hs : Shows s.impl g.cells) (hy : s.cursorPos.y = g.row) (hrow : g.row < B.getHeight) :
    ∃ s', s.nextLine B = some s' ∧
      ShowsText B Shows CursorAt s' ⟨newline B.getHeight g, s.currentColor⟩ := by
  have hlt := hB.height_lt
  have hsucc : u32 (g.row + 1) = g.row + 1 := u32_of_lt (by omega)
  unfold TerminalStatics.nextLine newline
  rw [if_neg (by simp [hi])]
  simp only [hy, hsucc]
  by_cases hlast : g.row + 1 = B.getHeight
  · -- the cursor leaves the grid, and scrolling brings it back
    obtain ⟨impl, himpl, hshows⟩ := hB.scrollDown hs
    have hback : u32 (g.row + 1 + 4294967295) = g.row := by
      unfold u32
      omega
    rw [if_pos hlast, if_pos hlast]
    unfold TerminalStatics.scrollDown
    rw [if_neg (by simp [hi])]
    simp only [himpl, Option.bind_eq_bind, Option.bind_some, Option.pure_def, hback]
    exact showsText_setCursorAt (s := { s with impl, cursorPos := ⟨0, g.row⟩ })
      (g := move (scroll B.getHeight g) 0 g.row) hB hi hshows ⟨hB.width_pos, hrow⟩ rfl
  · rw [if_neg hlast, if_neg hlast]
    exact showsText_setCursorAt (s := { s with cursorPos := ⟨0, g.row + 1⟩ })
      (g := move g 0 (g.row + 1)) hB hi hs ⟨hB.width_pos, by simp only [move]; omega⟩ rfl

/-- `put_char_at` leaves the cursor where it is. -/
theorem showsText_putCharAt (hB : B.Correct Ready Shows CursorAt)
    (h : ShowsText B Shows CursorAt s t) (ch : UInt8) (pos : Vec2u)
    (hx : pos.x < B.getWidth) (hy : pos.y < B.getHeight) :
    ∃ s', s.putCharAt B ch pos = some s' ∧
      ShowsText B Shows CursorAt s' { t with grid := typeAt t.grid (ch, t.color) pos.x pos.y } := by
  obtain ⟨impl, himpl, hshows, hat⟩ := hB.putCharAt ch s.currentColor pos h.cells hx hy
  rw [h.color] at hshows
  refine ⟨{ s with impl }, ?_, ⟨h.isInitialized, hshows, ⟨h.inRange.col, h.inRange.row⟩, h.cursor,
    h.color, hat _ h.shown⟩⟩
  unfold TerminalStatics.putCharAt
  rw [if_neg (by simp [h.isInitialized]), himpl]
  rfl

theorem showsText_putChar (hB : B.Correct Ready Shows CursorAt)
    (h : ShowsText B Shows CursorAt s t) (ch : UInt8) :
    ∃ s', s.putChar B ch = some s' ∧
      ShowsText B Shows CursorAt s' (t.put B.getWidth B.getHeight ch) := by
  have hin := h.inRange
  have hlt := hB.width_lt
  obtain ⟨s₁, hs₁, h₁⟩ := showsText_putCharAt hB h ch s.cursorPos
    (by rw [h.cursor]; exact hin.col) (by rw [h.cursor]; exact hin.row)
  rw [h.cursor] at h₁ hs₁
  have hcursor : s₁.cursorPos = ⟨t.grid.col, t.grid.row⟩ := h₁.cursor
  have hcolor : s₁.currentColor = t.color := h₁.color
  have hsucc : u32 (t.grid.col + 1) = t.grid.col + 1 := u32_of_lt (by have := hin.col; omega)
  unfold TerminalStatics.putChar ColorText.put type advance
  rw [if_neg (by simp [h.isInitialized]), h.cursor, hs₁]
  simp only [Option.bind_eq_bind, Option.bind_some, hcursor, hsucc]
  by_cases hwrap : B.getWidth ≤ t.grid.col + 1
  · obtain ⟨s₂, hs₂, h₂⟩ := showsText_nextLine
      (s := { s₁ with cursorPos := ⟨t.grid.col + 1, t.grid.row⟩ })
      (g := typeAt t.grid (ch, t.color) t.grid.col t.grid.row) hB h₁.isInitialized h₁.cells rfl
      hin.row
    obtain ⟨s₃, hs₃, h₃⟩ := showsText_setCursorAt hB h₂.isInitialized h₂.cells h₂.inRange h₂.cursor
    rw [h₂.color] at h₃
    simp only [hcolor] at h₃
    rw [if_pos hwrap, hs₂, if_pos (show B.getWidth ≤
      (typeAt t.grid (ch, t.color) t.grid.col t.grid.row).col + 1 from hwrap)]
    exact ⟨s₃, hs₃, h₃⟩
  · obtain ⟨s₂, hs₂, h₂⟩ := showsText_setCursorAt
      (s := { s₁ with cursorPos := ⟨t.grid.col + 1, t.grid.row⟩ })
      (g := move (typeAt t.grid (ch, t.color) t.grid.col t.grid.row) (t.grid.col + 1) t.grid.row)
      hB h₁.isInitialized h₁.cells ⟨by simp only [move]; omega, hin.row⟩ rfl
    simp only [hcolor] at h₂
    rw [if_neg hwrap, if_neg (show ¬B.getWidth ≤
      (typeAt t.grid (ch, t.color) t.grid.col t.grid.row).col + 1 from hwrap)]
    exact ⟨s₂, hs₂, h₂⟩

theorem showsText_print (hB : B.Correct Ready Shows CursorAt)
    (h : ShowsText B Shows CursorAt s t) (chars : List UInt8) :
    ∃ s', chars.foldlM (TerminalStatics.putChar B) s = some s' ∧
      ShowsText B Shows CursorAt s' (chars.foldl (ColorText.put B.getWidth B.getHeight) t) := by
  induction chars generalizing s t with
  | nil => exact ⟨s, rfl, h⟩
  | cons ch chars ih =>
    obtain ⟨s₁, hs₁, h₁⟩ := showsText_putChar hB h ch
    obtain ⟨s₂, hs₂, h₂⟩ := ih h₁
    refine ⟨s₂, ?_, h₂⟩
    rw [List.foldlM_cons, hs₁]
    exact hs₂

/-- `clear_screen`, from any contents. -/
theorem showsText_clearScreen (hB : B.Correct Ready Shows CursorAt) (hi : s.isInitialized = true)
    (hready : Ready s.impl) :
    ∃ s', s.clearScreen B = some s' ∧ ShowsText B Shows CursorAt s' ⟨clear, s.currentColor⟩ := by
  obtain ⟨impl, himpl, hshows⟩ := hB.clearScreen hready
  unfold TerminalStatics.clearScreen
  rw [if_neg (by simp [hi]), himpl]
  exact showsText_moveCursor (s := { s with impl }) (g := clear) hB hi hshows ⟨0, 0⟩
    hB.width_pos hB.height_pos

end Functions

/-! ## Steps and runs -/

/-- **Step rule**: an operation with positions on the grid does to what is shown what it does to
    the text. -/
theorem backendStep_refines (hB : B.Correct Ready Shows CursorAt) {s : TerminalStatics σ}
    {t : ColorText} (h : ShowsText B Shows CursorAt s t) {op : Op}
    (hop : op.Within B.getWidth B.getHeight) :
    ∃ s', backendStep B s op = some s' ∧
      ShowsText B Shows CursorAt s' (colorStep B.getWidth B.getHeight t op) := by
  have hcolor := h.color
  cases op with
  | putChar ch => exact showsText_putChar hB h ch
  | print fmt => exact showsText_print hB h (fmt.takeWhile (· ≠ 0))
  | nextLine =>
    obtain ⟨s', hs', h'⟩ := showsText_nextLine hB h.isInitialized h.cells (by rw [h.cursor])
      h.inRange.row
    rw [hcolor] at h'
    exact ⟨s', hs', h'⟩
  | setForegroundColor color =>
    refine ⟨_, rfl, ⟨h.isInitialized, h.cells, h.inRange, h.cursor, ?_, h.shown⟩⟩
    simp only [colorStep, hcolor]
  | setBackgroundColor color =>
    refine ⟨_, rfl, ⟨h.isInitialized, h.cells, h.inRange, h.cursor, ?_, h.shown⟩⟩
    simp only [colorStep, hcolor]
  | clearScreen =>
    obtain ⟨s', hs', h'⟩ := showsText_clearScreen hB h.isInitialized (hB.ready h.cells)
    rw [hcolor] at h'
    exact ⟨s', hs', h'⟩
  | putCharAt ch pos => exact showsText_putCharAt hB h ch pos hop.1 hop.2
  | moveCursor pos =>
    obtain ⟨s', hs', h'⟩ := showsText_moveCursor hB h.isInitialized h.cells pos hop.1 hop.2
    rw [hcolor] at h'
    exact ⟨s', hs', h'⟩

/-- **Run rule**: after `terminal::init` and `clear_screen`, any operations with positions on the
    grid show the text they make. -/
theorem backend_run_refines (hB : B.Correct Ready Shows CursorAt) (impl : σ) (hready : Ready impl)
    {ops : List Op} (hops : ∀ op ∈ ops, op.Within B.getWidth B.getHeight) :
    ∃ s, run (backendStep B) (.booted impl) (.clearScreen :: ops) = some s ∧
      ShowsText B Shows CursorAt s
        (ops.foldl (colorStep B.getWidth B.getHeight) ColorText.cleared) := by
  obtain ⟨s₀, hs₀, h₀⟩ := showsText_clearScreen (s := .booted impl) hB rfl hready
  have hstep : ∀ s t op, ShowsText B Shows CursorAt s t → op.Within B.getWidth B.getHeight →
      ∃ s', backendStep B s op = some s' ∧
        ShowsText B Shows CursorAt s' (colorStep B.getWidth B.getHeight t op) :=
    fun s t op h hop => backendStep_refines hB h hop
  obtain ⟨s, hs, h⟩ := run_forward hstep h₀ hops
  exact ⟨s, run_cons_some.mpr ⟨s₀, hs₀, hs⟩, h⟩

end HryOS.Terminal
