import HryOS.Terminal.Screen
import Mathlib.Tactic.Ring

/-!
# The cursor of the terminal

What the operations of `terminal.cpp` do to `cursor_pos`, with the number of times the screen
scrolled.  Drawing does not touch the cursor, so this holds of any operation that has a result, on
or off the grid.

* `Cursor.step` — the cursor after an operation.
* `step_cursor` — the terminal's cursor moves like that.
* `Cursor.index` — the number of a cell in reading order, the lines scrolled out included.
-/

set_option autoImplicit false

namespace HryOS.Terminal

open ByteMemory

/-- `cursor_pos`, and how often the screen scrolled. -/
structure Cursor where
  pos : Vec2u
  scrolls : ℕ
  deriving DecidableEq, Repr

variable (S : Screen)

namespace Cursor

/-- `next_line`. -/
def nextLine (c : Cursor) : Cursor :=
  let y := u32 (c.pos.y + 1)
  if y = Impl.getHeight S then ⟨⟨0, u32 (y + 4294967295)⟩, c.scrolls + 1⟩ else ⟨⟨0, y⟩, c.scrolls⟩

/-- `put_char`. -/
def putChar (c : Cursor) : Cursor :=
  let x := u32 (c.pos.x + 1)
  if x ≥ Impl.getWidth S then nextLine S ⟨⟨x, c.pos.y⟩, c.scrolls⟩ else ⟨⟨x, c.pos.y⟩, c.scrolls⟩

/-- `move_cursor`. -/
def moveCursor (c : Cursor) (pos : Vec2u) : Cursor := { c with pos }

/-- `print` of so many characters. -/
def putChars (c : Cursor) (txt : List UInt8) : Cursor := txt.foldl (fun c _ => putChar S c) c

/-- The operations. -/
def step (c : Cursor) : Op → Cursor
  | .putChar _ => putChar S c
  | .print fmt => putChars S c (fmt.takeWhile (· ≠ 0))
  | .nextLine => nextLine S c
  | .clearScreen => moveCursor c ⟨0, 0⟩
  | .moveCursor pos => moveCursor c pos
  | .setForegroundColor _ | .setBackgroundColor _ | .putCharAt .. => c

end Cursor

/-! ## Drawing keeps the cursor -/

/-- The statics of `terminal.cpp` but for the color. -/
structure SameCursor (s s' : State) : Prop where
  isInitialized : s'.isInitialized = s.isInitialized
  cursorPos : s'.cursorPos = s.cursorPos

variable {S} {glyphs : Glyphs} {s s' t : State} {pos : Vec2u}

theorem SameCursor.refl (s : State) : SameCursor s s := ⟨rfl, rfl⟩

theorem SameCursor.trans (h : SameCursor s t) (h' : SameCursor t s') : SameCursor s s' :=
  ⟨h'.isInitialized.trans h.isInitialized, h'.cursorPos.trans h.cursorPos⟩

theorem sameCursor_foldlM {α : Type} {f : State → α → Option State}
    (hf : ∀ s a s', f s a = some s' → SameCursor s s') {as : List α} :
    as.foldlM f s = some s' → SameCursor s s' := by
  induction as generalizing s with
  | nil =>
    intro h
    cases h
    exact .refl _
  | cons a as ih =>
    intro h
    rw [List.foldlM_cons] at h
    obtain ⟨t, ht, h⟩ := Option.bind_eq_some_iff.mp h
    exact (hf s a t ht).trans (ih h)

theorem sameCursor_vesaSetPixel (s : State) (pos : Vec2u) (color : Color) :
    SameCursor s (vesaSetPixel S s pos color) := by
  unfold vesaSetPixel
  split <;> exact ⟨rfl, rfl⟩

theorem sameCursor_drawCell {f : Vec2u → Option Color} :
    drawCell S s pos f = some s' → SameCursor s s' := by
  refine sameCursor_foldlM ?_
  intro s d s' h
  split at h
  · simp only [setPixel, Option.ite_none_right_eq_some] at h
    obtain ⟨-, h⟩ := h
    cases h
    exact ⟨(sameCursor_vesaSetPixel _ _ _).isInitialized, (sameCursor_vesaSetPixel _ _ _).cursorPos⟩
  · cases h
    exact .refl s

theorem sameCursor_putCharAt {ch : UInt8} {color : CombinedColor}
    (h : Impl.putCharAt S glyphs s ch pos color = some s') : SameCursor s s' := by
  obtain ⟨t, ht, h⟩ := Option.bind_eq_some_iff.mp h
  exact (sameCursor_drawCell ht).trans (sameCursor_drawCell h)

theorem sameCursor_drawColumn {f : Color → Color} :
    Impl.drawColumn S s pos f = some s' → SameCursor s s' := by
  refine sameCursor_foldlM ?_
  intro s y s' h
  obtain ⟨pixel, -, h⟩ := Option.bind_eq_some_iff.mp h
  cases h
  exact sameCursor_vesaSetPixel _ _ _

theorem sameCursor_setCursorAt (h : Impl.setCursorAt S s pos = some s') : SameCursor s s' := by
  obtain ⟨t, ht, h⟩ := Option.bind_eq_some_iff.mp h
  obtain ⟨u, hu, h⟩ := Option.bind_eq_some_iff.mp h
  cases h
  exact ((sameCursor_drawColumn ht).trans (sameCursor_drawColumn hu)).trans ⟨rfl, rfl⟩

theorem sameCursor_clearLoop {n i : ℕ} (h : Impl.clearLoop S n i s = some s') :
    SameCursor s s' := by
  induction n generalizing i s with
  | zero =>
    cases h
    exact .refl _
  | succ n ih =>
    unfold Impl.clearLoop at h
    split at h
    · have hrest := ih h
      exact ⟨hrest.isInitialized, hrest.cursorPos⟩
    · cases h

theorem sameCursor_moveLoop {k n i : ℕ} (h : Impl.moveLoop S k n i s = some s') :
    SameCursor s s' := by
  induction n generalizing i s with
  | zero =>
    cases h
    exact .refl _
  | succ n ih =>
    unfold Impl.moveLoop at h
    split at h
    · have hrest := ih h
      exact ⟨hrest.isInitialized, hrest.cursorPos⟩
    · cases h

theorem sameCursor_scrollDown (h : Impl.scrollDown S s = some s') : SameCursor s s' := by
  obtain ⟨t, ht, h⟩ := Option.bind_eq_some_iff.mp h
  exact (sameCursor_moveLoop ht).trans (sameCursor_clearLoop h)

/-! ## The operations move the cursor -/

/-- The terminal is initialized and its cursor is at `c`. -/
structure HasCursor (s : State) (c : Cursor) : Prop where
  isInitialized : s.isInitialized = true
  cursorPos : s.cursorPos = c.pos

variable {c : Cursor}

theorem SameCursor.hasCursor (h : SameCursor s s') (hc : HasCursor s c) : HasCursor s' c :=
  ⟨h.isInitialized.trans hc.isInitialized, h.cursorPos.trans hc.cursorPos⟩

theorem scrollDown_cursor (hc : HasCursor s c) (h : scrollDown S s = some s') :
    HasCursor s' ⟨⟨c.pos.x, u32 (c.pos.y + 4294967295)⟩, c.scrolls + 1⟩ := by
  unfold scrollDown at h
  rw [if_neg (by simp [hc.isInitialized])] at h
  obtain ⟨t, ht, h⟩ := Option.bind_eq_some_iff.mp h
  have hc' := (sameCursor_scrollDown ht).hasCursor hc
  cases h
  exact ⟨hc'.isInitialized, by simp only [hc'.cursorPos]⟩

theorem nextLine_cursor (hc : HasCursor s c) (h : nextLine S s = some s') :
    HasCursor s' (Cursor.nextLine S c) := by
  unfold nextLine at h
  rw [if_neg (by simp [hc.isInitialized])] at h
  have hdown : HasCursor { s with cursorPos := ⟨0, u32 (s.cursorPos.y + 1)⟩ }
      ⟨⟨0, u32 (c.pos.y + 1)⟩, c.scrolls⟩ := ⟨hc.isInitialized, by simp only [hc.cursorPos]⟩
  unfold Cursor.nextLine
  simp only [hc.cursorPos] at h hdown ⊢
  by_cases hlast : u32 (c.pos.y + 1) = Impl.getHeight S
  · rw [if_pos hlast] at h ⊢
    obtain ⟨t, ht, h⟩ := Option.bind_eq_some_iff.mp h
    exact (sameCursor_setCursorAt h).hasCursor (scrollDown_cursor hdown ht)
  · rw [if_neg hlast] at h ⊢
    exact (sameCursor_setCursorAt h).hasCursor hdown

theorem putChar_cursor (hc : HasCursor s c) {ch : UInt8} (h : putChar S glyphs s ch = some s') :
    HasCursor s' (Cursor.putChar S c) := by
  unfold putChar at h
  rw [if_neg (by simp [hc.isInitialized])] at h
  obtain ⟨t, ht, h⟩ := Option.bind_eq_some_iff.mp h
  unfold putCharAt at ht
  rw [if_neg (by simp [hc.isInitialized])] at ht
  have hc' := (sameCursor_putCharAt ht).hasCursor hc
  have hright : HasCursor { t with cursorPos := ⟨u32 (t.cursorPos.x + 1), t.cursorPos.y⟩ }
      ⟨⟨u32 (c.pos.x + 1), c.pos.y⟩, c.scrolls⟩ :=
    ⟨hc'.isInitialized, by simp only [hc'.cursorPos]⟩
  unfold Cursor.putChar
  simp only [hc'.cursorPos] at h hright ⊢
  by_cases hwrap : u32 (c.pos.x + 1) ≥ Impl.getWidth S
  · rw [if_pos hwrap] at h ⊢
    obtain ⟨u, hu, h⟩ := Option.bind_eq_some_iff.mp h
    exact (sameCursor_setCursorAt h).hasCursor (nextLine_cursor hright hu)
  · rw [if_neg hwrap] at h ⊢
    exact (sameCursor_setCursorAt h).hasCursor hright

theorem print_cursor (hc : HasCursor s c) {chars : List UInt8}
    (h : chars.foldlM (putChar S glyphs) s = some s') :
    HasCursor s' (Cursor.putChars S c chars) := by
  induction chars generalizing s c with
  | nil =>
    cases h
    exact hc
  | cons ch chars ih =>
    rw [List.foldlM_cons] at h
    obtain ⟨t, ht, h⟩ := Option.bind_eq_some_iff.mp h
    exact ih (putChar_cursor hc ht) h

theorem moveCursor_cursor (hc : HasCursor s c) (h : moveCursor S s pos = some s') :
    HasCursor s' (Cursor.moveCursor c pos) := by
  unfold moveCursor at h
  rw [if_neg (by simp [hc.isInitialized])] at h
  exact (sameCursor_setCursorAt h).hasCursor ⟨hc.isInitialized, rfl⟩

/-- **The terminal's cursor** after any operation that has a result. -/
theorem step_cursor (hc : HasCursor s c) {op : Op} (h : step S glyphs s op = some s') :
    HasCursor s' (Cursor.step S c op) := by
  cases op with
  | putChar ch => exact putChar_cursor hc h
  | print fmt => exact print_cursor hc h
  | nextLine => exact nextLine_cursor hc h
  | setForegroundColor color =>
    cases h
    exact ⟨hc.isInitialized, hc.cursorPos⟩
  | setBackgroundColor color =>
    cases h
    exact ⟨hc.isInitialized, hc.cursorPos⟩
  | clearScreen =>
    simp only [step, clearScreen] at h
    rw [if_neg (by simp [hc.isInitialized])] at h
    obtain ⟨t, ht, h⟩ := Option.bind_eq_some_iff.mp h
    exact moveCursor_cursor ((sameCursor_clearLoop ht).hasCursor hc) h
  | putCharAt ch pos =>
    simp only [step, putCharAt] at h
    rw [if_neg (by simp [hc.isInitialized])] at h
    exact (sameCursor_putCharAt h).hasCursor hc
  | moveCursor pos => exact moveCursor_cursor hc h

/-- The terminal's cursor after a run. -/
theorem run_cursor (hc : HasCursor s c) {ops : List Op}
    (h : Transition.run (step S glyphs) s ops = some s') :
    HasCursor s' (ops.foldl (Cursor.step S) c) := by
  induction ops generalizing s c with
  | nil =>
    cases h
    exact hc
  | cons op ops ih =>
    obtain ⟨t, ht, h⟩ := Transition.run_cons_some.mp h
    exact ih (step_cursor hc ht) h

/-! ## Cells -/

namespace Cursor

/-- The number of the cursor's cell in reading order, the lines scrolled out included. -/
def index (S : Screen) (c : Cursor) : ℤ := (c.scrolls + c.pos.y) * Impl.getWidth S + c.pos.x

variable {S : Screen} {c : Cursor}

/-- The next line, or the last one again after scrolling. -/
theorem nextLine_eq (hy : c.pos.y < Impl.getHeight S) : nextLine S c =
    if c.pos.y + 1 = Impl.getHeight S then ⟨⟨0, c.pos.y⟩, c.scrolls + 1⟩
    else ⟨⟨0, c.pos.y + 1⟩, c.scrolls⟩ := by
  have hlt := getHeight_lt S
  have hsucc : u32 (c.pos.y + 1) = c.pos.y + 1 := u32_of_lt (by omega)
  have hback : u32 (c.pos.y + 1 + 4294967295) = c.pos.y := by
    unfold u32
    omega
  unfold nextLine
  simp only [hsucc, hback]

/-- From any row of the grid the next line is on the grid. -/
theorem onGrid_nextLine (hy : c.pos.y < Impl.getHeight S) : OnGrid S (nextLine S c).pos := by
  have hw := getWidth_pos S
  rw [nextLine_eq hy]
  split
  · exact ⟨hw, hy⟩
  · exact ⟨hw, by simp only; omega⟩

/-- The row stays on the grid, from any column. -/
theorem row_putChar (hy : c.pos.y < Impl.getHeight S) :
    (putChar S c).pos.y < Impl.getHeight S := by
  unfold putChar
  simp only
  split
  · exact (onGrid_nextLine hy).y
  · exact hy

theorem row_putChars (hy : c.pos.y < Impl.getHeight S) (txt : List UInt8) :
    (putChars S c txt).pos.y < Impl.getHeight S := by
  unfold putChars
  induction txt generalizing c with
  | nil => exact hy
  | cons ch txt ih => exact ih (row_putChar hy)

theorem onGrid_putChar (h : OnGrid S c.pos) : OnGrid S (putChar S c).pos := by
  have hlt := getWidth_lt S
  have hx := h.x
  have hsucc : u32 (c.pos.x + 1) = c.pos.x + 1 := u32_of_lt (by omega)
  unfold putChar
  simp only [hsucc]
  split
  · exact onGrid_nextLine h.y
  · exact ⟨by simp only; omega, h.y⟩

theorem onGrid_putChars (h : OnGrid S c.pos) (txt : List UInt8) :
    OnGrid S (putChars S c txt).pos := by
  unfold putChars
  induction txt generalizing c with
  | nil => exact h
  | cons ch txt ih => exact ih (onGrid_putChar h)

/-- The first cell of the next line. -/
theorem index_nextLine (hy : c.pos.y < Impl.getHeight S) :
    index S (nextLine S c) = (c.scrolls + c.pos.y + 1) * Impl.getWidth S := by
  rw [nextLine_eq hy]
  split
  · simp only [index]
    push_cast
    ring
  · simp only [index]
    push_cast
    ring

/-- A character moves the cursor to the cell that follows. -/
theorem index_putChar (h : OnGrid S c.pos) : index S (putChar S c) = index S c + 1 := by
  have hlt := getWidth_lt S
  have hx := h.x
  have hsucc : u32 (c.pos.x + 1) = c.pos.x + 1 := u32_of_lt (by omega)
  unfold putChar
  simp only [hsucc]
  split
  · have hwidth : (Impl.getWidth S : ℤ) = c.pos.x + 1 := by omega
    rw [index_nextLine (c := ⟨⟨c.pos.x + 1, c.pos.y⟩, c.scrolls⟩) h.y]
    simp only [index]
    rw [add_mul, one_mul, hwidth]
    ring
  · simp only [index]
    push_cast
    ring

end Cursor

end HryOS.Terminal
