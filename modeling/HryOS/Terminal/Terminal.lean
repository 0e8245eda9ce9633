import HryOS.Lib.Transition
import HryOS.Terminal.Vesa

/-!
# The terminal

`terminal.cpp`, over the functions of `vesa_impl.cpp`.

* `Op`, `step` — the operations of `terminal.hpp`; a string without arguments is printed character
  by character.
* `booted` — the statics after `terminal::init`, whatever the pixels are.
-/

set_option autoImplicit false

namespace HryOS.Terminal

open ByteMemory Transition

variable (S : Screen) (glyphs : Glyphs)

/-- `scroll_down`. -/
def scrollDown (s : State) : Option State :=
  if !s.isInitialized then some s
  else do
    let s ← Impl.scrollDown S s
    return { s with cursorPos := ⟨s.cursorPos.x, u32 (s.cursorPos.y + 4294967295)⟩ }

/-- `next_line`. -/
def nextLine (s : State) : Option State :=
  if !s.isInitialized then some s
  else do
    let s := { s with cursorPos := ⟨0, u32 (s.cursorPos.y + 1)⟩ }
    let s ← if s.cursorPos.y = Impl.getHeight S then scrollDown S s else some s
    Impl.setCursorAt S s s.cursorPos

/-- `put_char_at`. -/
def putCharAt (s : State) (ch : UInt8) (pos : Vec2u) : Option State :=
  if !s.isInitialized then some s
  else Impl.putCharAt S glyphs s ch pos s.currentColor

/-- `put_char`. -/
def putChar (s : State) (ch : UInt8) : Option State :=
  if !s.isInitialized then some s
  else do
    let s ← putCharAt S glyphs s ch s.cursorPos
    let s := { s with cursorPos := ⟨u32 (s.cursorPos.x + 1), s.cursorPos.y⟩ }
    let s ← if s.cursorPos.x ≥ Impl.getWidth S then nextLine S s else some s
    Impl.setCursorAt S s s.cursorPos

/-- `move_cursor`. -/
def moveCursor (s : State) (pos : Vec2u) : Option State :=
  if !s.isInitialized then some s
  else
    let s := { s with cursorPos := pos }
    Impl.setCursorAt S s s.cursorPos

/-- `clear_screen`. -/
def clearScreen (s : State) : Option State :=
  if !s.isInitialized then some s
  else do
    let s ← Impl.clearScreen S s
    moveCursor S s ⟨0, 0⟩

/-- `print` of a string without arguments: `format_to(put_char, fmt)`. -/
def print (s : State) (fmt : List UInt8) : Option State :=
  (fmt.takeWhile (· ≠ 0)).foldlM (putChar S glyphs) s

/-- `set_foreground_color`. -/
def setForegroundColor (s : State) (color : TermColor) : State :=
  { s with currentColor := { s.currentColor with foreground := color } }

/-- `set_background_color`. -/
def setBackgroundColor (s : State) (color : TermColor) : State :=
  { s with currentColor := { s.currentColor with background := color } }

/-- The operations. -/
inductive Op
  | putChar (ch : UInt8)
  | print (fmt : List UInt8)
  | nextLine
  | setForegroundColor (color : TermColor)
  | setBackgroundColor (color : TermColor)
  | clearScreen
  | putCharAt (ch : UInt8) (pos : Vec2u)
  | moveCursor (pos : Vec2u)
  deriving DecidableEq, Repr

/-- One operation. -/
def step : Step State Op
  | s, .putChar ch => putChar S glyphs s ch
  | s, .print fmt => print S glyphs s fmt
  | s, .nextLine => nextLine S s
  | s, .setForegroundColor color => some (setForegroundColor s color)
  | s, .setBackgroundColor color => some (setBackgroundColor s color)
  | s, .clearScreen => clearScreen S s
  | s, .putCharAt ch pos => putCharAt S glyphs s ch pos
  | s, .moveCursor pos => moveCursor S s pos

/-- After `terminal::init`. -/
def booted (display bufferedScreen : ℕ → Color) : State :=
  { isInitialized := true, cursorPos := ⟨0, 0⟩,
    currentColor := { foreground := .white, background := .black },
    vesaInitialized := true, display, bufferedScreen, lastCursorTextPos := ⟨0, 0⟩ }

/-- A position given to `put_char_at` or `move_cursor` is on the text grid. -/
def Op.InRange : Op → Prop
  | .putCharAt _ pos | .moveCursor pos => pos.x < Impl.getWidth S ∧ pos.y < Impl.getHeight S
  | _ => True

end HryOS.Terminal
