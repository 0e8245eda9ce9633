import HryOS.Lib.ByteMemory

/-!
# The VESA terminal's pixels

`vesa.cpp` (`set_pixel`) and `vesa_impl.cpp`: text is drawn into a back buffer and onto the
display; the cursor is drawn onto the display only.

Coordinates are unsigned 32-bit numbers.  Display and buffer are functions of the index of a pixel,
counted from their first one; an access outside the buffer has no result (`none`).  The pitch of
the framebuffer is `4 * width`.
-/

set_option autoImplicit false

namespace HryOS.Terminal

open ByteMemory

/-- `vec2u`. -/
structure Vec2u where
  x : ℕ
  y : ℕ
  deriving DecidableEq, Repr

namespace Vec2u

/-- `operator+`. -/
def add (left right : Vec2u) : Vec2u := ⟨u32 (left.x + right.x), u32 (left.y + right.y)⟩

/-- `operator*`. -/
def mul (left right : Vec2u) : Vec2u := ⟨u32 (left.x * right.x), u32 (left.y * right.y)⟩

/-- `operator<`. -/
def lt (left right : Vec2u) : Bool := left.x < right.x && left.y < right.y

end Vec2u

/-- `vesa::color`. -/
structure Color where
  b : UInt8 := 0
  g : UInt8 := 0
  r : UInt8 := 0
  a : UInt8 := 0
  deriving DecidableEq, Repr

/-- `color::create`. -/
def Color.create (red green blue : UInt8) : Color := { b := blue, g := green, r := red }

/-- `terminal::color`. -/
inductive TermColor
  | black
  | blue
  | green
  | cyan
  | red
  | magenta
  | brown
  | lightGrey
  | darkGrey
  | lightBlue
  | lightGreen
  | lightCyan
  | lightRed
  | lightMagenta
  | lightBrown
  | white
  deriving DecidableEq, Repr

/-- `combined_color`. -/
structure CombinedColor where
  foreground : TermColor
  background : TermColor
  deriving DecidableEq, Repr

/-- `terminal_to_vesa_color`. -/
def terminalToVesaColor : TermColor → Color
  | .black => .create 0 0 0
  | .blue => .create 0 0 170
  | .green => .create 0 170 0
  | .cyan => .create 0 170 170
  | .red => .create 170 0 0
  | .magenta => .create 170 0 170
  | .brown => .create 170 85 0
  | .darkGrey => .create 85 85 85
  | .lightGrey => .create 85 85 85
  | .lightBlue => .create 85 85 255
  | .lightGreen => .create 85 255 85
  | .lightCyan => .create 85 255 255
  | .lightRed => .create 255 85 85
  | .lightMagenta => .create 255 85 255
  | .lightBrown => .create 255 255 255
  | .white => .create 255 255 255

/-- The screen: at least one text cell, and its pixels, four bytes each, have 32-bit addresses. -/
structure Screen where
  size : Vec2u
  width_le : 8 ≤ size.x
  height_le : 16 ≤ size.y
  fits : size.x * size.y ≤ 1073741824

/-- The glyphs of a font: the bytes of their rows, at any index. -/
abbrev Glyphs := ℕ → ℕ → UInt8

/-- `current_font->size`, as `load_psf_font` sets it. -/
def fontSize : Vec2u := ⟨8, 16⟩

/-- The statics of `terminal.cpp`, `vesa_impl.cpp` and `vesa.cpp`. -/
structure State where
  isInitialized : Bool
  cursorPos : Vec2u
  currentColor : CombinedColor
  vesaInitialized : Bool
  display : ℕ → Color
  bufferedScreen : ℕ → Color
  lastCursorTextPos : Vec2u

variable (S : Screen)

/-- `base + pos.y * screen_size.x + pos.x`, for pixels of four bytes. -/
def pixelIndex (pos : Vec2u) : ℕ := (pos.y * S.size.x + pos.x) % 1073741824

/-- `vesa::set_pixel`. -/
def vesaSetPixel (s : State) (pos : Vec2u) (color : Color) : State :=
  if s.vesaInitialized && pos.lt S.size then
    { s with display := Function.update s.display (pixelIndex S pos) color }
  else s

/-- `set_pixel`. -/
def setPixel (s : State) (pos : Vec2u) (color : Color) : Option State :=
  let pixel := pixelIndex S pos
  if pixel < S.size.x * S.size.y then
    some (vesaSetPixel S { s with bufferedScreen := Function.update s.bufferedScreen pixel color }
      pos color)
  else none

/-- `get_buffered_pixel`. -/
def getBufferedPixel (s : State) (pos : Vec2u) : Option Color :=
  let pixel := pixelIndex S pos
  if pixel < S.size.x * S.size.y then some (s.bufferedScreen pixel) else none

/-- `get_screen_pos`. -/
def getScreenPos (textPos : Vec2u) : Vec2u := textPos.mul fontSize

/-- The offsets `for (y ...) for (x ...)` runs through. -/
def offsets : List Vec2u :=
  (List.range 16).flatMap fun y => (List.range 8).map fun x => ⟨x, y⟩

/-- The two loops of `reset_char` and of `put_char_at`: `set_pixel` at the offsets that `f` has a
    color for. -/
def drawCell (s : State) (textPos : Vec2u) (f : Vec2u → Option Color) : Option State :=
  offsets.foldlM (fun s d =>
    match f d with
    | some color => setPixel S s ((getScreenPos textPos).add d) color
    | none => some s) s

/-- `reset_char`. -/
def resetChar (s : State) (textPos : Vec2u) : Option State :=
  drawCell S s textPos fun _ => some {}

/-- `hlib::get_bit`. -/
def getBit (value : UInt8) (bit : ℕ) : Bool := value.toNat.testBit bit

/-- `(uint32_t)ch`, for a signed `char`. -/
def charIndex (ch : UInt8) : ℕ := if ch.toNat < 128 then ch.toNat else ch.toNat + 4294967040

/-- The pixels that `put_char_at` sets: the bits of the glyph's rows, the leftmost one highest. -/
def glyphPixels (glyphs : Glyphs) (ch : UInt8) (color : TermColor) (d : Vec2u) : Option Color :=
  if getBit (glyphs (charIndex ch) d.y) (fontSize.x - 1 - d.x) then some (terminalToVesaColor color)
  else none

namespace Impl

/-- `impl::put_char_at`. -/
def putCharAt (glyphs : Glyphs) (s : State) (ch : UInt8) (textPos : Vec2u)
    (color : CombinedColor) : Option State := do
  let s ← resetChar S s textPos
  drawCell S s textPos (glyphPixels glyphs ch color.foreground)

/-- `impl::get_width`. -/
def getWidth : ℕ := S.size.x / fontSize.x

/-- `impl::get_height`. -/
def getHeight : ℕ := S.size.y / fontSize.y

/-- The loop of `impl::clear_screen`, for `n` pixels from `i` on. -/
def clearLoop : ℕ → ℕ → State → Option State
  | 0, _, s => some s
  | n + 1, i, s =>
    if i < S.size.x * S.size.y then
      clearLoop n (i + 1)
        { s with display := Function.update s.display i {},
                 bufferedScreen := Function.update s.bufferedScreen i {} }
    else none

/-- `impl::clear_screen`. -/
def clearScreen (s : State) : Option State := clearLoop S (S.size.x * S.size.y) 0 s

/-- `vesa::color::create(pixel.r, pixel.g, pixel.b)`. -/
def copied (pixel : Color) : Color := .create pixel.r pixel.g pixel.b

/-- `vesa::color::create(255 - pixel.r, 255 - pixel.g, 255 - pixel.b)`. -/
def inverted (pixel : Color) : Color := .create (255 - pixel.r) (255 - pixel.g) (255 - pixel.b)

/-- The two loops of `impl::set_cursor_at`: buffered pixels of the cursor's column at a text
    position, shown as `f` of them. -/
def drawColumn (s : State) (textPos : Vec2u) (f : Color → Color) : Option State :=
  (List.range fontSize.y).foldlM (fun s y => do
    let pos := (getScreenPos textPos).add ⟨2, y⟩
    let pixel ← getBufferedPixel S s pos
    return vesaSetPixel S s pos (f pixel)) s

/-- `impl::set_cursor_at`. -/
def setCursorAt (s : State) (textPos : Vec2u) : Option State := do
  let s ← drawColumn S s s.lastCursorTextPos copied
  let s ← drawColumn S s textPos inverted
  return { s with lastCursorTextPos := textPos }

/-- The first loop of `impl::scroll_down`, for `n` pixels from `i` on: the pixel `k` places further
    on is copied. -/
def moveLoop (k : ℕ) : ℕ → ℕ → State → Option State
  | 0, _, s => some s
  | n + 1, i, s =>
    if i + k < S.size.x * S.size.y then
      let src := s.bufferedScreen (i + k)
      moveLoop k n (i + 1)
        { s with display := Function.update s.display i src,
                 bufferedScreen := Function.update s.bufferedScreen i src }
    else none

/-- `impl::scroll_down`. -/
def scrollDown (s : State) : Option State := do
  let moved := S.size.x * (S.size.y - fontSize.y)
  let s ← moveLoop S (S.size.x * fontSize.y) moved 0 s
  clearLoop S (S.size.x * S.size.y - moved) moved s

end Impl

end HryOS.Terminal
