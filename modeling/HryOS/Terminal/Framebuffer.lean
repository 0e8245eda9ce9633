import HryOS.Lib.Transition
import HryOS.Terminal.Pixels

/-!
# The framebuffer's scan lines

`vesa::init`, `vesa::set_pixel` (`vesa.cpp`) and `set_pixel`, `clear_screen`, `scroll_down`
(`vesa_impl.cpp`) for any geometry that the boot loader reports.

Scan line `y` starts `y * pitch` bytes after the address of the framebuffer.  The driver stores the
pitch and does not use it: all three functions go through the pixels as if the lines followed each
other without a gap.  `scroll_down` subtracts the height of the font from that of the screen, in
unsigned numbers.  A pixel is set by the terminal's `set_pixel`, in the back buffer and through
`vesa::set_pixel`: `scroll_down` copies the back buffer.

* `PixelArray`, `arrayStep` — the array of pixels that the functions are about.
* `Agrees` — the screen and the back buffer show an array; `step_agrees` keeps it, for lines that
  follow each other and at least one row of text.
* `step_frames` — on the screens of `Vesa.lean` the functions are those of `Vesa.lean`.
* `framebuffer_follows_iff` — the geometries for which every sequence of calls is seen as drawn.
-/

set_option autoImplicit false

namespace HryOS.Terminal.Framebuffer

open ByteMemory Transition

/-- The fields of `multiboot_info` that describe the framebuffer. -/
structure MultibootInfo where
  flags : ℕ
  framebufferAddr : ℕ
  framebufferPitch : ℕ
  framebufferWidth : ℕ
  framebufferHeight : ℕ
  framebufferBpp : ℕ
  deriving DecidableEq, Repr

/-- The statics of `vesa.cpp`. -/
structure Driver where
  initialized : Bool
  display : ℕ
  bpp : ℕ
  pitch : ℕ
  screenSize : Vec2u
  deriving DecidableEq, Repr

/-- `vesa::init`; `none` where it halts. -/
def init (mbi : MultibootInfo) : Option Driver :=
  if mbi.flags.testBit 12 then
    some
      { initialized := true
        display := u32 mbi.framebufferAddr
        bpp := mbi.framebufferBpp
        pitch := mbi.framebufferPitch
        screenSize := ⟨mbi.framebufferWidth, mbi.framebufferHeight⟩ }
  else none

/-- The memory at `display` and at `buffered_screen`, in pixels of four bytes from there on. -/
structure Frames where
  display : ℕ → Color
  bufferedScreen : ℕ → Color

variable (v : Driver)

/-- The length of `buffered_screen`. -/
def bufferLength : ℕ := u32 (v.screenSize.x * v.screenSize.y)

/-- `display + pos.y * screen_size.x + pos.x`. -/
def pixelIndex (pos : Vec2u) : ℕ := (u32 (pos.y * v.screenSize.x) + pos.x) % 1073741824

/-- `vesa::set_pixel`. -/
def vesaSetPixel (m : Frames) (pos : Vec2u) (color : Color) : Frames :=
  if v.initialized && pos.lt v.screenSize then
    { m with display := Function.update m.display (pixelIndex v pos) color }
  else m

/-- `set_pixel`. -/
def setPixel (m : Frames) (pos : Vec2u) (color : Color) : Option Frames :=
  let pixel := pixelIndex v pos
  if pixel < bufferLength v then
    some (vesaSetPixel v { m with bufferedScreen := Function.update m.bufferedScreen pixel color }
      pos color)
  else none

/-- The number of `++it` until a pointer to pixels is `n` of them further on. -/
def steps (n : ℕ) : ℕ := n % 1073741824

/-- The loops that set pixels to black, for `n` of them from `i` on. -/
def clearLoop : ℕ → ℕ → Frames → Option Frames
  | 0, _, m => some m
  | n + 1, i, m =>
    if i < bufferLength v then
      clearLoop n (i + 1)
        { display := Function.update m.display i {},
          bufferedScreen := Function.update m.bufferedScreen i {} }
    else none

/-- `clear_screen`. -/
def clearScreen (m : Frames) : Option Frames :=
  clearLoop v (steps (u32 (v.screenSize.x * v.screenSize.y))) 0 m

/-- The first loop of `scroll_down`, for `n` pixels from `i` on; `src_it` started `k` pixels into
    the buffer. -/
def moveLoop (k : ℕ) : ℕ → ℕ → Frames → Option Frames
  | 0, _, m => some m
  | n + 1, i, m =>
    let srcIt := (i + k) % 1073741824
    if i < bufferLength v ∧ srcIt < bufferLength v then
      let src := m.bufferedScreen srcIt
      moveLoop k n (i + 1)
        { display := Function.update m.display i src,
          bufferedScreen := Function.update m.bufferedScreen i src }
    else none

/-- `screen_size.y - font_height`. -/
def keptRows : ℕ := u32 (v.screenSize.y + 4294967296 - fontSize.y)

/-- `scroll_down`. -/
def scrollDown (m : Frames) : Option Frames := do
  let moved := steps (u32 (v.screenSize.x * keptRows v))
  let m ← moveLoop v (u32 (v.screenSize.x * fontSize.y)) moved 0 m
  clearLoop v (steps (u32 (v.screenSize.x * v.screenSize.y) + 1073741824 - moved)) moved m

/-- The calls. -/
inductive Op
  | setPixel (pos : Vec2u) (color : Color)
  | clearScreen
  | scrollDown
  deriving DecidableEq, Repr

/-- One call. -/
def step : Step Frames Op := fun m op =>
  match op with
  | .setPixel pos color => setPixel v m pos color
  | .clearScreen => clearScreen v m
  | .scrollDown => scrollDown v m

/-- `set_pixel` is called for a position on the screen. -/
def InRange (width height : ℕ) : Op → Prop
  | .setPixel pos _ => pos.x < width ∧ pos.y < height
  | .clearScreen => True
  | .scrollDown => True

/-! ## What is seen -/

/-- An array of pixels: the color at `(x, y)`. -/
abbrev PixelArray := ℕ → ℕ → Color

/-- What the calls do to an array of pixels. -/
def arrayStep (height : ℕ) (image : PixelArray) : Op → PixelArray
  | .setPixel pos color => fun x y => if x = pos.x ∧ y = pos.y then color else image x y
  | .clearScreen => fun _ _ => {}
  | .scrollDown => fun x y => if y + fontSize.y < height then image x (y + fontSize.y) else {}

/-- The visible pixel `(x, y)`: the four bytes from `y * pitch + 4 * x` on. -/
def visible (mbi : MultibootInfo) (m : Frames) (x y : ℕ) : Color :=
  m.display ((y * mbi.framebufferPitch + 4 * x) / 4)

/-- The screen shows the array, and the back buffer has it. -/
structure Agrees (mbi : MultibootInfo) (m : Frames) (image : PixelArray) : Prop where
  display : ∀ x y, x < mbi.framebufferWidth → y < mbi.framebufferHeight →
    visible mbi m x y = image x y
  buffer : Raster.Stores mbi.framebufferWidth mbi.framebufferHeight m.bufferedScreen image

/-- Geometries with 32 bits for a pixel: no line overlaps the next one, every pixel is a word, and
    framebuffer and back buffer have 32-bit addresses. -/
structure Reported (mbi : MultibootInfo) : Prop where
  flag : mbi.flags.testBit 12 = true
  bpp : mbi.framebufferBpp = 32
  pitch_ge : 4 * mbi.framebufferWidth ≤ mbi.framebufferPitch
  pitch_dvd : 4 ∣ mbi.framebufferPitch
  fits : mbi.framebufferPitch * mbi.framebufferHeight +
    4 * (mbi.framebufferWidth * mbi.framebufferHeight) ≤ 4294967296

/-- Whatever is called, every visible pixel is the one of the array. -/
def Follows (mbi : MultibootInfo) : Prop :=
  ∀ v m image ops, init mbi = some v → Agrees mbi m image →
    (∀ op ∈ ops, InRange mbi.framebufferWidth mbi.framebufferHeight op) →
    ∀ x y, x < mbi.framebufferWidth → y < mbi.framebufferHeight →
      ∃ m', run (step v) m ops = some m' ∧
        visible mbi m' x y = ops.foldl (arrayStep mbi.framebufferHeight) image x y

variable {v : Driver} {mbi : MultibootInfo} {m m' : Frames} {image : PixelArray} {op : Op}
  {pos : Vec2u} {color : Color} {i k n : ℕ}

/-! ## The calls as equations -/

/-- The screen has few enough pixels for a framebuffer and a back buffer. -/
def Fits (v : Driver) : Prop := 2 * (v.screenSize.x * v.screenSize.y) ≤ 1073741824

theorem bufferLength_eq (h : Fits v) : bufferLength v = v.screenSize.x * v.screenSize.y := by
  unfold Fits at h
  exact u32_of_lt (by omega)

theorem steps_of_lt (h : n < 1073741824) : steps n = n := Nat.mod_eq_of_lt h

theorem setPixel_eq (hfits : Fits v) (hv : v.initialized = true) (hx : pos.x < v.screenSize.x)
    (hy : pos.y < v.screenSize.y) : setPixel v m pos color =
      let i := Raster.index v.screenSize.x pos.x pos.y
      some { display := Function.update m.display i color,
             bufferedScreen := Function.update m.bufferedScreen i color } := by
  have hlt := Raster.index_lt hx hy
  have hlength := bufferLength_eq hfits
  have hindex : pixelIndex v pos = Raster.index v.screenSize.x pos.x pos.y := by
    unfold Fits at hfits
    unfold Raster.index at hlt ⊢
    unfold pixelIndex
    rw [u32_of_lt (by omega)]
    exact Nat.mod_eq_of_lt (by omega)
  have hin : pos.lt v.screenSize = true := by simp [Vec2u.lt, hx, hy]
  unfold setPixel vesaSetPixel
  rw [hindex, hv, hin, if_pos (by omega)]
  rfl

theorem clearLoop_eq (h : i + n ≤ bufferLength v) : clearLoop v n i m =
    some { display := Raster.fill {} i n m.display,
           bufferedScreen := Raster.fill {} i n m.bufferedScreen } := by
  induction n generalizing i m with
  | zero =>
    unfold clearLoop
    simp only [Raster.fill_zero]
  | succ n ih =>
    unfold clearLoop
    rw [if_pos (by omega), ih (by omega)]
    simp only [Raster.fill_succ]

theorem moveLoop_eq (hfits : Fits v) (h : i + n + k ≤ bufferLength v) : moveLoop v k n i m =
    some { display := Raster.shift m.bufferedScreen k i n m.display,
           bufferedScreen := Raster.shift m.bufferedScreen k i n m.bufferedScreen } := by
  have hlength := bufferLength_eq hfits
  unfold Fits at hfits
  induction n generalizing i m with
  | zero =>
    unfold moveLoop
    simp only [Raster.shift_zero]
  | succ n ih =>
    have hsrc : (i + k) % 1073741824 = i + k := Nat.mod_eq_of_lt (by omega)
    unfold moveLoop
    simp only [hsrc]
    rw [if_pos ⟨by omega, by omega⟩, ih (by omega)]
    simp only [Raster.shift_succ]

theorem clearScreen_eq (hfits : Fits v) : clearScreen v m =
    let area := v.screenSize.x * v.screenSize.y
    some { display := Raster.fill {} 0 area m.display,
           bufferedScreen := Raster.fill {} 0 area m.bufferedScreen } := by
  have hlength := bufferLength_eq hfits
  have harea : u32 (v.screenSize.x * v.screenSize.y) = v.screenSize.x * v.screenSize.y := hlength
  unfold Fits at hfits
  unfold clearScreen
  rw [harea, steps_of_lt (by omega)]
  exact clearLoop_eq (by omega)

theorem keptRows_eq (hy : fontSize.y ≤ v.screenSize.y) (hlt : v.screenSize.y < 4294967296) :
    keptRows v = v.screenSize.y - fontSize.y := by
  have hwrap : v.screenSize.y + 4294967296 - fontSize.y =
      v.screenSize.y - fontSize.y + 4294967296 := by omega
  unfold keptRows u32
  rw [hwrap, Nat.add_mod_right, Nat.mod_eq_of_lt (by omega)]

/-- Where there is a row of text, the rows below the first one move up by it. -/
theorem scrollDown_eq (hfits : Fits v) (hx : 0 < v.screenSize.x)
    (hy : fontSize.y ≤ v.screenSize.y) : scrollDown v m =
      let line := v.screenSize.x * fontSize.y
      let moved := v.screenSize.x * (v.screenSize.y - fontSize.y)
      let scrolled := fun image : ℕ → Color =>
        Raster.fill {} moved line (Raster.shift m.bufferedScreen line 0 moved image)
      some { display := scrolled m.display, bufferedScreen := scrolled m.bufferedScreen } := by
  have hlength := bufferLength_eq hfits
  have harea : u32 (v.screenSize.x * v.screenSize.y) = v.screenSize.x * v.screenSize.y := hlength
  have hrows : v.screenSize.y ≤ v.screenSize.x * v.screenSize.y := Nat.le_mul_of_pos_left _ hx
  have hsum : v.screenSize.x * (v.screenSize.y - fontSize.y) + v.screenSize.x * fontSize.y =
      v.screenSize.x * v.screenSize.y := by
    rw [← Nat.mul_add, Nat.sub_add_cancel hy]
  have hloop := hfits
  unfold Fits at hfits
  unfold scrollDown
  rw [keptRows_eq hy (by omega)]
  simp only
  generalize v.screenSize.x * (v.screenSize.y - fontSize.y) = moved at hsum ⊢
  generalize v.screenSize.x * fontSize.y = line at hsum ⊢
  have hrest : v.screenSize.x * v.screenSize.y + 1073741824 - moved = line + 1073741824 := by omega
  have hline : steps (line + 1073741824) = line := by
    unfold steps
    rw [Nat.add_mod_right, Nat.mod_eq_of_lt (by omega)]
  rw [harea, u32_of_lt (show moved < 4294967296 by omega),
    steps_of_lt (show moved < 1073741824 by omega), hrest, hline,
    u32_of_lt (show line < 4294967296 by omega), moveLoop_eq hloop (by omega),
    Option.bind_eq_bind, Option.bind_some, clearLoop_eq (by omega)]

/-! ## The screens of the terminal -/

/-- The pixels of the terminal's state. -/
def frames (s : State) : Frames := ⟨s.display, s.bufferedScreen⟩

/-- The calls, as the terminal makes them on a screen. -/
def screenStep (S : Screen) : Step State Op := fun s op =>
  match op with
  | .setPixel pos color => Terminal.setPixel S s pos color
  | .clearScreen => Impl.clearScreen S s
  | .scrollDown => Impl.scrollDown S s

theorem pixelIndex_eq {S : Screen} (hsize : v.screenSize = S.size) (pos : Vec2u) :
    pixelIndex v pos = Terminal.pixelIndex S pos := by
  unfold pixelIndex Terminal.pixelIndex u32
  rw [hsize]
  omega

/-- **The driver on a screen of the terminal**: the same calls have the same results. -/
theorem step_frames {S : Screen} (hfits : Fits v) (hsize : v.screenSize = S.size) (s : State)
    (hv : v.initialized = s.vesaInitialized) (op : Op) :
    step v (frames s) op = (screenStep S s op).map frames := by
  have hlength := bufferLength_eq hfits
  cases op with
  | setPixel pos color =>
    change setPixel v (frames s) pos color = (Terminal.setPixel S s pos color).map frames
    unfold setPixel vesaSetPixel Terminal.setPixel Terminal.vesaSetPixel
    rw [pixelIndex_eq hsize, hlength, hv, hsize]
    simp only
    split
    · split
      · rfl
      · rfl
    · rfl
  | clearScreen =>
    change clearScreen v (frames s) = (Impl.clearScreen S s).map frames
    unfold Impl.clearScreen
    rw [clearScreen_eq hfits, Terminal.clearLoop_eq (Nat.le_of_eq (Nat.zero_add _)), hsize]
    rfl
  | scrollDown =>
    change scrollDown v (frames s) = (Impl.scrollDown S s).map frames
    have hwidth := S.width_le
    have hheight : fontSize.y ≤ S.size.y := S.height_le
    have hsum : S.size.x * (S.size.y - fontSize.y) + S.size.x * fontSize.y =
        S.size.x * S.size.y := by
      rw [← Nat.mul_add, Nat.sub_add_cancel hheight]
    have hrest : S.size.x * S.size.y - S.size.x * (S.size.y - fontSize.y) =
        S.size.x * fontSize.y := by omega
    unfold Impl.scrollDown
    rw [scrollDown_eq hfits (by rw [hsize]; omega) (by rw [hsize]; exact hheight)]
    simp only [hsize, hrest]
    rw [Terminal.moveLoop_eq (by omega), Option.bind_eq_bind, Option.bind_some,
      Terminal.clearLoop_eq (by omega)]
    rfl

/-! ## Lines that follow each other -/

theorem visible_of_contiguous (hpitch : mbi.framebufferPitch = 4 * mbi.framebufferWidth)
    (x y : ℕ) : visible mbi m x y = m.display (Raster.index mbi.framebufferWidth x y) := by
  have hoffset : (y * mbi.framebufferPitch + 4 * x) / 4 =
      Raster.index mbi.framebufferWidth x y := by
    unfold Raster.index
    rw [hpitch, Nat.mul_left_comm, ← Nat.mul_add, Nat.mul_div_cancel_left _ (by omega)]
  unfold visible
  rw [hoffset]

theorem agrees_iff (hpitch : mbi.framebufferPitch = 4 * mbi.framebufferWidth) :
    Agrees mbi m image ↔
      Raster.Stores mbi.framebufferWidth mbi.framebufferHeight m.display image ∧
      Raster.Stores mbi.framebufferWidth mbi.framebufferHeight m.bufferedScreen image := by
  constructor
  · rintro ⟨hdisplay, hbuffer⟩
    refine ⟨?_, hbuffer⟩
    intro x y hx hy
    rw [← visible_of_contiguous hpitch]
    exact hdisplay x y hx hy
  · rintro ⟨hdisplay, hbuffer⟩
    refine ⟨?_, hbuffer⟩
    intro x y hx hy
    rw [visible_of_contiguous hpitch]
    exact hdisplay x y hx hy

/-- The driver that `vesa::init` leaves. -/
theorem init_eq (h : init mbi = some v) :
    v = { initialized := true, display := u32 mbi.framebufferAddr, bpp := mbi.framebufferBpp,
          pitch := mbi.framebufferPitch,
          screenSize := ⟨mbi.framebufferWidth, mbi.framebufferHeight⟩ } := by
  unfold init at h
  split at h
  · exact (Option.some.inj h).symm
  · cases h

theorem Reported.fits_init (h : Reported mbi) (hinit : init mbi = some v) : Fits v := by
  have hfits := h.fits
  have hle : 4 * mbi.framebufferWidth * mbi.framebufferHeight ≤
      mbi.framebufferPitch * mbi.framebufferHeight := Nat.mul_le_mul_right _ h.pitch_ge
  rw [Nat.mul_assoc] at hle
  obtain rfl := init_eq hinit
  unfold Fits
  simp only
  omega

/-- A cleared screen is black, whatever was on it. -/
theorem clearScreen_agrees (h : Reported mbi) (hinit : init mbi = some v)
    (hpitch : mbi.framebufferPitch = 4 * mbi.framebufferWidth) (m : Frames) :
    ∃ m', clearScreen v m = some m' ∧ Agrees mbi m' fun _ _ => {} := by
  have hfits := h.fits_init hinit
  obtain rfl := init_eq hinit
  refine ⟨_, clearScreen_eq hfits, ?_⟩
  apply (agrees_iff hpitch).mpr
  exact ⟨Raster.stores_fill _ _, Raster.stores_fill _ _⟩

/-- **One call is seen as drawn** where the lines follow each other. -/
theorem step_agrees (h : Reported mbi) (hinit : init mbi = some v)
    (hpitch : mbi.framebufferPitch = 4 * mbi.framebufferWidth) (hx : 0 < mbi.framebufferWidth)
    (hy : fontSize.y ≤ mbi.framebufferHeight) (hagrees : Agrees mbi m image)
    (hop : InRange mbi.framebufferWidth mbi.framebufferHeight op) :
    ∃ m', step v m op = some m' ∧ Agrees mbi m' (arrayStep mbi.framebufferHeight image op) := by
  have hfits := h.fits_init hinit
  have hclear := clearScreen_agrees h hinit hpitch m
  obtain rfl := init_eq hinit
  obtain ⟨hdisplay, hbuffer⟩ := (agrees_iff hpitch).mp hagrees
  cases op with
  | setPixel pos color =>
    obtain ⟨hpx, hpy⟩ := hop
    refine ⟨_, setPixel_eq hfits rfl hpx hpy, ?_⟩
    apply (agrees_iff hpitch).mpr
    exact ⟨hdisplay.update hpx, hbuffer.update hpx⟩
  | clearScreen => exact hclear
  | scrollDown =>
    refine ⟨_, scrollDown_eq hfits hx hy, ?_⟩
    apply (agrees_iff hpitch).mpr
    exact ⟨hbuffer.scroll hy _, hbuffer.scroll hy _⟩

/-- **Every sequence of calls is seen as drawn** where the lines follow each other. -/
theorem follows_of_contiguous (h : Reported mbi)
    (hpitch : mbi.framebufferPitch = 4 * mbi.framebufferWidth)
    (hy : fontSize.y ≤ mbi.framebufferHeight) : Follows mbi := by
  intro v m image ops hinit hagrees hops x y hx hy'
  have hwidth : 0 < mbi.framebufferWidth := Nat.zero_lt_of_lt hx
  have hstep : ∀ m image op, Agrees mbi m image →
      InRange mbi.framebufferWidth mbi.framebufferHeight op →
      ∃ m', step v m op = some m' ∧ Agrees mbi m' (arrayStep mbi.framebufferHeight image op) :=
    fun m image op hm hop => step_agrees h hinit hpitch hwidth hy hm hop
  obtain ⟨m', hrun, hend⟩ := run_forward hstep hagrees hops
  exact ⟨m', hrun, hend.display x y hx hy'⟩

/-! ## Gaps between the lines -/

theorem exists_init (h : Reported mbi) : ∃ v, init mbi = some v := ⟨_, if_pos h.flag⟩

/-- A blank screen shows a blank array. -/
theorem agrees_const (mbi : MultibootInfo) (color : Color) :
    Agrees mbi ⟨fun _ => color, fun _ => color⟩ fun _ _ => color :=
  ⟨fun _ _ _ _ => rfl, fun _ _ _ _ => rfl⟩

/-- The first pixel of the second line is not set where there is a gap before it. -/
theorem setPixel_missed (h : Reported mbi) (hinit : init mbi = some v)
    (hx : 0 < mbi.framebufferWidth) (hy : 1 < mbi.framebufferHeight)
    (hpitch : mbi.framebufferPitch ≠ 4 * mbi.framebufferWidth)
    (hset : setPixel v m ⟨0, 1⟩ color = some m') : visible mbi m' 0 1 = visible mbi m 0 1 := by
  have hfits := h.fits_init hinit
  obtain rfl := init_eq hinit
  have hdvd := h.pitch_dvd
  have hplace : (1 * mbi.framebufferPitch + 4 * 0) / 4 ≠
      Raster.index mbi.framebufferWidth 0 1 := by
    unfold Raster.index
    omega
  rw [setPixel_eq hfits rfl hx hy] at hset
  obtain rfl := Option.some.inj hset
  exact Function.update_of_ne hplace _ _

theorem pitch_of_follows (h : Reported mbi) (hx : 0 < mbi.framebufferWidth)
    (hy : 1 < mbi.framebufferHeight) (hfollows : Follows mbi) :
    mbi.framebufferPitch = 4 * mbi.framebufferWidth := by
  by_contra hpitch
  obtain ⟨v, hinit⟩ := exists_init h
  have hops : ∀ op ∈ [Op.setPixel ⟨0, 1⟩ (.create 255 255 255)],
      InRange mbi.framebufferWidth mbi.framebufferHeight op := by
    intro op hop
    obtain rfl := List.mem_singleton.mp hop
    exact ⟨hx, hy⟩
  obtain ⟨m', hrun, hvisible⟩ := hfollows v _ _ _ hinit (agrees_const mbi {}) hops 0 1 hx hy
  obtain ⟨m'', hset, hnil⟩ := run_cons_some.mp hrun
  obtain rfl := Option.some.inj hnil
  rw [setPixel_missed h hinit hx hy hpitch hset] at hvisible
  have hcolor : ({} : Color) ≠ .create 255 255 255 := by decide
  exact hcolor hvisible

/-! ## Screens without a row of text -/

theorem gcd_le : ∀ h < 16, 0 < h → Nat.gcd (16 - h) 1073741824 ≤ h := by decide

/-- The rows that a screen lacks for one of text do not fill the address space. -/
theorem missing_not_dvd {w h : ℕ} (hfits : 2 * (w * h) ≤ 1073741824) (hw : 0 < w) (hh : 0 < h)
    (hlt : h < 16) : ¬ 1073741824 ∣ w * (16 - h) := by
  intro hdvd
  have hgcd : 1073741824 ∣ w * Nat.gcd (16 - h) 1073741824 := by
    rw [← Nat.gcd_mul_left]
    exact Nat.dvd_gcd hdvd (Nat.dvd_mul_left 1073741824 w)
  have hpos : 0 < w * Nat.gcd (16 - h) 1073741824 :=
    Nat.mul_pos hw (Nat.gcd_pos_of_pos_left _ (by omega))
  have hle : w * Nat.gcd (16 - h) 1073741824 ≤ w * h := Nat.mul_le_mul_left w (gcd_le h hlt hh)
  have hbig := Nat.le_of_dvd hpos hgcd
  omega

/-- The subtraction wraps around, and there are pixels to move. -/
theorem moved_pos {w h : ℕ} (hfits : 2 * (w * h) ≤ 1073741824) (hw : 0 < w) (hh : 0 < h)
    (hlt : h < 16) : steps (u32 (w * u32 (h + 4294967296 - 16))) ≠ 0 := by
  intro hzero
  have hkept : h + 4294967296 - 16 = 4294967296 - (16 - h) := by omega
  have hlt' : 4294967296 - (16 - h) < 4294967296 := by omega
  unfold steps u32 at hzero
  rw [hkept, Nat.mod_eq_of_lt hlt', Nat.mod_mod_of_dvd _ (by omega)] at hzero
  apply missing_not_dvd hfits hw hh hlt
  have hsub : w * 4294967296 - w * (4294967296 - (16 - h)) = w * (16 - h) := by
    rw [← Nat.mul_sub]
    congr 1
    omega
  rw [← hsub]
  apply Nat.dvd_sub
  · exact Nat.dvd_mul_left_of_dvd (by omega) w
  · exact Nat.dvd_of_mod_eq_zero hzero

theorem clearLoop_display_zero (hi : 0 < i) (h : clearLoop v n i m = some m') :
    m'.display 0 = m.display 0 := by
  induction n generalizing i m with
  | zero =>
    obtain rfl := Option.some.inj h
    rfl
  | succ n ih =>
    unfold clearLoop at h
    split at h
    · rw [ih (Nat.succ_pos i) h]
      exact Function.update_of_ne (Nat.ne_of_lt hi) _ _
    · cases h

/-- Moving pixels of one color draws that color. -/
theorem moveLoop_const (hbuffer : m.bufferedScreen = fun _ => color)
    (hdisplay : m.display = fun _ => color) (h : moveLoop v k n i m = some m') :
    m'.display = fun _ => color := by
  induction n generalizing i m with
  | zero =>
    obtain rfl := Option.some.inj h
    exact hdisplay
  | succ n ih =>
    unfold moveLoop at h
    simp only at h
    split at h
    · apply ih _ _ h
      · rw [hbuffer]
        exact Function.update_eq_self i _
      · rw [hbuffer, hdisplay]
        exact Function.update_eq_self i _
    · cases h

/-- On a screen that is not as high as the font `scroll_down` does not blank the first pixel. -/
theorem scrollDown_display_zero (hfits : Fits v) (hx : 0 < v.screenSize.x)
    (hy : 0 < v.screenSize.y) (hlt : v.screenSize.y < fontSize.y)
    (h : scrollDown v ⟨fun _ => color, fun _ => color⟩ = some m') : m'.display 0 = color := by
  have hmoved := moved_pos hfits hx hy hlt
  unfold scrollDown at h
  obtain ⟨m₁, hmove, hclear⟩ := Option.bind_eq_some_iff.mp h
  rw [clearLoop_display_zero (Nat.pos_of_ne_zero hmoved) hclear]
  exact congrFun (moveLoop_const rfl rfl hmove) 0

theorem height_of_follows (h : Reported mbi) (hx : 0 < mbi.framebufferWidth)
    (hy : 0 < mbi.framebufferHeight) (hfollows : Follows mbi) :
    fontSize.y ≤ mbi.framebufferHeight := by
  by_contra hlt
  obtain ⟨v, hinit⟩ := exists_init h
  have hops : ∀ op ∈ [Op.scrollDown],
      InRange mbi.framebufferWidth mbi.framebufferHeight op := by
    intro op hop
    obtain rfl := List.mem_singleton.mp hop
    trivial
  obtain ⟨m', hrun, hvisible⟩ :=
    hfollows v _ _ _ hinit (agrees_const mbi (.create 255 255 255)) hops 0 0 hx hy
  obtain ⟨m'', hscroll, hnil⟩ := run_cons_some.mp hrun
  obtain rfl := Option.some.inj hnil
  have hfits := h.fits_init hinit
  obtain rfl := init_eq hinit
  have hfirst : visible mbi m'' 0 0 = .create 255 255 255 := by
    unfold visible
    rw [Nat.zero_mul]
    exact scrollDown_display_zero hfits hx hy (Nat.lt_of_not_le hlt) hscroll
  have hblank : [Op.scrollDown].foldl (arrayStep mbi.framebufferHeight)
      (fun _ _ => .create 255 255 255) 0 0 = {} := if_neg (by omega)
  rw [hfirst, hblank] at hvisible
  have hcolor : Color.create 255 255 255 ≠ {} := by decide
  exact hcolor hvisible

/-- **The framebuffer follows the geometry exactly when its lines follow each other** and the screen
    has a row of text, or it has no pixels. -/
theorem framebuffer_follows_iff (h : Reported mbi) : Follows mbi ↔
    mbi.framebufferWidth = 0 ∨ mbi.framebufferHeight = 0 ∨
    mbi.framebufferPitch = 4 * mbi.framebufferWidth ∧ fontSize.y ≤ mbi.framebufferHeight := by
  constructor
  · intro hfollows
    rcases Nat.eq_zero_or_pos mbi.framebufferWidth with hx | hx
    · exact Or.inl hx
    · rcases Nat.eq_zero_or_pos mbi.framebufferHeight with hy | hy
      · exact Or.inr (Or.inl hy)
      · have hrow := height_of_follows h hx hy hfollows
        have htwo : 1 < mbi.framebufferHeight :=
          Nat.lt_of_lt_of_le (show 1 < fontSize.y by decide) hrow
        exact Or.inr (Or.inr ⟨pitch_of_follows h hx htwo hfollows, hrow⟩)
  · rintro (hx | hy | ⟨hpitch, hrow⟩)
    · intro v m image ops _ _ _ x y hlt
      omega
    · intro v m image ops _ _ _ x y _ hlt
      omega
    · exact follows_of_contiguous h hpitch hrow

theorem framebuffer_follows_example :
    let mbi : MultibootInfo := ⟨4096, 4244635648, 3200, 800, 600, 32⟩
    Follows mbi ↔ 800 = 0 ∨ 600 = 0 ∨ 3200 = 4 * 800 ∧ 16 ≤ 600 :=
  framebuffer_follows_iff ⟨rfl, rfl, by simp, by simp, by simp⟩

/-- `800 x 600` pixels in lines of 3328 bytes. -/
def paddedLines : MultibootInfo := ⟨4096, 4244635648, 3328, 800, 600, 32⟩

theorem padded_pixel_missed : Reported paddedLines ∧ ¬ Follows paddedLines ∧
    ∃ v m', init paddedLines = some v ∧
      run (step v) ⟨fun _ => {}, fun _ => {}⟩ [.setPixel ⟨0, 1⟩ (.create 255 255 255)] = some m' ∧
      visible paddedLines m' 0 1 = {} := by
  have hreported : Reported paddedLines := ⟨rfl, rfl, by decide, by decide, by decide⟩
  obtain ⟨v, hinit⟩ := exists_init hreported
  have hfits := hreported.fits_init hinit
  refine ⟨hreported, ?_, v, ?_⟩
  · intro hfollows
    have hpitch := pitch_of_follows hreported (by decide) (by decide) hfollows
    cases hpitch
  · have hv := init_eq hinit
    have hset : ∃ m', setPixel v ⟨fun _ => {}, fun _ => {}⟩ ⟨0, 1⟩ (.create 255 255 255) = some m' :=
      ⟨_, setPixel_eq hfits (by rw [hv]) (by rw [hv]; decide) (by rw [hv]; decide)⟩
    obtain ⟨m', hset⟩ := hset
    refine ⟨m', hinit, run_cons_some.mpr ⟨m', hset, rfl⟩, ?_⟩
    exact setPixel_missed hreported hinit (by decide) (by decide) (by decide) hset

end HryOS.Terminal.Framebuffer
