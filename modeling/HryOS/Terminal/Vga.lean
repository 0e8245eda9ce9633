import HryOS.Hlib.Algorithm
import HryOS.Terminal.Backend
import HryOS.Terminal.Screen

/-!
# The VGA implementation

`drivers/vga` and `vga_impl.cpp`: entries of a character and a color byte, and the cursor location
registers of the CRT controller behind its index and data ports.

* `vgaBackend` — the functions of `impl.hpp`; an access through the null entry has no result.
* `VgaShows` — the 80 × 25 entries hold the cells, and no entry behind them has changed.
* `vgaBackend_correct` — it is a correct implementation.
* `vga_shows_text`, `builds_show_same_text` — over all runs.
-/

set_option autoImplicit false

namespace HryOS.Terminal

open ByteMemory Transition TextGrid

/-! ## Entries -/

/-- The value of a `vga::color` or `terminal::color`; the two enumerations have the same values. -/
def TermColor.value : TermColor → UInt8
  | .black => 0
  | .blue => 1
  | .green => 2
  | .cyan => 3
  | .red => 4
  | .magenta => 5
  | .brown => 6
  | .lightGrey => 7
  | .darkGrey => 8
  | .lightBlue => 9
  | .lightGreen => 10
  | .lightCyan => 11
  | .lightRed => 12
  | .lightMagenta => 13
  | .lightBrown => 14
  | .white => 15

/-- `vga::entry`. -/
structure VgaEntry where
  character : UInt8
  color : UInt8
  deriving DecidableEq, Repr

namespace VgaEntry

/-- `set_character`. -/
def setCharacter (e : VgaEntry) (ch : UInt8) : VgaEntry := { e with character := ch }

/-- `set_color`. -/
def setColor (e : VgaEntry) (foreground background : TermColor) : VgaEntry :=
  { e with color := foreground.value ||| (background.value <<< 4) }

/-- `set_color`, of a `combined_color`. -/
def setCombinedColor (e : VgaEntry) (color : CombinedColor) : VgaEntry :=
  e.setColor color.foreground color.background

/-- `reset`. -/
def reset (_ : VgaEntry) : VgaEntry := { character := 0, color := 0 }

end VgaEntry

/-! ## The CRT controller -/

/-- The selected index and the registers. -/
structure Crtc where
  index : UInt8
  regs : UInt8 → UInt8

/-- A byte to a port: 0x3D4 selects the register that 0x3D5 writes. -/
def Crtc.outByte (c : Crtc) (port : ℕ) (data : UInt8) : Crtc :=
  if port = 0x3D4 then { c with index := data }
  else if port = 0x3D5 then { c with regs := Function.update c.regs c.index data }
  else c

/-- The cursor location, from its high and its low register. -/
def Crtc.cursorLocation (c : Crtc) : ℕ := 256 * (c.regs 0x0E).toNat + (c.regs 0x0F).toNat

/-! ## `vga.cpp` -/

/-- The entries from 0xB8000 on, and the controller. -/
structure VgaState where
  display : ℕ → VgaEntry
  crtc : Crtc

namespace Vga

/-- `DISPLAY_SIZE`. -/
def displaySize : Vec2u := ⟨80, 25⟩

/-- `get_entry`: the index of an entry, or null. -/
def getEntry (pos : Vec2u) : Option ℕ :=
  if pos.x < displaySize.x ∧ pos.y < displaySize.y then
    some (u32 (u32 (pos.y * displaySize.x) + pos.x))
  else none

/-- `set_entry`. -/
def setEntry (s : VgaState) (pos : Vec2u) (ch : UInt8) (fg bg : TermColor) : VgaState :=
  match getEntry pos with
  | some e =>
    let entry := ((s.display e).setColor fg bg).setCharacter ch
    { s with display := Function.update s.display e entry }
  | none => s

/-- `flat_pos`, a `uint16_t`. -/
def flatPos (pos : Vec2u) : ℕ := u32 (u32 (pos.y * displaySize.x) + pos.x) % 65536

/-- `set_cursor_pos`. -/
def setCursorPos (s : VgaState) (pos : Vec2u) : VgaState :=
  let c := s.crtc.outByte 0x3D4 0x0F
  let c := c.outByte 0x3D5 (UInt8.ofNat (flatPos pos))
  let c := c.outByte 0x3D4 0x0E
  let c := c.outByte 0x3D5 (UInt8.ofNat (flatPos pos / 256))
  { s with crtc := c }

/-! ## `vga_impl.cpp` -/

/-- `impl::put_char_at`: the entry is not compared with null. -/
def putCharAt (s : VgaState) (ch : UInt8) (pos : Vec2u) (color : CombinedColor) :
    Option VgaState := do
  let e ← getEntry pos
  let entry := ((s.display e).setCharacter ch).setCombinedColor color
  return { s with display := Function.update s.display e entry }

/-- The positions `for (y ...) for (x ...)` runs through. -/
def positions : List Vec2u :=
  (List.range displaySize.y).flatMap fun y => (List.range displaySize.x).map fun x => ⟨x, y⟩

/-- `impl::clear_screen`. -/
def clearScreen (s : VgaState) : Option VgaState :=
  positions.foldlM (fun s pos => putCharAt s 32 pos ⟨.white, .black⟩) s

/-- `get_entry(pos)->reset()`. -/
def resetEntry (s : VgaState) (pos : Vec2u) : Option VgaState := do
  let e ← getEntry pos
  return { s with display := Function.update s.display e (s.display e).reset }

/-- The last row. -/
def lastRow : List Vec2u := (List.range displaySize.x).map fun i => ⟨i, displaySize.y - 1⟩

/-- `impl::scroll_down`. -/
def scrollDown (s : VgaState) : Option VgaState :=
  let display := Algorithm.copyN displaySize.x (displaySize.x * (displaySize.y - 1)) 0 s.display
  lastRow.foldlM resetEntry { s with display }

end Vga

/-- The functions of `vga_impl.cpp`. -/
def vgaBackend : Backend VgaState :=
  { clearScreen := Vga.clearScreen
    putCharAt := Vga.putCharAt
    getWidth := Vga.displaySize.x
    getHeight := Vga.displaySize.y
    setCursorAt := fun s pos => some (Vga.setCursorPos s pos)
    scrollDown := Vga.scrollDown }

/-! ## What the entries show -/

/-- An entry shows a cell: the low half of the color byte is the foreground, the high half the
    background. -/
def VgaEntry.ShowsCell (e : VgaEntry) : Option ColorGlyph → Prop
  | some (ch, color) => e.character = ch ∧ e.color &&& 15 = color.foreground.value ∧
      e.color >>> 4 = color.background.value
  | none => (e.character = 32 ∨ e.character = 0) ∧ e.color >>> 4 = TermColor.black.value

/-- The entries of the display show the cells, and those behind it are as in `memory`. -/
structure VgaShows (memory : ℕ → VgaEntry) (s : VgaState) (cells : ℕ → ℕ → Option ColorGlyph) :
    Prop where
  entries : ∀ x y, x < 80 → y < 25 → (s.display (80 * y + x)).ShowsCell (cells x y)
  behind : ∀ i, 2000 ≤ i → s.display i = memory i

/-- The controller shows the cursor in a cell. -/
def VgaCursorAt (s : VgaState) (pos : Vec2u) : Prop :=
  s.crtc.cursorLocation = 80 * pos.y + pos.x

namespace Vga

variable {s : VgaState} {pos : Vec2u} {memory : ℕ → VgaEntry}
  {cells : ℕ → ℕ → Option ColorGlyph} {g : Grid ColorGlyph}

theorem getEntry_eq (hx : pos.x < 80) (hy : pos.y < 25) :
    getEntry pos = some (80 * pos.y + pos.x) := by
  have hrow : u32 (pos.y * displaySize.x) = pos.y * 80 := u32_of_lt (by simp [displaySize]; omega)
  have hflat : u32 (pos.y * 80 + pos.x) = 80 * pos.y + pos.x := by
    rw [u32_of_lt (by omega), Nat.mul_comm]
  unfold getEntry
  rw [if_pos ⟨hx, hy⟩, hrow, hflat]

theorem low_half (fg bg : TermColor) : (fg.value ||| (bg.value <<< 4)) &&& 15 = fg.value := by
  cases fg <;> cases bg <;> rfl

theorem high_half (fg bg : TermColor) : (fg.value ||| (bg.value <<< 4)) >>> 4 = bg.value := by
  cases fg <;> cases bg <;> rfl

/-- What `put_char_at` stores does not depend on the entry before it. -/
theorem putCharAt_eq (hx : pos.x < 80) (hy : pos.y < 25) (ch : UInt8) (color : CombinedColor) :
    putCharAt s ch pos color = some { s with
      display := Function.update s.display (80 * pos.y + pos.x)
        ⟨ch, color.foreground.value ||| (color.background.value <<< 4)⟩ } := by
  unfold putCharAt
  rw [getEntry_eq hx hy]
  rfl

theorem resetEntry_eq (hx : pos.x < 80) (hy : pos.y < 25) :
    resetEntry s pos = some { s with
      display := Function.update s.display (80 * pos.y + pos.x) ⟨0, 0⟩ } := by
  unfold resetEntry
  rw [getEntry_eq hx hy]
  rfl

/-- A loop that stores one value in the entries of some positions. -/
theorem foldlM_store (store : VgaState → Vec2u → Option VgaState) {value : VgaEntry}
    (hstore : ∀ s pos, pos.x < 80 → pos.y < 25 → store s pos = some { s with
      display := Function.update s.display (80 * pos.y + pos.x) value })
    {ps : List Vec2u} (hps : ∀ pos ∈ ps, pos.x < 80 ∧ pos.y < 25) (s : VgaState) :
    ∃ s', ps.foldlM store s = some s' ∧ s'.crtc = s.crtc ∧
      ∀ i, s'.display i = value ∧ (∃ pos ∈ ps, i = 80 * pos.y + pos.x) ∨
        s'.display i = s.display i ∧ ∀ pos ∈ ps, i ≠ 80 * pos.y + pos.x := by
  induction ps generalizing s with
  | nil => exact ⟨s, rfl, rfl, fun i => Or.inr ⟨rfl, fun pos hpos => by cases hpos⟩⟩
  | cons p ps ih =>
    obtain ⟨hx, hy⟩ := hps p List.mem_cons_self
    obtain ⟨s', hs', hcrtc, hdisplay⟩ := ih (fun q hq => hps q (List.mem_cons_of_mem p hq))
      { s with display := Function.update s.display (80 * p.y + p.x) value }
    refine ⟨s', ?_, hcrtc, ?_⟩
    · rw [List.foldlM_cons, hstore s p hx hy]
      exact hs'
    · intro i
      rcases hdisplay i with ⟨hi, q, hq, rfl⟩ | ⟨hi, hout⟩
      · exact Or.inl ⟨hi, q, List.mem_cons_of_mem p hq, rfl⟩
      · by_cases hp : i = 80 * p.y + p.x
        · subst hp
          exact Or.inl ⟨hi.trans (Function.update_self _ _ _), p, List.mem_cons_self, rfl⟩
        · refine Or.inr ⟨hi.trans (Function.update_of_ne hp _ _), fun q hq => ?_⟩
          rcases List.mem_cons.mp hq with rfl | hq'
          · exact hp
          · exact hout q hq'

theorem mem_positions : pos ∈ positions ↔ pos.x < 80 ∧ pos.y < 25 := by
  unfold positions
  simp only [displaySize, List.mem_flatMap, List.mem_map, List.mem_range]
  constructor
  · rintro ⟨y, hy, x, hx, rfl⟩
    exact ⟨hx, hy⟩
  · rintro ⟨hx, hy⟩
    exact ⟨pos.y, hy, pos.x, hx, rfl⟩

theorem mem_lastRow : pos ∈ lastRow ↔ pos.x < 80 ∧ pos.y = 24 := by
  unfold lastRow
  simp only [displaySize, List.mem_map, List.mem_range]
  constructor
  · rintro ⟨x, hx, rfl⟩
    exact ⟨hx, rfl⟩
  · rintro ⟨hx, hy⟩
    exact ⟨pos.x, hx, by simp [← hy]⟩

/-- Where there is an entry, `put_char_at` does what `set_entry` does; elsewhere `set_entry` does
    nothing, and `put_char_at` goes through the null entry. -/
theorem putCharAt_eq_setEntry (s : VgaState) (ch : UInt8) (pos : Vec2u) (color : CombinedColor) :
    putCharAt s ch pos color =
      if pos.x < 80 ∧ pos.y < 25 then some (setEntry s pos ch color.foreground color.background)
      else none := by
  unfold putCharAt setEntry
  by_cases hpos : pos.x < 80 ∧ pos.y < 25
  · rw [getEntry_eq hpos.1 hpos.2, if_pos hpos]
    rfl
  · have hnull : getEntry pos = none := if_neg hpos
    rw [hnull, if_neg hpos]
    rfl

/-- Clearing, whatever the entries were. -/
theorem clearScreen_shows (hready : ∀ i, 2000 ≤ i → s.display i = memory i) :
    ∃ s', clearScreen s = some s' ∧ VgaShows memory s' (clear : Grid ColorGlyph).cells := by
  obtain ⟨s', hs', -, hdisplay⟩ := foldlM_store
    (fun s pos => putCharAt s 32 pos ⟨.white, .black⟩)
    (fun s pos hx hy => putCharAt_eq hx hy 32 ⟨.white, .black⟩)
    (fun pos hpos => mem_positions.mp hpos) s
  refine ⟨s', hs', ⟨?_, ?_⟩⟩
  · intro x y hx hy
    rcases hdisplay (80 * y + x) with ⟨hi, -⟩ | ⟨-, hout⟩
    · rw [hi]
      exact ⟨Or.inl rfl, rfl⟩
    · exact absurd rfl (hout ⟨x, y⟩ (mem_positions.mpr ⟨hx, hy⟩))
  · intro i hi
    rcases hdisplay i with ⟨-, pos, hpos, rfl⟩ | ⟨h, -⟩
    · have := mem_positions.mp hpos
      omega
    · exact h.trans (hready i hi)

theorem putCharAt_shows (h : VgaShows memory s g.cells) (ch : UInt8) (color : CombinedColor)
    (pos : Vec2u) (hx : pos.x < 80) (hy : pos.y < 25) :
    ∃ s', putCharAt s ch pos color = some s' ∧
      VgaShows memory s' (typeAt g (ch, color) pos.x pos.y).cells ∧ s'.crtc = s.crtc := by
  refine ⟨_, putCharAt_eq hx hy ch color, ⟨?_, ?_⟩, rfl⟩
  · intro x y hx' hy'
    simp only [typeAt]
    by_cases hcell : x = pos.x ∧ y = pos.y
    · obtain ⟨rfl, rfl⟩ := hcell
      rw [if_pos ⟨rfl, rfl⟩, Function.update_self]
      exact ⟨rfl, low_half _ _, high_half _ _⟩
    · rw [if_neg hcell, Function.update_of_ne (by omega)]
      exact h.entries x y hx' hy'
  · intro i hi
    simp only
    rw [Function.update_of_ne (by omega)]
    exact h.behind i hi

/-- Scrolling: the destination begins before the source, so that `copy_n` moves the rows. -/
theorem scrollDown_shows (h : VgaShows memory s g.cells) :
    ∃ s', scrollDown s = some s' ∧ VgaShows memory s' (scroll 25 g).cells := by
  have hmoved : ∀ i, Algorithm.copyN displaySize.x (displaySize.x * (displaySize.y - 1)) 0
      s.display i = if i < 1920 then s.display (80 + i) else s.display i := by
    intro i
    rw [Algorithm.copyN_eq, Algorithm.copied_eq_moved (Or.inl (Nat.zero_le _))]
    simp [Algorithm.moved, displaySize]
  obtain ⟨s', hs', -, hdisplay⟩ := foldlM_store resetEntry
    (fun s pos hx hy => resetEntry_eq hx hy)
    (fun pos hpos => ⟨(mem_lastRow.mp hpos).1, by have := mem_lastRow.mp hpos; omega⟩)
    ⟨Algorithm.copyN displaySize.x (displaySize.x * (displaySize.y - 1)) 0 s.display, s.crtc⟩
  simp only [hmoved] at hdisplay
  refine ⟨s', hs', ⟨?_, ?_⟩⟩
  · intro x y hx hy
    simp only [scroll]
    rcases hdisplay (80 * y + x) with ⟨hi, pos, hpos, heq⟩ | ⟨hi, hout⟩
    · have hlast := mem_lastRow.mp hpos
      rw [hi, if_neg (by omega)]
      exact ⟨Or.inr rfl, rfl⟩
    · have hy' : y ≠ 24 := fun h => hout ⟨x, y⟩ (mem_lastRow.mpr ⟨hx, h⟩) rfl
      rw [hi, if_pos (by omega), if_pos (by omega), show 80 + (80 * y + x) = 80 * (y + 1) + x by
        omega]
      exact h.entries x (y + 1) hx (by omega)
  · intro i hi
    rcases hdisplay i with ⟨-, pos, hpos, rfl⟩ | ⟨hi', -⟩
    · have := mem_lastRow.mp hpos
      omega
    · rw [hi', if_neg (by omega)]
      exact h.behind i hi

/-- The two registers hold the position, which is below 2000. -/
theorem setCursorPos_at (s : VgaState) (hx : pos.x < 80) (hy : pos.y < 25) :
    VgaCursorAt (setCursorPos s pos) pos := by
  have hrow : u32 (pos.y * displaySize.x) = pos.y * 80 := u32_of_lt (by simp [displaySize]; omega)
  have hflat : flatPos pos = 80 * pos.y + pos.x := by
    unfold flatPos
    rw [hrow, u32_of_lt (by omega), Nat.mod_eq_of_lt (by omega), Nat.mul_comm]
  have hlow : (setCursorPos s pos).crtc.regs 0x0F = UInt8.ofNat (flatPos pos) := rfl
  have hhigh : (setCursorPos s pos).crtc.regs 0x0E = UInt8.ofNat (flatPos pos / 256) := rfl
  unfold VgaCursorAt Crtc.cursorLocation
  rw [hlow, hhigh, hflat, UInt8.toNat_ofNat', UInt8.toNat_ofNat']
  omega

end Vga

/-- **The VGA implementation is correct.** -/
theorem vgaBackend_correct (memory : ℕ → VgaEntry) :
    vgaBackend.Correct (fun s => ∀ i, 2000 ≤ i → s.display i = memory i) (VgaShows memory)
      VgaCursorAt where
  width_pos := by decide
  height_pos := by decide
  width_lt := by decide
  height_lt := by decide
  ready := fun h => h.behind
  clearScreen := fun hready => Vga.clearScreen_shows hready
  putCharAt := by
    intro s g ch color pos h hx hy
    obtain ⟨s', hs', hshows, hcrtc⟩ := Vga.putCharAt_shows h ch color pos hx hy
    refine ⟨s', hs', hshows, fun cursor hcursor => ?_⟩
    unfold VgaCursorAt at hcursor ⊢
    rw [hcrtc]
    exact hcursor
  setCursorAt := by
    intro s cells pos h hx hy
    exact ⟨_, rfl, ⟨h.entries, h.behind⟩, Vga.setCursorPos_at s hx hy⟩
  scrollDown := fun h => Vga.scrollDown_shows h

/-! ## Runs -/

/-- The text after some operations, from the cleared screen. -/
def colorRun (w h : ℕ) (ops : List Op) : ColorText := ops.foldl (colorStep w h) .cleared

/-- **The VGA display shows the text**: after `terminal::init`, `clear_screen` and any operations
    with positions in range, no access was through the null entry, every entry shows its cell of
    the text with both colors, the cursor registers hold the cell of the text's cursor, and nothing
    behind the 2000 entries was written. -/
theorem vga_shows_text (display : ℕ → VgaEntry) (crtc : Crtc) (ops : List Op)
    (hops : ∀ op ∈ ops, op.Within 80 25) :
    ∃ s, run (backendStep vgaBackend) (.booted ⟨display, crtc⟩) (.clearScreen :: ops) = some s ∧
      (∀ x y, x < 80 → y < 25 →
        (s.impl.display (80 * y + x)).ShowsCell ((colorRun 80 25 ops).grid.cells x y)) ∧
      s.cursorPos = ⟨(colorRun 80 25 ops).grid.col, (colorRun 80 25 ops).grid.row⟩ ∧
      s.impl.crtc.cursorLocation =
        80 * (colorRun 80 25 ops).grid.row + (colorRun 80 25 ops).grid.col ∧
      ∀ i, 2000 ≤ i → s.impl.display i = display i := by
  obtain ⟨s, hs, h⟩ := backend_run_refines (vgaBackend_correct display) ⟨display, crtc⟩
    (fun _ _ => rfl) hops
  have hcursor : s.cursorPos = ⟨(colorRun 80 25 ops).grid.col, (colorRun 80 25 ops).grid.row⟩ :=
    h.cursor
  have hshown := h.shown
  unfold VgaCursorAt at hshown
  rw [hcursor] at hshown
  exact ⟨s, hs, h.cells.entries, hcursor, hshown, h.cells.behind⟩

/-- Two characters in the last cell and behind it: the second row of the text moves up. -/
theorem vga_shows_text_example :
    ∃ s, run (backendStep vgaBackend) (.booted ⟨fun _ => ⟨7, 7⟩, ⟨0, fun _ => 0⟩⟩)
        [.clearScreen, .moveCursor ⟨79, 24⟩, .setBackgroundColor .blue, .print [65, 66]] = some s ∧
      s.cursorPos = ⟨1, 24⟩ ∧ s.impl.crtc.cursorLocation = 1921 ∧
      (s.impl.display 1919).character = 65 := by
  obtain ⟨s, hs, hentries, hcursor, hlocation, -⟩ := vga_shows_text (fun _ => ⟨7, 7⟩)
    ⟨0, fun _ => 0⟩ [.moveCursor ⟨79, 24⟩, .setBackgroundColor .blue, .print [65, 66]]
    (by simp [Op.Within])
  exact ⟨s, hs, hcursor.trans (by decide), hlocation.trans (by decide),
    (hentries 79 23 (by decide) (by decide)).1⟩

/-- The glyph that the pixels show: the background color is left out. -/
def ColorGlyph.glyph (a : ColorGlyph) : Glyph := (a.1, a.2.foreground)

/-- The text without background colors. -/
def ColorText.textState (t : ColorText) : TextState :=
  ⟨map ColorGlyph.glyph t.grid, t.color.foreground⟩

theorem textPut_textState (S : Screen) (t : ColorText) (ch : UInt8) :
    textPut S t.textState ch =
      (t.put (Impl.getWidth S) (Impl.getHeight S) ch).textState := by
  unfold textPut ColorText.textState ColorText.put
  rw [map_type]
  rfl

/-- **The two text terminals agree.** -/
theorem textStep_textState (S : Screen) (t : ColorText) (op : Op) :
    textStep S t.textState op =
      (colorStep (Impl.getWidth S) (Impl.getHeight S) t op).textState := by
  cases op with
  | putChar ch => exact textPut_textState S t ch
  | print fmt =>
    change (fmt.takeWhile (· ≠ 0)).foldl (textPut S) t.textState =
      ((fmt.takeWhile (· ≠ 0)).foldl (ColorText.put (Impl.getWidth S) (Impl.getHeight S))
        t).textState
    induction fmt.takeWhile (· ≠ 0) generalizing t with
    | nil => rfl
    | cons ch chars ih => rw [List.foldl_cons, List.foldl_cons, textPut_textState, ih]
  | nextLine =>
    unfold textStep colorStep ColorText.textState
    rw [map_newline]
  | setForegroundColor color => rfl
  | setBackgroundColor color => rfl
  | clearScreen =>
    unfold textStep colorStep ColorText.textState
    rw [map_clear]
  | putCharAt ch pos =>
    unfold textStep colorStep ColorText.textState
    rw [map_typeAt]
    rfl
  | moveCursor pos => rfl

theorem foldl_textStep (S : Screen) (ops : List Op) (t : ColorText) :
    ops.foldl (textStep S) t.textState =
      (ops.foldl (colorStep (Impl.getWidth S) (Impl.getHeight S)) t).textState := by
  induction ops generalizing t with
  | nil => rfl
  | cons op ops ih => rw [List.foldl_cons, List.foldl_cons, textStep_textState, ih]

/-- **Both builds show the same text**: on a screen of 80 × 25 glyphs, after the same operations,
    there is one grid of cells of which the entries are the cells and the pixels are the picture,
    and the cursors are at the same position. -/
theorem builds_show_same_text (S : Screen) (hwidth : Impl.getWidth S = 80)
    (hheight : Impl.getHeight S = 25) (glyphs : Glyphs) (pixels bufferedScreen : ℕ → Color)
    (display : ℕ → VgaEntry) (crtc : Crtc) (ops : List Op) (hops : ∀ op ∈ ops, op.InRange S) :
    ∃ s v, ∃ cells : ℕ → ℕ → Option ColorGlyph,
      run (step S glyphs) (booted pixels bufferedScreen) (.clearScreen :: ops) = some s ∧
      run (backendStep vgaBackend) (.booted ⟨display, crtc⟩) (.clearScreen :: ops) = some v ∧
      s.cursorPos = v.cursorPos ∧
      (∀ i, i < S.size.x * S.size.y →
        s.bufferedScreen i =
          render S glyphs (fun x y => (cells x y).map ColorGlyph.glyph) i) ∧
      ∀ x y, x < 80 → y < 25 → (v.impl.display (80 * y + x)).ShowsCell (cells x y) := by
  obtain ⟨s₀, hs₀, hr₀, -⟩ := booted_clearScreen S glyphs pixels bufferedScreen
  obtain ⟨s, hs, hr⟩ := run_refines hr₀ hops
  have hwithin : ∀ op ∈ ops, op.Within vgaBackend.getWidth vgaBackend.getHeight := by
    intro op hop
    have hin := hops op hop
    cases op with
    | putCharAt ch pos =>
      simp only [Op.InRange, hwidth, hheight] at hin
      exact hin
    | moveCursor pos =>
      simp only [Op.InRange, hwidth, hheight] at hin
      exact hin
    | _ => trivial
  obtain ⟨v, hv, hshows⟩ := backend_run_refines (vgaBackend_correct display)
    ⟨display, crtc⟩ (fun _ _ => rfl) hwithin
  have htext : ops.foldl (textStep S) ⟨clear, .white⟩ = (colorRun 80 25 ops).textState := by
    have h := foldl_textStep S ops .cleared
    rw [hwidth, hheight] at h
    exact h
  rw [htext] at hr
  refine ⟨s, v, (colorRun 80 25 ops).grid.cells, run_cons_some.mpr ⟨s₀, hs₀, hs⟩, hv, ?_,
    hr.pixels.buffer, hshows.cells.entries⟩
  exact hr.cursor.trans hshows.cursor.symm

/-- A screen of 640 × 400 pixels. -/
theorem builds_show_same_text_example :
    ∃ s v, run (step ⟨⟨640, 400⟩, by decide, by decide, by decide⟩ fun _ _ => 255)
        (booted (fun _ => {}) fun _ => {})
        [.clearScreen, .moveCursor ⟨79, 24⟩, .print [65, 66]] = some s ∧
      run (backendStep vgaBackend) (.booted ⟨fun _ => ⟨7, 7⟩, ⟨0, fun _ => 0⟩⟩)
        [.clearScreen, .moveCursor ⟨79, 24⟩, .print [65, 66]] = some v ∧
      s.cursorPos = v.cursorPos := by
  obtain ⟨s, v, -, hs, hv, hcursor, -⟩ := builds_show_same_text
    ⟨⟨640, 400⟩, by simp, by simp, by simp⟩ rfl rfl (fun _ _ => 255) (fun _ => {}) (fun _ => {})
    (fun _ => ⟨7, 7⟩) ⟨0, fun _ => 0⟩ [.moveCursor ⟨79, 24⟩, .print [65, 66]]
    (by simp [Op.InRange, Impl.getWidth, Impl.getHeight, fontSize])
  exact ⟨s, v, hs, hv, hcursor⟩

end HryOS.Terminal
