import HryOS.Terminal.Pixels

/-!
# PSF1 fonts

`load_psf_font` (`psf.cpp`) and `put_char_at` (`vesa_impl.cpp`) with the font it loads.

The header of a PSF1 file has the number of bytes in a glyph, its `char_size`.  The loader does not
read it: every font it accepts has the size `8 x 16`, and its glyphs are sixteen bytes apart.

* `load_eq` — what is loaded from a file that is accepted.
* `put_loaded` — the rows `put_char_at` draws with a loaded font, whatever its `char_size`;
  `drawsRows_iff` — it draws no others.
* `font_drawn_iff` — these are the rows of the file exactly when `char_size` is 16.
-/

set_option autoImplicit false

namespace HryOS.Terminal.Fonts

open ByteMemory

/-- The bytes a PSF1 file starts with. -/
def PSF1_MAGIC0 : UInt8 := 0x36
def PSF1_MAGIC1 : UInt8 := 0x04

/-- The mode of a file with 512 glyphs. -/
def PSF1_MODE512 : UInt8 := 0x01

/-- `fonts::font`: the address of its glyphs, and their size. -/
structure Font where
  glyphs : ℕ
  size : Vec2u
  deriving DecidableEq, Repr

/-- `psf1_header`. -/
structure Psf1Header where
  magic0 : UInt8
  magic1 : UInt8
  mode : UInt8
  charSize : UInt8
  deriving DecidableEq, Repr

/-- `reinterpret_cast<psf1_header*>(data)`. -/
def psf1Header (mem : Mem) (data : ℕ) : Psf1Header :=
  ⟨mem data, mem (u32 (data + 1)), mem (u32 (data + 2)), mem (u32 (data + 3))⟩

/-- `load_psf_font`: whether the file is accepted, and the font `f` afterwards. -/
def loadPsfFont (mem : Mem) (data : ℕ) (f : Font) : Bool × Font :=
  let psf := psf1Header mem data
  if psf.magic0 ≠ PSF1_MAGIC0 ∨ psf.magic1 ≠ PSF1_MAGIC1 then (false, f)
  else (true, { glyphs := u32 (data + 4), size := ⟨8, 16⟩ })

/-- `current_font->glyphs[i].data[y]`; a `glyph` is an array of sixteen bytes. -/
def Font.row (mem : Mem) (f : Font) (i y : ℕ) : UInt8 := mem (u32 (f.glyphs + 16 * i + y))

/-- The offsets the loops of `put_char_at` run through. -/
def fontOffsets (f : Font) : List Vec2u :=
  (List.range f.size.y).flatMap fun y => (List.range f.size.x).map fun x => ⟨x, y⟩

variable (S : Screen)

/-- `impl::put_char_at` when `current_font` is `f`. -/
def putCharAt (mem : Mem) (f : Font) (s : State) (ch : UInt8) (textPos : Vec2u)
    (color : CombinedColor) : Option State := do
  let screenPos := textPos.mul f.size
  -- `reset_char`
  let s ← offsets.foldlM (fun s d => setPixel S s (screenPos.add d) {}) s
  (fontOffsets f).foldlM (fun s d =>
    if getBit (f.row mem (charIndex ch) d.y) (f.size.x - 1 - d.x) then
      setPixel S s (screenPos.add d) (terminalToVesaColor color.foreground)
    else some s) s

/-! ## The file -/

/-- The glyphs in the file. -/
def glyphCount (mem : Mem) (data : ℕ) : ℕ :=
  if (psf1Header mem data).mode &&& PSF1_MODE512 = 0 then 256 else 512

/-- The bytes in a glyph of the file. -/
def charSize (mem : Mem) (data : ℕ) : ℕ := (psf1Header mem data).charSize.toNat

/-- Row `y` of glyph `c` in the file. -/
def storedRow (mem : Mem) (data c y : ℕ) : UInt8 := mem (data + (4 + c * charSize mem data + y))

/-- The glyph data of the file at `data` is present: there is some, and it has addresses. -/
structure Psf1File (mem : Mem) (data : ℕ) : Prop where
  charSize_pos : 0 < charSize mem data
  fits : data + 4 + glyphCount mem data * charSize mem data ≤ 4294967296

/-- The color of a pixel in a row of a glyph. -/
def rowPixel (row : UInt8) (width x : ℕ) (color : TermColor) : Color :=
  if getBit row (width - 1 - x) then terminalToVesaColor color else {}

/-- The pixel `(x, y)` of the text cell at `textPos` has the color. -/
def CellPixel (f : Font) (s : State) (textPos : Vec2u) (x y : ℕ) (color : Color) : Prop :=
  let i := Raster.index S.size.x (f.size.x * textPos.x + x) (f.size.y * textPos.y + y)
  s.bufferedScreen i = color ∧ s.display i = color

/-- In every text cell of the screen `put_char_at` draws the rows that `row` gives the glyphs of the
    7-bit characters. -/
def DrawsRows (mem : Mem) (f : Font) (row : ℕ → ℕ → UInt8) : Prop :=
  ∀ s ch textPos color, s.vesaInitialized = true → ch.toNat < 128 →
    textPos.x < S.size.x / f.size.x → textPos.y < S.size.y / f.size.y →
    ∃ s', putCharAt S mem f s ch textPos color = some s' ∧
      ∀ x y, x < f.size.x → y < f.size.y → CellPixel S f s' textPos x y
        (rowPixel (row ch.toNat y) f.size.x x color.foreground)

/-- The font is the one in the file: its rows are drawn, and it has their number. -/
structure DrawnAsStored (mem : Mem) (data : ℕ) (f : Font) : Prop where
  height : f.size.y = charSize mem data
  rows : DrawsRows S mem f (storedRow mem data)

variable {S} {mem : Mem} {data : ℕ} {f f₀ : Font} {s : State} {ch : UInt8} {textPos : Vec2u}
  {color : CombinedColor}

/-! ## Loading -/

theorem load_eq (h : loadPsfFont mem data f₀ = (true, f)) :
    f = { glyphs := u32 (data + 4), size := fontSize } := by
  unfold loadPsfFont at h
  simp only at h
  split at h
  · cases h
  · exact (congrArg Prod.snd h).symm

/-- A file is accepted exactly for its first two bytes. -/
theorem load_accepts_iff : (loadPsfFont mem data f₀).1 = true ↔
    (psf1Header mem data).magic0 = PSF1_MAGIC0 ∧ (psf1Header mem data).magic1 = PSF1_MAGIC1 := by
  unfold loadPsfFont
  simp only
  split
  · rename_i h
    constructor
    · intro hfalse
      cases hfalse
    · rintro ⟨h0, h1⟩
      exact (h.elim (fun h => h h0) fun h => h h1).elim
  · rename_i h
    rw [not_or, not_not, not_not] at h
    exact ⟨fun _ => h, fun _ => rfl⟩

/-! ## Drawing -/

/-- A font of the loader's size is drawn by its rows. -/
theorem putCharAt_eq (h : f.size = fontSize) :
    putCharAt S mem f s ch textPos color = Impl.putCharAt S (f.row mem) s ch textPos color := by
  have hglyph : ∀ s : State, drawCell S s textPos (glyphPixels (f.row mem) ch color.foreground) =
      offsets.foldlM (fun s d =>
        if getBit (f.row mem (charIndex ch) d.y) (fontSize.x - 1 - d.x) then
          setPixel S s ((textPos.mul fontSize).add d) (terminalToVesaColor color.foreground)
        else some s) s := by
    intro s
    unfold drawCell glyphPixels getScreenPos
    congr 1
    funext s d
    by_cases hbit : getBit (f.row mem (charIndex ch) d.y) (fontSize.x - 1 - d.x) = true
    · rw [if_pos hbit, if_pos hbit]
    · rw [if_neg hbit, if_neg hbit]
  unfold putCharAt Impl.putCharAt fontOffsets
  rw [h]
  simp only [hglyph]
  rfl

theorem charIndex_of_lt (h : ch.toNat < 128) : charIndex ch = ch.toNat := if_pos h

/-- A cell is reset, and the glyph is drawn over the black. -/
theorem putCharAt_paint (hgrid : OnGrid S textPos) (hv : s.vesaInitialized = true)
    (h : f.size = fontSize) :
    let glyph := glyphPixels (f.row mem) ch color.foreground
    let drawn := fun image => paint S textPos glyph (paint S textPos (fun _ => some {}) image)
    putCharAt S mem f s ch textPos color =
      some { s with bufferedScreen := drawn s.bufferedScreen, display := drawn s.display } := by
  intro glyph drawn
  let reset : State :=
    { s with bufferedScreen := paint S textPos (fun _ => some {}) s.bufferedScreen,
             display := paint S textPos (fun _ => some {}) s.display }
  have hreset : resetChar S s textPos = some reset := drawCell_eq hgrid hv _
  have hglyph := drawCell_eq (s := reset) hgrid hv glyph
  rw [putCharAt_eq h]
  unfold Impl.putCharAt
  rw [hreset]
  exact hglyph

/-- A pixel of a cell that is reset and drawn is the one in the glyph's row. -/
theorem paint_glyph (hgrid : OnGrid S textPos) {x y : ℕ} (hx : x < 8) (hy : y < 16)
    (hch : ch.toNat < 128) (glyphs : Glyphs) (fg : TermColor) (image : ℕ → Color) :
    paint S textPos (glyphPixels glyphs ch fg) (paint S textPos (fun _ => some {}) image)
      (Raster.index S.size.x (8 * textPos.x + x) (16 * textPos.y + y)) =
      rowPixel (glyphs ch.toNat y) fontSize.x x fg := by
  have hi := hgrid.pixelIndex_eq (d := ⟨x, y⟩) hx hy
  obtain ⟨hcell, hoff⟩ := (hgrid.eq_pixelIndex_iff (d := ⟨x, y⟩) hx hy).mp hi.symm
  unfold paint
  rw [if_pos hcell, if_pos hcell, hoff]
  unfold glyphPixels rowPixel
  rw [charIndex_of_lt hch]
  split
  · rfl
  · rfl

/-- **What is drawn.**  A font of the loader's size is drawn row by row. -/
theorem drawsRows_of_size (h : f.size = fontSize) : DrawsRows S mem f (f.row mem) := by
  intro s ch textPos color hv hch hx hy
  rw [h] at hx hy
  have hgrid : OnGrid S textPos := ⟨hx, hy⟩
  refine ⟨_, putCharAt_paint hgrid hv h, ?_⟩
  intro x y hx hy
  unfold CellPixel
  rw [h] at hx hy ⊢
  constructor
  · exact paint_glyph hgrid hx hy hch _ _ _
  · exact paint_glyph hgrid hx hy hch _ _ _

/-- **Every font is drawn as one of sixteen rows**: row `y` of glyph `c` is the byte
    `4 + 16 * c + y` of the file. -/
theorem put_loaded (h : loadPsfFont mem data f₀ = (true, f)) :
    DrawsRows S mem f fun c y => mem (u32 (data + (4 + 16 * c + y))) := by
  have hf := load_eq h
  have hrow : f.row mem = fun c y => mem (u32 (data + (4 + 16 * c + y))) := by
    funext c y
    rw [hf]
    unfold Font.row u32
    congr 1
    simp only
    omega
  rw [← hrow]
  apply drawsRows_of_size
  rw [hf]

/-- Rows that agree on the glyphs of the 7-bit characters are drawn alike. -/
theorem DrawsRows.congr {row row' : ℕ → ℕ → UInt8} (h : DrawsRows S mem f row)
    (heq : ∀ c y, c < 128 → y < f.size.y → row c y = row' c y) : DrawsRows S mem f row' := by
  intro s ch textPos color hv hch hx hy
  obtain ⟨s', hput, hpixels⟩ := h s ch textPos color hv hch hx hy
  refine ⟨s', hput, ?_⟩
  intro x y hx' hy'
  rw [← heq ch.toNat y hch hy']
  exact hpixels x y hx' hy'

theorem rowPixel_inj {a b : UInt8}
    (h : ∀ x, x < 8 → rowPixel a 8 x .white = rowPixel b 8 x .white) : a = b := by
  have hcolor : terminalToVesaColor .white ≠ {} := by decide
  apply UInt8.toNat_inj.mp
  apply Nat.eq_of_testBit_eq
  intro i
  by_cases hi : i < 8
  · have hx := h (7 - i) (by omega)
    unfold rowPixel getBit at hx
    rw [show 8 - 1 - (7 - i) = i by omega] at hx
    cases ha : a.toNat.testBit i <;> cases hb : b.toNat.testBit i
    · rfl
    · rw [ha, hb] at hx
      exact absurd hx.symm hcolor
    · rw [ha, hb] at hx
      exact absurd hx hcolor
    · rfl
  · have hpow : 2 ^ 8 ≤ 2 ^ i := Nat.pow_le_pow_right (by omega) (by omega)
    rw [Nat.testBit_lt_two_pow (Nat.lt_of_lt_of_le a.toNat_lt hpow),
      Nat.testBit_lt_two_pow (Nat.lt_of_lt_of_le b.toNat_lt hpow)]

/-- No other rows are drawn. -/
theorem drawsRows_iff (h : f.size = fontSize) {row : ℕ → ℕ → UInt8} :
    DrawsRows S mem f row ↔ ∀ c y, c < 128 → y < 16 → f.row mem c y = row c y := by
  have hdraws : DrawsRows S mem f (f.row mem) := drawsRows_of_size h
  constructor
  · intro hrow c y hc hy
    let s : State :=
      { isInitialized := true, cursorPos := ⟨0, 0⟩, currentColor := ⟨.white, .black⟩,
        vesaInitialized := true, display := fun _ => {}, bufferedScreen := fun _ => {},
        lastCursorTextPos := ⟨0, 0⟩ }
    have hch : (UInt8.ofNat c).toNat = c := by
      rw [UInt8.toNat_ofNat']
      omega
    have hlt : (UInt8.ofNat c).toNat < 128 := by rw [hch]; exact hc
    have hw : 0 < S.size.x / f.size.x := by
      rw [h]
      exact Nat.div_pos S.width_le (by decide)
    have hh : 0 < S.size.y / f.size.y := by
      rw [h]
      exact Nat.div_pos S.height_le (by decide)
    obtain ⟨s₁, hput₁, hpix₁⟩ := hdraws s _ ⟨0, 0⟩ ⟨.white, .black⟩ rfl hlt hw hh
    obtain ⟨s₂, hput₂, hpix₂⟩ := hrow s _ ⟨0, 0⟩ ⟨.white, .black⟩ rfl hlt hw hh
    obtain rfl : s₁ = s₂ := Option.some.inj (hput₁.symm.trans hput₂)
    rw [h, hch] at hpix₁ hpix₂
    apply rowPixel_inj
    intro x hx
    exact (hpix₁ x y hx hy).2.symm.trans (hpix₂ x y hx hy).2
  · intro heq
    apply hdraws.congr
    intro c y hc hy
    rw [h] at hy
    exact heq c y hc hy

theorem le_glyphCount (mem : Mem) (data : ℕ) : 256 ≤ glyphCount mem data := by
  unfold glyphCount
  split
  · apply Nat.le_refl
  · decide

/-- In a file of sixteen-byte glyphs the loader's addresses are those of the rows. -/
theorem loaded_row_eq (h : Psf1File mem data) (hsize : charSize mem data = 16) {c y : ℕ}
    (hc : c < 128) (hy : y < 16) :
    mem (u32 (data + (4 + 16 * c + y))) = storedRow mem data c y := by
  have hcount := le_glyphCount mem data
  have hfits := h.fits
  unfold storedRow
  rw [hsize] at hfits ⊢
  rw [u32_of_lt (by omega), Nat.mul_comm 16 c]

/-- **A font that is accepted is drawn as stored exactly when its glyphs have sixteen rows.** -/
theorem font_drawn_iff (h : Psf1File mem data) (hload : loadPsfFont mem data f₀ = (true, f)) :
    DrawnAsStored S mem data f ↔ charSize mem data = 16 := by
  have hheight : f.size.y = 16 := by rw [load_eq hload]; rfl
  constructor
  · intro hdrawn
    rw [← hdrawn.height, hheight]
  · intro hsize
    refine ⟨hheight.trans hsize.symm, ?_⟩
    apply (put_loaded hload).congr
    intro c y hc hy
    rw [hheight] at hy
    exact loaded_row_eq h hsize hc hy

/-- A screen of one text cell. -/
def oneCell : Screen :=
  { size := ⟨8, 16⟩, width_le := Nat.le_refl 8, height_le := Nat.le_refl 16, fits := by decide }

/-- A file that starts with the header of `zap_light16`. -/
def zapLight16 : Mem := storeBytes (fun _ => 0) 0 [0x36, 0x04, 0x02, 0x10]

theorem font_drawn_example : DrawnAsStored oneCell zapLight16 0 ⟨4, ⟨8, 16⟩⟩ ↔
    charSize zapLight16 0 = 16 :=
  font_drawn_iff ⟨by decide, by decide⟩
    (rfl : loadPsfFont zapLight16 0 ⟨0, ⟨0, 0⟩⟩ = (true, ⟨4, ⟨8, 16⟩⟩))

/-- A file with glyphs of eight rows; the first row of glyph 1 is set. -/
def eightRows : Mem :=
  storeBytes (fun _ => 0) 0 [0x36, 0x04, 0x00, 0x08, 0, 0, 0, 0, 0, 0, 0, 0, 0xff]

/-- The eight rows of a glyph are drawn with those of the next one below them, as the glyph with
    half the number. -/
theorem font_rows_doubled : ∃ f, Psf1File eightRows 0 ∧
    loadPsfFont eightRows 0 ⟨0, ⟨0, 0⟩⟩ = (true, f) ∧ charSize eightRows 0 = 8 ∧
    f.row eightRows 0 8 = storedRow eightRows 0 1 0 ∧
    ¬ DrawsRows oneCell eightRows f (storedRow eightRows 0) ∧
    ¬ DrawnAsStored oneCell eightRows 0 f := by
  have hrows : ¬ DrawsRows oneCell eightRows ⟨4, ⟨8, 16⟩⟩ (storedRow eightRows 0) := by
    rw [drawsRows_iff rfl]
    intro h
    have hrow : Font.row eightRows ⟨4, ⟨8, 16⟩⟩ 1 0 ≠ storedRow eightRows 0 1 0 := by decide
    exact hrow (h 1 0 (by omega) (by omega))
  refine ⟨⟨4, ⟨8, 16⟩⟩, ⟨by decide, by decide⟩, rfl, rfl, rfl, hrows, ?_⟩
  intro h
  exact hrows h.rows

end HryOS.Terminal.Fonts
