import HryOS.Lib.Raster
import HryOS.Terminal.Vesa

/-!
# What the drawing functions leave

Each function of `vesa_impl.cpp` at a position on the text grid, as an equation for the pixels it
leaves in the buffer and on the display.

* `drawCell_eq`, `drawColumn_eq` — the pixels of a text cell, and of the cursor's column in it.
* `clearLoop_eq`, `moveLoop_eq` — the loops over the pixels of the screen.
-/

set_option autoImplicit false

namespace HryOS.Terminal

open ByteMemory

variable (S : Screen)

/-- A position on the text grid. -/
structure OnGrid (textPos : Vec2u) : Prop where
  x : textPos.x < Impl.getWidth S
  y : textPos.y < Impl.getHeight S

/-- The pixel with index `i` is in the text cell. -/
def InCell (textPos : Vec2u) (i : ℕ) : Prop :=
  i % S.size.x / 8 = textPos.x ∧ i / S.size.x / 16 = textPos.y

/-- The pixel's offset in its text cell. -/
def offset (i : ℕ) : Vec2u := ⟨i % S.size.x % 8, i / S.size.x % 16⟩

/-- The pixel is in the column in which the cursor is drawn. -/
def InColumn (textPos : Vec2u) (i : ℕ) : Prop :=
  i % S.size.x = 8 * textPos.x + 2 ∧ i / S.size.x / 16 = textPos.y

instance (textPos : Vec2u) (i : ℕ) : Decidable (InCell S textPos i) :=
  inferInstanceAs (Decidable (_ ∧ _))

instance (textPos : Vec2u) (i : ℕ) : Decidable (InColumn S textPos i) :=
  inferInstanceAs (Decidable (_ ∧ _))

variable {S} {s : State} {textPos d : Vec2u} {i : ℕ}

/-! ## Places -/

theorem width_le_area (S : Screen) : S.size.x ≤ S.size.x * S.size.y :=
  Nat.le_mul_of_pos_right _ (by have := S.height_le; omega)

theorem height_le_area (S : Screen) : S.size.y ≤ S.size.x * S.size.y :=
  Nat.le_mul_of_pos_left _ (by have := S.width_le; omega)

/-- A text cell is on the screen. -/
theorem OnGrid.pixel_lt (h : OnGrid S textPos) (hx : d.x < 8) (hy : d.y < 16) :
    8 * textPos.x + d.x < S.size.x ∧ 16 * textPos.y + d.y < S.size.y := by
  obtain ⟨hgx, hgy⟩ := h
  unfold Impl.getWidth at hgx
  unfold Impl.getHeight at hgy
  simp only [fontSize] at hgx hgy
  omega

theorem OnGrid.screenPos_add (h : OnGrid S textPos) (hx : d.x < 8) (hy : d.y < 16) :
    (getScreenPos textPos).add d = ⟨8 * textPos.x + d.x, 16 * textPos.y + d.y⟩ := by
  obtain ⟨hlx, hly⟩ := h.pixel_lt hx hy
  have hw := width_le_area S
  have hh := height_le_area S
  have hfits := S.fits
  simp only [getScreenPos, Vec2u.mul, Vec2u.add, fontSize, u32, Vec2u.mk.injEq]
  omega

/-- The pixel of a text cell at an offset. -/
theorem OnGrid.pixelIndex_eq (h : OnGrid S textPos) (hx : d.x < 8) (hy : d.y < 16) :
    pixelIndex S ((getScreenPos textPos).add d) =
      Raster.index S.size.x (8 * textPos.x + d.x) (16 * textPos.y + d.y) := by
  obtain ⟨hlx, hly⟩ := h.pixel_lt hx hy
  have hlt := Raster.index_lt hlx hly
  rw [h.screenPos_add hx hy]
  exact Nat.mod_eq_of_lt (Nat.lt_of_lt_of_le hlt S.fits)

theorem OnGrid.pixelIndex_lt (h : OnGrid S textPos) (hx : d.x < 8) (hy : d.y < 16) :
    pixelIndex S ((getScreenPos textPos).add d) < S.size.x * S.size.y := by
  obtain ⟨hlx, hly⟩ := h.pixel_lt hx hy
  rw [h.pixelIndex_eq hx hy]
  exact Raster.index_lt hlx hly

theorem OnGrid.lt_size (h : OnGrid S textPos) (hx : d.x < 8) (hy : d.y < 16) :
    ((getScreenPos textPos).add d).lt S.size = true := by
  obtain ⟨hlx, hly⟩ := h.pixel_lt hx hy
  rw [h.screenPos_add hx hy]
  simp [Vec2u.lt, hlx, hly]

/-- A pixel is at an offset of a text cell exactly when it is in the cell and has that offset. -/
theorem OnGrid.eq_pixelIndex_iff (h : OnGrid S textPos) (hx : d.x < 8) (hy : d.y < 16) :
    i = pixelIndex S ((getScreenPos textPos).add d) ↔ InCell S textPos i ∧ offset S i = d := by
  obtain ⟨hlx, -⟩ := h.pixel_lt hx hy
  obtain ⟨dx, dy⟩ := d
  rw [h.pixelIndex_eq hx hy, Raster.eq_index_iff hlx]
  simp only [InCell, offset, Vec2u.mk.injEq] at hx hy ⊢
  omega

/-- The pixels of the cursor's column are those at the offsets `(2, y)`. -/
theorem inColumn_iff :
    InColumn S textPos i ↔ InCell S textPos i ∧ offset S i = ⟨2, (offset S i).y⟩ := by
  simp only [InColumn, InCell, offset, Vec2u.mk.injEq, and_true]
  omega

theorem mem_offsets : d ∈ offsets ↔ d.x < 8 ∧ d.y < 16 := by
  obtain ⟨x, y⟩ := d
  simp only [offsets, List.mem_flatMap, List.mem_map, List.mem_range, Vec2u.mk.injEq]
  constructor
  · rintro ⟨y', hy, x', hx, rfl, rfl⟩
    exact ⟨hx, hy⟩
  · rintro ⟨hx, hy⟩
    exact ⟨y, hy, x, hx, rfl, rfl⟩

theorem offset_mem (S : Screen) (i : ℕ) : offset S i ∈ offsets :=
  mem_offsets.mpr ⟨Nat.mod_lt _ (by omega), Nat.mod_lt _ (by omega)⟩

/-! ## Text cells -/

/-- The image in which the pixels of a text cell have the colors `f` gives their offsets. -/
def paint (S : Screen) (textPos : Vec2u) (f : Vec2u → Option Color) (image : ℕ → Color) :
    ℕ → Color := fun i =>
  if InCell S textPos i then (f (offset S i)).getD (image i) else image i

theorem vesaSetPixel_eq (h : OnGrid S textPos) (hv : s.vesaInitialized = true) (hx : d.x < 8)
    (hy : d.y < 16) (color : Color) :
    vesaSetPixel S s ((getScreenPos textPos).add d) color =
      let i := pixelIndex S ((getScreenPos textPos).add d)
      { s with display := Function.update s.display i color } := by
  unfold vesaSetPixel
  rw [hv, h.lt_size hx hy]
  rfl

theorem getBufferedPixel_eq (h : OnGrid S textPos) (hx : d.x < 8) (hy : d.y < 16) :
    getBufferedPixel S s ((getScreenPos textPos).add d) =
      some (s.bufferedScreen (pixelIndex S ((getScreenPos textPos).add d))) :=
  if_pos (h.pixelIndex_lt hx hy)

theorem setPixel_eq (h : OnGrid S textPos) (hv : s.vesaInitialized = true) (hx : d.x < 8)
    (hy : d.y < 16) (color : Color) :
    setPixel S s ((getScreenPos textPos).add d) color =
      let i := pixelIndex S ((getScreenPos textPos).add d)
      some { s with bufferedScreen := Function.update s.bufferedScreen i color,
                    display := Function.update s.display i color } := by
  unfold setPixel vesaSetPixel
  simp only [h.pixelIndex_lt hx hy, h.lt_size hx hy, hv, Bool.and_self, if_true]

/-- The pixels `drawCell` draws, in its order. -/
theorem drawCell_plotAll (h : OnGrid S textPos) (hv : s.vesaInitialized = true)
    (f : Vec2u → Option Color) : drawCell S s textPos f =
      let place := fun d => pixelIndex S ((getScreenPos textPos).add d)
      some { s with bufferedScreen := Raster.plotAll place f offsets s.bufferedScreen,
                    display := Raster.plotAll place f offsets s.display } := by
  have hmem : ∀ d ∈ offsets, d.x < 8 ∧ d.y < 16 := fun d => mem_offsets.mp
  unfold drawCell
  revert hmem
  generalize offsets = L
  intro hmem
  induction L generalizing s with
  | nil => rfl
  | cons d L ih =>
    obtain ⟨hx, hy⟩ := hmem d List.mem_cons_self
    have hrest := fun d hd => hmem d (List.mem_cons_of_mem _ hd)
    rw [List.foldlM_cons]
    simp only [Raster.plotAll_cons, Raster.plot]
    cases f d with
    | none => exact ih hv hrest
    | some color =>
      simp only [setPixel_eq h hv hx hy, Option.bind_eq_bind, Option.bind_some]
      exact ih hv hrest

/-- **A text cell is drawn** in the buffer and on the display, and nothing else changes. -/
theorem drawCell_eq (h : OnGrid S textPos) (hv : s.vesaInitialized = true)
    (f : Vec2u → Option Color) : drawCell S s textPos f =
      some { s with bufferedScreen := paint S textPos f s.bufferedScreen,
                    display := paint S textPos f s.display } := by
  have hplot : ∀ image : ℕ → Color,
      Raster.plotAll (fun d => pixelIndex S ((getScreenPos textPos).add d)) f offsets image =
        paint S textPos f image := by
    intro image
    funext i
    unfold paint
    split
    · rename_i hcell
      obtain ⟨hx, hy⟩ := mem_offsets.mp (offset_mem S i)
      have hi := (h.eq_pixelIndex_iff hx hy).mpr ⟨hcell, rfl⟩
      have hinj : ∀ e ∈ offsets, pixelIndex S ((getScreenPos textPos).add e) =
          pixelIndex S ((getScreenPos textPos).add (offset S i)) → e = offset S i := by
        intro e he heq
        obtain ⟨hex, hey⟩ := mem_offsets.mp he
        exact ((h.eq_pixelIndex_iff hex hey).mp (hi.trans heq.symm)).2.symm
      have hp := Raster.plotAll_of_mem (f := f) (offset_mem S i) hinj image
      rw [← hi] at hp
      exact hp
    · rename_i hcell
      apply Raster.plotAll_of_ne
      intro d hd heq
      obtain ⟨hx, hy⟩ := mem_offsets.mp hd
      exact hcell ((h.eq_pixelIndex_iff hx hy).mp heq.symm).1
  rw [drawCell_plotAll h hv]
  simp only [hplot]

/-! ## The cursor's column -/

/-- The image in which the pixels of the cursor's column have the colors `g` gives them. -/
def overlay (S : Screen) (textPos : Vec2u) (g : ℕ → Color) (image : ℕ → Color) : ℕ → Color :=
  fun i => if InColumn S textPos i then g i else image i

theorem drawColumn_plotAll (h : OnGrid S textPos) (hv : s.vesaInitialized = true)
    (f : Color → Color) : Impl.drawColumn S s textPos f =
      let place := fun y => pixelIndex S ((getScreenPos textPos).add ⟨2, y⟩)
      let color := fun y => some (f (s.bufferedScreen (place y)))
      some { s with display := Raster.plotAll place color (List.range fontSize.y) s.display } := by
  have hmem : ∀ y ∈ List.range fontSize.y, y < 16 := fun y => List.mem_range.mp
  unfold Impl.drawColumn
  revert hmem
  generalize List.range fontSize.y = L
  intro hmem
  induction L generalizing s with
  | nil => rfl
  | cons y L ih =>
    have hy : y < 16 := hmem y List.mem_cons_self
    have hx : (⟨2, y⟩ : Vec2u).x < 8 := show 2 < 8 by omega
    have hrest := fun d hd => hmem d (List.mem_cons_of_mem _ hd)
    rw [List.foldlM_cons]
    simp only [getBufferedPixel_eq h hx hy, vesaSetPixel_eq h hv hx hy, Option.bind_eq_bind,
      Option.bind_some, Option.pure_def]
    exact ih hv hrest

/-- **The cursor's column is drawn** on the display, and nothing else changes. -/
theorem drawColumn_eq (h : OnGrid S textPos) (hv : s.vesaInitialized = true)
    (f : Color → Color) : Impl.drawColumn S s textPos f =
      some { s with display := overlay S textPos (fun i => f (s.bufferedScreen i)) s.display } := by
  rw [drawColumn_plotAll h hv]
  simp only
  congr 2
  funext i
  unfold overlay
  split
  · rename_i hcol
    obtain ⟨hcell, hoff⟩ := inColumn_iff.mp hcol
    obtain ⟨-, hy⟩ := mem_offsets.mp (offset_mem S i)
    have hi : i = pixelIndex S ((getScreenPos textPos).add ⟨2, (offset S i).y⟩) :=
      (h.eq_pixelIndex_iff (d := ⟨2, _⟩) (show 2 < 8 by omega) hy).mpr ⟨hcell, hoff⟩
    have hinj : ∀ y ∈ List.range fontSize.y,
        pixelIndex S ((getScreenPos textPos).add ⟨2, y⟩) =
          pixelIndex S ((getScreenPos textPos).add ⟨2, (offset S i).y⟩) → y = (offset S i).y := by
      intro y hy' heq
      have hy16 : y < 16 := List.mem_range.mp hy'
      obtain ⟨-, hoff'⟩ := (h.eq_pixelIndex_iff (d := ⟨2, y⟩) (show 2 < 8 by omega) hy16).mp
        (hi.trans heq.symm)
      rw [hoff']
    have hp := Raster.plotAll_of_mem (D := ℕ)
      (f := fun y => some (f (s.bufferedScreen (pixelIndex S ((getScreenPos textPos).add ⟨2, y⟩)))))
      (List.mem_range.mpr hy) hinj s.display
    rw [← hi] at hp
    exact hp
  · rename_i hcol
    apply Raster.plotAll_of_ne
    intro y hy heq
    have hy16 : y < 16 := List.mem_range.mp hy
    have hcell := (h.eq_pixelIndex_iff (d := ⟨2, y⟩) (show 2 < 8 by omega) hy16).mp heq.symm
    exact hcol (inColumn_iff.mpr ⟨hcell.1, by rw [hcell.2]⟩)

/-! ## Loops over the screen -/

theorem clearLoop_eq {n : ℕ} (h : i + n ≤ S.size.x * S.size.y) : Impl.clearLoop S n i s =
    some { s with
      display := fun j => if i ≤ j ∧ j < i + n then {} else s.display j,
      bufferedScreen := fun j => if i ≤ j ∧ j < i + n then {} else s.bufferedScreen j } := by
  change _ = some { s with display := Raster.fill {} i n s.display,
                           bufferedScreen := Raster.fill {} i n s.bufferedScreen }
  induction n generalizing i s with
  | zero =>
    unfold Impl.clearLoop
    simp only [Raster.fill_zero]
  | succ n ih =>
    unfold Impl.clearLoop
    rw [if_pos (by omega), ih (by omega)]
    simp only [Raster.fill_succ]

/-- The pixels of the buffer move down by `k` indices, in the buffer and onto the display. -/
theorem moveLoop_eq {k n : ℕ} (h : i + n + k ≤ S.size.x * S.size.y) : Impl.moveLoop S k n i s =
    some { s with
      display := fun j => if i ≤ j ∧ j < i + n then s.bufferedScreen (j + k) else s.display j,
      bufferedScreen := fun j =>
        if i ≤ j ∧ j < i + n then s.bufferedScreen (j + k) else s.bufferedScreen j } := by
  change _ = some { s with display := Raster.shift s.bufferedScreen k i n s.display,
                           bufferedScreen := Raster.shift s.bufferedScreen k i n s.bufferedScreen }
  induction n generalizing i s with
  | zero =>
    unfold Impl.moveLoop
    simp only [Raster.shift_zero]
  | succ n ih =>
    unfold Impl.moveLoop
    rw [if_pos (by omega), ih (by omega)]
    simp only [Raster.shift_succ]

end HryOS.Terminal
