import Mathlib.Data.Nat.Notation
import Mathlib.Logic.Function.Basic

/-!
# Text grids with a cursor

A grid of `w` columns and `h` rows of cells, each blank or holding a value, and a cursor.

* `typeAt`, `type` — store a value at a position, or at the cursor, which then advances.
* `newline` — the start of the next row; past the last row the contents move up by one row.
* `InRange` — the cursor is on the grid; kept by every operation.
* `written` — lines of text from the top; a further line is typed below them.
* `map` — the grid of other values; every operation commutes with it.
-/

set_option autoImplicit false

namespace TextGrid

/-- The cells and the cursor. -/
structure Grid (α : Type) where
  cells : ℕ → ℕ → Option α
  col : ℕ
  row : ℕ

variable {α : Type} (w h : ℕ)

/-- All cells blank, the cursor in the first one. -/
def clear : Grid α := { cells := fun _ _ => none, col := 0, row := 0 }

/-- Place the cursor. -/
def move (g : Grid α) (col row : ℕ) : Grid α := { g with col, row }

/-- Store a value in a cell. -/
def typeAt (g : Grid α) (a : α) (col row : ℕ) : Grid α :=
  { g with cells := fun x y => if x = col ∧ y = row then some a else g.cells x y }

/-- Drop the top row and blank the bottom row. -/
def scroll (g : Grid α) : Grid α :=
  { g with cells := fun x y => if y + 1 < h then g.cells x (y + 1) else none }

/-- The cursor to the start of the next row. -/
def newline (g : Grid α) : Grid α :=
  if g.row + 1 = h then move (scroll h g) 0 g.row else move g 0 (g.row + 1)

/-- The cursor to the next cell. -/
def advance (g : Grid α) : Grid α :=
  if w ≤ g.col + 1 then newline h g else move g (g.col + 1) g.row

/-- Store a value at the cursor and advance. -/
def type (g : Grid α) (a : α) : Grid α := advance w h (typeAt g a g.col g.row)

/-- The cursor is on the grid. -/
structure InRange (g : Grid α) : Prop where
  col : g.col < w
  row : g.row < h

variable {w h} {g : Grid α}

theorem InRange.clear (hw : 0 < w) (hh : 0 < h) : InRange w h (clear : Grid α) := ⟨hw, hh⟩

theorem InRange.newline (hg : InRange w h g) : InRange w h (newline h g) := by
  have hcol := hg.col
  have hrow := hg.row
  unfold TextGrid.newline
  split
  · exact ⟨by simp only [move]; omega, hrow⟩
  · exact ⟨by simp only [move]; omega, by simp only [move]; omega⟩

theorem InRange.advance (hg : InRange w h g) : InRange w h (advance w h g) := by
  unfold TextGrid.advance
  split
  · exact hg.newline
  · exact ⟨by simp only [move]; omega, hg.row⟩

theorem InRange.type (hg : InRange w h g) (a : α) : InRange w h (type w h g a) :=
  InRange.advance (g := typeAt g a g.col g.row) ⟨hg.col, hg.row⟩

/-! ## Lines -/

/-- Some lines of text, with the cursor at the start of the row behind them. -/
def written (ls : List (List α)) : Grid α :=
  { cells := fun x y => ls[y]?.bind fun l => l[x]?, col := 0, row := ls.length }

theorem written_nil : written ([] : List (List α)) = clear := rfl

/-- Values that stay on the row. -/
theorem foldl_type {l : List α} (hl : g.col + l.length < w) : l.foldl (type w h) g =
    { cells := fun x y => if y = g.row ∧ g.col ≤ x ∧ x < g.col + l.length then l[x - g.col]?
        else g.cells x y
      col := g.col + l.length
      row := g.row } := by
  induction l generalizing g with
  | nil =>
    refine congrArg (Grid.mk · g.col g.row) (funext fun x => funext fun y => ?_)
    exact (if_neg fun hin => absurd hin.2.2 (Nat.not_lt.mpr hin.2.1)).symm
  | cons a l ih =>
    rw [List.length_cons] at hl
    have hone : type w h g a = move (typeAt g a g.col g.row) (g.col + 1) g.row :=
      if_neg (show ¬w ≤ g.col + 1 by omega)
    rw [List.foldl_cons, hone, ih (show g.col + 1 + l.length < w by omega)]
    show (⟨fun x y => if y = g.row ∧ g.col + 1 ≤ x ∧ x < g.col + 1 + l.length then
      l[x - (g.col + 1)]? else if x = g.col ∧ y = g.row then some a else g.cells x y,
      g.col + 1 + l.length, g.row⟩ : Grid α) = _
    rw [List.length_cons, show g.col + (l.length + 1) = g.col + 1 + l.length by omega]
    refine congrArg (Grid.mk · _ g.row) (funext fun x => funext fun y => ?_)
    by_cases hin : y = g.row ∧ g.col + 1 ≤ x ∧ x < g.col + 1 + l.length
    · rw [if_pos hin, if_pos ⟨hin.1, by omega, hin.2.2⟩,
        show x - g.col = x - (g.col + 1) + 1 by omega, List.getElem?_cons_succ]
    · rw [if_neg hin]
      by_cases hcell : x = g.col ∧ y = g.row
      · rw [if_pos hcell, if_pos ⟨hcell.2, by omega, by omega⟩, hcell.1, Nat.sub_self,
          List.getElem?_cons_zero]
      · rw [if_neg hcell, if_neg (by omega)]

/-- One more line, from the start of a row. -/
theorem newline_written {ls : List (List α)} {l : List α} (hl : l.length < w)
    (hrow : ls.length + 1 < h) :
    newline h (l.foldl (type w h) (written ls)) = written (ls ++ [l]) := by
  have hcol : (written ls).col = 0 := rfl
  rw [foldl_type (show (written ls).col + l.length < w by rw [hcol, Nat.zero_add]; exact hl)]
  refine (if_neg (show ¬ls.length + 1 = h by omega)).trans ?_
  refine Grid.mk.injEq .. |>.mpr ⟨?_, rfl, by simp [written]⟩
  funext x y
  simp only [written, Nat.zero_add, Nat.sub_zero, Nat.zero_le, true_and]
  rcases Nat.lt_trichotomy y ls.length with hy | rfl | hy
  · rw [if_neg (by omega), List.getElem?_append_left hy]
  · rw [List.getElem?_concat_length, Option.bind_some]
    by_cases hx : x < l.length
    · rw [if_pos ⟨rfl, hx⟩]
    · rw [if_neg fun hin => hx hin.2, List.getElem?_eq_none (Nat.le_of_not_lt hx),
        List.getElem?_eq_none (Nat.le_refl _), Option.bind_none]
  · rw [if_neg (by omega), List.getElem?_eq_none (by omega),
      List.getElem?_eq_none (by simp only [List.length_append, List.length_singleton]; omega)]

/-! ## Other values in the cells -/

section Map

variable {β : Type}

/-- The same grid, with `f` of the values. -/
def map (f : α → β) (g : Grid α) : Grid β := { g with cells := fun x y => (g.cells x y).map f }

theorem map_clear (f : α → β) : map f clear = clear := rfl

theorem map_move (f : α → β) (g : Grid α) (col row : ℕ) :
    map f (move g col row) = move (map f g) col row := rfl

theorem map_typeAt (f : α → β) (g : Grid α) (a : α) (col row : ℕ) :
    map f (typeAt g a col row) = typeAt (map f g) (f a) col row := by
  simp only [map, typeAt, apply_ite (Option.map f), Option.map_some]

theorem map_scroll (f : α → β) (h : ℕ) (g : Grid α) :
    map f (scroll h g) = scroll h (map f g) := by
  simp only [map, scroll, apply_ite (Option.map f), Option.map_none]

theorem map_newline (f : α → β) (h : ℕ) (g : Grid α) :
    map f (newline h g) = newline h (map f g) := by
  unfold newline
  by_cases hlast : g.row + 1 = h
  · rw [if_pos hlast, if_pos (show (map f g).row + 1 = h from hlast), map_move, map_scroll]
    rfl
  · rw [if_neg hlast, if_neg (show ¬(map f g).row + 1 = h from hlast), map_move]
    rfl

theorem map_type (f : α → β) (w h : ℕ) (g : Grid α) (a : α) :
    map f (type w h g a) = type w h (map f g) (f a) := by
  unfold type advance
  rw [show typeAt (map f g) (f a) (map f g).col (map f g).row = map f (typeAt g a g.col g.row) from
    (map_typeAt f g a g.col g.row).symm]
  by_cases hwrap : w ≤ (typeAt g a g.col g.row).col + 1
  · rw [if_pos hwrap, if_pos (show w ≤ (map f (typeAt g a g.col g.row)).col + 1 from hwrap),
      map_newline]
  · rw [if_neg hwrap, if_neg (show ¬w ≤ (map f (typeAt g a g.col g.row)).col + 1 from hwrap),
      map_move]
    rfl

end Map

end TextGrid
