import Mathlib.Data.Nat.Notation
import Mathlib.Logic.Function.Basic
import Mathlib.Tactic.Common

/-!
# Row-major images

An image of a given width is a function of the index of a pixel.

* `index` — the index of a pixel; `eq_index_iff`, `index_lt` and `add_rows_div`, `add_rows_mod`
  for its arithmetic.
* `plot`, `plotAll` — draw a pixel, a list of pixels one after the other; `plotAll_of_ne` and
  `plotAll_of_mem` say what is seen afterwards.
* `fill`, `shift` — a run of pixels in one color, or copied from further on; `fill_succ` and
  `shift_succ` do the first one first.
* `Stores` — the array has the pixels of an image; `Stores.update`, `stores_fill` and
  `Stores.scroll` for the three ways to draw.
-/

set_option autoImplicit false

namespace Raster

variable {C D : Type} {width height x y i k : ℕ}

/-- The index of the pixel in column `x` of row `y`. -/
def index (width x y : ℕ) : ℕ := y * width + x

theorem index_lt (hx : x < width) (hy : y < height) : index width x y < width * height := by
  unfold index
  calc y * width + x < y * width + width := Nat.add_lt_add_left hx _
    _ = (y + 1) * width := (Nat.succ_mul y width).symm
    _ ≤ height * width := Nat.mul_le_mul_right width hy
    _ = width * height := Nat.mul_comm height width

theorem eq_index_iff (hx : x < width) : i = index width x y ↔ i % width = x ∧ i / width = y := by
  have hpos : 0 < width := by omega
  unfold index
  constructor
  · rintro rfl
    refine ⟨?_, ?_⟩
    · rw [Nat.add_comm, Nat.add_mul_mod_self_right, Nat.mod_eq_of_lt hx]
    · rw [Nat.add_comm, Nat.add_mul_div_right _ _ hpos, Nat.div_eq_of_lt hx, Nat.zero_add]
  · rintro ⟨rfl, rfl⟩
    rw [Nat.mul_comm]
    exact (Nat.div_add_mod i width).symm

theorem add_rows_mod : (i + width * k) % width = i % width := Nat.add_mul_mod_self_left i width k

theorem add_rows_div (h : 0 < width) : (i + width * k) / width = i / width + k :=
  Nat.add_mul_div_left i k h

/-! ## Drawing -/

/-- Draw one pixel at its place and in its color, if it has one. -/
def plot (place : D → ℕ) (f : D → Option C) (b : ℕ → C) (d : D) : ℕ → C :=
  match f d with
  | some c => Function.update b (place d) c
  | none => b

/-- Draw the pixels of a list in order. -/
def plotAll (place : D → ℕ) (f : D → Option C) (L : List D) (b : ℕ → C) : ℕ → C :=
  L.foldl (plot place f) b

variable {place : D → ℕ} {f : D → Option C} {L : List D} {d : D}

theorem plot_of_ne (h : place d ≠ i) (b : ℕ → C) : plot place f b d i = b i := by
  unfold plot
  cases f d with
  | none => rfl
  | some c => exact Function.update_of_ne (Ne.symm h) c b

theorem plot_self (b : ℕ → C) : plot place f b d (place d) = (f d).getD (b (place d)) := by
  unfold plot
  cases f d with
  | none => rfl
  | some c => exact Function.update_self (place d) c b

theorem plotAll_cons (b : ℕ → C) :
    plotAll place f (d :: L) b = plotAll place f L (plot place f b d) := rfl

/-- Where nothing is drawn nothing changes. -/
theorem plotAll_of_ne (h : ∀ d ∈ L, place d ≠ i) (b : ℕ → C) : plotAll place f L b i = b i := by
  induction L generalizing b with
  | nil => rfl
  | cons e L ih =>
    rw [plotAll_cons, ih fun d hd => h d (List.mem_cons_of_mem e hd)]
    exact plot_of_ne (h e List.mem_cons_self) b

/-- A pixel of the list is seen in its color, if no other pixel has its place. -/
theorem plotAll_of_mem (hd : d ∈ L) (hinj : ∀ e ∈ L, place e = place d → e = d) (b : ℕ → C) :
    plotAll place f L b (place d) = (f d).getD (b (place d)) := by
  induction L generalizing b with
  | nil => cases hd
  | cons e L ih =>
    have hinj' : ∀ e ∈ L, place e = place d → e = d := fun e he =>
      hinj e (List.mem_cons_of_mem _ he)
    rw [plotAll_cons]
    by_cases hmem : d ∈ L
    · rw [ih hmem hinj']
      by_cases he : place e = place d
      · -- the same pixel is drawn once more
        obtain rfl := hinj e List.mem_cons_self he
        rw [plot_self]
        cases f e with
        | none => rfl
        | some c => rfl
      · rw [plot_of_ne he]
    · obtain rfl : d = e := (List.mem_cons.mp hd).resolve_right hmem
      have hne : ∀ e ∈ L, place e ≠ place d := by
        intro e he heq
        exact hmem (hinj' e he heq ▸ he)
      rw [plotAll_of_ne hne, plot_self]

/-! ## Runs of pixels -/

/-- The `n` pixels from `i` on have the color `c`. -/
def fill (c : C) (i n : ℕ) (b : ℕ → C) : ℕ → C := fun j => if i ≤ j ∧ j < i + n then c else b j

/-- The `n` pixels from `i` on are those of `src`, `k` places further on. -/
def shift (src : ℕ → C) (k i n : ℕ) (b : ℕ → C) : ℕ → C := fun j =>
  if i ≤ j ∧ j < i + n then src (j + k) else b j

variable {b src : ℕ → C} {c : C} {n j : ℕ}

@[simp] theorem fill_zero : fill c i 0 b = b := by
  funext j
  exact if_neg (by omega)

@[simp] theorem shift_zero : shift src k i 0 b = b := by
  funext j
  exact if_neg (by omega)

/-- The first pixel first. -/
theorem fill_succ : fill c (i + 1) n (Function.update b i c) = fill c i (n + 1) b := by
  funext j
  unfold fill
  by_cases hj : j = i
  · subst hj
    rw [if_neg (by omega), if_pos (by omega), Function.update_self]
  · rw [Function.update_of_ne hj]
    congr 1
    simp only [eq_iff_iff]
    omega

/-- The first pixel first, in place too: what is still to be read lies behind what has been
    written. -/
theorem shift_succ {v : C} :
    shift (Function.update src i v) k (i + 1) n (Function.update b i (src (i + k))) =
      shift src k i (n + 1) b := by
  funext j
  unfold shift
  by_cases hj : j = i
  · subst hj
    rw [if_neg (by omega), if_pos (by omega), Function.update_self]
  · rw [Function.update_of_ne hj]
    by_cases hin : i + 1 ≤ j ∧ j < i + 1 + n
    · rw [if_pos hin, if_pos (by omega), Function.update_of_ne (by omega)]
    · rw [if_neg hin, if_neg (by omega)]

/-! ## Images -/

/-- The array has the pixels of an image, row by row. -/
def Stores (width height : ℕ) (b : ℕ → C) (image : ℕ → ℕ → C) : Prop :=
  ∀ x y, x < width → y < height → b (index width x y) = image x y

variable {image : ℕ → ℕ → C}

/-- One pixel is set. -/
theorem Stores.update (h : Stores width height b image) (hx : x < width) :
    Stores width height (Function.update b (index width x y) c)
      fun x' y' => if x' = x ∧ y' = y then c else image x' y' := by
  intro x' y' hx' hy'
  beta_reduce
  split
  · rename_i heq
    obtain ⟨rfl, rfl⟩ := heq
    exact Function.update_self _ _ _
  · rename_i hne
    have hindex : index width x' y' ≠ index width x y := by
      intro heq
      have hplace := (eq_index_iff hx).mp heq
      have hplace' := (eq_index_iff hx').mp (rfl : index width x' y' = _)
      exact hne ⟨hplace'.1.symm.trans hplace.1, hplace'.2.symm.trans hplace.2⟩
    rw [Function.update_of_ne hindex]
    exact h x' y' hx' hy'

/-- All pixels have one color. -/
theorem stores_fill (c : C) (b : ℕ → C) :
    Stores width height (fill c 0 (width * height) b) fun _ _ => c := by
  intro x y hx hy
  have hlt := index_lt hx hy
  exact if_pos (by omega)

/-- The image moves up by `k` rows, and the rows below it get one color. -/
theorem Stores.scroll (h : Stores width height src image) (hk : k ≤ height) (b : ℕ → C) :
    Stores width height
      (fill c (width * (height - k)) (width * k)
        (shift src (width * k) 0 (width * (height - k)) b))
      fun x y => if y + k < height then image x (y + k) else c := by
  intro x y hx hy
  have hlt := index_lt hx hy
  have hsum : width * (height - k) + width * k = width * height := by
    rw [← Nat.mul_add, Nat.sub_add_cancel hk]
  beta_reduce
  split
  · rename_i hyk
    have hmoved : index width x y < width * (height - k) := index_lt hx (by omega)
    have hrow : index width x y + width * k = index width x (y + k) := by
      unfold index
      rw [Nat.add_mul, Nat.mul_comm k]
      omega
    unfold fill shift
    rw [if_neg (by omega), if_pos (by omega), hrow]
    exact h x (y + k) hx hyk
  · rename_i hyk
    have hbelow : width * (height - k) ≤ index width x y := by
      unfold index
      have hle : width * (height - k) ≤ width * y := Nat.mul_le_mul_left width (by omega)
      rw [Nat.mul_comm y]
      omega
    exact if_pos (by omega)

end Raster
