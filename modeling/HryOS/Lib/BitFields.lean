import Mathlib.Data.Nat.Basic
import Mathlib.Data.List.Basic
import Mathlib.Tactic.Ring

/-!
# Bit fields

A structure of bit fields as one number, the first field in the lowest bits.

* `pack` — the number of a list of fields, given by their widths and the values stored in them; a
  value that is too large loses its upper bits.
* `field` — the bits of a number from a position on.
* `field_pack` — each field is read as it was stored.
-/

set_option autoImplicit false

namespace BitFields

/-- The number of some fields, as widths and values. -/
def pack : List (ℕ × ℕ) → ℕ
  | [] => 0
  | (w, v) :: fs => v % 2 ^ w + 2 ^ w * pack fs

/-- The widths together. -/
def width (fs : List (ℕ × ℕ)) : ℕ := (fs.map Prod.fst).sum

/-- The `w` bits from `pos` on. -/
def field (pos w bits : ℕ) : ℕ := bits / 2 ^ pos % 2 ^ w

variable {fs : List (ℕ × ℕ)} {w v : ℕ}

theorem width_cons : width ((w, v) :: fs) = w + width fs := by
  unfold width
  rw [List.map_cons, List.sum_cons]

/-- Behind some fields lies the number of the others. -/
theorem pack_append_div (fs gs : List (ℕ × ℕ)) : pack (fs ++ gs) / 2 ^ width fs = pack gs := by
  induction fs with
  | nil => exact Nat.div_one _
  | cons f fs ih =>
    obtain ⟨w, v⟩ := f
    rw [List.cons_append, pack, width_cons, Nat.pow_add, ← Nat.div_div_eq_div_mul,
      Nat.add_mul_div_left _ _ (Nat.two_pow_pos w), Nat.div_eq_of_lt (Nat.mod_lt _
      (Nat.two_pow_pos w)), Nat.zero_add, ih]

/-- **A field is read as it was stored.** -/
theorem field_pack {pos : ℕ} (hpos : width fs = pos) (gs : List (ℕ × ℕ)) (w v : ℕ) :
    field pos w (pack (fs ++ (w, v) :: gs)) = v % 2 ^ w := by
  unfold field
  rw [← hpos, pack_append_div, pack, Nat.add_mul_mod_self_left, Nat.mod_mod]

end BitFields
