import Mathlib.Data.Nat.Basic
import Mathlib.Logic.Function.Basic
import Mathlib.Tactic.Common

/-!
# `hlib::copy_n`

`algorithm.hpp` copies element by element from the front, also where the two ranges overlap.

* `copied` — what is in memory afterwards, for every position of the ranges.
* `copyN_eq` — the loop leaves that.
* `copyN_eq_moved_iff` — it moves the range as a whole, whatever is in memory, exactly where the
  destination does not begin inside the source.
-/

set_option autoImplicit false

namespace HryOS.Algorithm

variable {T : Type}

/-- `copy_n`, with iterators into one memory. -/
def copyN : ℕ → ℕ → ℕ → (ℕ → T) → (ℕ → T)
  | _, 0, _, m => m
  | inFirst, n + 1, outFirst, m =>
    copyN (inFirst + 1) n (outFirst + 1) (Function.update m outFirst (m inFirst))

/-- The memory with the `n` elements from `inFirst` on at `outFirst`. -/
def moved (inFirst n outFirst : ℕ) (m : ℕ → T) : ℕ → T := fun j =>
  if outFirst ≤ j ∧ j < outFirst + n then m (inFirst + (j - outFirst)) else m j

/-- Where the destination begins `d` places behind the source, the first `d` elements repeat. -/
def copied (inFirst n outFirst : ℕ) (m : ℕ → T) : ℕ → T := fun j =>
  if outFirst ≤ j ∧ j < outFirst + n then
    m (inFirst + if inFirst < outFirst then (j - outFirst) % (outFirst - inFirst) else j - outFirst)
  else m j

variable {inFirst n outFirst k d : ℕ}

theorem succ_mod_cases (hd : 0 < d) :
    k % d + 1 = d ∧ (k + 1) % d = 0 ∨ k % d + 1 < d ∧ (k + 1) % d = k % d + 1 := by
  have hlt := Nat.mod_lt k hd
  have hstep : (k % d + 1) % d = (k + 1) % d := Nat.mod_add_mod k d 1
  rcases Nat.lt_or_eq_of_le (Nat.succ_le_of_lt hlt) with h | h
  · exact Or.inr ⟨h, hstep.symm.trans (Nat.mod_eq_of_lt h)⟩
  · refine Or.inl ⟨h, hstep.symm.trans ?_⟩
    rw [show k % d + 1 = d from h, Nat.mod_self]

/-- One element behind the first: what the loop reads next is what it should read. -/
theorem copied_step (m : ℕ → T) (k : ℕ) :
    Function.update m outFirst (m inFirst) (inFirst + 1 +
        if inFirst + 1 < outFirst + 1 then k % (outFirst + 1 - (inFirst + 1)) else k) =
      m (inFirst + if inFirst < outFirst then (k + 1) % (outFirst - inFirst) else k + 1) := by
  by_cases hlt : inFirst < outFirst
  · rw [if_pos hlt, if_pos (by omega), Nat.add_sub_add_right]
    rcases succ_mod_cases (k := k) (d := outFirst - inFirst) (by omega) with ⟨h, hz⟩ | ⟨h, hs⟩
    · -- the place read is the one just written
      rw [hz, show inFirst + 1 + k % (outFirst - inFirst) = outFirst by omega, Function.update_self]
      rfl
    · rw [hs, Function.update_of_ne (by omega)]
      exact congrArg m (by omega)
  · rw [if_neg hlt, if_neg (by omega), Function.update_of_ne (by omega)]
    exact congrArg m (by omega)

/-- **`copy_n`**, for every overlap. -/
theorem copyN_eq (inFirst n outFirst : ℕ) (m : ℕ → T) :
    copyN inFirst n outFirst m = copied inFirst n outFirst m := by
  induction n generalizing inFirst outFirst m with
  | zero =>
    funext j
    exact (if_neg (by omega)).symm
  | succ n ih =>
    funext j
    rw [copyN, ih]
    unfold copied
    by_cases hin : outFirst + 1 ≤ j ∧ j < outFirst + 1 + n
    · obtain ⟨k, rfl⟩ : ∃ k, j = outFirst + 1 + k := ⟨j - (outFirst + 1), by omega⟩
      have hin' : outFirst ≤ outFirst + 1 + k ∧ outFirst + 1 + k < outFirst + (n + 1) := by omega
      rw [if_pos hin, if_pos hin', show outFirst + 1 + k - (outFirst + 1) = k by omega,
        show outFirst + 1 + k - outFirst = k + 1 by omega]
      exact copied_step m k
    · rw [if_neg hin]
      by_cases hj : j = outFirst
      · subst hj
        have hin' : j ≤ j ∧ j < j + (n + 1) := by omega
        rw [Function.update_self, if_pos hin', Nat.sub_self, Nat.zero_mod, ite_self]
        rfl
      · have hout : ¬(outFirst ≤ j ∧ j < outFirst + (n + 1)) := by omega
        rw [Function.update_of_ne hj, if_neg hout]

/-- The destination does not begin inside the source. -/
theorem copied_eq_moved (h : outFirst ≤ inFirst ∨ inFirst + n ≤ outFirst) (m : ℕ → T) :
    copied inFirst n outFirst m = moved inFirst n outFirst m := by
  funext j
  unfold copied moved
  by_cases hj : outFirst ≤ j ∧ j < outFirst + n
  · rw [if_pos hj, if_pos hj]
    by_cases hlt : inFirst < outFirst
    · rw [if_pos hlt, Nat.mod_eq_of_lt (by omega)]
    · rw [if_neg hlt]
  · rw [if_neg hj, if_neg hj]

/-- **When `copy_n` may be used on overlapping ranges**: it is the move of the whole range, whatever
    is in memory, exactly where the destination does not begin inside the source. -/
theorem copyN_eq_moved_iff [Nontrivial T] (inFirst n outFirst : ℕ) :
    (∀ m : ℕ → T, copyN inFirst n outFirst m = moved inFirst n outFirst m) ↔
      outFirst ≤ inFirst ∨ inFirst + n ≤ outFirst := by
  constructor
  · intro h
    by_contra hinside
    obtain ⟨a, b, hab⟩ := exists_pair_ne T
    -- `a` before the destination begins, `b` from there on
    have hj := congrFun (h fun i => if i < outFirst then a else b) (outFirst + (outFirst - inFirst))
    rw [copyN_eq] at hj
    unfold copied moved at hj
    have hin : outFirst ≤ outFirst + (outFirst - inFirst) ∧
        outFirst + (outFirst - inFirst) < outFirst + n := by omega
    rw [if_pos hin, if_pos hin, if_pos (by omega), Nat.add_sub_cancel_left, Nat.mod_self] at hj
    dsimp only at hj
    rw [if_pos (by omega), if_neg (by omega)] at hj
    exact hab hj
  · intro h m
    rw [copyN_eq, copied_eq_moved h]

/-- Two elements: one place further on they overlap the wrong way, one place back they do not. -/
theorem copyN_eq_moved_iff_example :
    (¬∀ m : ℕ → ℕ, copyN 0 2 1 m = moved 0 2 1 m) ∧
      ∀ m : ℕ → ℕ, copyN 1 2 0 m = moved 1 2 0 m := by
  constructor
  · rw [copyN_eq_moved_iff]
    decide
  · rw [copyN_eq_moved_iff]
    decide

end HryOS.Algorithm
