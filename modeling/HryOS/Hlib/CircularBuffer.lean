import Mathlib.Data.Nat.Notation
import Mathlib.Logic.Function.Basic
import Mathlib.Data.Nat.ModEq

/-!
# `hlib::circular_buffer`

A ring of `Size` cells with the indices `head_` (next to pop) and `tail_` (next to fill); the
ring is empty when they are equal, and one cell is never used.

* `Holds` — the ring holds a queue of values, where a `pop` that is under way may have reset the
  first cells already.
* `Holds.empty_iff`, `Holds.full_iff`, `Holds.pushBack`, `Holds.advance`, `Holds.pop` — what the
  tests and the accesses do to the queue.
-/

set_option autoImplicit false

namespace HryOS

/-- `hlib::circular_buffer<T, Size>`. -/
structure CircularBuffer (T : Type) (Size : ℕ) where
  head : ℕ
  tail : ℕ
  buffer : ℕ → T

namespace CircularBuffer

variable {T : Type} {Size : ℕ} (b : CircularBuffer T Size)

/-- `increment`. -/
def increment (Size index : ℕ) : ℕ := (index + 1) % Size

/-- `empty`. -/
def empty : Bool := b.head == b.tail

/-- `full`. -/
def full : Bool := (b.tail + 1) % Size == b.head

/-- `push_back`: a full buffer drops the value. -/
def pushBack (value : T) : CircularBuffer T Size :=
  if !b.full then
    { b with buffer := Function.update b.buffer b.tail value, tail := increment Size b.tail }
  else b

/-! ## `pop`, one access at a time

`if (!empty())`, then the three statements below. -/

/-- `value_type value = buffer_[head_]`. -/
def front : T := b.buffer b.head

/-- `buffer_[head_] = value_type()`. -/
def resetFront (value : T) : CircularBuffer T Size :=
  { b with buffer := Function.update b.buffer b.head value }

/-- `head_ = increment(head_)`. -/
def advance : CircularBuffer T Size := { b with head := increment Size b.head }

/-- `pop` as one step, where `zero` is `value_type()`: what it returns, and the buffer it leaves. -/
def pop (zero : T) : Option T × CircularBuffer T Size :=
  if !b.empty then (some b.front, (b.resetFront zero).advance) else (none, b)

/-! ## Lemmas -/

/-- Pushing never makes a buffer empty: it is refused where the indices would meet. -/
theorem pushBack_empty (h : b.empty = false) (value : T) : (b.pushBack value).empty = false := by
  unfold pushBack
  split
  · rename_i hfull
    have hne : (b.tail + 1) % Size ≠ b.head := by simpa [full] using hfull
    exact beq_eq_false_iff_ne.mpr hne.symm
  · exact h

/-! ## The queue in the ring -/

/-- The ring holds the queue `q`; its first `skip` cells may have been reset. -/
structure Holds (b : CircularBuffer T Size) (skip : ℕ) (q : List T) : Prop where
  head_lt : b.head < Size
  length_lt : q.length < Size
  tail_eq : b.tail = (b.head + q.length) % Size
  cells : ∀ i (h : i < q.length), skip ≤ i → b.buffer ((b.head + i) % Size) = q[i]

/-- Two places of a window no longer than the ring are the same cell only if they are equal. -/
theorem cell_inj (head : ℕ) {i j : ℕ} (hi : i < Size) (hj : j < Size)
    (h : (head + i) % Size = (head + j) % Size) : i = j := by
  have hmod : i % Size = j % Size := Nat.ModEq.add_left_cancel' head h
  rwa [Nat.mod_eq_of_lt hi, Nat.mod_eq_of_lt hj] at hmod

variable {b} {skip : ℕ} {q : List T} {value : T}

/-- A new buffer holds the empty queue. -/
theorem Holds.nil (hSize : 0 < Size) (cells : ℕ → T) :
    Holds (⟨0, 0, cells⟩ : CircularBuffer T Size) 0 [] :=
  ⟨hSize, hSize, (Nat.zero_mod Size).symm, fun _ hi => absurd hi (Nat.not_lt_zero _)⟩

/-- `empty()` is true exactly of the empty queue. -/
theorem Holds.empty_iff (h : Holds b skip q) : b.empty = true ↔ q = [] := by
  have hpos : 0 < Size := Nat.zero_lt_of_lt h.head_lt
  unfold empty
  rw [beq_iff_eq, h.tail_eq, ← List.length_eq_zero_iff]
  constructor
  · intro heq
    rw [← Nat.mod_eq_of_lt h.head_lt] at heq
    exact (cell_inj b.head hpos h.length_lt (by simpa using heq)).symm
  · intro h0
    rw [h0, Nat.add_zero, Nat.mod_eq_of_lt h.head_lt]

/-- `full()` is true exactly of a queue of `Size - 1` values. -/
theorem Holds.full_iff (h : Holds b skip q) : b.full = true ↔ q.length = Size - 1 := by
  have hlen := h.length_lt
  have hpos : 0 < Size := Nat.zero_lt_of_lt h.head_lt
  unfold full
  rw [beq_iff_eq, h.tail_eq, Nat.mod_add_mod, Nat.add_assoc]
  constructor
  · intro heq
    by_contra hne
    have hlt : q.length + 1 < Size := by omega
    rw [← Nat.mod_eq_of_lt h.head_lt] at heq
    have := cell_inj b.head hlt hpos (by simpa using heq)
    omega
  · intro heq
    rw [heq, Nat.sub_add_cancel hpos, Nat.add_mod_right, Nat.mod_eq_of_lt h.head_lt]

/-- A push that is not refused goes to the end of the queue, in a cell of its own. -/
theorem Holds.pushBack (h : Holds b skip q) (hfull : b.full = false) (value : T) :
    Holds (b.pushBack value) skip (q ++ [value]) := by
  have hlen := h.length_lt
  have hroom : q.length + 1 < Size := by
    have hne : q.length ≠ Size - 1 := fun heq => by simp [h.full_iff.mpr heq] at hfull
    omega
  unfold CircularBuffer.pushBack
  rw [hfull]
  refine ⟨h.head_lt, by simpa using hroom, ?_, ?_⟩
  · simp [increment, h.tail_eq, Nat.add_assoc]
  · intro i hi hskip
    simp only [List.length_append, List.length_singleton] at hi
    simp only [Bool.not_false, ↓reduceIte]
    rcases Nat.lt_or_ge i q.length with hlt | hge
    · have hne : (b.head + i) % Size ≠ b.tail := fun heq => by
        rw [h.tail_eq] at heq
        have := cell_inj b.head (by omega) h.length_lt heq
        omega
      rw [Function.update_of_ne hne, List.getElem_append_left hlt]
      exact h.cells i hlt hskip
    · obtain rfl : i = q.length := by omega
      rw [← h.tail_eq, Function.update_self]
      simp

/-- The first cell holds the front of the queue. -/
theorem Holds.front (h : Holds b 0 (value :: q)) : b.front = value := by
  have hcell := h.cells 0 (by simp) (Nat.le_refl 0)
  rw [Nat.add_zero, Nat.mod_eq_of_lt h.head_lt] at hcell
  exact hcell

/-- Resetting the first cell leaves the others alone. -/
theorem Holds.resetFront (h : Holds b 0 q) (zero : T) : Holds (b.resetFront zero) 1 q := by
  have hlen := h.length_lt
  refine ⟨h.head_lt, hlen, h.tail_eq, ?_⟩
  intro i hi hskip
  have hne : (b.head + i) % Size ≠ b.head := fun heq => by
    have hzero : (b.head + i) % Size = (b.head + 0) % Size := by
      rw [heq, Nat.add_zero, Nat.mod_eq_of_lt h.head_lt]
    have := cell_inj b.head (by omega) (by omega) hzero
    omega
  exact (Function.update_of_ne hne _ _).trans (h.cells i hi (Nat.zero_le i))

/-- Advancing `head_` drops the front, reset or not. -/
theorem Holds.advance (h : Holds b 1 (value :: q)) : Holds b.advance 0 q := by
  have hlen := h.length_lt
  simp only [List.length_cons] at hlen
  have hcell : ∀ i, (increment Size b.head + i) % Size = (b.head + (i + 1)) % Size := fun i => by
    rw [increment, Nat.mod_add_mod, Nat.add_assoc, Nat.add_comm 1 i]
  refine ⟨Nat.mod_lt _ (by omega), by omega, ?_, ?_⟩
  · exact h.tail_eq.trans (hcell q.length).symm
  · intro i hi _
    have hnext := h.cells (i + 1) (by simpa using hi) (by omega)
    rw [← hcell] at hnext
    exact hnext

/-- An atomic `pop` takes the front of the queue, and nothing from an empty one. -/
theorem Holds.pop (h : Holds b 0 q) (zero : T) :
    (b.pop zero).1 = q.head? ∧ Holds (b.pop zero).2 0 q.tail := by
  unfold CircularBuffer.pop
  cases q with
  | nil =>
    rw [h.empty_iff.mpr rfl]
    exact ⟨rfl, h⟩
  | cons value q =>
    rw [Bool.eq_false_iff.mpr fun he => List.cons_ne_nil value q (h.empty_iff.mp he)]
    exact ⟨congrArg some h.front, (h.resetFront zero).advance⟩

end CircularBuffer

end HryOS
