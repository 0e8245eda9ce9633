import HryOS.Hlib.CircularBuffer
import HryOS.Lib.ByteMemory
import Mathlib.Data.List.Induction

/-!
# The circular buffer as a deque

With `push_front` the ring is filled at both ends.  Indices are of type `size_t`: `decrement` adds
`Size` to an index before it subtracts, so the sum has to stay below `2 ^ 32`.

* `contents` — what stands from `head_` to `tail_`.
* `dequeStep` — a mathematical deque with a capacity.
* `buffer_is_deque` — for every `Size` up to `2 ^ 31` and every history, the buffer is the deque of
  capacity `Size - 1`.
-/

set_option autoImplicit false

namespace HryOS.CircularBuffer

open ByteMemory

variable {T : Type} {Size : ℕ}

/-- `decrement`: `(index + Size - 1) % Size`. -/
def decrement (Size index : ℕ) : ℕ := u32 (index + Size + 4294967295) % Size

/-- `push_front`: a full buffer drops the value. -/
def pushFront (b : CircularBuffer T Size) (value : T) : CircularBuffer T Size :=
  if !b.full then
    let head := decrement Size b.head
    { b with head := head, buffer := Function.update b.buffer head value }
  else b

/-- The values from `head_` on, as many as the indices are apart. -/
def contents (b : CircularBuffer T Size) : List T :=
  (List.range ((b.tail + Size - b.head) % Size)).map fun i => b.buffer ((b.head + i) % Size)

/-! ## Histories -/

/-- The calls. -/
inductive DequeOp (T : Type)
  | pushBack (value : T)
  | pushFront (value : T)
  | pop
  deriving DecidableEq, Repr

/-- A call on the buffer, with what `pop` has returned so far; `zero` is `value_type()`. -/
def bufferStep (zero : T) (s : CircularBuffer T Size × List (Option T)) :
    DequeOp T → CircularBuffer T Size × List (Option T)
  | .pushBack value => (s.1.pushBack value, s.2)
  | .pushFront value => (s.1.pushFront value, s.2)
  | .pop => ((s.1.pop zero).2, s.2 ++ [(s.1.pop zero).1])

/-- A call on a deque with room for `capacity` elements. -/
def dequeStep (capacity : ℕ) (s : List T × List (Option T)) :
    DequeOp T → List T × List (Option T)
  | .pushBack value => (if s.1.length < capacity then s.1 ++ [value] else s.1, s.2)
  | .pushFront value => (if s.1.length < capacity then value :: s.1 else s.1, s.2)
  | .pop => (s.1.tail, s.2 ++ [s.1.head?])

/-- What the buffer shows of the deque `q`. -/
structure Shows (b : CircularBuffer T Size) (q : List T) : Prop where
  contents : b.contents = q
  empty_iff : b.empty = true ↔ q.length = 0
  full_iff : b.full = true ↔ q.length = Size - 1
  head_lt : b.head < Size
  tail_lt : b.tail < Size

variable {b : CircularBuffer T Size} {q : List T} {value : T}

/-! ## Pushing at the front -/

/-- One place back, around the end of the array. -/
theorem decrement_eq {index : ℕ} (hle : Size ≤ 2147483648) (h : index < Size) :
    decrement Size index = if index = 0 then Size - 1 else index - 1 := by
  have hu : u32 (index + Size + 4294967295) = index + Size - 1 := by
    unfold u32
    omega
  unfold decrement
  rw [hu]
  split
  · rename_i h0
    rw [h0, Nat.zero_add, Nat.mod_eq_of_lt (by omega)]
  · rw [show index + Size - 1 = index - 1 + Size by omega, Nat.add_mod_right,
      Nat.mod_eq_of_lt (by omega)]

theorem decrement_add {index : ℕ} (hle : Size ≤ 2147483648) (h : index < Size) (i : ℕ) :
    (decrement Size index + (i + 1)) % Size = (index + i) % Size := by
  rw [decrement_eq hle h]
  split
  · rename_i h0
    rw [h0, show Size - 1 + (i + 1) = 0 + i + Size by omega, Nat.add_mod_right]
  · rw [show index - 1 + (i + 1) = index + i by omega]

theorem decrement_lt {index : ℕ} (h : index < Size) : decrement Size index < Size :=
  Nat.mod_lt _ (by omega)

/-- A push that is not refused goes in front of the queue, in a cell of its own. -/
theorem Holds.pushFront (h : Holds b 0 q) (hle : Size ≤ 2147483648) (hfull : b.full = false)
    (value : T) : Holds (b.pushFront value) 0 (value :: q) := by
  have hlen := h.length_lt
  have hhead := decrement_lt h.head_lt
  have hroom : q.length + 1 < Size := by
    have hne : q.length ≠ Size - 1 := fun heq => by simp [h.full_iff.mpr heq] at hfull
    omega
  unfold CircularBuffer.pushFront
  rw [hfull]
  refine ⟨hhead, by simpa using hroom, ?_, ?_⟩
  · simp only [Bool.not_false, ↓reduceIte, List.length_cons]
    rw [decrement_add hle h.head_lt, h.tail_eq]
  · intro i hi _
    simp only [Bool.not_false, ↓reduceIte]
    cases i with
    | zero =>
      rw [Nat.add_zero, Nat.mod_eq_of_lt hhead, Function.update_self]
      rfl
    | succ i =>
      simp only [List.length_cons] at hi
      have hne : (decrement Size b.head + (i + 1)) % Size ≠ decrement Size b.head := by
        intro heq
        have hzero : (decrement Size b.head + (i + 1)) % Size =
            (decrement Size b.head + 0) % Size := by
          rw [heq, Nat.add_zero, Nat.mod_eq_of_lt hhead]
        have := cell_inj _ (by omega) (by omega) hzero
        omega
      rw [Function.update_of_ne hne, decrement_add hle h.head_lt]
      exact h.cells i (by omega) (Nat.zero_le i)

/-! ## One call, and a whole history -/

/-- The buffer shows the queue it holds. -/
theorem Holds.shows (h : Holds b 0 q) : Shows b q := by
  have hhead := h.head_lt
  have hlen := h.length_lt
  have hcount : (b.tail + Size - b.head) % Size = q.length := by
    rw [h.tail_eq]
    rcases Nat.lt_or_ge (b.head + q.length) Size with hlt | hge
    · rw [Nat.mod_eq_of_lt hlt, show b.head + q.length + Size - b.head = q.length + Size by omega,
        Nat.add_mod_right, Nat.mod_eq_of_lt hlen]
    · rw [Nat.mod_eq_sub_mod hge, Nat.mod_eq_of_lt (by omega : b.head + q.length - Size < Size),
        show b.head + q.length - Size + Size - b.head = q.length by omega, Nat.mod_eq_of_lt hlen]
  refine ⟨?_, ?_, h.full_iff, hhead, ?_⟩
  · unfold contents
    rw [hcount]
    apply List.ext_getElem
    · simp
    · intro i _ hi
      rw [List.getElem_map, List.getElem_range]
      exact h.cells i hi (Nat.zero_le i)
  · rw [h.empty_iff, List.length_eq_zero_iff]
  · rw [h.tail_eq]
    exact Nat.mod_lt _ (by omega)

/-- **One call** does to the buffer what it does to the deque. -/
theorem Holds.bufferStep (h : Holds b 0 q) (hle : Size ≤ 2147483648) (zero : T)
    (returned : List (Option T)) (op : DequeOp T) :
    Holds (bufferStep zero (b, returned) op).1 0 (dequeStep (Size - 1) (q, returned) op).1 ∧
      (CircularBuffer.bufferStep zero (b, returned) op).2 =
        (dequeStep (Size - 1) (q, returned) op).2 := by
  have hlen := h.length_lt
  have hroom : b.full = false ↔ q.length < Size - 1 := by
    rw [← Bool.not_eq_true, h.full_iff]
    omega
  cases op with
  | pushBack value =>
    refine ⟨?_, rfl⟩
    simp only [CircularBuffer.bufferStep, dequeStep]
    split
    · rename_i hlt
      exact h.pushBack (hroom.mpr hlt) value
    · rename_i hlt
      rw [CircularBuffer.pushBack, eq_true_of_ne_false (mt hroom.mp hlt)]
      exact h
  | pushFront value =>
    refine ⟨?_, rfl⟩
    simp only [CircularBuffer.bufferStep, dequeStep]
    split
    · rename_i hlt
      exact h.pushFront hle (hroom.mpr hlt) value
    · rename_i hlt
      rw [CircularBuffer.pushFront, eq_true_of_ne_false (mt hroom.mp hlt)]
      exact h
  | pop =>
    obtain ⟨hvalue, hrest⟩ := h.pop zero
    refine ⟨hrest, ?_⟩
    simp only [CircularBuffer.bufferStep, dequeStep]
    rw [hvalue]

/-- **The circular buffer is a bounded deque**, for every `Size` and every history of pushes at
    both ends and pops. -/
theorem buffer_is_deque (hpos : 1 ≤ Size) (hle : Size ≤ 2147483648) (zero : T) (cells : ℕ → T)
    (ops : List (DequeOp T)) :
    let buffer := ops.foldl (bufferStep zero) ((⟨0, 0, cells⟩ : CircularBuffer T Size), [])
    let deque := ops.foldl (dequeStep (Size - 1)) ([], [])
    Shows buffer.1 deque.1 ∧ buffer.2 = deque.2 := by
  intro buffer deque
  have hinv : Holds buffer.1 0 deque.1 ∧ buffer.2 = deque.2 := by
    induction ops using List.reverseRecOn with
    | nil => exact ⟨Holds.nil hpos cells, rfl⟩
    | append_singleton ops op ih =>
      simp only [buffer, deque, List.foldl_append, List.foldl_cons, List.foldl_nil]
      generalize ops.foldl (CircularBuffer.bufferStep zero) _ = s at ih ⊢
      generalize ops.foldl (dequeStep (Size - 1)) _ = t at ih ⊢
      obtain ⟨b, returned⟩ := s
      obtain ⟨q, returned'⟩ := t
      obtain ⟨h, hreturned⟩ : Holds b 0 q ∧ returned = returned' := ih
      subst hreturned
      exact h.bufferStep hle zero returned op
  exact ⟨hinv.1.shows, hinv.2⟩

/-- Around the end of three cells in both directions. -/
theorem buffer_is_deque_example :
    let ops : List (DequeOp ℕ) :=
      [.pop, .pushFront 7, .pushBack 8, .pushFront 9, .pop, .pushFront 6, .pop, .pop]
    let buffer := ops.foldl (bufferStep 0) ((⟨0, 0, fun _ => 0⟩ : CircularBuffer ℕ 3), [])
    let deque := ops.foldl (dequeStep (3 - 1)) ([], [])
    Shows buffer.1 deque.1 ∧ buffer.2 = deque.2 :=
  buffer_is_deque (by omega) (by omega) 0 (fun _ => 0) _

end HryOS.CircularBuffer
