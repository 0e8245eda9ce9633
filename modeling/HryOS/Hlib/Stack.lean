import HryOS.Lib.Transition
import HryOS.Scheduler.TaskSwitch

/-!
# `hlib::stack` as a last-in first-out stack

`push` compares the new top with `bottom_`, `pop` with `bottom_ + size_`, where `size_` is a
`uint8_t`: the region `pop` sees is the first `capacity % 256` bytes.  And the cast in `pop` turns
the address `top_` into the value, and does not load the word there.

* `pop` — for a type that the cast compiles for.
* `step` — the code next to the stack it is for.
* `PopIsRight` — when a `pop` returns the value pushed last.
* `stack_lifo_iff` — the code is a stack all along a run exactly when each `pop` of the run is
  right.
-/

set_option autoImplicit false

namespace HryOS.Stack

open ByteMemory Transition X86 TaskSwitch

/-- `stack::pop<void*>`: what it returns, and the memory it leaves. -/
def pop (m : Mem) (stack : ℕ) : ℕ × Mem :=
  let top := load32 m (stack + 4)
  let new_top := u32 (top + 4)
  if u32 (load32 m stack + (m (stack + 8)).toNat) < new_top then (0, m)
  -- `T value = reinterpret_cast<T*>(top_)`
  else (top, store32 m (stack + 4) new_top)

/-- The calls, on 4-byte values. -/
inductive Op
  | push (value : UInt32)
  | pop
  deriving DecidableEq, Repr

/-- A call on the stack object, with what `pop` has returned so far. -/
def codeStep (stack : ℕ) (s : Mem × List ℕ) : Op → Mem × List ℕ
  | .push value => (TaskSwitch.push s.1 stack value.toNat, s.2)
  | .pop => ((pop s.1 stack).2, s.2 ++ [(pop s.1 stack).1])

/-- A call on a stack of `capacity` bytes, the value pushed last first; an empty stack pops the
    value-initialised 0. -/
def lifoStep (capacity : ℕ) (s : List ℕ × List ℕ) : Op → List ℕ × List ℕ
  | .push value =>
    (if 4 * (s.1.length + 1) ≤ capacity then value.toNat :: s.1 else s.1, s.2)
  | .pop => (s.1.tail, s.2 ++ [s.1.head?.getD 0])

/-- The stack object in memory and the stack it is for. -/
structure State where
  code : Mem × List ℕ
  lifo : List ℕ × List ℕ

/-- One call on both. -/
def step (stack capacity : ℕ) : Step State Op := fun s op =>
  some ⟨codeStep stack s.code op, lifoStep capacity s.lifo op⟩

/-- After `stack::stack(capacity)`, where `new` returned `bottom`. -/
def start (m : Mem) (stack capacity bottom : ℕ) : State :=
  ⟨(constructStack m stack capacity bottom, []), ([], [])⟩

/-- The object at `stack` holds `values` between its top and the end of its array. -/
structure Holds (m : Mem) (stack capacity bottom : ℕ) (values : List ℕ) : Prop where
  bottom_eq : load32 m stack = bottom
  size_eq : (m (stack + 8)).toNat = capacity % 256
  top_eq : load32 m (stack + 4) + 4 * values.length = bottom + capacity
  bottom_le : bottom ≤ load32 m (stack + 4)
  words : WordsAt m (load32 m (stack + 4)) values

/-- The object holds what the stack holds, and every `pop` returned what it should. -/
def IsLifo (stack capacity bottom : ℕ) (s : State) : Prop :=
  Holds s.code.1 stack capacity bottom s.lifo.1 ∧ s.code.2 = s.lifo.2

/-- A `pop` is right on an empty stack.  On another one the word on top has to lie in the first
    `capacity % 256` bytes, and to be its own address. -/
def PopIsRight (capacity bottom : ℕ) (s : State) : Op → Prop
  | .push _ => True
  | .pop => s.lifo.1 = [] ∨
      capacity + 4 ≤ capacity % 256 + 4 * s.lifo.1.length ∧
        s.lifo.1.head? = some (bottom + capacity - 4 * s.lifo.1.length)

variable {m : Mem} {stack capacity bottom value : ℕ} {values : List ℕ} {s s' : State} {op : Op}

/-! ## The constructor, `push` and `pop` -/

theorem constructStack_holds (hend : bottom + capacity + 4 < 4294967296) :
    Holds (constructStack m stack capacity bottom) stack capacity bottom [] := by
  have htop : load32 (constructStack m stack capacity bottom) (stack + 4) = bottom + capacity := by
    unfold constructStack
    rw [load32_store32_self (u32_lt _), u32_of_lt (by omega)]
  refine ⟨?_, ?_, ?_, ?_, trivial⟩
  · unfold constructStack
    rw [load32_store32_of_apart (by omega), load32_store32_self (by omega)]
  · unfold constructStack
    rw [store32_apply_of_outside (by omega), store32_apply_of_outside (by omega), store8,
      if_pos rfl, UInt8.toNat_ofNat']
  · rw [htop]
    rfl
  · rw [htop]
    exact Nat.le_add_right ..

/-- A push with room. -/
theorem Holds.push (h : Holds m stack capacity bottom values)
    (hapart : Apart stack 12 bottom capacity) (hroom : 4 * (values.length + 1) ≤ capacity)
    (hvalue : value < 4294967296) :
    Holds (TaskSwitch.push m stack value) stack capacity bottom (value :: values) := by
  obtain ⟨hbottom, hsize, htop, hle, hwords⟩ := h
  have hlt := load32_lt m (stack + 4)
  unfold Apart at hapart
  generalize ht : load32 m (stack + 4) = t at *
  rw [push_eq hbottom ht (by omega)]
  have htop' : load32 (store32 (store32 m (stack + 4) (t - 4)) (t - 4) value) (stack + 4) =
      t - 4 := by
    rw [load32_store32_of_apart (by omega), load32_store32_self (by omega)]
  refine ⟨?_, ?_, ?_, ?_, ?_⟩
  · rw [load32_store32_of_apart (by omega), load32_store32_of_apart (by omega), hbottom]
  · rw [store32_apply_of_outside (by omega), store32_apply_of_outside (by omega), hsize]
  · rw [htop', List.length_cons]
    omega
  · rw [htop']
    omega
  · rw [htop']
    refine ⟨load32_store32_self hvalue, ?_⟩
    rw [show t - 4 + 4 = t by omega]
    apply hwords.congr
    intro x h1 h2
    rw [store32_apply_of_outside (by omega), store32_apply_of_outside (by omega)]

/-- A push without room changes nothing. -/
theorem Holds.push_full (h : Holds m stack capacity bottom values) (hbottom : 4 ≤ bottom)
    (hroom : ¬4 * (values.length + 1) ≤ capacity) : TaskSwitch.push m stack value = m := by
  have htop := h.top_eq
  have hle := h.bottom_le
  have hlt := load32_lt m (stack + 4)
  unfold TaskSwitch.push
  dsimp only
  rw [h.bottom_eq]
  apply if_neg
  unfold u32
  omega

/-- `pop` refuses when the word on top ends behind the bytes that `size_` counts. -/
theorem Holds.pop_eq (h : Holds m stack capacity bottom values)
    (hend : bottom + capacity + 4 < 4294967296) :
    pop m stack = if capacity % 256 + 4 * values.length < capacity + 4 then (0, m)
      else (load32 m (stack + 4), store32 m (stack + 4) (load32 m (stack + 4) + 4)) := by
  have htop := h.top_eq
  have hmod := Nat.mod_le capacity 256
  unfold pop
  dsimp only
  rw [h.bottom_eq, h.size_eq, u32_of_lt (by omega), u32_of_lt (by omega)]
  exact if_congr (by omega) rfl rfl

/-- A pop that is not refused drops the word on top. -/
theorem Holds.pop (h : Holds m stack capacity bottom (value :: values))
    (hapart : Apart stack 12 bottom capacity) (hend : bottom + capacity + 4 < 4294967296) :
    Holds (store32 m (stack + 4) (load32 m (stack + 4) + 4)) stack capacity bottom values := by
  obtain ⟨hbottom, hsize, htop, hle, -, hwords⟩ := h
  rw [List.length_cons] at htop
  unfold Apart at hapart
  refine ⟨?_, ?_, ?_, ?_, ?_⟩
  · rw [load32_store32_of_apart (by omega), hbottom]
  · rw [store32_apply_of_outside (by omega), hsize]
  · rw [load32_store32_self (by omega)]
    omega
  · rw [load32_store32_self (by omega)]
    omega
  · rw [load32_store32_self (by omega)]
    apply hwords.congr
    intro x h1 h2
    exact store32_apply_of_outside (by omega)

/-! ## One call, and a whole run -/

/-- A refused `pop` leaves one word too many. -/
theorem Holds.not_tail (h : Holds m stack capacity bottom (value :: values)) :
    ¬Holds m stack capacity bottom values := by
  intro hstill
  have htop := h.top_eq
  have hsame := hstill.top_eq
  rw [List.length_cons] at htop
  omega

/-- What `pop` does to a stack with a word on it is right exactly when the word lies where `size_`
    counts, and is its own address. -/
theorem Holds.pop_right_iff (h : Holds m stack capacity bottom (value :: values))
    (hend : bottom + capacity + 4 < 4294967296) (hapart : Apart stack 12 bottom capacity) :
    (Stack.pop m stack).1 = value ∧ Holds (Stack.pop m stack).2 stack capacity bottom values ↔
      capacity + 4 ≤ capacity % 256 + 4 * (value :: values).length ∧
        value = bottom + capacity - 4 * (value :: values).length := by
  have htop := h.top_eq
  have haddr : load32 m (stack + 4) = bottom + capacity - 4 * (value :: values).length := by omega
  rw [h.pop_eq hend, ← haddr]
  split
  · rename_i hrefused
    refine iff_of_false ?_ ?_
    · rintro ⟨-, hstill⟩
      exact h.not_tail hstill
    · rintro ⟨hfit, -⟩
      omega
  · rename_i hfit
    constructor
    · rintro ⟨hvalue, -⟩
      exact ⟨by omega, hvalue.symm⟩
    · rintro ⟨-, hvalue⟩
      exact ⟨hvalue.symm, h.pop hapart hend⟩

/-- `pop` on an empty stack. -/
theorem Holds.pop_empty (h : Holds m stack capacity bottom [])
    (hend : bottom + capacity + 4 < 4294967296) : Stack.pop m stack = (0, m) := by
  have hmod := Nat.mod_le capacity 256
  rw [h.pop_eq hend, List.length_nil, if_pos (by omega)]

/-- **Step rule**: a call keeps the code in step with the stack exactly when it is right. -/
theorem step_isLifo_iff (hbottom : 4 ≤ bottom) (hend : bottom + capacity + 4 < 4294967296)
    (hapart : Apart stack 12 bottom capacity) (h : IsLifo stack capacity bottom s)
    (hs : step stack capacity s op = some s') :
    IsLifo stack capacity bottom s' ↔ PopIsRight capacity bottom s op := by
  obtain ⟨⟨m, returned⟩, ⟨values, expected⟩⟩ := s
  obtain ⟨hholds, rfl⟩ : Holds m stack capacity bottom values ∧ returned = expected := h
  obtain rfl := Option.some.inj hs
  cases op with
  | push value =>
    refine iff_of_true ⟨?_, rfl⟩ trivial
    simp only [codeStep, lifoStep]
    split
    · rename_i hroom
      exact hholds.push hapart hroom value.toNat_lt
    · rename_i hroom
      rw [hholds.push_full hbottom hroom]
      exact hholds
  | pop =>
    simp only [IsLifo, PopIsRight, codeStep, lifoStep]
    cases values with
    | nil =>
      rw [hholds.pop_empty hend]
      exact iff_of_true ⟨hholds, rfl⟩ (Or.inl rfl)
    | cons value values =>
      have hright := hholds.pop_right_iff hend hapart
      simp only [List.tail_cons, List.head?_cons, Option.getD_some, List.append_cancel_left_eq,
        List.cons.injEq, and_true, reduceCtorEq, false_or, Option.some.injEq]
      rw [and_comm]
      exact hright

/-- **The stack is last-in first-out** all along a run of pushes and pops exactly when every `pop`
    of the run is right. -/
theorem stack_lifo_iff (hbottom : 4 ≤ bottom) (hend : bottom + capacity + 4 < 4294967296)
    (hapart : Apart stack 12 bottom capacity) (m : Mem) (ops : List Op) :
    Along (step stack capacity) (IsLifo stack capacity bottom) (start m stack capacity bottom) ops ↔
      EveryStep (step stack capacity) (PopIsRight capacity bottom)
        (start m stack capacity bottom) ops := by
  have hrun : ∀ (ops : List Op) (s : State), ∃ t, run (step stack capacity) s ops = some t := by
    intro ops
    induction ops with
    | nil => exact fun s => ⟨s, rfl⟩
    | cons op ops ih => exact fun s => ih _
  obtain ⟨t, ht⟩ := hrun ops (start m stack capacity bottom)
  apply along_iff_everyStep (I := fun _ => True) _ _ trivial ⟨constructStack_holds hend, rfl⟩ ht
  · exact fun _ _ _ _ _ => trivial
  · exact fun _ _ _ _ h hs => step_isLifo_iff hbottom hend hapart h hs

/-- In eight bytes: two pushes, a third that does not fit, and the words are their own addresses. -/
theorem stack_lifo_example :
    let ops : List Op := [.pop, .push 8196, .push 8192, .push 7, .pop, .pop, .pop]
    Along (step 4096 8) (IsLifo 4096 8 8192) (start (fun _ => 0) 4096 8 8192) ops ↔
      EveryStep (step 4096 8) (PopIsRight 8 8192) (start (fun _ => 0) 4096 8 8192) ops :=
  stack_lifo_iff (by decide) (by decide) (by decide) (fun _ => 0) _

/-- With the capacity of a process stack, what was pushed is never popped. -/
theorem not_popIsRight_STACK_SIZE (h : s.lifo.1 ≠ []) (hfit : 4 * s.lifo.1.length ≤ STACK_SIZE) :
    ¬PopIsRight STACK_SIZE bottom s .pop := by
  have hpos : 0 < s.lifo.1.length := List.length_pos_iff.mpr h
  rintro (hnil | ⟨hsize, -⟩)
  · exact h hnil
  · unfold STACK_SIZE at hfit hsize
    omega

/-- One push and one pop on a process stack. -/
theorem stack_not_lifo : ¬Along (step 4096 16384) (IsLifo 4096 16384 8192)
    (start (fun _ => 0) 4096 16384 8192) [.push 1, .pop] := by
  intro h
  have hreturned : [0] = [1] := (h [.push 1, .pop] (List.prefix_refl _) _ rfl).2
  simp at hreturned

end HryOS.Stack
