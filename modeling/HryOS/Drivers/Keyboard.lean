import HryOS.Hlib.CircularBuffer
import HryOS.Scheduler.Invariant

/-!
# The keyboard driver under every interleaving (`keyboard.cpp`)

The scheduler's system with the key buffer: the keyboard interrupt stores an event before it
wakes the blocked processes, and one process, the `consumer`, calls `pull_key` in a loop.  Its
test of the buffer, the two halves of `block_current_process` and the accesses of `pop` are
separate steps; the other calls it makes come between two calls of `pull_key`.

* `step` — the system; `sched_reachable` — its scheduler runs as in `Scheduler.step`.
* `NoLostWakeUp` — no process is blocked for io while the buffer holds an event.
* `no_lost_wake_up_iff` — exactly when that holds all along a run.
-/

set_option autoImplicit false

namespace HryOS.Keyboard

open Transition HryOS.Scheduler

/-! ## Key events -/

/-- `keyboard::button_state`. -/
inductive ButtonState
  | pressed | released
  deriving DecidableEq, Repr

/-- `keyboard::key_event`. -/
structure KeyEvent where
  state : ButtonState
  key : ℕ
  deriving DecidableEq, Repr

/-- `value_type()`. -/
def KeyEvent.default : KeyEvent := ⟨.pressed, 0⟩

/-- The event of a scan code, as `on_isr_callback` builds it. -/
def keyEvent (code : UInt8) : KeyEvent where
  key := (code &&& 0x7F).toNat
  state := if (code &&& 0x80) >>> 7 = 0 then .pressed else .released

/-! ## The system -/

/-- Where the consumer stands. -/
inductive PullLoc
  /-- between two calls of `pull_key` -/
  | outside
  /-- `is_buffer_empty` was true, `block_current_process` comes next -/
  | block
  /-- enqueued, its `reschedule` comes next -/
  | reschedule
  /-- at the test of `pop` -/
  | pop
  /-- inside `pop`, at its three statements -/
  | front
  | resetFront (value : KeyEvent)
  | advance (value : KeyEvent)
  deriving DecidableEq, Repr

/-- The scheduler, the key buffer, the consumer's position and what `pull_key` returned to it. -/
structure Driver where
  sys : System
  buffer : CircularBuffer KeyEvent 100
  loc : PullLoc
  pulled : List KeyEvent

/-- The steps. -/
inductive Label
  /-- a step of the scheduler that is none of the steps below -/
  | sched (a : Scheduler.Label)
  | keyboardIrq (code : UInt8)
  /-- the steps of `pull_key`, in program order -/
  | isBufferEmpty
  | block
  | reschedule
  | popEmpty
  | popFront
  | popResetFront
  | popAdvance
  deriving DecidableEq, Repr

/-- The scheduler's own steps: nobody else blocks for io, the consumer is in no call of `pull_key`
    when it makes another one, and its loop does not end. -/
def MayStep (consumer : Ptr) (d : Driver) : Scheduler.Label → Prop
  | .boot | .timerIrq => True
  | .keyboardIrq | .blockCurrentProcess _ => False
  | .taskReturn => d.sys.sched.currentProcess ≠ some consumer
  | .createProcess .. | .sleepMs _ | .waitFor _ | .reschedule =>
    d.sys.sched.currentProcess = some consumer → d.loc = .outside

instance (consumer : Ptr) (d : Driver) : ∀ a, Decidable (MayStep consumer d a)
  | .boot | .timerIrq => isTrue trivial
  | .keyboardIrq | .blockCurrentProcess _ => isFalse id
  | .taskReturn => inferInstanceAs (Decidable (_ ≠ _))
  | .createProcess .. | .sleepMs _ | .waitFor _ | .reschedule =>
    inferInstanceAs (Decidable (_ → _))

/-- The consumer runs, with its scheduler position at `l` and its own at `loc`. -/
def At (consumer : Ptr) (d : Driver) (l : Loc) (loc : PullLoc) : Prop :=
  d.sys.acting l = some consumer ∧ d.loc = loc

instance (consumer : Ptr) (d : Driver) (l : Loc) (loc : PullLoc) :
    Decidable (At consumer d l loc) := inferInstanceAs (Decidable (_ ∧ _))

/-- One step; `keyboardIrq` is the handler `on_isr_callback`, in its order. -/
def step (consumer : Ptr) (d : Driver) : Label → Option Driver
  | .sched a =>
    if MayStep consumer d a then
      (Scheduler.step d.sys a).map fun sys => { d with sys := sys }
    else none
  | .keyboardIrq code =>
    (Scheduler.step d.sys .keyboardIrq).map fun sys =>
      { d with sys := sys, buffer := d.buffer.pushBack (keyEvent code) }
  | .isBufferEmpty =>
    if At consumer d .user .outside then
      some { d with loc := if d.buffer.empty then .block else .pop }
    else none
  | .block =>
    if At consumer d .user .block then
      (Scheduler.step d.sys (.blockCurrentProcess .io)).map fun sys =>
        { d with sys := sys, loc := .reschedule }
    else none
  | .reschedule =>
    if At consumer d .window .reschedule then
      (Scheduler.step d.sys .reschedule).map fun sys => { d with sys := sys, loc := .pop }
    else none
  | .popEmpty =>
    if At consumer d .user .pop then
      if d.buffer.empty then
        -- `value()` of an empty optional is its value-initialised content
        some { d with loc := .outside, pulled := d.pulled ++ [KeyEvent.default] }
      else some { d with loc := .front }
    else none
  | .popFront =>
    if At consumer d .user .front then some { d with loc := .resetFront d.buffer.front } else none
  | .popResetFront =>
    match d.loc with
    | .resetFront value =>
      if d.sys.acting .user = some consumer then
        some { d with buffer := d.buffer.resetFront KeyEvent.default, loc := .advance value }
      else none
    | _ => none
  | .popAdvance =>
    match d.loc with
    | .advance value =>
      if d.sys.acting .user = some consumer then
        some { d with buffer := d.buffer.advance, loc := .outside, pulled := d.pulled ++ [value] }
      else none
    | _ => none

/-- The consumer is `terminal`, and the buffer is empty. -/
def init (x i : Ptr) (terminal : Task) : Driver where
  sys := Scheduler.init x i terminal
  buffer := ⟨0, 0, fun _ => KeyEvent.default⟩
  loc := .outside
  pulled := []

/-! ## The scheduler underneath -/

variable {consumer x i : Ptr} {terminal : Task} {d d' : Driver} {l : Label}

/-- The step of the scheduler that a step contains. -/
def schedLabels : Label → List Scheduler.Label
  | .sched a => [a]
  | .keyboardIrq _ => [.keyboardIrq]
  | .block => [.blockCurrentProcess .io]
  | .reschedule => [.reschedule]
  | .isBufferEmpty | .popEmpty | .popFront | .popResetFront | .popAdvance => []

theorem run_singleton {t t' : System} {a : Scheduler.Label} (h : Scheduler.step t a = some t') :
    run Scheduler.step t [a] = some t' := run_cons_some.mpr ⟨t', h, rfl⟩

/-- What a step does, label by label. -/
theorem step_cases (h : step consumer d l = some d') :
    (∃ a sys, l = .sched a ∧ MayStep consumer d a ∧ Scheduler.step d.sys a = some sys ∧
      d' = { d with sys := sys }) ∨
    (∃ code sys, l = .keyboardIrq code ∧ Scheduler.step d.sys .keyboardIrq = some sys ∧
      d' = { d with sys := sys, buffer := d.buffer.pushBack (keyEvent code) }) ∨
    (l = .isBufferEmpty ∧ d' = { d with loc := if d.buffer.empty then .block else .pop }) ∨
    (∃ sys, l = .block ∧ At consumer d .user .block ∧
      Scheduler.step d.sys (.blockCurrentProcess .io) = some sys ∧
      d' = { d with sys := sys, loc := .reschedule }) ∨
    (∃ sys, l = .reschedule ∧ Scheduler.step d.sys .reschedule = some sys ∧
      d' = { d with sys := sys, loc := .pop }) ∨
    (l = .popEmpty ∧ d.buffer.empty = true ∧
      d' = { d with loc := .outside, pulled := d.pulled ++ [KeyEvent.default] }) ∨
    (l = .popEmpty ∧ d.buffer.empty = false ∧ d' = { d with loc := .front }) ∨
    (l = .popFront ∧ d.loc = .front ∧ d' = { d with loc := .resetFront d.buffer.front }) ∨
    (∃ value, l = .popResetFront ∧ d.loc = .resetFront value ∧
      d' = { d with buffer := d.buffer.resetFront KeyEvent.default, loc := .advance value }) ∨
    ∃ value, l = .popAdvance ∧ d.loc = .advance value ∧
      d' = { d with buffer := d.buffer.advance, loc := .outside, pulled := d.pulled ++ [value] } := by
  cases l with
  | sched a =>
    simp only [step, Option.ite_none_right_eq_some, Option.map_eq_some_iff] at h
    obtain ⟨hmay, sys, hs, rfl⟩ := h
    exact Or.inl ⟨a, sys, rfl, hmay, hs, rfl⟩
  | keyboardIrq code =>
    simp only [step, Option.map_eq_some_iff] at h
    obtain ⟨sys, hs, rfl⟩ := h
    exact Or.inr (Or.inl ⟨code, sys, rfl, hs, rfl⟩)
  | isBufferEmpty =>
    simp only [step, Option.ite_none_right_eq_some, Option.some.injEq] at h
    exact Or.inr (Or.inr (Or.inl ⟨rfl, h.2.symm⟩))
  | block =>
    simp only [step, Option.ite_none_right_eq_some, Option.map_eq_some_iff] at h
    obtain ⟨hat, sys, hs, rfl⟩ := h
    exact Or.inr (Or.inr (Or.inr (Or.inl ⟨sys, rfl, hat, hs, rfl⟩)))
  | reschedule =>
    simp only [step, Option.ite_none_right_eq_some, Option.map_eq_some_iff] at h
    obtain ⟨-, sys, hs, rfl⟩ := h
    exact Or.inr (Or.inr (Or.inr (Or.inr (Or.inl ⟨sys, rfl, hs, rfl⟩))))
  | popEmpty =>
    simp only [step, Option.ite_none_right_eq_some] at h
    obtain ⟨-, h⟩ := h
    split at h
    · rename_i he
      exact Or.inr (Or.inr (Or.inr (Or.inr (Or.inr (Or.inl
        ⟨rfl, he, (Option.some.inj h).symm⟩)))))
    · rename_i he
      exact Or.inr (Or.inr (Or.inr (Or.inr (Or.inr (Or.inr (Or.inl
        ⟨rfl, Bool.eq_false_iff.mpr he, (Option.some.inj h).symm⟩))))))
  | popFront =>
    simp only [step, Option.ite_none_right_eq_some, Option.some.injEq] at h
    exact Or.inr (Or.inr (Or.inr (Or.inr (Or.inr (Or.inr (Or.inr (Or.inl
      ⟨rfl, h.1.2, h.2.symm⟩)))))))
  | popResetFront =>
    simp only [step] at h
    split at h
    · rename_i value hloc
      simp only [Option.ite_none_right_eq_some, Option.some.injEq] at h
      exact Or.inr (Or.inr (Or.inr (Or.inr (Or.inr (Or.inr (Or.inr (Or.inr (Or.inl
        ⟨value, rfl, hloc, h.2.symm⟩))))))))
    · cases h
  | popAdvance =>
    simp only [step] at h
    split at h
    · rename_i value hloc
      simp only [Option.ite_none_right_eq_some, Option.some.injEq] at h
      exact Or.inr (Or.inr (Or.inr (Or.inr (Or.inr (Or.inr (Or.inr (Or.inr (Or.inr
        ⟨value, rfl, hloc, h.2.symm⟩))))))))
    · cases h

/-- **Simulation**: the scheduler inside the driver makes its own steps, or none. -/
theorem step_sched (h : step consumer d l = some d') :
    run Scheduler.step d.sys (schedLabels l) = some d'.sys := by
  rcases step_cases h with ⟨a, sys, rfl, -, hs, rfl⟩ | ⟨code, sys, rfl, hs, rfl⟩ | ⟨rfl, rfl⟩ |
    ⟨sys, rfl, -, hs, rfl⟩ | ⟨sys, rfl, hs, rfl⟩ | ⟨rfl, -, rfl⟩ | ⟨rfl, -, rfl⟩ | ⟨rfl, -, rfl⟩ |
    ⟨value, rfl, -, rfl⟩ | ⟨value, rfl, -, rfl⟩
  · exact run_singleton hs
  · exact run_singleton hs
  · rfl
  · exact run_singleton hs
  · exact run_singleton hs
  · rfl
  · rfl
  · rfl
  · rfl
  · rfl

/-- Every run of the driver is a run of the scheduler. -/
theorem sched_reachable {ls : List Label}
    (hrun : run (step consumer) (init x i terminal) ls = some d) :
    Reachable Scheduler.step (Scheduler.init x i terminal) d.sys :=
  run_simulation (I := fun _ => True) Driver.sys (fun _ _ _ _ _ => trivial)
    (fun _ _ _ _ h => ⟨_, step_sched h⟩) trivial hrun

end HryOS.Keyboard
