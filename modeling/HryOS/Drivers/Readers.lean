import HryOS.Drivers.Keyboard

/-!
# Any number of readers of the keyboard

Every process may call `pull_key`.  A scope of an interrupt lock, an interrupt handler and a call
of the buffer are one step each, and any reader may run between two of another's.

* `step` — the system; `sched_reachable` — its scheduler runs as in `Scheduler.step`.
* `Authentic` — `pull_key` has returned events that `on_isr_callback` stored, each of them once
  and in order.
* `Pending` — the queue of the events accepted and not returned, which the buffer holds.
* `pulls_authentic_iff` — exactly when `Authentic` holds all along a run.
-/

set_option autoImplicit false

namespace HryOS.Keyboard.Readers

open Transition HryOS.Scheduler

/-! ## The system -/

/-- Where a process stands. -/
inductive ReaderLoc
  /-- between two calls of `pull_key` -/
  | outside
  /-- `is_buffer_empty` was true, `block_current_process` comes next -/
  | block
  /-- enqueued, its `reschedule` comes next -/
  | reschedule
  /-- `buffer.pop().value()` comes next -/
  | pop
  deriving DecidableEq, Repr

/-- The scheduler, the key buffer, the position of each process, the events `push_back` stored and
    those `pull_key` returned, to whichever process. -/
structure State where
  sys : System
  buffer : CircularBuffer KeyEvent 100
  loc : Ptr → ReaderLoc
  accepted : List KeyEvent
  pulled : List KeyEvent

/-- The steps. -/
inductive Label
  /-- a step of the scheduler that is none of the steps below -/
  | sched (a : Scheduler.Label)
  | keyboardIrq (code : UInt8)
  /-- the steps of `pull_key`, in program order, by the process that runs -/
  | isBufferEmpty
  | block
  | reschedule
  | pop
  deriving DecidableEq, Repr

/-- The scheduler's own steps: only `pull_key` blocks, and a process inside of it makes no other
    call and does not return. -/
def MayStep (d : State) : Scheduler.Label → Prop
  | .boot | .timerIrq => True
  | .keyboardIrq | .blockCurrentProcess _ => False
  | .createProcess .. | .sleepMs _ | .waitFor _ | .reschedule | .taskReturn =>
    ∀ c ∈ d.sys.sched.currentProcess, d.loc c = .outside

instance (d : State) : ∀ a, Decidable (MayStep d a)
  | .boot | .timerIrq => isTrue trivial
  | .keyboardIrq | .blockCurrentProcess _ => isFalse id
  | .createProcess .. | .sleepMs _ | .waitFor _ | .reschedule | .taskReturn =>
    inferInstanceAs (Decidable (∀ c ∈ _, _))

namespace State

/-- The process that runs, with its scheduler position at `l` and its own at `loc`. -/
def reader (d : State) (l : Loc) (loc : ReaderLoc) : Option Ptr :=
  (d.sys.acting l).filter fun c => decide (d.loc c = loc)

/-- `c` goes on to `loc`. -/
def goto (d : State) (c : Ptr) (loc : ReaderLoc) : State :=
  { d with loc := Function.update d.loc c loc }

/-- A new process starts outside of `pull_key`. -/
def started (d : State) : Scheduler.Label → State
  | .createProcess p _ => d.goto p .outside
  | _ => d

end State

/-- One step; `keyboardIrq` is the handler `on_isr_callback`, in its order. -/
def step (d : State) : Label → Option State
  | .sched a =>
    if MayStep d a then
      (Scheduler.step d.sys a).map fun sys => { d.started a with sys := sys }
    else none
  | .keyboardIrq code =>
    (Scheduler.step d.sys .keyboardIrq).map fun sys =>
      { d with
        sys := sys
        buffer := d.buffer.pushBack (keyEvent code)
        accepted := if d.buffer.full then d.accepted else d.accepted ++ [keyEvent code] }
  | .isBufferEmpty =>
    (d.reader .user .outside).map fun c => d.goto c (if d.buffer.empty then .block else .pop)
  | .block =>
    (d.reader .user .block).bind fun c =>
      (Scheduler.step d.sys (.blockCurrentProcess .io)).map fun sys =>
        { d.goto c .reschedule with sys := sys }
  | .reschedule =>
    (d.reader .window .reschedule).bind fun c =>
      (Scheduler.step d.sys .reschedule).map fun sys => { d.goto c .pop with sys := sys }
  | .pop =>
    (d.reader .user .pop).map fun c =>
      let (value, buffer) := d.buffer.pop KeyEvent.default
      -- `value()` of an empty optional is its value-initialised content
      { d.goto c .outside with
        buffer := buffer
        pulled := d.pulled ++ [value.getD KeyEvent.default] }

/-- Nobody has called `pull_key`, and the buffer is empty. -/
def init (x i : Ptr) (terminal : Task) : State where
  sys := Scheduler.init x i terminal
  buffer := ⟨0, 0, fun _ => KeyEvent.default⟩
  loc := fun _ => .outside
  accepted := []
  pulled := []

/-! ## The property -/

/-- The events returned are events accepted, no occurrence of one twice, in the same order. -/
def Authentic (d : State) : Prop := List.Sublist d.pulled d.accepted

/-- The condition on a step: `pull_key` reaches its `pop` with an event in the buffer. -/
def PopsEvent (d : State) : Label → Prop
  | .pop => d.buffer.empty = false
  | _ => True

/-- The buffer holds the events accepted and not returned. -/
def Pending (d : State) : Prop := ∃ q, d.accepted = d.pulled ++ q ∧ d.buffer.Holds 0 q

instance (d : State) : Decidable (Authentic d) := by unfold Authentic; infer_instance

instance (d : State) : ∀ l, Decidable (PopsEvent d l)
  | .pop => inferInstanceAs (Decidable (_ = _))
  | .sched _ | .keyboardIrq _ | .isBufferEmpty | .block | .reschedule => isTrue trivial

variable {x i : Ptr} {terminal : Task} {d d' : State} {l : Label}

/-! ## The scheduler underneath -/

/-- The step of the scheduler that a step contains. -/
def schedLabels : Label → List Scheduler.Label
  | .sched a => [a]
  | .keyboardIrq _ => [.keyboardIrq]
  | .block => [.blockCurrentProcess .io]
  | .reschedule => [.reschedule]
  | .isBufferEmpty | .pop => []

/-- What a step does to the scheduler and to the buffer. -/
theorem step_cases (h : step d l = some d') :
    run Scheduler.step d.sys (schedLabels l) = some d'.sys ∧
      ((∃ code, l = .keyboardIrq code ∧ d'.buffer = d.buffer.pushBack (keyEvent code) ∧
        d'.accepted = (if d.buffer.full then d.accepted else d.accepted ++ [keyEvent code]) ∧
        d'.pulled = d.pulled) ∨
      (l = .pop ∧ d'.buffer = (d.buffer.pop KeyEvent.default).2 ∧ d'.accepted = d.accepted ∧
        d'.pulled = d.pulled ++ [(d.buffer.pop KeyEvent.default).1.getD KeyEvent.default]) ∨
      l ≠ .pop ∧ d'.buffer = d.buffer ∧ d'.accepted = d.accepted ∧ d'.pulled = d.pulled) := by
  cases l with
  | sched a =>
    simp only [step, Option.ite_none_right_eq_some, Option.map_eq_some_iff] at h
    obtain ⟨-, sys, hs, rfl⟩ := h
    refine ⟨run_singleton hs, Or.inr (Or.inr ⟨nofun, ?_⟩)⟩
    cases a <;> exact ⟨rfl, rfl, rfl⟩
  | keyboardIrq code =>
    simp only [step, Option.map_eq_some_iff] at h
    obtain ⟨sys, hs, rfl⟩ := h
    exact ⟨run_singleton hs, Or.inl ⟨code, rfl, rfl, rfl, rfl⟩⟩
  | isBufferEmpty =>
    obtain ⟨c, -, rfl⟩ := Option.map_eq_some_iff.mp h
    exact ⟨rfl, Or.inr (Or.inr ⟨nofun, rfl, rfl, rfl⟩)⟩
  | block =>
    simp only [step, Option.bind_eq_some_iff, Option.map_eq_some_iff] at h
    obtain ⟨c, -, sys, hs, rfl⟩ := h
    exact ⟨run_singleton hs, Or.inr (Or.inr ⟨nofun, rfl, rfl, rfl⟩)⟩
  | reschedule =>
    simp only [step, Option.bind_eq_some_iff, Option.map_eq_some_iff] at h
    obtain ⟨c, -, sys, hs, rfl⟩ := h
    exact ⟨run_singleton hs, Or.inr (Or.inr ⟨nofun, rfl, rfl, rfl⟩)⟩
  | pop =>
    obtain ⟨c, -, rfl⟩ := Option.map_eq_some_iff.mp h
    exact ⟨rfl, Or.inr (Or.inl ⟨rfl, rfl, rfl, rfl⟩)⟩

/-- Every run of the readers is a run of the scheduler. -/
theorem sched_reachable {ls : List Label} (hrun : run step (init x i terminal) ls = some d) :
    Reachable Scheduler.step (Scheduler.init x i terminal) d.sys :=
  run_simulation (I := fun _ => True) State.sys (fun _ _ _ _ _ => trivial)
    (fun _ _ _ _ h => ⟨_, (step_cases h).1⟩) trivial hrun

/-! ## Steps and runs -/

theorem Pending.authentic (h : Pending d) : Authentic d := by
  obtain ⟨q, hacc, -⟩ := h
  unfold Authentic
  rw [hacc]
  exact List.sublist_append_left _ _

/-- A `pop` of an empty buffer returns an event more than were accepted. -/
theorem Pending.invented (h : Pending d) (hempty : d.buffer.empty = true)
    (hs : step d .pop = some d') : ¬Authentic d' := by
  obtain ⟨q, hacc, hq⟩ := h
  obtain rfl := hq.empty_iff.mp hempty
  rcases (step_cases hs).2 with ⟨_, ⟨⟩, -⟩ | ⟨-, -, hacc', hpulled'⟩ | ⟨hne, -⟩
  · intro hsub
    have hle := hsub.length_le
    rw [hacc', hpulled', hacc, List.append_nil, List.length_append, List.length_singleton] at hle
    omega
  · exact absurd rfl hne

/-- **One step of any reader or interrupt** keeps the queue, a `pop` of an empty buffer apart. -/
theorem Pending.step (h : Pending d) (hok : PopsEvent d l) (hs : step d l = some d') :
    Pending d' := by
  obtain ⟨q, hacc, hq⟩ := h
  unfold Pending
  rcases (step_cases hs).2 with ⟨code, rfl, hbuffer, hacc', hpulled⟩ | ⟨rfl, hbuffer, hacc', hpulled⟩ |
    ⟨-, hbuffer, hacc', hpulled⟩
  · rw [hbuffer, hacc', hpulled]
    cases hfull : d.buffer.full with
    | true => exact ⟨q, hacc, by simpa [CircularBuffer.pushBack, hfull] using hq⟩
    | false => exact ⟨q ++ [keyEvent code], by simp [hacc], hq.pushBack hfull (keyEvent code)⟩
  · have hne : q ≠ [] := fun hnil => by
      rw [PopsEvent, hq.empty_iff.mpr hnil] at hok
      cases hok
    obtain ⟨value, q, rfl⟩ := List.exists_cons_of_ne_nil hne
    obtain ⟨hvalue, hrest⟩ := hq.pop KeyEvent.default
    rw [hbuffer, hacc', hpulled, hvalue]
    exact ⟨q, by simp [hacc], hrest⟩
  · rw [hbuffer, hacc', hpulled]
    exact ⟨q, hacc, hq⟩

theorem Pending.init : Pending (init x i terminal) :=
  ⟨[], rfl, CircularBuffer.Holds.nil (by omega) _⟩

/-- **One step**: a reader invents a key exactly where it pops an empty buffer. -/
theorem Pending.authentic_step (h : Pending d) (hs : Readers.step d l = some d') :
    Authentic d' ↔ PopsEvent d l := by
  constructor
  · intro hauth
    cases l with
    | pop =>
      by_contra hempty
      exact h.invented (eq_true_of_ne_false hempty) hs hauth
    | _ => trivial
  · exact fun hok => (h.step hok hs).authentic

/-- **`pull_key` never invents a key, exactly when** no reader reaches its `pop` with the buffer
    empty. -/
theorem pulls_authentic_iff (x i : Ptr) (terminal : Task) {ls : List Label}
    (hrun : run step (init x i terminal) ls = some d) :
    Along step Authentic (init x i terminal) ls ↔
      EveryStep step PopsEvent (init x i terminal) ls := by
  apply along_iff_everyStep_of_kept (I := Pending) _ _ Pending.init Pending.init.authentic hrun
  · intro s l s' h _ hauth hs
    exact h.step ((h.authentic_step hs).mp hauth) hs
  · intro s l s' h _ hs
    exact h.authentic_step hs

/-- Two readers block, two keys arrive, and each reader gets one of them. -/
theorem pulls_authentic_example : ∃ d, run step (init 4096 8192 (.function 1))
    [.sched .boot, .sched (.createProcess 12288 (.function 2)), .isBufferEmpty, .block, .reschedule,
      .sched .timerIrq, .isBufferEmpty, .block, .reschedule, .keyboardIrq 0x1E, .keyboardIrq 0x9E,
      .sched .timerIrq, .pop, .sched .timerIrq, .pop] = some d ∧
        d.pulled = [⟨.pressed, 0x1E⟩, ⟨.released, 0x1E⟩] ∧ Authentic d := by
  obtain ⟨d, hd, hpulled⟩ : ∃ d ∈ run step (init 4096 8192 (.function 1))
    [.sched .boot, .sched (.createProcess 12288 (.function 2)), .isBufferEmpty, .block, .reschedule,
      .sched .timerIrq, .isBufferEmpty, .block, .reschedule, .keyboardIrq 0x1E, .keyboardIrq 0x9E,
      .sched .timerIrq, .pop, .sched .timerIrq, .pop],
        d.pulled = [⟨.pressed, 0x1E⟩, ⟨.released, 0x1E⟩] := by decide +kernel
  have hall : EveryStep step PopsEvent (init 4096 8192 (.function 1))
    [.sched .boot, .sched (.createProcess 12288 (.function 2)), .isBufferEmpty, .block, .reschedule,
      .sched .timerIrq, .isBufferEmpty, .block, .reschedule, .keyboardIrq 0x1E, .keyboardIrq 0x9E,
      .sched .timerIrq, .pop, .sched .timerIrq, .pop] := by decide +kernel
  exact ⟨d, hd, hpulled,
    (pulls_authentic_iff 4096 8192 _ hd).mpr hall _ (List.prefix_refl _) d hd⟩

/-- One key wakes both readers, and the second to run pops the empty buffer. -/
theorem key_invented : ¬∀ (x i : Ptr) (terminal : Task) (ls : List Label) (d : State), x ≠ i →
    run step (init x i terminal) ls = some d → Authentic d := by
  intro h
  obtain ⟨d, hd, hinvented⟩ : ∃ d ∈ run step (init 4096 8192 (.function 1))
      [.sched .boot, .sched (.createProcess 12288 (.function 2)), .isBufferEmpty, .block,
        .reschedule, .sched .timerIrq, .isBufferEmpty, .block, .reschedule, .keyboardIrq 0x1E,
        .sched .timerIrq, .pop, .sched .timerIrq, .pop], ¬Authentic d := by
    decide +kernel
  exact hinvented (h 4096 8192 _ _ d (by simp) hd)

end HryOS.Keyboard.Readers
