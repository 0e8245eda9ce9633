import Mathlib.Data.List.Basic

/-!
# Programs that are interrupted between their accesses

A program makes one access to a shared memory after the other, and may be interrupted before each of
them.  What it has read is kept in what is left of it.

* `Prog`, `Prog.step` — the programs, and their next access.
* `Prog.finish`, `Prog.events` — what is left of a program makes of the memory, and the events it
  raises, if nobody interrupts it.
* `finish_step`, `events_step` — a program that goes on alone comes to the same.
-/

set_option autoImplicit false

namespace Resumable

/-- A program over the memory `M` that raises events `E`: an access reads, or changes the memory. -/
inductive Prog (M E : Type)
  | done
  | read (next : M → Prog M E)
  | act (f : M → M) (events : M → List E) (next : Prog M E)

namespace Prog

variable {M E : Type}

/-- A write. -/
def write (f : M → M) (next : Prog M E) : Prog M E := act f (fun _ => []) next

/-- An event without an access. -/
def emit (e : E) (next : Prog M E) : Prog M E := act id (fun _ => [e]) next

/-- Whether nothing is left. -/
def isDone : Prog M E → Bool
  | done => true
  | read _ | act .. => false

/-- The next access: the memory, the events, and what is left. -/
def step : Prog M E → M → M × List E × Prog M E
  | done, m => (m, [], done)
  | read next, m => (m, [], next m)
  | act f events next, m => (f m, events m, next)

/-- The memory at the end. -/
def finish : Prog M E → M → M
  | done, m => m
  | read next, m => (next m).finish m
  | act f _ next, m => next.finish (f m)

/-- All events. -/
def events : Prog M E → M → List E
  | done, _ => []
  | read next, m => (next m).events m
  | act f es next, m => es m ++ next.events (f m)

variable {p : Prog M E}

theorem eq_done (h : p.isDone = true) : p = done := by
  cases p with
  | done => rfl
  | read next => cases h
  | act f events next => cases h

/-- **One access** does not change how the program ends. -/
theorem finish_step (p : Prog M E) (m : M) : (p.step m).2.2.finish (p.step m).1 = p.finish m := by
  cases p with
  | done | read next | act f events next => rfl

/-- Its events are the first ones. -/
theorem events_step (p : Prog M E) (m : M) :
    p.events m = (p.step m).2.1 ++ (p.step m).2.2.events (p.step m).1 := by
  cases p with
  | done | read next | act f events next => rfl

/-- What holds of all events holds of the next ones and of those to come. -/
theorem forall_events_step {R : E → Prop} {m : M} (h : ∀ e ∈ p.events m, R e) :
    (∀ e ∈ (p.step m).2.1, R e) ∧ ∀ e ∈ (p.step m).2.2.events (p.step m).1, R e := by
  rw [events_step] at h
  exact ⟨fun e he => h e (List.mem_append_left _ he), fun e he => h e (List.mem_append_right _ he)⟩

end Prog

end Resumable
