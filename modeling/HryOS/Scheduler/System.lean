import HryOS.Lib.Transition
import HryOS.Scheduler.Scheduler

/-!
# The scheduler under every interleaving

One label is one atomic step: a critical section of the running process, or a whole interrupt
handler.  A blocking call is two steps, the section that enqueues the caller and the call of
`reschedule` after it, and interrupts may come between the two: a process that has done the
first only is in the `window`.

* `step` — the system; `none` where the label is not enabled.
* `init` — the state `kernel_main` leaves: `terminal` and `idle` created, nothing running.
-/

set_option autoImplicit false

namespace HryOS.Scheduler

open ByteMemory

/-- Where the code of a process stands. -/
inductive Loc
  /-- in its task, outside every critical section -/
  | user
  /-- in a blocking call, between the end of the locked scope and `reschedule` -/
  | window
  deriving DecidableEq, Repr

/-- The scheduler, the position of each process, the identifiers `create_process` has returned
    and the deleted processes whose memory has not been reused. -/
structure System where
  sched : Sched
  loc : Ptr → Loc
  returned : List ℕ
  deleted : List Ptr

/-- The steps. -/
inductive Label
  /-- the call of `reschedule` that ends `kernel_main` -/
  | boot
  | createProcess (p : Ptr) (task : Task)
  | sleepMs (time : ℕ)
  | blockCurrentProcess (type : BlockedType)
  | waitFor (pid : ℕ)
  /-- the call of `reschedule` at the end of a blocking call -/
  | reschedule
  /-- the task returns, and `process_starter` runs to its end -/
  | taskReturn
  | timerIrq
  | keyboardIrq
  deriving DecidableEq, Repr

namespace System

/-- The current process, when it is at `l` and runs code of its own: `idle_process` only halts. -/
def acting (s : System) (l : Loc) : Option Ptr :=
  s.sched.currentProcess.filter fun c =>
    decide ((s.sched.proc c).task ≠ .idleProcess) && decide (s.loc c = l)

/-- The critical section `f` of a blocking call. -/
def enqueue (s : System) (f : Sched → Ptr → Sched) : Option System :=
  (s.acting .user).map fun c =>
    { s with sched := f s.sched c, loc := Function.update s.loc c .window }

end System

/-- One step.  `new` returns memory that no live process occupies, and interrupts are delivered
    from the first switch on. -/
def step (s : System) : Label → Option System
  | .boot =>
    if s.sched.currentProcess = none then some { s with sched := reschedule s.sched } else none
  | .createProcess p task =>
    (s.acting .user).bind fun _ =>
      if p ∈ s.sched.processes then none
      else some
        { sched := createProcess s.sched p task
          loc := Function.update s.loc p .user
          returned := s.sched.pidGenerator :: s.returned
          deleted := s.deleted.filter (· ≠ p) }
  | .sleepMs time => s.enqueue fun sched c => sleepMs sched c time
  | .blockCurrentProcess type => s.enqueue fun sched c => blockCurrentProcess sched c type
  | .waitFor pid => s.enqueue fun sched c => waitFor sched c pid
  | .reschedule =>
    (s.acting .window).map fun c =>
      { s with sched := reschedule s.sched, loc := Function.update s.loc c .user }
  | .taskReturn =>
    (s.acting .user).map fun c =>
      { s with sched := processStarterTail s.sched c, deleted := c :: s.deleted }
  | .timerIrq =>
    s.sched.currentProcess.map fun _ => { s with sched := timerCallback s.sched }
  | .keyboardIrq =>
    s.sched.currentProcess.map fun _ => { s with sched := notifyBlocked s.sched .io }

/-! ## The initial state -/

/-- The globals before `kernel_main`. -/
def emptySched : Sched where
  isEnabled := false
  processes := []
  lists := fun _ => []
  currentProcess := none
  proc := fun _ => ⟨0, .empty, .none, .function 0, 0⟩
  timer := 0
  pidGenerator := 0

/-- `command_line::init` creates `terminal` at `t`, and `scheduler::init` creates `idle` at `i`. -/
def initSched (t i : Ptr) (terminal : Task) : Sched :=
  createProcess { createProcess emptySched t terminal with isEnabled := true } i .idleProcess

/-- The system when `scheduler::init` has returned. -/
def init (t i : Ptr) (terminal : Task) : System where
  sched := initSched t i terminal
  loc := fun _ => .user
  returned := [1, 0]
  deleted := []

end HryOS.Scheduler
