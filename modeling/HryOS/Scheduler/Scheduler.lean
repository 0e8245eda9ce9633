import HryOS.Scheduler.Process

/-!
# `scheduler.cpp`

The globals of the scheduler and its functions on them.  Each function is one critical section:
the interrupt locks around them are modelled on their own.

* `moveToIf` — walk one list, moving to another what a predicate selects.
* `reschedule` — wake the due sleepers, pop the first ready process and switch to it.
* `enqueueCurrent` — the common body of `sleepMs`, `waitFor` and `blockCurrentProcess`.
* `processStarterTail` — what `process_starter` does after the task has returned.
-/

set_option autoImplicit false

namespace HryOS.Scheduler

open ByteMemory

/-- The globals of `scheduler.cpp`, the timer of `pit.cpp` and the process objects. -/
structure Sched where
  isEnabled : Bool
  processes : List Ptr
  lists : ProcState → List Ptr
  currentProcess : Option Ptr
  proc : Ptr → Process
  timer : ℕ
  pidGenerator : ℕ

namespace Sched

variable (s : Sched)

/-- `pit::get_timer`: the low half of the 64-bit counter. -/
def getTimer : ℕ := u32 s.timer

def setList (st : ProcState) (l : List Ptr) : Sched :=
  { s with lists := Function.update s.lists st l }

def setProc (p : Ptr) (q : Process) : Sched :=
  { s with proc := Function.update s.proc p q }

/-- `p->state = st`. -/
def setState (p : Ptr) (st : ProcState) : Sched :=
  s.setProc p { s.proc p with state := st }

end Sched

/-! ## Lists -/

/-- `list::push_back`. -/
def pushBack (l : List Ptr) (p : Ptr) : List Ptr := l ++ [p]

/-- `list::push_front`. -/
def pushFront (l : List Ptr) (p : Ptr) : List Ptr := p :: l

/-- `list::erase_if` with a callback that changes the state `σ`: the nodes kept, and the state. -/
def eraseIf {σ : Type} (func : σ → Ptr → Bool × σ) : σ → List Ptr → List Ptr × σ
  | s, [] => ([], s)
  | s, p :: rest =>
    let (erased, s) := func s p
    let (kept, s) := eraseIf func s rest
    (if erased then kept else p :: kept, s)

/-- `move_to_if`. -/
def moveToIf (s : Sched) (source target : ProcState) (predicate : Process → Bool)
    (method : List Ptr → Ptr → List Ptr) : Sched :=
  let (kept, s) := eraseIf (fun s p =>
    if (s.proc p).state = source ∧ predicate (s.proc p) then
      let s := s.setState p target
      (true, s.setList target (method (s.lists target) p))
    else (false, s)) s (s.lists source)
  s.setList source kept

/-- `move_to_back_if`. -/
def moveToBackIf (s : Sched) (source target : ProcState) (predicate : Process → Bool) : Sched :=
  moveToIf s source target predicate pushBack

/-- `move_to_front_if`. -/
def moveToFrontIf (s : Sched) (source target : ProcState) (predicate : Process → Bool) : Sched :=
  moveToIf s source target predicate pushFront

/-! ## Switching -/

/-- What `switch_to_task` does to the globals. -/
def switchToTask (s : Sched) (p : Ptr) : Sched := { s with currentProcess := some p }

/-- The first part of `reschedule`: due sleepers go to the front of the ready list. -/
def wakeSleepers (s : Sched) : Sched :=
  moveToFrontIf s .sleeping .ready fun q => decide (q.stateData.sleepTimeout < s.getTimer)

/-- A current process that is still running goes to the back of the ready list. -/
def requeueCurrent (s : Sched) : Sched :=
  match s.currentProcess with
  | some c =>
    if (s.proc c).state = .running then
      let s := s.setState c .ready
      s.setList .ready (pushBack (s.lists .ready) c)
    else s
  | none => s

/-- `scheduler::reschedule`. -/
def reschedule (s : Sched) : Sched :=
  if s.isEnabled then
    let s := wakeSleepers s
    match s.lists .ready with
    | [] => s
    | p :: rest =>
      let s := s.setList .ready rest
      -- `p` has left the ready list and stays out of it
      if s.currentProcess = some p then s
      else
        let s := requeueCurrent s
        if (s.proc p).state = .ready then switchToTask (s.setState p .running) p else s
  else s

/-! ## Creating and ending processes -/

/-- `scheduler::create_process`, where `new` returns `p`. -/
def createProcess (s : Sched) (p : Ptr) (task : Task) : Sched :=
  let s := { s with processes := s.processes ++ [p] }
  let q : Process := ⟨s.pidGenerator, .ready, .none, task, s.getTimer⟩
  let s := { s.setProc p q with pidGenerator := u32 (s.pidGenerator + 1) }
  s.setList .ready (pushBack (s.lists .ready) p)

/-- What `process_starter` does from the end of the task of `c`, the current process, on. -/
def processStarterTail (s : Sched) (c : Ptr) : Sched :=
  let s := moveToBackIf s .waiting .ready fun q =>
    decide (q.stateData.waitingPid = (s.proc c).pid)
  let s := { s with processes := s.processes.filter (· ≠ c) }
  reschedule { s with currentProcess := none }

/-! ## Leaving the ready state -/

/-- The critical section that the three functions below share, for the current process `c`. -/
def enqueueCurrent (s : Sched) (c : Ptr) (st : ProcState) (data : StateData) : Sched :=
  let s := s.setProc c { s.proc c with state := st, stateData := data }
  s.setList st (pushBack (s.lists st) c)

/-- The critical section of `block_current_process`. -/
def blockCurrentProcess (s : Sched) (c : Ptr) (type : BlockedType) : Sched :=
  enqueueCurrent s c .blocked (.blockedData type)

/-- The critical section of `sleep_ms`. -/
def sleepMs (s : Sched) (c : Ptr) (time : ℕ) : Sched :=
  enqueueCurrent s c .sleeping (.sleepData (u32 (s.getTimer + time)))

/-- The critical section of `wait_for`. -/
def waitFor (s : Sched) (c : Ptr) (pid : ℕ) : Sched :=
  enqueueCurrent s c .waiting (.waitingData pid)

/-! ## Interrupt handlers -/

/-- `scheduler::notify_blocked`. -/
def notifyBlocked (s : Sched) (type : BlockedType) : Sched :=
  moveToFrontIf s .blocked .ready fun q => decide (q.stateData.blockedType = type)

/-- `irq_callback` of `pit.cpp`. -/
def timerCallback (s : Sched) : Sched :=
  reschedule { s with timer := (s.timer + 1) % 18446744073709551616 }

end HryOS.Scheduler
