import HryOS.Lib.ByteMemory

/-!
# `scheduler::process`

The process record of `process.hpp`, without its stack (`switch_to_task` reads that one) and its
name (only the log does).

* `StateData` — the variant `state_data`: which of its three structs was stored last.
* `sleepTimeout`, `waitingPid`, `blockedType` — what `get<T>().value()` reads: the stored struct,
  or a value-initialised one when another variant is held.
-/

set_option autoImplicit false

namespace HryOS.Scheduler

open ByteMemory

/-- Addresses of `process` objects. -/
abbrev Ptr := ℕ

/-- `process::state`. -/
inductive ProcState
  | empty | running | ready | sleeping | waiting | blocked
  deriving DecidableEq, Repr

/-- `process::blocked_data::type`. -/
inductive BlockedType
  | io
  deriving DecidableEq, Repr

/-- `process::Variant_t`; `none` until the first assignment. -/
inductive StateData
  | none
  | sleepData (sleep_timeout : ℕ)
  | waitingData (pid : ℕ)
  | blockedData (value : BlockedType)
  deriving DecidableEq, Repr

namespace StateData

/-- `get<sleep_data>().value().sleep_timeout`. -/
def sleepTimeout : StateData → ℕ
  | sleepData t => t
  | _ => 0

/-- `get<waiting_data>().value().pid`. -/
def waitingPid : StateData → ℕ
  | waitingData pid => pid
  | _ => 0

/-- `get<blocked_data>().value().value`. -/
def blockedType : StateData → BlockedType
  | blockedData value => value
  | _ => .io

end StateData

/-- The functions a process can be started with: `idle_process`, which halts forever, or any
    other, given by its address. -/
inductive Task
  | idleProcess
  | function (addr : ℕ)
  deriving DecidableEq, Repr

/-- `scheduler::process`. -/
structure Process where
  pid : ℕ
  state : ProcState
  stateData : StateData
  task : Task
  startTime : ℕ
  deriving DecidableEq, Repr

/-- The variant that the predicate over the list of `st` reads. -/
def StateData.Matches : ProcState → StateData → Prop
  | .sleeping, d => ∃ t, d = sleepData t
  | .waiting, d => ∃ pid, d = waitingData pid
  | .blocked, d => ∃ value, d = blockedData value
  | _, _ => True

end HryOS.Scheduler
