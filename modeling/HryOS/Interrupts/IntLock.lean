import Mathlib.Logic.Function.Basic
import HryOS.Lib.Transition

/-!
# Interrupt locks

The kernel as far as it concerns `interrupts_enabled` and the CPU's IF bit: `int_lock.hpp`,
`enable` and `disable`, the interrupt handler, and the functions that hold a lock, as sequences of
single steps.  Interrupts arrive between any two of them while IF is set.

* `Op`, `exec` — the steps.  What does not touch the flag, IF or a lock is left out.
* `weak`, `direct` — the scope of a `weak_int_lock` and of a `direct_int_lock`.
* `step` — the system: the running code, interrupts, and the processes that are suspended.
* `Exact` — what the bookkeeping promises.
-/

set_option autoImplicit false

namespace HryOS.Interrupts

open Transition

/-- `interrupts_lock`, the IF bit, and `interrupts_enabled`. -/
structure Bits where
  lock : Bool
  on : Bool
  flag : Bool
  deriving DecidableEq, Repr

/-- The steps. -/
inductive Op
  /-- `interrupts::enable()`: `if (!interrupts_lock)` -/
  | enable
  /-- `interrupts::disable()`: `if (!interrupts_lock)` -/
  | disable
  /-- `interrupts_enabled = value` -/
  | setFlag (value : Bool)
  | sti
  | cli
  /-- `was_enabled_ = interrupts::enabled()` -/
  | weakCtor
  /-- `if (was_enabled_)` -/
  | weakDtor
  /-- a `direct_int_lock` begins -/
  | directCtor
  /-- the scope of a lock is left -/
  | leave
  | iret
  /-- list operations, which may allocate nodes -/
  | mayAllocate
  /-- `reschedule` between its lock and its end: it may call `switch_to_task` -/
  | switch
  /-- `current_process->task()` -/
  | task
  /-- `create_process` has a new process ready -/
  | spawn
  /-- `late_init` -/
  | lateInit
  /-- `process_starter` leaves the stack of its process -/
  | kernelStack
  /-- `current_process = nullptr` -/
  | clearCurrent
  deriving DecidableEq, Repr

/-- What lies on a stack: a lock with the IF bit at its entry (ghost state), or an interrupted
    `eflags`. -/
inductive Frame
  | weak (was_enabled : Bool) (entry : Bool)
  | direct (entry : Bool)
  | handler (saved : Bool)
  deriving DecidableEq, Repr

/-- The IF bit at the entry of the scope. -/
def Frame.entry : Frame → Option Bool
  | .weak _ entry | .direct entry => some entry
  | .handler _ => none

/-- Code still to run, and the stack it runs on. -/
structure Thread where
  code : List Op
  frames : List Frame
  deriving DecidableEq, Repr

/-! ## The code -/

/-- `{ weak_int_lock lock; body }` -/
def weak (body : List Op) : List Op := .weakCtor :: .disable :: (body ++ [.weakDtor, .leave])

/-- `{ direct_int_lock lock; body }` -/
def direct (body : List Op) : List Op :=
  .directCtor :: .disable :: (body ++ [.enable, .leave])

/-- `kheap::allocate`. -/
def allocate : List Op := weak []

/-- `kheap::free`. -/
def free : List Op := weak []

/-- `kheap::print`. -/
def print : List Op := direct []

/-- `list_process`. -/
def list_process : List Op := direct []

/-- `reschedule`. -/
def reschedule : List Op := weak [.mayAllocate, .switch]

/-- `create_process`: the process, its stack and the node in `processes` are allocated. -/
def create_process : List Op := direct (allocate ++ allocate ++ allocate ++ [.mayAllocate, .spawn])

/-- The current process enters a list, under a lock, and gives up the CPU. -/
def enqueueCurrent : List Op := direct [.mayAllocate] ++ reschedule

/-- `block_current_process`. -/
def block_current_process : List Op := enqueueCurrent

/-- `sleep_ms`. -/
def sleep_ms : List Op := enqueueCurrent

/-- `wait_for`. -/
def wait_for : List Op := enqueueCurrent

/-- `process_starter`. -/
def process_starter : List Op :=
  .enable :: .task :: .disable :: .mayAllocate :: .kernelStack ::
    (free ++ free ++ free ++ .clearCurrent :: reschedule)

/-- `kernel_main`: the screen's buffer, the terminal and the idle process, `late_init`. -/
def kernel_main : List Op :=
  .mayAllocate :: (create_process ++ create_process ++ .lateInit :: reschedule)

/-- Lines with a handler, and the others. -/
inductive Irq
  | timer
  | keyboard
  | other
  deriving DecidableEq, Repr

/-- `isr_callbacks`. -/
def callback : Irq → List Op
  | .timer => reschedule
  | .keyboard => [.mayAllocate]
  | .other => []

/-- `pic_handler` and the `iret` behind it. -/
def pic_handler (irq : Irq) : List Op :=
  .setFlag false :: (callback irq ++ [.setFlag true, .iret])

/-- What a task calls. -/
inductive Call
  | create_process
  | sleep_ms
  | block_current_process
  | wait_for
  | allocate
  | free
  | list_process
  | print
  deriving DecidableEq, Repr

/-- The code of a call. -/
def Call.code : Call → List Op
  | .create_process => Interrupts.create_process
  | .sleep_ms => Interrupts.sleep_ms
  | .block_current_process => Interrupts.block_current_process
  | .wait_for => Interrupts.wait_for
  | .allocate => Interrupts.allocate
  | .free => Interrupts.free
  | .list_process => Interrupts.list_process
  | .print => Interrupts.print

/-! ## The system -/

/-- One step of the running code `op :: c`. -/
def exec (b : Bits) (fs : List Frame) (c : List Op) : Op → Option (Bits × Thread)
  | .enable => some (b, ⟨if b.lock then c else .setFlag true :: .sti :: c, fs⟩)
  | .disable => some (b, ⟨if b.lock then c else .setFlag false :: .cli :: c, fs⟩)
  | .setFlag value => some ({ b with flag := value }, ⟨c, fs⟩)
  | .sti => some ({ b with on := true }, ⟨c, fs⟩)
  | .cli => some ({ b with on := false }, ⟨c, fs⟩)
  | .weakCtor => some (b, ⟨c, .weak b.flag b.on :: fs⟩)
  | .weakDtor =>
    match fs with
    | .weak was_enabled _ :: _ => some (b, ⟨if was_enabled then .enable :: c else c, fs⟩)
    | _ => none
  | .directCtor => some (b, ⟨c, .direct b.on :: fs⟩)
  | .leave =>
    match fs with
    | .weak _ _ :: fs | .direct _ :: fs => some (b, ⟨c, fs⟩)
    | _ => none
  | .iret =>
    match fs with
    | .handler saved :: fs => some ({ b with on := saved }, ⟨c, fs⟩)
    | _ => none
  | .lateInit => some ({ b with lock := false }, ⟨c, fs⟩)
  | .kernelStack => some (b, ⟨c, []⟩)
  | .mayAllocate | .switch | .task | .clearCurrent => some (b, ⟨c, fs⟩)
  | .spawn => none

/-- `current` is `current_process`; a process that does not run is suspended. -/
structure State where
  bits : Bits
  running : Thread
  current : Option ℕ
  suspended : ℕ → Option Thread

/-- The choices. -/
inductive Label
  /-- the next step; nothing is allocated, no process switched to, the task returns -/
  | go
  /-- an allocation where there may be one -/
  | allocate
  /-- `switch_to_task(q)` -/
  | switchTo (q : ℕ)
  /-- a call by the task -/
  | call (k : Call)
  /-- the new process is `p` -/
  | spawn (p : ℕ)
  /-- an interrupt arrives -/
  | irq (i : Irq)
  deriving DecidableEq, Repr

/-- One step. -/
def step (s : State) : Label → Option State
  | .irq i =>
    if s.bits.on then some
      { s with
        bits := { s.bits with on := false }
        running := ⟨pic_handler i ++ s.running.code, .handler s.bits.on :: s.running.frames⟩ }
    else none
  | .go =>
    match s.running.code with
    | op :: c => (exec s.bits s.running.frames c op).map fun (b, t) =>
      { s with bits := b, running := t, current := if op = .clearCurrent then none else s.current }
    | [] => none
  | .allocate =>
    match s.running.code with
    | .mayAllocate :: c => some
      { s with running := ⟨allocate ++ .mayAllocate :: c, s.running.frames⟩ }
    | _ => none
  | .switchTo q =>
    match s.running.code, s.suspended q with
    | .switch :: c, some t =>
      -- the registers are saved on the stack of the current process, if there is one
      let others := Function.update s.suspended q none
      some { s with
        running := t
        current := some q
        suspended := match s.current with
          | some p => Function.update others p (some ⟨c, s.running.frames⟩)
          | none => others }
    | _, _ => none
  | .call k =>
    match s.running.code with
    | .task :: c => some { s with running := ⟨k.code ++ .task :: c, s.running.frames⟩ }
    | _ => none
  | .spawn p =>
    match s.running.code with
    | .spawn :: c =>
      if s.suspended p = none ∧ s.current ≠ some p then some
        { s with
          running := ⟨c, s.running.frames⟩
          suspended := Function.update s.suspended p (some ⟨process_starter, []⟩) }
      else none
    | _ => none

/-- `boot.asm` clears the flags and calls `kernel_main`. -/
def init : State where
  bits := ⟨true, false, false⟩
  running := ⟨kernel_main, []⟩
  current := none
  suspended := fun _ => none

/-! ## What is promised -/

/-- The bookkeeping of the next step is exact. -/
structure Exact (s : State) : Prop where
  /-- what the constructor of `weak_int_lock` reads is the IF bit -/
  read : s.running.code.head? = some .weakCtor → s.bits.flag = s.bits.on
  /-- the scope that is left has the IF bit it was entered with -/
  restored : s.running.code.head? = some .leave →
    ∃ f fs, s.running.frames = f :: fs ∧ f.entry = some s.bits.on
  /-- a scope that sets the IF bit has no scope and no handler around it -/
  outermost : [.sti, .leave] <+: s.running.code → ∃ f, s.running.frames = [f]

/-- No interrupt arrives between the assignment and the `cli` of `interrupts::disable`. -/
def OutsideDisable (s : State) : Label → Prop
  | .irq _ => s.running.code.head? ≠ some .cli
  | _ => True

instance (s : State) : ∀ l : Label, Decidable (OutsideDisable s l)
  | .irq _ => inferInstanceAs (Decidable (_ ≠ _))
  | .go | .allocate | .switchTo _ | .call _ | .spawn _ => .isTrue trivial

end HryOS.Interrupts
