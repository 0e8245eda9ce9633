import HryOS.Lib.Resumable
import HryOS.Terminal.Tasks

/-!
# The shell and the tasks, preempted inside the terminal

The processes of `Tasks`, each of which may be preempted between any two accesses to a member of
`cursor_pos` or to `task_count`.  The kernel is built without optimization, so that each `++` and
each comparison is a read of its own, and a `vec2u` is read `y` first and written `x` first.  Drawing
and `set_cursor_at` only read `cursor_pos`.

* `nextLine`, `putChar`, `moveCursor`, `actProg` — the accesses of a terminal call.
* `step` — the shell and any number of tasks.
* `PassesInRange` — the positions a step passes to `move_cursor` and `put_char_at` are on the screen.
-/

set_option autoImplicit false

namespace HryOS.Preempted

open ByteMemory Transition Terminal CommandLine Resumable
open Tasks (ShellAct TaskFunction Callback Output Label KeyActs bytes taskPos listProcess shellActs
  registrations bootCursor)

/-! ## Terminal calls -/

/-- What is left of a terminal call, and the positions it passes on. -/
abbrev TermProg := Prog Vec2u Op

def readX (next : ℕ → TermProg) : TermProg := .read fun pos => next pos.x

def readY (next : ℕ → TermProg) : TermProg := .read fun pos => next pos.y

def writeX (x : ℕ) (next : TermProg) : TermProg := .write (fun pos => { pos with x }) next

def writeY (y : ℕ) (next : TermProg) : TermProg := .write (fun pos => { pos with y }) next

/-- `scroll_down`. -/
def scrollDown : TermProg := readY fun y => writeY (u32 (y + 4294967295)) .done

/-- `put_char_at`. -/
def putCharAt (ch : UInt8) (pos : Vec2u) : TermProg := .emit (.putCharAt ch pos) .done

/-- `move_cursor`. -/
def moveCursor (pos : Vec2u) : TermProg :=
  .emit (.moveCursor pos) (writeX pos.x (writeY pos.y .done))

variable (S : Screen)

/-- `next_line`. -/
def nextLine : TermProg :=
  writeX 0 <| readY fun y => writeY (u32 (y + 1)) <| readY fun y =>
    if y = Impl.getHeight S then scrollDown else .done

/-- `put_char`; it passes `cursor_pos` itself to `put_char_at`. -/
def putChar (ch : UInt8) : TermProg :=
  .act id (fun pos => [.putCharAt ch pos]) <| readX fun x => writeX (u32 (x + 1)) <| readX fun x =>
    if x ≥ Impl.getWidth S then nextLine S else .done

/-- A call of the shell; `list_process` holds a `direct_int_lock`. -/
def actProg : ShellAct → TermProg
  | .echo ch | .prompt ch | .put ch => putChar S ch
  | .nextLine => nextLine S
  | .clearScreen => moveCursor ⟨0, 0⟩
  | .eraseLeft => readX fun x => readY fun y => putCharAt 32 ⟨u32 (x + 4294967295), y⟩
  | .moveLeft => readX fun x => readY fun y => moveCursor ⟨u32 (x + 4294967295), y⟩
  | .createProcess _ => .done
  | .listProcess rows =>
    .act (fun pos => ((listProcess S rows ⟨pos, 0⟩).foldl (Cursor.step S) ⟨pos, 0⟩).pos)
      (fun pos => listProcess S rows ⟨pos, 0⟩) .done

/-! ## The system -/

/-- Where a process other than the shell stands between two terminal calls. -/
inductive Stage
  /-- `task`, before `task_count++`, and between its read and its write -/
  | start
  | count (n : ℕ)
  /-- `task_base`, in `sleep_ms` or before the loop -/
  | sleep (n : ℕ)
  /-- the loop's body, with the text to print, and what is read of the cursor position -/
  | lock (n : ℕ) (txt : List UInt8)
  | readY (n : ℕ) (txt : List UInt8)
  | readX (n : ℕ) (txt : List UInt8) (y : ℕ)
  | moveTo (n : ℕ) (txt : List UInt8) (saved : Vec2u)
  | print (n : ℕ) (txt : List UInt8) (saved : Vec2u)
  | unlock (n : ℕ)
  /-- `spanko`, with the lines still to print -/
  | line (lines : List (List UInt8))
  | locked (txt : List UInt8) (lines : List (List UInt8))
  | printLine (txt : List UInt8) (lines : List (List UInt8))
  | unlockLine (lines : List (List UInt8))

/-- The stage of a function. -/
def create : TaskFunction → Stage
  | .task => .start
  | .spanko => .line [bytes "Falling asleep...", bytes "Waking up..."]

/-- A task, and what is left of the terminal call it is in. -/
structure Process where
  stage : Stage
  rest : TermProg

/-- What the shell does next, and what is left of the terminal call it is in. -/
structure Shell where
  acts : List ShellAct
  rest : TermProg

/-- `cursor_pos`, `terminal_mutex`, `task_count`, the shell's statics, and the processes. -/
structure State where
  cursor : Vec2u
  mutex : Mutex
  taskCount : ℕ
  statics : Statics Callback
  shell : Shell
  tasks : List Process

/-- The shell begins a call. -/
def shellBegin (s : State) (acts : List ShellAct) (act : ShellAct) : State :=
  match act with
  | .createProcess function =>
    { s with shell := ⟨acts, .done⟩, tasks := s.tasks ++ [⟨create function, .done⟩] }
  | _ => { s with shell := ⟨acts, actProg S act⟩ }

/-- A task goes on between two terminal calls, or begins one. -/
def taskBegin (s : State) : Stage → Option (State × Process)
  | .start => some (s, ⟨.count s.taskCount, .done⟩)
  | .count n => some ({ s with taskCount := n + 1 }, ⟨.sleep n, .done⟩)
  | .sleep _ => none
  | .lock n txt =>
    match s.mutex.lockIteration with
    | (true, mutex) => some ({ s with mutex }, ⟨.lock n txt, .done⟩)
    | (false, mutex) => some ({ s with mutex }, ⟨.readY n txt, .done⟩)
  | .readY n txt => some (s, ⟨.readX n txt s.cursor.y, .done⟩)
  | .readX n txt y => some (s, ⟨.moveTo n txt ⟨s.cursor.x, y⟩, .done⟩)
  | .moveTo n txt saved => some (s, ⟨.print n txt saved, moveCursor (taskPos n)⟩)
  | .print n (ch :: txt) saved => some (s, ⟨.print n txt saved, putChar S ch⟩)
  | .print n [] saved => some (s, ⟨.unlock n, moveCursor saved⟩)
  | .unlock n => some ({ s with mutex := s.mutex.unlock }, ⟨.sleep n, .done⟩)
  | .line [] => none
  | .line (txt :: lines) =>
    match s.mutex.lockIteration with
    | (true, mutex) => some ({ s with mutex }, ⟨.line (txt :: lines), .done⟩)
    | (false, mutex) => some ({ s with mutex }, ⟨.locked txt lines, .done⟩)
  | .locked txt lines => some (s, ⟨.printLine txt lines, .done⟩)
  | .printLine (ch :: txt) lines => some (s, ⟨.printLine txt lines, putChar S ch⟩)
  | .printLine [] lines => some (s, ⟨.unlockLine lines, nextLine S⟩)
  | .unlockLine lines => some ({ s with mutex := s.mutex.unlock }, ⟨.line lines, .done⟩)

/-- One step. -/
def step : Step State Label
  | s, .key event out =>
    if s.shell.rest.isDone ∧ s.shell.acts = [] then
      (sendInput s.statics event).map fun (statics, calls) =>
        { s with statics, shell := ⟨calls.flatMap (shellActs out s.statics.commands), .done⟩ }
    else none
  | s, .shell =>
    if s.shell.rest.isDone then
      match s.shell.acts with
      | [] => none
      | act :: acts => some (shellBegin S s acts act)
    else
      let (cursor, _, rest) := s.shell.rest.step s.cursor
      some { s with cursor, shell := { s.shell with rest } }
  | s, .task i =>
    match s.tasks[i]? with
    | none => none
    | some p =>
      if p.rest.isDone then
        (taskBegin S s p.stage).map fun (s, p) => { s with tasks := s.tasks.set i p }
      else
        let (cursor, _, rest) := p.rest.step s.cursor
        some { s with cursor, tasks := s.tasks.set i { p with rest } }
  | s, .round i digits =>
    match s.tasks[i]? with
    | some ⟨.sleep n, .done⟩ =>
      some { s with tasks := s.tasks.set i ⟨.lock n (digits ++ bytes " sec"), .done⟩ }
    | _ => none

/-- Before the first key. -/
def init (behind : Callback → ℕ → UInt8) : State where
  cursor := (bootCursor S).pos
  mutex := .new
  taskCount := 0
  statics := (registrations behind).foldl registerCommand CommandLine.init
  shell := ⟨[], .done⟩
  tasks := []

/-- The calls a step makes, with the positions passed. -/
def passed (s : State) : Label → List Op
  | .shell => (s.shell.rest.step s.cursor).2.1
  | .task i =>
    match s.tasks[i]? with
    | some p => (p.rest.step s.cursor).2.1
    | none => []
  | _ => []

/-- The positions passed to `move_cursor` and `put_char_at` lie on the screen. -/
def PassesInRange (s : State) (l : Label) : Prop := ∀ op ∈ passed s l, op.InRange S

/-! ## The condition -/

/-- Whether a task between two terminal calls has a cursor position saved, or prints. -/
def Stage.away : Stage → Bool
  | .readX .. | .moveTo .. | .print .. | .printLine .. => true
  | _ => false

/-- A task is between its first access to the cursor and its last one. -/
def Process.Uses (p : Process) : Prop := p.rest.isDone = false ∨ p.stage.away = true

/-- No task is. -/
def NobodyUses (tasks : List Process) : Prop := ∀ p ∈ tasks, ¬ p.Uses

/-- The shell's next step is one of a terminal call. -/
def Shell.Calls (shell : Shell) : Prop :=
  shell.rest.isDone = false ∨ ∃ act ∈ shell.acts.head?, (actProg S act).isDone = false

/-- No character stands on the input line, and none is to be taken back. -/
def LineEmpty (s : State) : Prop :=
  s.statics.inputBufferIndex = 0 ∧ ∀ act ∈ s.shell.acts, ¬ act.Edits

/-- The condition on a task: the first `7 * h` timers start, a task makes its first access to the
    cursor while the shell is between two calls, and `spanko` prints while the line is empty. -/
def StageFree (s : State) : Stage → Prop
  | .start => u32 s.taskCount / 7 < Impl.getHeight S
  | .readY .. => s.shell.rest.isDone = true
  | .locked .. => s.shell.rest.isDone = true ∧ LineEmpty s
  | _ => True

/-- The condition on a step: the shell calls the terminal only while no task uses the cursor. -/
def Free (s : State) : Label → Prop
  | .shell => s.shell.Calls S → NobodyUses s.tasks
  | .task i => ∀ p ∈ s.tasks[i]?, StageFree S s p.stage
  | _ => True

/-! ## A call that nobody interrupts -/

variable {S} {pos : Vec2u}

theorem moveCursor_finish (pos p : Vec2u) : (moveCursor p).finish pos = p := rfl

theorem moveCursor_events (pos p : Vec2u) : (moveCursor p).events pos = [.moveCursor p] := rfl

theorem nextLine_finish (c : Cursor) :
    (nextLine S).finish c.pos = (Cursor.nextLine S c).pos := by
  simp only [nextLine, writeX, readY, writeY, Prog.write, Prog.finish, Cursor.nextLine]
  split
  · rfl
  · rfl

theorem nextLine_events (pos : Vec2u) : (nextLine S).events pos = [] := by
  simp only [nextLine, writeX, readY, writeY, Prog.write, Prog.events, List.nil_append]
  split
  · rfl
  · rfl

theorem putChar_finish (c : Cursor) (ch : UInt8) :
    (putChar S ch).finish c.pos = (Cursor.putChar S c).pos := by
  simp only [putChar, readX, writeX, Prog.write, Prog.finish, Cursor.putChar, id_eq]
  split
  · exact nextLine_finish ⟨⟨u32 (c.pos.x + 1), c.pos.y⟩, c.scrolls⟩
  · rfl

theorem putChar_events (ch : UInt8) (pos : Vec2u) :
    (putChar S ch).events pos = [.putCharAt ch pos] := by
  simp only [putChar, readX, writeX, Prog.write, Prog.events, List.nil_append, id_eq]
  split
  · rw [nextLine_events]
    rfl
  · rfl

/-! ## Between two calls -/

variable {act : ShellAct}

theorem eq_createProcess (h : (actProg S act).isDone = true) :
    ∃ function, act = .createProcess function := by
  cases act with
  | createProcess function => exact ⟨function, rfl⟩
  | _ => cases h

/-- The shell begins any other call. -/
theorem shellBegin_of_call (h : (actProg S act).isDone = false) (s : State)
    (acts : List ShellAct) :
    shellBegin S s acts act = { s with shell := ⟨acts, actProg S act⟩ } := by
  cases act with
  | createProcess function => cases h
  | _ => rfl

/-- A task leaves the others as they are. -/
theorem taskBegin_frame {s t : State} {stage : Stage} {p : Process}
    (hs : taskBegin S s stage = some (t, p)) : t.tasks = s.tasks := by
  cases stage with
  | sleep n => cases hs
  | lock n txt =>
    simp only [taskBegin] at hs
    split at hs <;> cases hs <;> rfl
  | print n txt saved => cases txt <;> cases hs <;> rfl
  | line lines =>
    cases lines with
    | nil => cases hs
    | cons txt lines =>
      simp only [taskBegin] at hs
      split at hs <;> cases hs <;> rfl
  | printLine txt lines => cases txt <;> cases hs <;> rfl
  | _ => cases hs; rfl

end HryOS.Preempted
