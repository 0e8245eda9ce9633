import HryOS.Scheduler.Mutex
import HryOS.Terminal.CommandLine
import HryOS.Terminal.Cursor

/-!
# The shell and the tasks on one terminal

The shell process with `send_input` and the commands, the timer tasks of `kernel.cpp` and the tasks
of `sleep` and `wait`, on the terminal's cursor.  A process is preempted between two terminal calls
only: each call is one step, and a string is printed by one call for each character.
`list_process` runs with interrupts disabled, in one step.  What is printed of the time and of the
processes comes with the labels.

* `step` — the shell and any number of tasks.
* `KeyActs` — what the shell does for a key.
* `calls` — the terminal calls of a step; `PassesInRange` — their positions are on the screen.
* `terminal_runs` — then the terminal itself makes all these calls, with the same cursor.
-/

set_option autoImplicit false

namespace HryOS.Tasks

open ByteMemory Transition Terminal CommandLine Keyboard

/-! ## The tasks -/

/-- The characters of a string literal. -/
def bytes (s : String) : List UInt8 := s.toList.map Char.toUInt8

/-- The position `task` gives to `task_base`, for its value of `task_count`. -/
def taskPos (n : ℕ) : Vec2u := ⟨10 + 10 * (u32 n % 7), u32 n / 7⟩

/-- Where a process other than the shell stands. -/
inductive Task
  /-- `task`, before `task_count++` -/
  | start
  /-- `task_base`, in `sleep_ms` or before the loop -/
  | sleep (n : ℕ)
  /-- at the calls of the loop's body, with the text to print, how much of it is printed, and the
  cursor position saved -/
  | lock (n : ℕ) (txt : List UInt8)
  | getCursor (n : ℕ) (txt : List UInt8)
  | moveTo (n : ℕ) (txt : List UInt8) (saved : Vec2u)
  | print (n printed : ℕ) (txt : List UInt8) (saved : Vec2u)
  | unlock (n : ℕ)
  /-- `spanko`, with the lines still to print -/
  | line (lines : List (List UInt8))
  | printLine (txt : List UInt8) (lines : List (List UInt8))
  | unlockLine (lines : List (List UInt8))
  deriving DecidableEq, Repr

/-- The functions given to `create_process`. -/
inductive TaskFunction
  | task
  | spanko
  deriving DecidableEq, Repr

/-- The process of a function. -/
def TaskFunction.create : TaskFunction → Task
  | .task => .start
  | .spanko => .line [bytes "Falling asleep...", bytes "Waking up..."]

/-- What the shell does next. -/
inductive ShellAct
  /-- `put_char` of a key -/
  | echo (ch : UInt8)
  /-- `put_char` of the prompt, and of any other text -/
  | prompt (ch : UInt8)
  | put (ch : UInt8)
  | nextLine
  | clearScreen
  | eraseLeft
  | moveLeft
  | createProcess (function : TaskFunction)
  /-- `list_process`, with the three columns of its lines -/
  | listProcess (rows : List (List UInt8 × List UInt8 × List UInt8))
  deriving DecidableEq, Repr

/-! ## The commands -/

/-- The callbacks of the registered commands. -/
inductive Callback
  | mem
  | uptime
  | cls
  | list
  | shutdown
  | rt
  | sleep
  | wait
  | ps
  deriving DecidableEq, Repr

/-- The names they are registered under. -/
def Callback.name : Callback → List UInt8
  | .mem => bytes "mem"
  | .uptime => bytes "uptime"
  | .cls => bytes "cls"
  | .list => bytes "list"
  | .shutdown => bytes "shutdown"
  | .rt => bytes "rt"
  | .sleep => bytes "sleep"
  | .wait => bytes "wait"
  | .ps => bytes "ps"

/-- A call of `register_command`; `behind` are the bytes behind the literals. -/
def registration (behind : Callback → ℕ → UInt8) (k : Callback) : Registration Callback where
  name := k.name
  behind := behind k
  callback := some k
  noNul := by cases k <;> decide
  short := by cases k <;> decide

/-- The registrations in the order of `kernel_main`. -/
def registrations (behind : Callback → ℕ → UInt8) : List (Registration Callback) :=
  [.mem, .uptime, .cls, .list, .shutdown, .rt, .sleep, .wait, .ps].map (registration behind)

/-- What the commands print that depends on the time and on the processes. -/
structure Output where
  uptime : List UInt8
  rows : List (List UInt8 × List UInt8 × List UInt8)

/-- `print_line`. -/
def printLine (txt : List UInt8) : List ShellAct := txt.map .put ++ [.nextLine]

/-- The callbacks; `wait` also waits for its process. -/
def runCallback (out : Output) (commands : List (Command Callback)) : Callback → List ShellAct
  | .mem => []
  | .uptime => printLine out.uptime
  | .cls => [.clearScreen]
  | .list =>
    printLine [] ++ printLine (bytes "Available commands:") ++
      commands.flatMap fun c => printLine (bytes "- " ++ c.command.takeWhile (· ≠ 0))
  | .shutdown => printLine (bytes "Shutting down...")
  | .rt => [.createProcess .task]
  | .sleep | .wait => [.createProcess .spanko]
  | .ps => [.listProcess out.rows]

/-- The calls of `send_input`. -/
def shellActs (out : Output) (commands : List (Command Callback)) :
    Call Callback → List ShellAct
  | .putChar ch => [.echo ch]
  | .nextLine => [.nextLine]
  | .print txt => if txt = PROMPT then txt.map .prompt else txt.map .put
  | .callback k => runCallback out commands k
  | .eraseLeft => [.eraseLeft]
  | .moveLeft => [.moveLeft]

/-- A call that edits the line. -/
def ShellAct.Edits : ShellAct → Prop
  | .echo _ | .eraseLeft | .moveLeft => True
  | _ => False

instance : ∀ act : ShellAct, Decidable act.Edits
  | .echo _ | .eraseLeft | .moveLeft => isTrue trivial
  | .prompt _ | .put _ | .nextLine | .clearScreen | .createProcess _ | .listProcess _ => isFalse id

/-- What the shell does for a key, with the length of the line before and after. -/
inductive KeyActs (index index' : ℕ) : List ShellAct → Prop
  | echo (ch : UInt8) (hroom : index < MAX_BUFFER_SIZE) (hindex : index' = index + 1) :
      KeyActs index index' [.echo ch]
  | back (hindex : index = index' + 1) : KeyActs index index' [.eraseLeft, .moveLeft]
  | nothing (hindex : index' = index) : KeyActs index index' []
  | enter (pre : List ShellAct) (hpre : ∀ act ∈ pre, ¬ act.Edits) (hindex : index' = 0) :
      KeyActs index index' (pre ++ [.nextLine, .prompt 62, .prompt 32])

theorem runCallback_not_edits (out : Output) (commands : List (Command Callback)) (k : Callback) :
    ∀ act ∈ runCallback out commands k, ¬ act.Edits := by
  have hline : ∀ txt, ∀ act ∈ printLine txt, ¬ act.Edits := by
    intro txt act hact
    simp only [printLine, List.mem_append, List.mem_map, List.mem_singleton] at hact
    rcases hact with ⟨ch, -, rfl⟩ | rfl <;> exact id
  intro act hact
  cases k with
  | uptime => exact hline _ act hact
  | shutdown => exact hline _ act hact
  | list =>
    simp only [runCallback, List.mem_append, List.mem_flatMap] at hact
    rcases hact with (hact | hact) | ⟨c, -, hact⟩
    · exact hline _ act hact
    · exact hline _ act hact
    · exact hline _ act hact
  | mem => cases hact
  | _ =>
    obtain rfl := List.mem_singleton.mp hact
    exact id

theorem shellActs_not_edits (out : Output) (commands : List (Command Callback))
    {call : Call Callback} (h : ¬ EditsLine call) :
    ∀ act ∈ shellActs out commands call, ¬ act.Edits := by
  cases call with
  | callback k => exact runCallback_not_edits out commands k
  | nextLine => exact List.forall_mem_singleton.mpr id
  | print txt =>
    intro act hact
    simp only [shellActs] at hact
    split at hact
    all_goals
      obtain ⟨ch, -, rfl⟩ := List.mem_map.mp hact
      exact id
  | _ => exact absurd trivial h

/-- **What the shell does for a key.** -/
theorem keyActs {st st' : Statics Callback} {event : KeyEvent} {calls : List (Call Callback)}
    (h : sendInput st event = some (st', calls)) (out : Output)
    (commands : List (Command Callback)) :
    KeyActs st.inputBufferIndex st'.inputBufferIndex (calls.flatMap (shellActs out commands)) := by
  cases sendInput_calls h with
  | echo ch hroom hindex => exact .echo ch hroom hindex
  | back hindex => exact .back hindex
  | nothing hindex => exact .nothing hindex
  | enter pre hpre hindex =>
    rw [List.flatMap_append]
    refine .enter _ ?_ hindex
    intro act hact
    obtain ⟨call, hcall, hact⟩ := List.mem_flatMap.mp hact
    exact shellActs_not_edits out commands (hpre call hcall) act hact

/-! ## The system -/

/-- The cursor, `terminal_mutex`, `task_count`, the shell's statics and what it does next, and the
    other processes. -/
structure State where
  cursor : Cursor
  mutex : Mutex
  taskCount : ℕ
  statics : Statics Callback
  shell : List ShellAct
  tasks : List Task

/-- The steps. -/
inductive Label
  /-- the shell pulls a key -/
  | key (event : KeyEvent) (out : Output)
  /-- the shell makes its next call -/
  | shell
  /-- a task makes its next call -/
  | task (i : ℕ)
  /-- a timer begins the body of its loop, to print these digits -/
  | round (i : ℕ) (digits : List UInt8)

variable (S : Screen)

/-- `{ cursor_pos.x - 1, cursor_pos.y }`. -/
def left (c : Cursor) : Vec2u := ⟨u32 (c.pos.x + 4294967295), c.pos.y⟩

/-- The calls for one line of `list_process`, from the cursor `c`. -/
def listRow (c : Cursor) (row : List UInt8 × List UInt8 × List UInt8) : List Op :=
  let c := c.step S (.print row.1)
  let time := Op.moveCursor ⟨20, c.pos.y⟩
  let c' := (c.step S time).step S (.print row.2.1)
  let state := Op.moveCursor ⟨30, c'.pos.y⟩
  [.print row.1, time, .print row.2.1, state, .print row.2.2, .nextLine]

/-- The calls of the loop of `list_process`. -/
def listRows : List (List UInt8 × List UInt8 × List UInt8) → Cursor → List Op
  | [], _ => []
  | row :: rows, c =>
    let calls := listRow S c row
    calls ++ listRows rows (calls.foldl (Cursor.step S) c)

/-- The calls of `list_process`. -/
def listProcess (rows : List (List UInt8 × List UInt8 × List UInt8)) (c : Cursor) : List Op :=
  let calls := [.print (bytes "---------------"), .nextLine]
  calls ++ listRows S rows (calls.foldl (Cursor.step S) c)

/-- A call of the shell. -/
def shellStep (s : State) : ShellAct → State
  | .echo _ | .prompt _ | .put _ => { s with cursor := s.cursor.putChar S }
  | .nextLine => { s with cursor := s.cursor.nextLine S }
  | .clearScreen => { s with cursor := s.cursor.moveCursor ⟨0, 0⟩ }
  | .eraseLeft => s
  | .moveLeft => { s with cursor := s.cursor.moveCursor (left s.cursor) }
  | .createProcess function => { s with tasks := s.tasks ++ [function.create] }
  | .listProcess rows =>
    { s with cursor := (listProcess S rows s.cursor).foldl (Cursor.step S) s.cursor }

/-- A call of a task; a round of `lock` that finds the mutex held leaves it where it is. -/
def taskStep (s : State) : Task → Option (State × Task)
  | .start => some ({ s with taskCount := s.taskCount + 1 }, .sleep s.taskCount)
  | .sleep _ => none
  | .lock n txt =>
    match s.mutex.lockIteration with
    | (true, mutex) => some ({ s with mutex }, .lock n txt)
    | (false, mutex) => some ({ s with mutex }, .getCursor n txt)
  | .getCursor n txt => some (s, .moveTo n txt s.cursor.pos)
  | .moveTo n txt saved =>
    some ({ s with cursor := s.cursor.moveCursor (taskPos n) }, .print n 0 txt saved)
  | .print n printed (_ :: txt) saved =>
    some ({ s with cursor := s.cursor.putChar S }, .print n (printed + 1) txt saved)
  | .print n _ [] saved => some ({ s with cursor := s.cursor.moveCursor saved }, .unlock n)
  | .unlock n => some ({ s with mutex := s.mutex.unlock }, .sleep n)
  | .line [] => none
  | .line (txt :: lines) =>
    match s.mutex.lockIteration with
    | (true, mutex) => some ({ s with mutex }, .line (txt :: lines))
    | (false, mutex) => some ({ s with mutex }, .printLine txt lines)
  | .printLine (_ :: txt) lines =>
    some ({ s with cursor := s.cursor.putChar S }, .printLine txt lines)
  | .printLine [] lines => some ({ s with cursor := s.cursor.nextLine S }, .unlockLine lines)
  | .unlockLine lines => some ({ s with mutex := s.mutex.unlock }, .line lines)

/-- One step. -/
def step : Step State Label
  | s, .key event out =>
    if s.shell = [] then
      (sendInput s.statics event).map fun (statics, calls) =>
        { s with statics, shell := calls.flatMap (shellActs out s.statics.commands) }
    else none
  | s, .shell =>
    match s.shell with
    | [] => none
    | act :: shell => some (shellStep S { s with shell } act)
  | s, .task i =>
    match s.tasks[i]? with
    | none => none
    | some task =>
      (taskStep S s task).map fun (s, task) => { s with tasks := s.tasks.set i task }
  | s, .round i digits =>
    match s.tasks[i]? with
    | some (.sleep n) =>
      some { s with tasks := s.tasks.set i (.lock n (digits ++ bytes " sec")) }
    | _ => none

/-- The cursor when the shell starts: `kernel_main` has printed the name and the prompt. -/
def bootCursor : Cursor :=
  (((Cursor.mk ⟨0, 0⟩ 0).putChars S (bytes "HryOS!")).nextLine S).putChars S PROMPT

/-- Before the first key. -/
def init (behind : Callback → ℕ → UInt8) : State where
  cursor := bootCursor S
  mutex := .new
  taskCount := 0
  statics := (registrations behind).foldl registerCommand CommandLine.init
  shell := []
  tasks := []

/-! ## Terminal calls -/

/-- The terminal calls of the shell's next step, from the cursor `c`. -/
def shellCalls (c : Cursor) : ShellAct → List Op
  | .echo ch | .prompt ch | .put ch => [.putChar ch]
  | .nextLine => [.nextLine]
  | .clearScreen => [.clearScreen]
  | .eraseLeft => [.putCharAt 32 (left c)]
  | .moveLeft => [.moveCursor (left c)]
  | .createProcess _ => []
  | .listProcess rows => listProcess S rows c

/-- The terminal calls of a task's next step. -/
def taskCalls : Task → List Op
  | .moveTo n _ _ => [.moveCursor (taskPos n)]
  | .print _ _ (ch :: _) _ | .printLine (ch :: _) _ => [.putChar ch]
  | .print _ _ [] saved => [.moveCursor saved]
  | .printLine [] _ => [.nextLine]
  | _ => []

/-- The terminal calls of a step. -/
def calls (s : State) : Label → List Op
  | .shell =>
    match s.shell with
    | act :: _ => shellCalls S s.cursor act
    | [] => []
  | .task i =>
    match s.tasks[i]? with
    | some task => taskCalls task
    | none => []
  | _ => []

/-- The positions passed to `move_cursor` and `put_char_at` lie on the screen. -/
def PassesInRange (s : State) (l : Label) : Prop := ∀ op ∈ calls S s l, op.InRange S

/-! ## Positions on the screen -/

variable {S} {s s' : State} {l : Label}

theorem taskPos_x_lt (n : ℕ) (hw : 100 ≤ Impl.getWidth S) : (taskPos n).x < Impl.getWidth S := by
  have hmod : u32 n % 7 < 7 := Nat.mod_lt _ (by omega)
  simp only [taskPos]
  omega

theorem inRange_moveCursor_iff {pos : Vec2u} : (Op.moveCursor pos).InRange S ↔ OnGrid S pos :=
  ⟨fun h => ⟨h.1, h.2⟩, fun h => ⟨h.x, h.y⟩⟩

theorem inRange_putCharAt_iff {ch : UInt8} {pos : Vec2u} :
    (Op.putCharAt ch pos).InRange S ↔ OnGrid S pos :=
  ⟨fun h => ⟨h.1, h.2⟩, fun h => ⟨h.x, h.y⟩⟩

theorem left_eq {c : Cursor} (hc : OnGrid S c.pos) (h0 : c.pos.x ≠ 0) :
    left c = ⟨c.pos.x - 1, c.pos.y⟩ := by
  have hlt := getWidth_lt S
  have hx := hc.x
  have hleft : u32 (c.pos.x + 4294967295) = c.pos.x - 1 := by
    unfold u32
    omega
  unfold left
  rw [hleft]

theorem row_print {c : Cursor} (hy : c.pos.y < Impl.getHeight S) (fmt : List UInt8) :
    (c.step S (.print fmt)).pos.y < Impl.getHeight S := Cursor.row_putChars hy _

/-- A line of `list_process` ends on the grid. -/
theorem onGrid_listRow {c : Cursor} (hy : c.pos.y < Impl.getHeight S)
    (row : List UInt8 × List UInt8 × List UInt8) :
    OnGrid S ((listRow S c row).foldl (Cursor.step S) c).pos := by
  have hy₁ := row_print hy row.1
  have hy₂ := row_print (c := (c.step S (.print row.1)).moveCursor
    ⟨20, (c.step S (.print row.1)).pos.y⟩) hy₁ row.2.1
  exact Cursor.onGrid_nextLine (row_print (c := Cursor.moveCursor _ ⟨30, _⟩) hy₂ row.2.2)

theorem onGrid_listRows (rows : List (List UInt8 × List UInt8 × List UInt8)) {c : Cursor}
    (hc : OnGrid S c.pos) : OnGrid S ((listRows S rows c).foldl (Cursor.step S) c).pos := by
  induction rows generalizing c with
  | nil => exact hc
  | cons row rows ih =>
    simp only [listRows, List.foldl_append]
    exact ih (onGrid_listRow hc.y row)

/-- `list_process` leaves the cursor on the grid. -/
theorem onGrid_listProcess (rows : List (List UInt8 × List UInt8 × List UInt8)) {c : Cursor}
    (hc : OnGrid S c.pos) : OnGrid S ((listProcess S rows c).foldl (Cursor.step S) c).pos := by
  unfold listProcess
  rw [List.foldl_append]
  exact onGrid_listRows rows (Cursor.onGrid_nextLine (row_print hc.y _))

theorem listRow_inRange {c : Cursor} (hy : c.pos.y < Impl.getHeight S)
    (hw : 100 ≤ Impl.getWidth S) (row : List UInt8 × List UInt8 × List UInt8) :
    ∀ op ∈ listRow S c row, op.InRange S := by
  have hy₁ := row_print hy row.1
  have hy₂ := row_print (c := (c.step S (.print row.1)).moveCursor
    ⟨20, (c.step S (.print row.1)).pos.y⟩) hy₁ row.2.1
  intro op hop
  simp only [listRow, List.mem_cons, List.not_mem_nil, or_false] at hop
  rcases hop with rfl | rfl | rfl | rfl | rfl | rfl
  · trivial
  · exact ⟨by simp only; omega, hy₁⟩
  · trivial
  · exact ⟨by simp only; omega, hy₂⟩
  · trivial
  · trivial

theorem listRows_inRange (hw : 100 ≤ Impl.getWidth S)
    (rows : List (List UInt8 × List UInt8 × List UInt8)) {c : Cursor} (hc : OnGrid S c.pos) :
    ∀ op ∈ listRows S rows c, op.InRange S := by
  induction rows generalizing c with
  | nil => simp [listRows]
  | cons row rows ih =>
    intro op hop
    rcases List.mem_append.mp hop with hop | hop
    · exact listRow_inRange hc.y hw row op hop
    · exact ih (onGrid_listRow hc.y row) op hop

/-- `list_process` passes positions on the screen. -/
theorem listProcess_inRange (hw : 100 ≤ Impl.getWidth S)
    (rows : List (List UInt8 × List UInt8 × List UInt8)) {c : Cursor} (hc : OnGrid S c.pos) :
    ∀ op ∈ listProcess S rows c, op.InRange S := by
  intro op hop
  rcases List.mem_append.mp hop with hop | hop
  · simp only [List.mem_cons, List.not_mem_nil, or_false] at hop
    rcases hop with rfl | rfl <;> trivial
  · exact listRows_inRange hw rows (Cursor.onGrid_nextLine (row_print hc.y _)) op hop

/-- The shell starts with its cursor on the screen. -/
theorem onGrid_bootCursor (S : Screen) : OnGrid S (bootCursor S).pos := by
  have hname := Cursor.onGrid_putChars (c := ⟨⟨0, 0⟩, 0⟩) ⟨getWidth_pos S, getHeight_pos S⟩
    (bytes "HryOS!")
  exact Cursor.onGrid_putChars (Cursor.onGrid_nextLine hname.y) PROMPT

/-! ## What a step can do -/

/-- The flag of a mutex that is held. -/
theorem held_flag : ¬(⟨1⟩ : Mutex).flag = 0 := by
  decide

/-- What a call of a task does. -/
theorem taskStep_cases {task task' : Task} (hs : taskStep S s task = some (s', task')) :
    (task = .start ∧ s' = { s with taskCount := s.taskCount + 1 } ∧ task' = .sleep s.taskCount) ∨
    (s.mutex.flag ≠ 0 ∧ s' = { s with mutex := ⟨1⟩ } ∧ task' = task ∧
      ((∃ n txt, task = .lock n txt) ∨ ∃ lines, task = .line lines)) ∨
    (∃ n txt, task = .lock n txt ∧ s.mutex.flag = 0 ∧ s' = { s with mutex := ⟨1⟩ } ∧
      task' = .getCursor n txt) ∨
    (∃ n txt, task = .getCursor n txt ∧ s' = s ∧ task' = .moveTo n txt s.cursor.pos) ∨
    (∃ n txt saved, task = .moveTo n txt saved ∧
      s' = { s with cursor := s.cursor.moveCursor (taskPos n) } ∧
      task' = .print n 0 txt saved) ∨
    (∃ n printed ch txt saved, task = .print n printed (ch :: txt) saved ∧
      s' = { s with cursor := s.cursor.putChar S } ∧ task' = .print n (printed + 1) txt saved) ∨
    (∃ n printed saved, task = .print n printed [] saved ∧
      s' = { s with cursor := s.cursor.moveCursor saved } ∧ task' = .unlock n) ∨
    (∃ n, task = .unlock n ∧ s' = { s with mutex := ⟨0⟩ } ∧ task' = .sleep n) ∨
    (∃ txt lines, task = .line (txt :: lines) ∧ s.mutex.flag = 0 ∧ s' = { s with mutex := ⟨1⟩ } ∧
      task' = .printLine txt lines) ∨
    (∃ ch txt lines, task = .printLine (ch :: txt) lines ∧
      s' = { s with cursor := s.cursor.putChar S } ∧ task' = .printLine txt lines) ∨
    (∃ lines, task = .printLine [] lines ∧ s' = { s with cursor := s.cursor.nextLine S } ∧
      task' = .unlockLine lines) ∨
    ∃ lines, task = .unlockLine lines ∧ s' = { s with mutex := ⟨0⟩ } ∧ task' = .line lines := by
  cases task with
  | start => cases hs; simp
  | sleep n => cases hs
  | lock n txt =>
    simp only [taskStep] at hs
    rcases s.mutex.lockIteration_cases with ⟨hflag, hlock⟩ | ⟨hflag, hlock⟩
    · rw [hlock] at hs
      cases hs
      simp [hflag]
    · rw [hlock] at hs
      cases hs
      simp [hflag]
  | getCursor n txt => cases hs; simp
  | moveTo n txt saved => cases hs; simp
  | print n printed txt saved => cases txt <;> cases hs <;> simp
  | unlock n => cases hs; simp [Mutex.unlock, Mutex.release]
  | line lines =>
    cases lines with
    | nil => cases hs
    | cons txt lines =>
      simp only [taskStep] at hs
      rcases s.mutex.lockIteration_cases with ⟨hflag, hlock⟩ | ⟨hflag, hlock⟩
      · rw [hlock] at hs
        cases hs
        simp [hflag]
      · rw [hlock] at hs
        cases hs
        simp [hflag]
  | printLine txt lines => cases txt <;> cases hs <;> simp
  | unlockLine lines => cases hs; simp [Mutex.unlock, Mutex.release]

/-- A call of a task leaves the other processes as they are. -/
theorem taskStep_frame {task task' : Task} (hs : taskStep S s task = some (s', task')) :
    s'.tasks = s.tasks ∧ s'.shell = s.shell := by
  rcases taskStep_cases hs with ⟨-, rfl, -⟩ | ⟨-, rfl, -⟩ | ⟨n, txt, -, -, rfl, -⟩ |
    ⟨n, txt, -, rfl, -⟩ | ⟨n, txt, saved, -, rfl, -⟩ | ⟨n, printed, ch, txt, saved, -, rfl, -⟩ |
    ⟨n, printed, saved, -, rfl, -⟩ | ⟨n, -, rfl, -⟩ | ⟨txt, lines, -, -, rfl, -⟩ |
    ⟨ch, txt, lines, -, rfl, -⟩ | ⟨lines, -, rfl, -⟩ | ⟨lines, -, rfl, -⟩
  all_goals exact ⟨rfl, rfl⟩

/-- What a step can do. -/
theorem step_cases (hs : step S s l = some s') :
    (∃ event out statics calls, l = .key event out ∧ s.shell = [] ∧
      sendInput s.statics event = some (statics, calls) ∧
      s' = { s with statics, shell := calls.flatMap (shellActs out s.statics.commands) }) ∨
    (∃ act shell, l = .shell ∧ s.shell = act :: shell ∧
      s' = shellStep S { s with shell } act) ∨
    (∃ i task t task', l = .task i ∧ s.tasks[i]? = some task ∧
      taskStep S s task = some (t, task') ∧ s' = { t with tasks := s.tasks.set i task' }) ∨
    ∃ i n digits, l = .round i digits ∧ s.tasks[i]? = some (.sleep n) ∧
      s' = { s with tasks := s.tasks.set i (.lock n (digits ++ bytes " sec")) } := by
  cases l with
  | key event out =>
    simp only [step] at hs
    split at hs
    · rename_i hnil
      obtain ⟨⟨statics, calls⟩, hq, hs⟩ := Option.map_eq_some_iff.mp hs
      cases hs
      exact .inl ⟨event, out, statics, calls, rfl, hnil, hq, rfl⟩
    · cases hs
  | shell =>
    simp only [step] at hs
    split at hs
    · cases hs
    · rename_i act shell hshell
      cases hs
      exact .inr (.inl ⟨act, shell, rfl, hshell, rfl⟩)
  | task i =>
    simp only [step] at hs
    split at hs
    · cases hs
    · rename_i task htask
      obtain ⟨⟨t, task'⟩, ht, hs⟩ := Option.map_eq_some_iff.mp hs
      cases hs
      refine .inr (.inr (.inl ⟨i, task, t, task', rfl, htask, ht, ?_⟩))
      simp only [(taskStep_frame ht).1]
  | round i digits =>
    simp only [step] at hs
    split at hs
    · rename_i n htask
      cases hs
      exact .inr (.inr (.inr ⟨i, n, digits, rfl, htask, rfl⟩))
    · cases hs

/-! ## A run -/

/-- 800 by 600 pixels. -/
def screen800 : Screen := ⟨⟨800, 600⟩, by decide, by decide, by decide⟩

instance : ∀ op : Op, Decidable (op.InRange S)
  | .putCharAt _ pos | .moveCursor pos =>
    inferInstanceAs (Decidable (pos.x < Impl.getWidth S ∧ pos.y < Impl.getHeight S))
  | .putChar _ | .print _ | .nextLine | .setForegroundColor _ | .setBackgroundColor _
  | .clearScreen => isTrue trivial

/-- A key goes up, and the shell makes the calls for it. -/
def typed (key calls : ℕ) : List Label :=
  .key ⟨.released, key⟩ ⟨[], []⟩ :: List.replicate calls .shell

/-- "rt", and the new timer saves the cursor behind the prompt. -/
def timerAway : List Label :=
  typed 0x13 1 ++ typed 0x14 1 ++ typed enter 5 ++ [.task 0, .round 0 [48], .task 0, .task 0]

/-! ## The terminal under the tasks -/

/-- A step moves the cursor by its calls. -/
theorem step_calls (hs : step S s l = some s') :
    s'.cursor = (calls S s l).foldl (Cursor.step S) s.cursor := by
  rcases step_cases hs with ⟨event, out, statics, calls, rfl, -, -, rfl⟩ |
    ⟨act, shell, rfl, hshell, rfl⟩ | ⟨i, task, t, task', rfl, htask, ht, rfl⟩ |
    ⟨i, n, digits, rfl, -, rfl⟩
  · rfl
  · simp only [calls, hshell]
    cases act <;> rfl
  · simp only [calls, htask]
    rcases taskStep_cases ht with ⟨rfl, rfl, -⟩ | ⟨-, rfl, -, ⟨n, txt, rfl⟩ | ⟨lines, rfl⟩⟩ |
      ⟨n, txt, rfl, -, rfl, -⟩ | ⟨n, txt, rfl, rfl, -⟩ | ⟨n, txt, saved, rfl, rfl, -⟩ |
      ⟨n, printed, ch, txt, saved, rfl, rfl, -⟩ | ⟨n, printed, saved, rfl, rfl, -⟩ |
      ⟨n, rfl, rfl, -⟩ | ⟨txt, lines, rfl, -, rfl, -⟩ | ⟨ch, txt, lines, rfl, rfl, -⟩ |
      ⟨lines, rfl, rfl, -⟩ | ⟨lines, rfl, rfl, -⟩
    all_goals rfl
  · rfl

/-- The terminal calls of a run. -/
def allCalls (S : Screen) : State → List Label → List Op
  | _, [] => []
  | s, l :: ls =>
    match step S s l with
    | some s' => calls S s l ++ allCalls S s' ls
    | none => []

/-- **The terminal under the tasks**: while the positions are on the screen, it makes all their
    calls, with the cursor of the system. -/
theorem terminal_runs {glyphs : Glyphs} {t : Terminal.State} {text : TextState} {ls : List Label}
    (h : Refines S glyphs t text) (hc : HasCursor t s.cursor)
    (hrun : run (step S) s ls = some s')
    (hin : EveryStep (step S) (PassesInRange S) s ls) :
    ∃ t', run (Terminal.step S glyphs) t (allCalls S s ls) = some t' ∧
      HasCursor t' s'.cursor := by
  have hcalls : (∀ op ∈ allCalls S s ls, op.InRange S) ∧
      (allCalls S s ls).foldl (Cursor.step S) s.cursor = s'.cursor := by
    clear h hc
    induction ls generalizing s with
    | nil =>
      cases hrun
      exact ⟨by simp [allCalls], rfl⟩
    | cons l ls ih =>
      obtain ⟨s₁, hs, hls⟩ := run_cons_some.mp hrun
      obtain ⟨hl, hin⟩ := everyStep_cons.mp hin
      obtain ⟨hops, hfold⟩ := ih hls (hin s₁ hs)
      simp only [allCalls, hs, List.foldl_append, ← step_calls hs]
      refine ⟨?_, hfold⟩
      intro op hop
      rcases List.mem_append.mp hop with hop | hop
      · exact hl op hop
      · exact hops op hop
  obtain ⟨t', ht', -⟩ := run_refines h hcalls.1
  exact ⟨t', ht', hcalls.2 ▸ run_cursor hc ht'⟩

end HryOS.Tasks
