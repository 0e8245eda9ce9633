import HryOS.Terminal.Preempted

/-!
# Calls that nobody interrupts

The system of `Tasks`, which preempts between two terminal calls only, in the one that preempts
between any two accesses.

* `actProg_finish` — the accesses of a call of the shell leave the cursor where the call does.
* `shell_finishes`, `task_finishes` — a process that goes on alone ends its call.
* `fine_reachable` — every run of `Tasks` is a run here: its calls, each without an interruption.
-/

set_option autoImplicit false

namespace HryOS.Preempted

open ByteMemory Transition Terminal CommandLine Resumable
open Tasks (ShellAct TaskFunction Callback Task Label taskPos listRow listRows listProcess)

variable {S : Screen}

/-! ## The number of scrolls does not matter -/

theorem nextLine_pos {c c' : Cursor} (h : c.pos = c'.pos) :
    (Cursor.nextLine S c).pos = (Cursor.nextLine S c').pos := by
  unfold Cursor.nextLine
  simp only [h]
  split <;> rfl

theorem putChar_pos {c c' : Cursor} (h : c.pos = c'.pos) :
    (Cursor.putChar S c).pos = (Cursor.putChar S c').pos := by
  unfold Cursor.putChar
  simp only [h]
  split
  · exact nextLine_pos rfl
  · rfl

theorem putChars_pos {c c' : Cursor} (h : c.pos = c'.pos) (txt : List UInt8) :
    (Cursor.putChars S c txt).pos = (Cursor.putChars S c' txt).pos := by
  unfold Cursor.putChars
  induction txt generalizing c c' with
  | nil => exact h
  | cons ch txt ih => exact ih (putChar_pos h)

theorem step_pos {c c' : Cursor} (h : c.pos = c'.pos) (op : Op) :
    (c.step S op).pos = (c'.step S op).pos := by
  cases op with
  | putChar ch => exact putChar_pos h
  | print fmt => exact putChars_pos h _
  | nextLine => exact nextLine_pos h
  | clearScreen => rfl
  | moveCursor pos => rfl
  | setForegroundColor color => exact h
  | setBackgroundColor color => exact h
  | putCharAt ch pos => exact h

theorem foldl_step_pos (ops : List Op) {c c' : Cursor} (h : c.pos = c'.pos) :
    (ops.foldl (Cursor.step S) c).pos = (ops.foldl (Cursor.step S) c').pos := by
  induction ops generalizing c c' with
  | nil => exact h
  | cons op ops ih => exact ih (step_pos h op)

theorem listRow_eq {c c' : Cursor} (h : c.pos = c'.pos)
    (row : List UInt8 × List UInt8 × List UInt8) : listRow S c row = listRow S c' row := by
  have hpid : (c.step S (.print row.1)).pos = (c'.step S (.print row.1)).pos := step_pos h _
  have htime : ∀ pos : Vec2u,
      (((c.step S (.print row.1)).step S (.moveCursor pos)).step S (.print row.2.1)).pos =
        (((c'.step S (.print row.1)).step S (.moveCursor pos)).step S (.print row.2.1)).pos :=
    fun pos => step_pos (step_pos hpid _) _
  simp only [listRow, hpid, htime]

theorem listRows_eq (rows : List (List UInt8 × List UInt8 × List UInt8)) {c c' : Cursor}
    (h : c.pos = c'.pos) : listRows S rows c = listRows S rows c' := by
  induction rows generalizing c c' with
  | nil => rfl
  | cons row rows ih =>
    simp only [listRows, listRow_eq h]
    rw [ih (foldl_step_pos _ h)]

theorem listProcess_eq (rows : List (List UInt8 × List UInt8 × List UInt8)) {c c' : Cursor}
    (h : c.pos = c'.pos) : listProcess S rows c = listProcess S rows c' := by
  simp only [listProcess]
  rw [listRows_eq rows (foldl_step_pos _ h)]

/-- **A call that nobody interrupts** leaves the cursor where the call of the shell does. -/
theorem actProg_finish (s : Tasks.State) (act : ShellAct) :
    (actProg S act).finish s.cursor.pos = (Tasks.shellStep S s act).cursor.pos := by
  cases act with
  | echo ch => exact putChar_finish s.cursor ch
  | prompt ch => exact putChar_finish s.cursor ch
  | put ch => exact putChar_finish s.cursor ch
  | nextLine => exact nextLine_finish s.cursor
  | clearScreen => rfl
  | eraseLeft => rfl
  | moveLeft => rfl
  | createProcess function => rfl
  | listProcess rows =>
    have hcalls : listProcess S rows ⟨s.cursor.pos, 0⟩ = listProcess S rows s.cursor :=
      listProcess_eq rows rfl
    simp only [actProg, Prog.finish, Tasks.shellStep, hcalls]
    exact foldl_step_pos _ rfl

/-! ## A process goes on alone -/

section

variable {mutex : Mutex} {taskCount i : ℕ} {statics : Statics Callback} {acts : List ShellAct}
  {shell : Shell} {tasks : List Process} {stage : Stage}

theorem shell_finishes (prog : TermProg) (cursor : Vec2u) :
    Reachable (step S) ⟨cursor, mutex, taskCount, statics, ⟨acts, prog⟩, tasks⟩
      ⟨prog.finish cursor, mutex, taskCount, statics, ⟨acts, .done⟩, tasks⟩ := by
  induction prog generalizing cursor with
  | done => exact Reachable.refl _ _
  | read next ih => exact Reachable.head (l := .shell) rfl (ih cursor cursor)
  | act f events next ih => exact Reachable.head (l := .shell) rfl (ih (f cursor))

/-- The step of a task that is in a call. -/
theorem step_call (hi : i < tasks.length) {prog : TermProg} (hcall : prog.isDone = false)
    (cursor : Vec2u) :
    step S ⟨cursor, mutex, taskCount, statics, shell, tasks.set i ⟨stage, prog⟩⟩ (.task i) =
      some ⟨(prog.step cursor).1, mutex, taskCount, statics, shell,
        tasks.set i ⟨stage, (prog.step cursor).2.2⟩⟩ := by
  simp only [step, List.getElem?_set_self hi, hcall, Bool.false_eq_true, if_false, List.set_set]

theorem task_finishes (hi : i < tasks.length) (prog : TermProg) (cursor : Vec2u) :
    Reachable (step S) ⟨cursor, mutex, taskCount, statics, shell, tasks.set i ⟨stage, prog⟩⟩
      ⟨prog.finish cursor, mutex, taskCount, statics, shell, tasks.set i ⟨stage, .done⟩⟩ := by
  induction prog generalizing cursor with
  | done => exact Reachable.refl _ _
  | read next ih => exact Reachable.head (step_call hi rfl cursor) (ih cursor cursor)
  | act f events next ih => exact Reachable.head (step_call hi rfl cursor) (ih (f cursor))

end

variable {s u v : State} {stage stage' stage'' : Stage} {prog : TermProg} {pos : Vec2u} {i : ℕ}

/-- A task begins a call, and goes on alone. -/
theorem begin_finishes (hp : s.tasks[i]? = some ⟨stage, .done⟩)
    (hb : taskBegin S s stage = some (u, ⟨stage', prog⟩)) (hpos : prog.finish u.cursor = pos) :
    Reachable (step S) s { u with cursor := pos, tasks := s.tasks.set i ⟨stage', .done⟩ } := by
  have hframe := taskBegin_frame hb
  have hi : i < s.tasks.length := (List.getElem?_eq_some_iff.mp hp).1
  have hstep : step S s (.task i) = some { u with tasks := s.tasks.set i ⟨stage', prog⟩ } := by
    simp only [step, hp, Prog.isDone, if_true, hb, Option.map_some, hframe]
  rw [← hpos]
  exact Reachable.head hstep (task_finishes hi prog u.cursor)

/-- A task goes on twice without a call. -/
theorem begin_twice (hp : s.tasks[i]? = some ⟨stage, .done⟩)
    (hb : taskBegin S s stage = some (u, ⟨stage', .done⟩))
    (hb' : taskBegin S { u with tasks := s.tasks.set i ⟨stage', .done⟩ } stage' =
      some (v, ⟨stage'', .done⟩)) :
    Reachable (step S) s { v with tasks := s.tasks.set i ⟨stage'', .done⟩ } := by
  have hi : i < s.tasks.length := (List.getElem?_eq_some_iff.mp hp).1
  have hp' : (s.tasks.set i ⟨stage', .done⟩)[i]? = some ⟨stage', .done⟩ :=
    List.getElem?_set_self hi
  have hfirst := begin_finishes hp hb rfl
  have hsecond := begin_finishes (s := { u with tasks := s.tasks.set i ⟨stage', .done⟩ }) hp' hb'
    rfl
  simp only [List.set_set] at hsecond
  exact hfirst.trans hsecond

/-! ## Every run -/

/-- A task between two terminal calls. -/
def process : Task → Process
  | .start => ⟨.start, .done⟩
  | .sleep n => ⟨.sleep n, .done⟩
  | .lock n txt => ⟨.lock n txt, .done⟩
  | .getCursor n txt => ⟨.readY n txt, .done⟩
  | .moveTo n txt saved => ⟨.moveTo n txt saved, .done⟩
  | .print n _ txt saved => ⟨.print n txt saved, .done⟩
  | .unlock n => ⟨.unlock n, .done⟩
  | .line lines => ⟨.line lines, .done⟩
  | .printLine txt lines => ⟨.printLine txt lines, .done⟩
  | .unlockLine lines => ⟨.unlockLine lines, .done⟩

/-- The state between two terminal calls. -/
def fine (t : Tasks.State) : State where
  cursor := t.cursor.pos
  mutex := t.mutex
  taskCount := t.taskCount
  statics := t.statics
  shell := ⟨t.shell, .done⟩
  tasks := t.tasks.map process

variable {t t' w : Tasks.State} {task task' : Task}

theorem process_create (function : TaskFunction) :
    process function.create = ⟨create function, .done⟩ := by
  cases function <;> rfl

/-- The task of `fine t` at `i`. -/
theorem fine_task (htask : t.tasks[i]? = some task) : (fine t).tasks[i]? = some (process task) := by
  simp only [fine, List.getElem?_map, htask, Option.map_some]

theorem fine_set : fine { w with tasks := t.tasks.set i task' } =
    { fine w with tasks := (fine t).tasks.set i (process task') } := by
  simp only [fine, List.map_set]

/-- **A call of a task** by its accesses. -/
theorem fine_taskStep (htask : t.tasks[i]? = some task)
    (hs : Tasks.taskStep S t task = some (w, task')) :
    Reachable (step S) (fine t) (fine { w with tasks := t.tasks.set i task' }) := by
  have hp := fine_task htask
  rw [fine_set]
  rcases Tasks.taskStep_cases hs with ⟨rfl, rfl, rfl⟩ |
    ⟨hflag, rfl, rfl, ⟨n, txt, rfl⟩ | ⟨lines, rfl⟩⟩ | ⟨n, txt, rfl, hflag, rfl, rfl⟩ |
    ⟨n, txt, rfl, rfl, rfl⟩ | ⟨n, txt, saved, rfl, rfl, rfl⟩ |
    ⟨n, printed, ch, txt, saved, rfl, rfl, rfl⟩ | ⟨n, printed, saved, rfl, rfl, rfl⟩ |
    ⟨n, rfl, rfl, rfl⟩ | ⟨txt, lines, rfl, hflag, rfl, rfl⟩ | ⟨ch, txt, lines, rfl, rfl, rfl⟩ |
    ⟨lines, rfl, rfl, rfl⟩ | ⟨lines, rfl, rfl, rfl⟩
  · have hcount := begin_twice (S := S) (u := fine t) hp rfl rfl
    exact hcount
  · have hheld : t.mutex.lockIteration = (true, ⟨1⟩) := Mutex.lockIteration_held hflag
    have hlock : taskBegin S (fine t) (.lock n txt) =
        some ({ fine t with mutex := ⟨1⟩ }, ⟨.lock n txt, .done⟩) := by
      simp only [taskBegin, fine, hheld]
    exact begin_finishes hp hlock rfl
  · cases lines with
    | nil => cases hs
    | cons txt lines =>
      have hheld : t.mutex.lockIteration = (true, ⟨1⟩) := Mutex.lockIteration_held hflag
      have hlock : taskBegin S (fine t) (.line (txt :: lines)) =
          some ({ fine t with mutex := ⟨1⟩ }, ⟨.line (txt :: lines), .done⟩) := by
        simp only [taskBegin, fine, hheld]
      exact begin_finishes hp hlock rfl
  · have hfree : t.mutex.lockIteration = (false, ⟨1⟩) := Mutex.lockIteration_free hflag
    have hlock : taskBegin S (fine t) (.lock n txt) =
        some ({ fine t with mutex := ⟨1⟩ }, ⟨.readY n txt, .done⟩) := by
      simp only [taskBegin, fine, hfree]
    exact begin_finishes hp hlock rfl
  · have hsave := begin_twice (S := S) (u := fine w) hp rfl rfl
    exact hsave
  · have hmove := begin_finishes (S := S) (u := fine t) hp rfl (moveCursor_finish _ (taskPos n))
    exact hmove
  · have hchar := begin_finishes (S := S) (u := fine t) hp rfl (putChar_finish t.cursor ch)
    exact hchar
  · have hmove := begin_finishes (S := S) (u := fine t) hp rfl (moveCursor_finish t.cursor.pos saved)
    exact hmove
  · exact begin_finishes hp rfl rfl
  · have hfree : t.mutex.lockIteration = (false, ⟨1⟩) := Mutex.lockIteration_free hflag
    have hlock : taskBegin S (fine t) (.line (txt :: lines)) =
        some ({ fine t with mutex := ⟨1⟩ }, ⟨.locked txt lines, .done⟩) := by
      simp only [taskBegin, fine, hfree]
    have hprint := begin_twice hp hlock rfl
    exact hprint
  · have hchar := begin_finishes (S := S) (u := fine t) hp rfl (putChar_finish t.cursor ch)
    exact hchar
  · have hline := begin_finishes (S := S) (u := fine t) hp rfl (nextLine_finish t.cursor)
    exact hline
  · exact begin_finishes hp rfl rfl

theorem shellStep_of_call {act : ShellAct} (h : (actProg S act).isDone = false) :
    Tasks.shellStep S t act = { t with cursor := (Tasks.shellStep S t act).cursor } := by
  cases act with
  | createProcess function => cases h
  | _ => rfl

/-- **A call of the shell** by its accesses. -/
theorem fine_shellStep {act : ShellAct} {acts : List ShellAct} (hacts : t.shell = act :: acts) :
    Reachable (step S) (fine t) (fine (Tasks.shellStep S { t with shell := acts } act)) := by
  have hbegin : step S (fine t) .shell = some (shellBegin S (fine t) acts act) := by
    simp only [step, fine, Prog.isDone, if_true, hacts]
  refine Reachable.head hbegin ?_
  cases hcall : (actProg S act).isDone with
  | true =>
    obtain ⟨function, rfl⟩ := eq_createProcess hcall
    simp only [shellBegin, fine, Tasks.shellStep, List.map_append, List.map_cons, List.map_nil,
      process_create]
    exact Reachable.refl _ _
  | false =>
    rw [shellBegin_of_call hcall, shellStep_of_call hcall]
    simp only [fine, ← actProg_finish]
    exact shell_finishes (actProg S act) t.cursor.pos

/-- One step of `Tasks` is some steps here. -/
theorem fine_step {l : Label} (hs : Tasks.step S t l = some t') :
    Reachable (step S) (fine t) (fine t') := by
  rcases Tasks.step_cases hs with ⟨event, out, statics, calls, rfl, hnil, hq, rfl⟩ |
    ⟨act, shell, rfl, hshell, rfl⟩ | ⟨i, task, w, task', rfl, htask, ht, rfl⟩ |
    ⟨i, n, digits, rfl, htask, rfl⟩
  · refine Reachable.head (l := .key event out) ?_ (Reachable.refl _ _)
    simp only [step, fine, Prog.isDone, hnil, and_self, if_true, hq, Option.map_some]
  · exact fine_shellStep hshell
  · exact fine_taskStep htask ht
  · refine Reachable.head (l := .round i digits) ?_ (Reachable.refl _ _)
    have hp := fine_task htask
    rw [fine_set]
    simp only [step, hp, process]

theorem fine_init (behind : Callback → ℕ → UInt8) :
    fine (Tasks.init S behind) = init S behind := by
  simp only [fine, Tasks.init, init, List.map_nil]

/-- **Every run of `Tasks` is a run here**, each of its calls without an interruption. -/
theorem fine_reachable {behind : Callback → ℕ → UInt8} {ls : List Label}
    (hrun : run (Tasks.step S) (Tasks.init S behind) ls = some t) :
    Reachable (step S) (init S behind) (fine t) := by
  rw [← fine_init]
  exact run_simulation (I := fun _ => True) fine (fun _ _ _ _ _ => trivial)
    (fun _ _ _ _ hs => fine_step hs) trivial hrun

end HryOS.Preempted
