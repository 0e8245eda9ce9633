import HryOS.Lib.Exclusion
import HryOS.Terminal.Tasks

/-!
# The shell's line under the timers

The timers move the cursor away and back under `terminal_mutex`, which the shell does not take.

* `Watched`, `watch` — the system with the cell that follows the shell's last echoed or prompt
  character; a cell is counted with the lines scrolled out, so scrolling does not change it.
* `Undisturbed` — a key is echoed in that cell, and each character of a timer's text is drawn as
  many cells behind the timer's position as stand in front of it.
* `taskStep_exclusive` — at most one task is between `lock` and `unlock`.
* `Kept` — the invariant: while no timer is away the cursor is at the shell's line, else the
  position saved is.
* `shell_line_undisturbed` — every run without a call of the shell while a timer is away keeps the
  shell's line.
-/

set_option autoImplicit false

namespace HryOS.Tasks

open ByteMemory Transition Terminal CommandLine Keyboard Exclusion

variable (S : Screen)

/-! ## The watched system -/

/-- The system, and the cell that follows the shell's last echoed or prompt character. -/
structure Watched where
  sys : State
  next : ℤ

/-- That cell after a call of the shell; taking a character back moves it back. -/
def actNext (cursor : Cursor) (next : ℤ) : ShellAct → ℤ
  | .echo _ | .prompt _ => cursor.index S + 1
  | .moveLeft => next - 1
  | _ => next

/-- That cell after a step. -/
def nextCell (w : Watched) : Label → ℤ
  | .shell =>
    match w.sys.shell with
    | act :: _ => actNext S w.sys.cursor w.next act
    | [] => w.next
  | _ => w.next

/-- One step. -/
def watch : Step Watched Label := fun w l =>
  (step S w.sys l).map fun sys => ⟨sys, nextCell S w l⟩

/-- The prompt has been printed. -/
def watchInit (behind : Callback → ℕ → UInt8) : Watched := ⟨init S behind, (bootCursor S).index S⟩

/-- An echoed key is drawn in the cell that follows. -/
def EchoFollows (cursor : Cursor) (next : ℤ) : ShellAct → Prop
  | .echo _ => OnGrid S cursor.pos ∧ cursor.index S = next
  | _ => True

/-- The cursor is `k` cells behind the position of the timer `n`. -/
structure TextAt (cursor : Cursor) (n k : ℕ) : Prop where
  own : OnGrid S (taskPos n)
  onGrid : OnGrid S cursor.pos
  index : cursor.index S = Cursor.index S ⟨taskPos n, cursor.scrolls⟩ + k

/-- Each character of a timer's text is drawn in its cell, counted from the timer's position. -/
def TextFollows (cursor : Cursor) : Task → Prop
  | .print n printed (_ :: _) _ => TextAt S cursor n printed
  | _ => True

/-- A step draws where it should. -/
def Undisturbed (w : Watched) : Label → Prop
  | .shell => ∀ act ∈ w.sys.shell.head?, EchoFollows S w.sys.cursor w.next act
  | .task i => ∀ task ∈ w.sys.tasks[i]?, TextFollows S w.sys.cursor task
  | _ => True

/-! ## The condition -/

/-- The position a task has saved. -/
def Task.saved : Task → Option Vec2u
  | .moveTo _ _ saved | .print _ _ _ saved => some saved
  | _ => none

/-- Whether a timer has moved the cursor and not yet printed its whole text. -/
def Task.printing : Task → Bool
  | .print _ _ (_ :: _) _ => true
  | _ => false

/-- No timer is between saving and restoring the cursor. -/
def NobodyAway (tasks : List Task) : Prop := ∀ task ∈ tasks, task.saved = none

/-- No timer is between moving the cursor and the last character of its text. -/
def NobodyPrinting (tasks : List Task) : Prop := ∀ task ∈ tasks, task.printing = false

/-- The condition on a call of the shell: it writes its line only while no timer is away, takes no
    character back at the start of a row, and moves the cursor otherwise only while no timer is
    about to print. -/
def ShellFree (cursor : Cursor) (tasks : List Task) : ShellAct → Prop
  | .createProcess _ | .eraseLeft => True
  | .echo _ | .prompt _ => NobodyAway tasks
  | .moveLeft => NobodyAway tasks ∧ cursor.pos.x ≠ 0
  | .put _ | .nextLine | .clearScreen | .listProcess _ => NobodyPrinting tasks

/-- The condition on a call of a task: a timer has its position on the screen, its text does not
    scroll, and only timers print. -/
def TaskFree (cursor : Cursor) : Task → Prop
  | .moveTo n _ _ => OnGrid S (taskPos n)
  | .print _ _ (_ :: _) _ => (cursor.putChar S).scrolls = cursor.scrolls
  | .printLine .. => False
  | _ => True

/-- The condition on a step. -/
def LineFree (w : Watched) : Label → Prop
  | .shell => ∀ act ∈ w.sys.shell.head?, ShellFree w.sys.cursor w.sys.tasks act
  | .task i => ∀ task ∈ w.sys.tasks[i]?, TaskFree S w.sys.cursor task
  | _ => True

/-! ## Mutual exclusion -/

/-- Whether a task is between `lock` and `unlock`. -/
def Task.Holds : Task → Prop
  | .getCursor .. | .moveTo .. | .print .. | .unlock _ | .printLine .. | .unlockLine _ => True
  | .start | .sleep _ | .lock .. | .line _ => False

/-- At most one task holds the mutex, and its flag says so. -/
abbrev MutexKept (mutex : Mutex) (tasks : List Task) : Prop :=
  Exclusive Task.Holds (mutex.flag = 0) tasks

variable {S} {s s' : State} {i j : ℕ} {task task' u : Task}

/-- A task that has saved the cursor position holds the mutex. -/
theorem holds_of_saved {pos : Vec2u} (h : task.saved = some pos) : task.Holds := by
  cases task with
  | moveTo n txt saved => trivial
  | print n printed txt saved => trivial
  | _ => cases h

variable {mutex : Mutex} {tasks : List Task}

theorem create_not_holds (function : TaskFunction) : ¬ function.create.Holds := by
  cases function <;> exact id

/-- **A call of a task** keeps mutual exclusion. -/
theorem taskStep_exclusive (h : MutexKept s.mutex s.tasks) (htask : s.tasks[i]? = some task)
    (hs : Tasks.taskStep S s task = some (s', task')) :
    MutexKept s'.mutex (s.tasks.set i task') := by
  rcases taskStep_cases hs with ⟨rfl, rfl, rfl⟩ | ⟨-, rfl, rfl, -⟩ |
    ⟨n, txt, rfl, hflag, rfl, rfl⟩ | ⟨n, txt, rfl, rfl, rfl⟩ | ⟨n, txt, saved, rfl, rfl, rfl⟩ |
    ⟨n, printed, ch, txt, saved, rfl, rfl, rfl⟩ | ⟨n, printed, saved, rfl, rfl, rfl⟩ |
    ⟨n, rfl, rfl, rfl⟩ | ⟨txt, lines, rfl, hflag, rfl, rfl⟩ | ⟨ch, txt, lines, rfl, rfl, rfl⟩ |
    ⟨lines, rfl, rfl, rfl⟩ | ⟨lines, rfl, rfl, rfl⟩
  · exact h.set htask id
  · exact h.held htask held_flag
  · exact h.acquire hflag held_flag _
  · exact h.set htask id
  · exact h.set htask id
  · exact h.set htask id
  · exact h.set htask id
  · exact h.release htask trivial id
  · exact h.acquire hflag held_flag _
  · exact h.set htask id
  · exact h.set htask id
  · exact h.release htask trivial id

/-! ## The line is kept -/

/-- The shell only edits its line, or prints no key before the next prompt is complete. -/
def Shape (shell : List ShellAct) : Prop :=
  (∀ act ∈ shell, act.Edits) ∨
    ((∀ act ∈ shell, ¬ act.Edits) ∧ ∃ pre ch, shell = pre ++ [.prompt ch])

/-- **The invariant**: while the shell edits its line, the cell that follows is the cursor's, or the
    one a timer has saved. -/
structure Kept (S : Screen) (cursor : Cursor) (tasks : List Task) (shell : List ShellAct)
    (next : ℤ) : Prop where
  saved : ∀ (i : ℕ) (task : Task) (pos : Vec2u), tasks[i]? = some task → task.saved = some pos →
    OnGrid S pos
  onGrid : NobodyAway tasks → OnGrid S cursor.pos
  text : ∀ (i n printed : ℕ) (ch : UInt8) (txt : List UInt8) (saved : Vec2u),
    tasks[i]? = some (.print n printed (ch :: txt) saved) → TextAt S cursor n printed
  shape : Shape shell
  line : (∀ act ∈ shell, act.Edits) → NobodyAway tasks → cursor.index S = next
  savedLine : (∀ act ∈ shell, act.Edits) → ∀ (i : ℕ) (task : Task) (pos : Vec2u),
    tasks[i]? = some task → task.saved = some pos → Cursor.index S ⟨pos, cursor.scrolls⟩ = next

variable {cursor cursor' : Cursor} {shell : List ShellAct} {next : ℤ}

/-- While a task holds the mutex, no other one has saved the cursor position. -/
theorem others_saved (hx : MutexKept mutex tasks) (htask : tasks[i]? = some task)
    (hholds : task.Holds) (hj : tasks[j]? = some u) (hne : j ≠ i) : u.saved = none := by
  cases hsaved : u.saved with
  | none => rfl
  | some pos => exact absurd (holds_of_saved hsaved) (hx.others htask hholds hj hne)

/-- A step of a task that neither is nor gets away. -/
theorem Kept.quiet (h : Kept S cursor tasks shell next) (htask : tasks[i]? = some task)
    (hsaved : task.saved = none) (hsaved' : task'.saved = none) :
    Kept S cursor (tasks.set i task') shell next := by
  have hback : NobodyAway (tasks.set i task') → NobodyAway tasks :=
    fun hnobody => forall_of_set htask hsaved hnobody
  have hold : ∀ (j : ℕ) (u : Task) (pos : Vec2u), (tasks.set i task')[j]? = some u →
      u.saved = some pos → tasks[j]? = some u := by
    intro j u pos hj hu
    rcases set_cases hj with ⟨-, rfl⟩ | ⟨-, hj⟩
    · rw [hsaved'] at hu
      cases hu
    · exact hj
  refine ⟨fun j u pos hj hu => h.saved j u pos (hold j u pos hj hu) hu,
    fun hnobody => h.onGrid (hback hnobody),
    fun j n k ch txt saved hj => h.text j n k ch txt saved (hold j _ saved hj rfl), h.shape,
    fun hedits hnobody => h.line hedits (hback hnobody),
    fun hedits j u pos hj hu => h.savedLine hedits j u pos (hold j u pos hj hu) hu⟩

/-- The task that holds the mutex is away with `pos` saved. -/
theorem Kept.away (hx : MutexKept mutex tasks) (htask : tasks[i]? = some task)
    (hholds : task.Holds) {pos : Vec2u} (hpos : task'.saved = some pos) (hshape : Shape shell)
    (hgrid : OnGrid S pos)
    (htext : ∀ n printed ch txt saved, task' = .print n printed (ch :: txt) saved →
      TextAt S cursor n printed)
    (hline : (∀ act ∈ shell, act.Edits) → Cursor.index S ⟨pos, cursor.scrolls⟩ = next) :
    Kept S cursor (tasks.set i task') shell next := by
  have haway : ¬ NobodyAway (tasks.set i task') := by
    intro hnobody
    obtain ⟨hlt, -⟩ := List.getElem?_eq_some_iff.mp htask
    have hnone := hnobody task' (List.mem_set hlt task')
    rw [hpos] at hnone
    cases hnone
  have honly : ∀ (j : ℕ) (u : Task) (p : Vec2u), (tasks.set i task')[j]? = some u →
      u.saved = some p → u = task' ∧ p = pos := by
    intro j u p hj hu
    rcases set_cases hj with ⟨-, rfl⟩ | ⟨hne, hj⟩
    · rw [hpos] at hu
      exact ⟨rfl, (Option.some.inj hu).symm⟩
    · rw [others_saved hx htask hholds hj hne] at hu
      cases hu
  refine ⟨?_, fun hnobody => absurd hnobody haway, ?_,
    hshape, fun _ hnobody => absurd hnobody haway, ?_⟩
  · intro j u p hj hu
    rw [(honly j u p hj hu).2]
    exact hgrid
  · intro j n printed ch txt saved hj
    exact htext n printed ch txt saved (honly j _ saved hj rfl).1.symm
  · intro hedits j u p hj hu
    rw [(honly j u p hj hu).2]
    exact hline hedits

/-- The task that holds the mutex is back. -/
theorem Kept.back (hx : MutexKept mutex tasks) (htask : tasks[i]? = some task)
    (hholds : task.Holds) (hsaved' : task'.saved = none) (hshape : Shape shell)
    (hgrid : OnGrid S cursor.pos)
    (hline : (∀ act ∈ shell, act.Edits) → cursor.index S = next) :
    Kept S cursor (tasks.set i task') shell next := by
  have hnone : ∀ (j : ℕ) (u : Task), (tasks.set i task')[j]? = some u → u.saved = none := by
    intro j u hj
    rcases set_cases hj with ⟨-, rfl⟩ | ⟨hne, hj⟩
    · exact hsaved'
    · exact others_saved hx htask hholds hj hne
  refine ⟨?_, fun _ => hgrid, ?_, hshape,
    fun hedits _ => hline hedits, ?_⟩
  · intro j u p hj hu
    rw [hnone j u hj] at hu
    cases hu
  · intro j n printed ch txt saved hj
    cases hnone j _ hj
  · intro _ j u p hj hu
    rw [hnone j u hj] at hu
    cases hu

/-- **A call of a task** keeps the line. -/
theorem Kept.taskStep (hx : MutexKept s.mutex s.tasks) (h : Kept S s.cursor s.tasks shell next)
    (htask : s.tasks[i]? = some task) (hok : TaskFree S s.cursor task)
    (hs : Tasks.taskStep S s task = some (s', task')) :
    Kept S s'.cursor (s.tasks.set i task') shell next := by
  rcases taskStep_cases hs with ⟨rfl, rfl, rfl⟩ | ⟨-, rfl, rfl, hlock⟩ |
    ⟨n, txt, rfl, hflag, rfl, rfl⟩ | ⟨n, txt, rfl, rfl, rfl⟩ | ⟨n, txt, saved, rfl, rfl, rfl⟩ |
    ⟨n, printed, ch, txt, saved, rfl, rfl, rfl⟩ | ⟨n, printed, saved, rfl, rfl, rfl⟩ |
    ⟨n, rfl, rfl, rfl⟩ | ⟨txt, lines, rfl, hflag, rfl, rfl⟩ | ⟨ch, txt, lines, rfl, rfl, rfl⟩ |
    ⟨lines, rfl, rfl, rfl⟩ | ⟨lines, rfl, rfl, rfl⟩
  · exact h.quiet htask rfl rfl
  · have hsaved : task'.saved = none := by
      rcases hlock with ⟨n, txt, rfl⟩ | ⟨lines, rfl⟩ <;> rfl
    exact h.quiet htask hsaved hsaved
  · exact h.quiet htask rfl rfl
  · -- the cursor is saved: it is at the line, since no other timer is away
    have hnobody : NobodyAway s'.tasks := by
      unfold NobodyAway
      rw [forall_mem_iff]
      intro j u hj
      by_cases hji : j = i
      · subst hji
        rw [Option.some.inj (hj.symm.trans htask)]
        rfl
      · exact others_saved hx htask trivial hj hji
    exact Kept.away hx htask trivial rfl h.shape (h.onGrid hnobody) nofun
      fun hedits => h.line hedits hnobody
  · refine Kept.away hx htask trivial rfl h.shape (h.saved i _ saved htask rfl) ?_
      fun hedits => h.savedLine hedits i _ saved htask rfl
    rintro n' printed' ch' txt' saved' heq
    cases heq
    have hown : OnGrid S (taskPos n) := hok
    exact ⟨hown, hown, (Nat.cast_zero (R := ℤ) ▸ (add_zero _).symm)⟩
  · have hscrolls : (s.cursor.putChar S).scrolls = s.cursor.scrolls := hok
    have htext := h.text i n printed ch txt saved htask
    refine Kept.away hx htask trivial rfl h.shape (h.saved i _ saved htask rfl) ?_ ?_
    · -- the next character follows, in the same lines
      rintro n' printed' ch' txt' saved' heq
      cases heq
      refine ⟨htext.own, Cursor.onGrid_putChar htext.onGrid, ?_⟩
      rw [Cursor.index_putChar htext.onGrid, hscrolls, htext.index, Nat.cast_succ, add_assoc]
    · intro hedits
      rw [hscrolls]
      exact h.savedLine hedits i _ saved htask rfl
  · exact Kept.back hx htask trivial rfl h.shape (h.saved i _ saved htask rfl)
      fun hedits => h.savedLine hedits i _ saved htask rfl
  · exact h.quiet htask rfl rfl
  · exact h.quiet htask rfl rfl
  · exact hok.elim
  · exact hok.elim
  · exact h.quiet htask rfl rfl

/-! ## The shell's calls -/

theorem Shape.tail {act : ShellAct} (h : Shape (act :: shell)) : Shape shell := by
  rcases h with h | ⟨h, pre, ch, heq⟩
  · exact .inl fun a ha => h a (List.mem_cons_of_mem act ha)
  · cases pre with
    | nil =>
      obtain ⟨-, rfl⟩ := List.cons_eq_cons.mp heq
      exact .inl (by simp)
    | cons b pre =>
      obtain ⟨-, rfl⟩ := List.cons_eq_cons.mp heq
      exact .inr ⟨fun a ha => h a (List.mem_cons_of_mem act ha), pre, ch, rfl⟩

/-- A call that edits the line is followed by such calls only. -/
theorem Shape.edits {act : ShellAct} (h : Shape (act :: shell)) (hact : act.Edits) :
    ∀ a ∈ act :: shell, a.Edits := by
  rcases h with h | ⟨h, -⟩
  · exact h
  · exact absurd hact (h act List.mem_cons_self)

/-- After any other call the prompt is still to come. -/
theorem Shape.not_edits {act : ShellAct} (h : Shape (act :: shell)) (hact : ¬ act.Edits)
    (hprompt : ∀ ch, act ≠ .prompt ch) : ¬ ∀ a ∈ shell, a.Edits := by
  rcases h with h | ⟨-, pre, ch, heq⟩
  · exact absurd (h act List.mem_cons_self) hact
  · cases pre with
    | nil =>
      obtain ⟨rfl, -⟩ := List.cons_eq_cons.mp heq
      exact absurd rfl (hprompt ch)
    | cons b pre =>
      obtain ⟨-, rfl⟩ := List.cons_eq_cons.mp heq
      intro hedits
      exact hedits (.prompt ch) (by simp)

/-- The cursor moves in the line while no timer is away. -/
theorem Kept.write (hnobody : NobodyAway tasks) (hshape : Shape shell) (hgrid : OnGrid S cursor.pos)
    (hline : (∀ act ∈ shell, act.Edits) → cursor.index S = next) :
    Kept S cursor tasks shell next := by
  unfold NobodyAway at hnobody
  rw [forall_mem_iff] at hnobody
  refine ⟨?_, fun _ => hgrid, ?_, hshape,
    fun hedits _ => hline hedits, ?_⟩
  · intro j u p hj hu
    rw [hnobody j u hj] at hu
    cases hu
  · intro j n printed ch txt saved hj
    cases hnobody j _ hj
  · intro _ j u p hj hu
    rw [hnobody j u hj] at hu
    cases hu

/-- The cursor moves before the next prompt. -/
theorem Kept.move {act : ShellAct} (h : Kept S cursor tasks (act :: shell) next)
    (hact : ¬ act.Edits) (hprompt : ∀ ch, act ≠ .prompt ch) (hprinting : NobodyPrinting tasks)
    (hgrid : OnGrid S cursor.pos → OnGrid S cursor'.pos) : Kept S cursor' tasks shell next := by
  have hedits := h.shape.not_edits hact hprompt
  refine ⟨h.saved, fun hnobody => hgrid (h.onGrid hnobody), ?_,
    h.shape.tail, fun hall => absurd hall hedits, fun hall => absurd hall hedits⟩
  intro j n printed ch txt saved hj
  have htrue := hprinting _ (List.mem_of_getElem? hj)
  cases htrue

/-- A new task is not away. -/
theorem Kept.create {act : ShellAct} (h : Kept S cursor tasks (act :: shell) next)
    (hact : ¬ act.Edits) (hprompt : ∀ ch, act ≠ .prompt ch) (hnew : task.saved = none) :
    Kept S cursor (tasks ++ [task]) shell next := by
  have hedits := h.shape.not_edits hact hprompt
  have hold : ∀ (j : ℕ) (u : Task) (pos : Vec2u), (tasks ++ [task])[j]? = some u →
      u.saved = some pos → tasks[j]? = some u := by
    intro j u pos hj hu
    rcases append_cases hj with hj | rfl
    · exact hj
    · rw [hnew] at hu
      cases hu
  exact ⟨fun j u pos hj hu => h.saved j u pos (hold j u pos hj hu) hu,
    fun hnobody => h.onGrid fun u hu => hnobody u (List.mem_append_left _ hu),
    fun j n k ch txt saved hj => h.text j n k ch txt saved (hold j _ saved hj rfl),
    h.shape.tail, fun hall => absurd hall hedits, fun hall => absurd hall hedits⟩

/-- Taking a character back, not at the start of a row. -/
theorem Kept.moveLeft (h : Kept S cursor tasks (.moveLeft :: shell) next)
    (hok : ShellFree cursor tasks .moveLeft) :
    Kept S (cursor.moveCursor ⟨cursor.pos.x - 1, cursor.pos.y⟩) tasks shell (next - 1) := by
  obtain ⟨hnobody, hx⟩ := hok
  have hgrid := h.onGrid hnobody
  have hline := h.line (h.shape.edits trivial) hnobody
  refine Kept.write hnobody h.shape.tail ⟨?_, hgrid.y⟩ fun _ => ?_
  · exact Nat.lt_of_le_of_lt (Nat.sub_le _ _) hgrid.x
  · simp only [Cursor.index, Cursor.moveCursor] at hline ⊢
    omega

theorem shellStep_moveLeft (S : Screen) (s : State) :
    Tasks.shellStep S s .moveLeft = { s with cursor := s.cursor.moveCursor (left s.cursor) } := rfl

theorem shellStep_frame (S : Screen) (s : State) (act : ShellAct) :
    (Tasks.shellStep S s act).mutex = s.mutex ∧ (Tasks.shellStep S s act).shell = s.shell := by
  cases act with
  | moveLeft =>
    rw [shellStep_moveLeft]
    exact ⟨rfl, rfl⟩
  | _ => exact ⟨rfl, rfl⟩

/-- A call of the shell keeps mutual exclusion. -/
theorem shellStep_exclusive (h : MutexKept mutex s.tasks) (act : ShellAct) :
    MutexKept mutex (Tasks.shellStep S s act).tasks := by
  cases act with
  | createProcess function => exact h.append (create_not_holds function)
  | moveLeft =>
    rw [shellStep_moveLeft]
    exact h
  | _ => exact h

/-- **A call of the shell** keeps the line. -/
theorem Kept.shellStep {act : ShellAct} (h : Kept S s.cursor s.tasks (act :: shell) next)
    (hok : ShellFree s.cursor s.tasks act) :
    Kept S (Tasks.shellStep S s act).cursor (Tasks.shellStep S s act).tasks shell
      (actNext S s.cursor next act) := by
  cases act with
  | echo ch =>
    have hgrid := h.onGrid hok
    exact Kept.write hok h.shape.tail (Cursor.onGrid_putChar hgrid)
      fun _ => Cursor.index_putChar hgrid
  | prompt ch =>
    have hgrid := h.onGrid hok
    exact Kept.write hok h.shape.tail (Cursor.onGrid_putChar hgrid)
      fun _ => Cursor.index_putChar hgrid
  | put ch => exact h.move id nofun hok Cursor.onGrid_putChar
  | nextLine => exact h.move id nofun hok fun hgrid => Cursor.onGrid_nextLine hgrid.y
  | clearScreen => exact h.move id nofun hok fun _ => ⟨getWidth_pos S, getHeight_pos S⟩
  | eraseLeft =>
    have hedits := h.shape.edits trivial
    exact ⟨h.saved, h.onGrid, h.text, h.shape.tail, fun _ => h.line hedits,
      fun _ => h.savedLine hedits⟩
  | moveLeft =>
    have hkept := h.moveLeft hok
    rw [← left_eq (h.onGrid hok.1) hok.2] at hkept
    rw [shellStep_moveLeft]
    exact hkept
  | createProcess function =>
    refine h.create id nofun ?_
    cases function <;> rfl
  | listProcess rows => exact h.move id nofun hok fun hgrid => onGrid_listProcess rows hgrid

/-- What the shell is to do for a key has the right shape. -/
theorem shape_of_keyActs {index index' : ℕ} (h : KeyActs index index' shell) : Shape shell := by
  cases h with
  | echo ch => exact .inl (List.forall_mem_singleton.mpr trivial)
  | back =>
    exact .inl (List.forall_mem_cons.mpr ⟨trivial, List.forall_mem_singleton.mpr trivial⟩)
  | nothing => exact .inl (List.forall_mem_nil _)
  | enter pre hpre =>
    refine .inr ⟨?_, pre ++ [.nextLine, .prompt 62], 32, by simp⟩
    intro act hact
    rcases List.mem_append.mp hact with hact | hact
    · exact hpre act hact
    · simp only [List.mem_cons, List.not_mem_nil, or_false] at hact
      rcases hact with rfl | rfl | rfl <;> exact id

/-! ## Every run -/

/-- The invariant of the watched system. -/
structure Inv (S : Screen) (w : Watched) : Prop where
  exclusive : MutexKept w.sys.mutex w.sys.tasks
  kept : Kept S w.sys.cursor w.sys.tasks w.sys.shell w.next

theorem Inv.init (S : Screen) (behind : Callback → ℕ → UInt8) : Inv S (watchInit S behind) := by
  refine ⟨⟨?_, ?_⟩, ?_⟩
  · intro _ i task htask
    cases htask
  · intro i j task _ htask
    cases htask
  · exact Kept.write (List.forall_mem_nil _) (.inl (List.forall_mem_nil _))
      (onGrid_bootCursor S) fun _ => rfl

/-- **One step under the condition** keeps the invariant. -/
theorem Inv.step {w w' : Watched} {l : Label} (h : Inv S w) (hok : LineFree S w l)
    (hs : watch S w l = some w') : Inv S w' := by
  obtain ⟨sys, hsys, rfl⟩ := Option.map_eq_some_iff.mp hs
  clear hs
  rcases step_cases hsys with ⟨event, out, statics, calls, rfl, hnil, hq, rfl⟩ |
    ⟨act, shell, rfl, hshell, rfl⟩ | ⟨i, task, t, task', rfl, htask, ht, rfl⟩ |
    ⟨i, n, digits, rfl, htask, rfl⟩
  · have hempty : ∀ act ∈ w.sys.shell, act.Edits := by simp [hnil]
    exact ⟨h.exclusive, h.kept.saved, h.kept.onGrid, h.kept.text,
      shape_of_keyActs (keyActs hq out _), fun _ => h.kept.line hempty, fun _ => h.kept.savedLine hempty⟩
  · have hkept := h.kept
    rw [hshell] at hkept
    have hfree : ShellFree w.sys.cursor w.sys.tasks act := hok act (by simp [hshell])
    obtain ⟨hmutex, htail⟩ := shellStep_frame S { w.sys with shell := shell } act
    have hstep := Kept.shellStep (s := { w.sys with shell := shell }) hkept hfree
    refine ⟨?_, ?_⟩
    · rw [hmutex]
      exact shellStep_exclusive (s := { w.sys with shell := shell }) h.exclusive act
    · simp only [nextCell, hshell, htail]
      exact hstep
  · obtain ⟨-, hshell⟩ := taskStep_frame ht
    have hfree : TaskFree S w.sys.cursor task := hok task htask
    have hexclusive : MutexKept t.mutex (w.sys.tasks.set i task') :=
      taskStep_exclusive h.exclusive htask ht
    refine ⟨hexclusive, ?_⟩
    simp only [hshell]
    exact h.kept.taskStep h.exclusive htask hfree ht
  · exact ⟨h.exclusive.set htask id, h.kept.quiet htask rfl rfl⟩

/-- **One step under the condition** draws where it should. -/
theorem Inv.undisturbed {w : Watched} {l : Label} (h : Inv S w) (hok : LineFree S w l) :
    Undisturbed S w l := by
  cases l with
  | key event out => trivial
  | round i digits => trivial
  | shell =>
    intro act hact
    obtain ⟨shell, hshell⟩ := List.head?_eq_some_iff.mp hact
    cases act with
    | echo ch =>
      have hkept := h.kept
      rw [hshell] at hkept
      have hnobody : NobodyAway w.sys.tasks := hok (.echo ch) hact
      exact ⟨hkept.onGrid hnobody, hkept.line (hkept.shape.edits trivial) hnobody⟩
    | _ => trivial
  | task i =>
    intro task htask
    cases task with
    | print n printed txt saved =>
      cases txt with
      | nil => trivial
      | cons ch txt => exact h.kept.text i n printed ch txt saved htask
    | _ => trivial

/-! ## The conditions on given runs -/

instance (pos : Vec2u) : Decidable (OnGrid S pos) :=
  decidable_of_iff (pos.x < Impl.getWidth S ∧ pos.y < Impl.getHeight S)
    ⟨fun h => ⟨h.1, h.2⟩, fun h => ⟨h.x, h.y⟩⟩

instance : ∀ act, Decidable (EchoFollows S cursor next act)
  | .echo _ => inferInstanceAs (Decidable (OnGrid S cursor.pos ∧ cursor.index S = next))
  | .prompt _ | .put _ | .nextLine | .clearScreen | .eraseLeft | .moveLeft | .createProcess _
  | .listProcess _ => isTrue trivial

instance (n k : ℕ) : Decidable (TextAt S cursor n k) :=
  decidable_of_iff (OnGrid S (taskPos n) ∧ OnGrid S cursor.pos ∧
      cursor.index S = Cursor.index S ⟨taskPos n, cursor.scrolls⟩ + k)
    ⟨fun h => ⟨h.1, h.2.1, h.2.2⟩, fun h => ⟨h.own, h.onGrid, h.index⟩⟩

instance : ∀ task, Decidable (TextFollows S cursor task)
  | .print n printed (_ :: _) _ => inferInstanceAs (Decidable (TextAt S cursor n printed))
  | .print _ _ [] _ | .start | .sleep _ | .lock .. | .getCursor .. | .moveTo .. | .unlock _
  | .line _ | .printLine .. | .unlockLine _ => isTrue trivial

instance (w : Watched) : ∀ l, Decidable (Undisturbed S w l)
  | .shell => inferInstanceAs
    (Decidable (∀ act ∈ w.sys.shell.head?, EchoFollows S w.sys.cursor w.next act))
  | .task i => inferInstanceAs
    (Decidable (∀ task ∈ w.sys.tasks[i]?, TextFollows S w.sys.cursor task))
  | .key .. | .round .. => isTrue trivial

instance (tasks : List Task) : Decidable (NobodyAway tasks) :=
  inferInstanceAs (Decidable (∀ task ∈ tasks, task.saved = none))

instance (tasks : List Task) : Decidable (NobodyPrinting tasks) :=
  inferInstanceAs (Decidable (∀ task ∈ tasks, task.printing = false))

instance : ∀ act, Decidable (ShellFree cursor tasks act)
  | .createProcess _ | .eraseLeft => isTrue trivial
  | .echo _ | .prompt _ => inferInstanceAs (Decidable (NobodyAway tasks))
  | .moveLeft => inferInstanceAs (Decidable (NobodyAway tasks ∧ cursor.pos.x ≠ 0))
  | .put _ | .nextLine | .clearScreen | .listProcess _ =>
    inferInstanceAs (Decidable (NobodyPrinting tasks))

instance : ∀ task, Decidable (TaskFree S cursor task)
  | .moveTo n _ _ => inferInstanceAs (Decidable (OnGrid S (taskPos n)))
  | .print _ _ (_ :: _) _ =>
    inferInstanceAs (Decidable ((cursor.putChar S).scrolls = cursor.scrolls))
  | .printLine .. => isFalse id
  | .print _ _ [] _ | .start | .sleep _ | .lock .. | .getCursor .. | .unlock _ | .line _
  | .unlockLine _ => isTrue trivial

instance (w : Watched) : ∀ l, Decidable (LineFree S w l)
  | .shell => inferInstanceAs
    (Decidable (∀ act ∈ w.sys.shell.head?, ShellFree w.sys.cursor w.sys.tasks act))
  | .task i => inferInstanceAs
    (Decidable (∀ task ∈ w.sys.tasks[i]?, TaskFree S w.sys.cursor task))
  | .key .. | .round .. => isTrue trivial

/-! ## Undisturbed runs -/

/-- **Timer tasks do not disturb the shell's line** in a run whose steps all meet the condition:
    every key is echoed in the cell that follows, and every timer's text is drawn from its position
    on. -/
theorem shell_line_undisturbed (S : Screen)
    (behind : Callback → ℕ → UInt8) {ls : List Label}
    (hok : EveryStep (watch S) (LineFree S) (watchInit S behind) ls) :
    EveryStep (watch S) (Undisturbed S) (watchInit S behind) ls :=
  everyStep_of (fun _ _ _ h hl hs => h.step hl hs) (fun _ _ h hl => h.undisturbed hl)
    (Inv.init S behind) hok

/-- A key is typed after the timer is back. -/
theorem shell_line_undisturbed_example :
    EveryStep (watch screen800) (Undisturbed screen800) (watchInit screen800 fun _ _ => 0)
      (timerAway ++ List.replicate 7 (.task 0) ++ typed 0x1E 1) :=
  shell_line_undisturbed screen800 (fun _ _ => 0) (by decide +kernel)

/-- A key is typed while the timer is away, and another one when it is back. -/
def typedWhileAway : List Label :=
  timerAway ++ typed 0x1E 1 ++ List.replicate 7 (.task 0) ++ typed 0x1E 1

/-- The second key is echoed over the first one. -/
theorem timer_disturbs_line :
    (run (watch screen800) (watchInit screen800 fun _ _ => 0) typedWhileAway).isSome = true ∧
      ¬ EveryStep (watch screen800) (Undisturbed screen800) (watchInit screen800 fun _ _ => 0)
        typedWhileAway := by
  decide +kernel

end HryOS.Tasks
