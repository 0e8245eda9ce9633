import HryOS.Lib.Exclusion
import HryOS.Terminal.Preempted

/-!
# Positions on the screen

The shell does not take `terminal_mutex`, under which the tasks use the cursor.

* `Safe` — from a cursor position the shell's calls stay on the screen, and leave the cursor behind
  the input line.
* `Kept` — the invariant: while no task uses the cursor it is safe, else the position is that the
  task will leave.
* `positions_in_range` — every run in which the shell keeps out of the way of the tasks passes
  positions on the screen only.
-/

set_option autoImplicit false

namespace HryOS.Preempted

open ByteMemory Transition Terminal CommandLine Resumable Exclusion
open Keyboard (enter backspace)
open Tasks (ShellAct TaskFunction Callback Label KeyActs keyActs taskPos shellActs registrations
  bootCursor bytes onGrid_bootCursor onGrid_listProcess listProcess_inRange inRange_moveCursor_iff
  inRange_putCharAt_iff taskPos_x_lt held_flag screen800)

variable (S : Screen)

/-! ## The invariant -/

/-- From `pos` the calls pass positions on the screen, and leave the cursor behind the `index`
    characters of the line and a prompt. -/
def Safe (index : ℕ) : List ShellAct → Vec2u → Prop
  | [], pos => OnGrid S pos ∧ index ≤ pos.x ∧ pos.x ≤ index + 2
  | act :: acts, pos => OnGrid S pos ∧ (∀ op ∈ (actProg S act).events pos, op.InRange S) ∧
      Safe index acts ((actProg S act).finish pos)

/-- The calls of Enter, or the last ones of them. -/
def Tail (acts : List ShellAct) : Prop :=
  ∃ pre, (∀ act ∈ pre, ¬ act.Edits) ∧ acts <:+ pre ++ [.nextLine, .prompt 62, .prompt 32]

/-- A task that will be at `stage` with the cursor at `pos` leaves the cursor to the shell in a safe
    position. -/
def Leaves (index : ℕ) (acts : List ShellAct) (pos : Vec2u) : Stage → Prop
  | .readX _ _ y => y = pos.y ∧ Safe S index acts pos
  | .moveTo _ _ saved | .print _ _ saved => OnGrid S pos ∧ Safe S index acts saved
  | .printLine .. => OnGrid S pos ∧ ∀ pos', OnGrid S pos' → pos'.x = 0 → Safe S index acts pos'
  | _ => Safe S index acts pos

/-- A task ends its call with positions on the screen, and leaves the cursor so. -/
structure Away (cursor : Vec2u) (index : ℕ) (acts : List ShellAct) (p : Process) : Prop where
  inRange : ∀ op ∈ p.rest.events cursor, op.InRange S
  leaves : Leaves S index acts (p.rest.finish cursor) p.stage

/-- **The invariant** of the cursor. -/
structure Kept (cursor : Vec2u) (index : ℕ) (shell : Shell) (tasks : List Process) : Prop where
  shape : (∀ act ∈ shell.acts, act.Edits) ∨ Tail shell.acts
  idle : NobodyUses tasks → (∀ op ∈ shell.rest.events cursor, op.InRange S) ∧
    Safe S index shell.acts (shell.rest.finish cursor)
  away : ∀ (i : ℕ) (p : Process), tasks[i]? = some p → p.Uses →
    shell.rest = .done ∧ Away S cursor index shell.acts p

/-- Whether a task is between `lock` and `unlock`. -/
def Stage.holds : Stage → Bool
  | .start | .count _ | .sleep _ | .lock .. | .line _ => false
  | _ => true

/-- A task holds the mutex. -/
def Process.Holds (p : Process) : Prop := p.rest.isDone = false ∨ p.stage.holds = true

/-- The row of a timer is on the screen. -/
def Stage.Fits : Stage → Prop
  | .count n | .sleep n | .lock n _ | .readY n _ | .readX n _ _ | .moveTo n _ _ | .print n _ _
  | .unlock n => u32 n / 7 < Impl.getHeight S
  | .start | .line _ | .locked .. | .printLine .. | .unlockLine _ => True

/-- The invariant. -/
structure Inv (s : State) : Prop where
  exclusive : Exclusive Process.Holds (s.mutex.flag = 0) s.tasks
  fits : ∀ p ∈ s.tasks, p.stage.Fits S
  kept : Kept S s.cursor s.statics.inputBufferIndex s.shell s.tasks

variable {S} {index index' : ℕ} {acts acts' : List ShellAct} {act : ShellAct} {pos cursor : Vec2u}

/-! ## Calls from a position on the screen -/

theorem Safe.onGrid (h : Safe S index acts pos) : OnGrid S pos := by
  cases acts with
  | nil => exact h.1
  | cons act acts => exact h.1

theorem putChar_inRange (h : OnGrid S pos) (ch : UInt8) :
    ∀ op ∈ (putChar S ch).events pos, op.InRange S := by
  rw [putChar_events]
  exact List.forall_mem_singleton.mpr (inRange_putCharAt_iff.mpr h)

theorem nextLine_inRange : ∀ op ∈ (nextLine S).events pos, op.InRange S := by
  rw [nextLine_events]
  exact List.forall_mem_nil _

theorem moveCursor_inRange {p : Vec2u} (h : OnGrid S p) :
    ∀ op ∈ (moveCursor p).events pos, op.InRange S := by
  rw [moveCursor_events]
  exact List.forall_mem_singleton.mpr (inRange_moveCursor_iff.mpr h)

theorem onGrid_putChar (h : OnGrid S pos) (ch : UInt8) : OnGrid S ((putChar S ch).finish pos) := by
  rw [putChar_finish ⟨pos, 0⟩]
  exact Cursor.onGrid_putChar h

/-- The next line begins on the screen. -/
theorem nextLine_start (h : OnGrid S pos) :
    OnGrid S ((nextLine S).finish pos) ∧ ((nextLine S).finish pos).x = 0 := by
  rw [nextLine_finish ⟨pos, 0⟩]
  refine ⟨Cursor.onGrid_nextLine h.y, ?_⟩
  unfold Cursor.nextLine
  simp only
  split <;> rfl

/-- A character that is not the last one of its row. -/
theorem putChar_finish_of_lt (h : pos.x + 1 < Impl.getWidth S) (ch : UInt8) :
    (putChar S ch).finish pos = ⟨pos.x + 1, pos.y⟩ := by
  have hlt := getWidth_lt S
  have hsucc : u32 (pos.x + 1) = pos.x + 1 := u32_of_lt (by omega)
  rw [putChar_finish ⟨pos, 0⟩]
  unfold Cursor.putChar
  simp only [hsucc]
  rw [if_neg (by omega)]

/-- A call that does not edit the line stays on the screen, from any position there. -/
theorem actProg_onGrid (hw : 100 ≤ Impl.getWidth S) (hact : ¬ act.Edits) (h : OnGrid S pos) :
    (∀ op ∈ (actProg S act).events pos, op.InRange S) ∧
      OnGrid S ((actProg S act).finish pos) := by
  cases act with
  | prompt ch => exact ⟨putChar_inRange h ch, onGrid_putChar h ch⟩
  | put ch => exact ⟨putChar_inRange h ch, onGrid_putChar h ch⟩
  | nextLine =>
    exact ⟨nextLine_inRange, (nextLine_start h).1⟩
  | clearScreen =>
    have hzero : OnGrid S ⟨0, 0⟩ := ⟨getWidth_pos S, getHeight_pos S⟩
    exact ⟨moveCursor_inRange hzero, hzero⟩
  | createProcess function => exact ⟨List.forall_mem_nil _, h⟩
  | listProcess rows =>
    refine ⟨?_, onGrid_listProcess rows h⟩
    intro op hop
    exact listProcess_inRange (c := ⟨pos, 0⟩) hw rows h op (by simpa [actProg, Prog.events] using hop)
  | echo ch => exact absurd trivial hact
  | eraseLeft => exact absurd trivial hact
  | moveLeft => exact absurd trivial hact

/-! ## The shell's calls -/

/-- A character in the row of the line. -/
theorem safe_putChar {ch : UInt8} (hact : actProg S act = putChar S ch) (h : OnGrid S pos)
    (hx : pos.x + 1 < Impl.getWidth S) (hrest : Safe S index acts ⟨pos.x + 1, pos.y⟩) :
    Safe S index (act :: acts) pos := by
  refine ⟨h, ?_, ?_⟩
  · rw [hact]
    exact putChar_inRange h ch
  · rw [hact, putChar_finish_of_lt hx]
    exact hrest

/-- The last character of the prompt. -/
theorem safe_prompt (hw : 100 ≤ Impl.getWidth S) (h : OnGrid S pos) (hx : pos.x ≤ 1)
    (ch : UInt8) : Safe S 0 [.prompt ch] pos :=
  safe_putChar rfl h (by omega) ⟨⟨by simp only; omega, h.y⟩, Nat.zero_le _, by simp only; omega⟩

/-- The prompt at the start of a row. -/
theorem safe_prompts (hw : 100 ≤ Impl.getWidth S) (h : OnGrid S pos) (hx : pos.x = 0) :
    Safe S 0 [.prompt 62, .prompt 32] pos := by
  have hgrid : OnGrid S ⟨pos.x + 1, pos.y⟩ := ⟨by simp only; omega, h.y⟩
  exact safe_putChar rfl h (by omega) (safe_prompt hw hgrid (by simp only; omega) 32)

/-- The calls of Enter, from any position on the screen. -/
theorem safe_enter (hw : 100 ≤ Impl.getWidth S) (pre : List ShellAct)
    (hpre : ∀ act ∈ pre, ¬ act.Edits) (h : OnGrid S pos) :
    Safe S 0 (pre ++ [.nextLine, .prompt 62, .prompt 32]) pos := by
  induction pre generalizing pos with
  | nil =>
    obtain ⟨hgrid, hx⟩ := nextLine_start h
    exact ⟨h, (actProg_onGrid hw id h).1, safe_prompts hw hgrid hx⟩
  | cons act pre ih =>
    obtain ⟨hact, hpre⟩ := List.forall_mem_cons.mp hpre
    obtain ⟨hevents, hgrid⟩ := actProg_onGrid hw hact h
    exact ⟨h, hevents, ih hpre hgrid⟩

/-- The last calls of Enter, from the start of a row. -/
theorem safe_tail (hw : 100 ≤ Impl.getWidth S) (hacts : Tail acts) (h : OnGrid S pos)
    (hx : pos.x = 0) : Safe S 0 acts pos := by
  obtain ⟨pre, hpre, hsuffix⟩ := hacts
  induction pre with
  | nil =>
    simp only [List.nil_append, List.suffix_cons_iff, List.suffix_nil] at hsuffix
    rcases hsuffix with rfl | rfl | rfl | rfl
    · exact safe_enter hw [] (List.forall_mem_nil _) h
    · exact safe_prompts hw h hx
    · exact safe_prompt hw h (by omega) 32
    · exact ⟨h, Nat.zero_le _, by omega⟩
  | cons act pre ih =>
    rw [List.cons_append, List.suffix_cons_iff] at hsuffix
    rcases hsuffix with rfl | hsuffix
    · exact safe_enter hw (act :: pre) hpre h
    · exact ih (List.forall_mem_cons.mp hpre).2 hsuffix

/-- **A key**: its calls are safe behind the line. -/
theorem safe_key (hw : 100 ≤ Impl.getWidth S) (hkey : KeyActs index index' acts)
    (h : Safe S index [] pos) : Safe S index' acts pos := by
  obtain ⟨hgrid, hlow, hhigh⟩ := h
  have hx := hgrid.x
  cases hkey with
  | echo ch hroom hindex =>
    have hroom : index < 32 := hroom
    exact safe_putChar rfl hgrid (by omega)
      ⟨⟨by simp only; omega, hgrid.y⟩, by simp only; omega, by simp only; omega⟩
  | back hindex =>
    have hlt := getWidth_lt S
    have hleft : u32 (pos.x + 4294967295) = pos.x - 1 := by
      unfold u32
      omega
    have hgrid' : OnGrid S ⟨u32 (pos.x + 4294967295), pos.y⟩ := by
      rw [hleft]
      exact ⟨by simp only; omega, hgrid.y⟩
    refine ⟨hgrid, List.forall_mem_singleton.mpr (inRange_putCharAt_iff.mpr hgrid'), hgrid,
      List.forall_mem_singleton.mpr (inRange_moveCursor_iff.mpr hgrid'), hgrid', ?_, ?_⟩
    · show index' ≤ u32 (pos.x + 4294967295)
      omega
    · show u32 (pos.x + 4294967295) ≤ index' + 2
      omega
  | nothing hindex =>
    rw [hindex]
    exact ⟨hgrid, hlow, hhigh⟩
  | enter pre hpre hindex =>
    rw [hindex]
    exact safe_enter hw pre hpre hgrid

theorem shape_of_keyActs (hkey : KeyActs index index' acts) :
    (∀ act ∈ acts, act.Edits) ∨ Tail acts := by
  cases hkey with
  | echo ch => exact .inl (List.forall_mem_singleton.mpr trivial)
  | back =>
    exact .inl (List.forall_mem_cons.mpr ⟨trivial, List.forall_mem_singleton.mpr trivial⟩)
  | nothing => exact .inl (List.forall_mem_nil _)
  | enter pre hpre => exact .inr ⟨pre, hpre, List.suffix_rfl⟩

theorem shape_tail (h : (∀ a ∈ act :: acts, a.Edits) ∨ Tail (act :: acts)) :
    (∀ a ∈ acts, a.Edits) ∨ Tail acts := by
  rcases h with h | ⟨pre, hpre, hsuffix⟩
  · exact .inl (List.forall_mem_cons.mp h).2
  · exact .inr ⟨pre, hpre, (List.suffix_cons act acts).trans hsuffix⟩

/-- Where no character is to be echoed or taken back, the start of a row is safe. -/
theorem safe_of_not_edits (hw : 100 ≤ Impl.getWidth S)
    (hshape : (∀ act ∈ acts, act.Edits) ∨ Tail acts) (hedits : ∀ act ∈ acts, ¬ act.Edits)
    (h : OnGrid S pos) (hx : pos.x = 0) : Safe S 0 acts pos := by
  rcases hshape with hall | htail
  · have hnil : acts = [] :=
      List.eq_nil_iff_forall_not_mem.mpr fun act hact => hedits act hact (hall act hact)
    rw [hnil]
    exact ⟨h, Nat.zero_le _, by omega⟩
  · exact safe_tail hw htail h hx

/-! ## What a step does to the cursor -/

variable {shell : Shell} {tasks : List Process} {p p' : Process} {i : ℕ} {isFree : Prop}

theorem Leaves.mono {stage : Stage} (hsafe : ∀ pos, Safe S index acts pos → Safe S index' acts' pos)
    (h : Leaves S index acts pos stage) : Leaves S index' acts' pos stage := by
  cases stage with
  | readX n txt y => exact ⟨h.1, hsafe _ h.2⟩
  | moveTo n txt saved => exact ⟨h.1, hsafe _ h.2⟩
  | print n txt saved => exact ⟨h.1, hsafe _ h.2⟩
  | printLine txt lines => exact ⟨h.1, fun pos' hgrid hx => hsafe _ (h.2 pos' hgrid hx)⟩
  | _ => exact hsafe _ h

/-- The shell goes on between two calls, where the tasks are as far as they were. -/
theorem Kept.turn (h : Kept S cursor index ⟨acts, .done⟩ tasks)
    (hshape : (∀ act ∈ acts', act.Edits) ∨ Tail acts')
    (hsafe : ∀ pos, Safe S index acts pos → Safe S index' acts' pos) :
    Kept S cursor index' ⟨acts', .done⟩ tasks := by
  refine ⟨hshape, ?_, ?_⟩
  · intro hnobody
    exact ⟨List.forall_mem_nil _, hsafe _ (h.idle hnobody).2⟩
  · intro i p hp huses
    obtain ⟨-, haway⟩ := h.away i p hp huses
    exact ⟨rfl, haway.inRange, haway.leaves.mono hsafe⟩

/-- The shell goes on in a call while no task uses the cursor. -/
theorem Kept.call (hnobody : NobodyUses tasks)
    (hshape : (∀ act ∈ shell.acts, act.Edits) ∨ Tail shell.acts)
    (hevents : ∀ op ∈ shell.rest.events cursor, op.InRange S)
    (hsafe : Safe S index shell.acts (shell.rest.finish cursor)) :
    Kept S cursor index shell tasks := by
  refine ⟨hshape, fun _ => ⟨hevents, hsafe⟩, ?_⟩
  intro i p hp huses
  exact absurd huses (hnobody p (List.mem_of_getElem? hp))

/-- A new task does not use the cursor. -/
theorem Kept.create (h : Kept S cursor index shell tasks) (hnew : ¬ p.Uses) :
    Kept S cursor index shell (tasks ++ [p]) := by
  refine ⟨h.shape, fun hnobody => h.idle fun q hq => hnobody q (List.mem_append_left _ hq), ?_⟩
  intro j q hq huses
  rcases append_cases hq with hq | rfl
  · exact h.away j q hq huses
  · exact absurd huses hnew

/-- A task that neither uses the cursor nor begins to. -/
theorem Kept.quiet (h : Kept S cursor index shell tasks) (hp : tasks[i]? = some p)
    (hquiet : ¬ p.Uses) (hquiet' : ¬ p'.Uses) : Kept S cursor index shell (tasks.set i p') := by
  refine ⟨h.shape, fun hnobody => h.idle (forall_of_set hp hquiet hnobody), ?_⟩
  intro j q hq huses
  rcases set_cases hq with ⟨-, rfl⟩ | ⟨-, hq⟩
  · exact absurd huses hquiet'
  · exact h.away j q hq huses

theorem holds_of_uses (h : p.Uses) : p.Holds := by
  obtain ⟨stage, rest⟩ := p
  rcases h with h | h
  · exact .inl h
  · refine .inr ?_
    cases stage with
    | readX n txt y => rfl
    | moveTo n txt saved => rfl
    | print n txt saved => rfl
    | printLine txt lines => rfl
    | _ => cases h

/-- The task that holds the mutex uses the cursor, and will leave it in a safe position. -/
theorem Kept.held (hx : Exclusive Process.Holds isFree tasks) (hp : tasks[i]? = some p)
    (hholds : p.Holds) (hshape : (∀ act ∈ shell.acts, act.Edits) ∨ Tail shell.acts)
    (hrest : shell.rest = .done) (haway : Away S cursor index shell.acts p') :
    Kept S cursor index shell (tasks.set i p') := by
  refine ⟨hshape, ?_, ?_⟩
  · intro hnobody
    obtain ⟨hlt, -⟩ := List.getElem?_eq_some_iff.mp hp
    have hnot := hnobody p' (List.mem_set hlt p')
    obtain ⟨stage, rest⟩ := p'
    obtain ⟨hdone, hstage⟩ := not_or.mp hnot
    obtain rfl := Prog.eq_done (Bool.not_eq_false _ ▸ hdone)
    rw [hrest]
    refine ⟨List.forall_mem_nil _, ?_⟩
    have hleaves := haway.leaves
    cases stage with
    | readX n txt y => exact absurd rfl hstage
    | moveTo n txt saved => exact absurd rfl hstage
    | print n txt saved => exact absurd rfl hstage
    | printLine txt lines => exact absurd rfl hstage
    | _ => exact hleaves
  · intro j q hq huses
    rcases set_cases hq with ⟨-, rfl⟩ | ⟨hne, hq⟩
    · exact ⟨hrest, haway⟩
    · exact absurd (holds_of_uses huses) (hx.others hp hholds hq hne)

/-- The task that holds the mutex is about to use the cursor: no one else does. -/
theorem nobodyUses_of_holds (hx : Exclusive Process.Holds isFree tasks) (hp : tasks[i]? = some p)
    (hholds : p.Holds) (hquiet : ¬ p.Uses) : NobodyUses tasks := by
  unfold NobodyUses
  rw [forall_mem_iff]
  intro j q hq
  by_cases hji : j = i
  · subst hji
    rw [Option.some.inj (hq.symm.trans hp)]
    exact hquiet
  · exact fun huses => hx.others hp hholds hq hji (holds_of_uses huses)

/-! ## Every run -/

variable {s s' t : State} {l : Label} {stage : Stage}

theorem fits_set (h : ∀ q ∈ tasks, q.stage.Fits S) (hp' : p'.stage.Fits S) :
    ∀ q ∈ tasks.set i p', q.stage.Fits S := by
  intro q hq
  rcases List.mem_or_eq_of_mem_set hq with hq | rfl
  · exact h q hq
  · exact hp'

theorem not_uses (h : stage.away = false) : ¬ Process.Uses ⟨stage, .done⟩ := by
  rintro (hrest | hstage)
  · cases hrest
  · rw [h] at hstage
    cases hstage

theorem not_holds (h : stage.holds = false) : ¬ Process.Holds ⟨stage, .done⟩ := by
  rintro (hrest | hstage)
  · cases hrest
  · rw [h] at hstage
    cases hstage

/-- The task that holds the mutex goes on with the cursor. -/
theorem Inv.held (h : Inv S s) (hp : s.tasks[i]? = some p) (hholds : p.Holds)
    (hfits : p'.stage.Fits S) (hrest : s.shell.rest = .done)
    (haway : Away S s.cursor s.statics.inputBufferIndex s.shell.acts p') :
    Inv S { s with tasks := s.tasks.set i p' } :=
  ⟨h.exclusive.set hp fun _ => hholds, fits_set h.fits hfits,
    Kept.held h.exclusive hp hholds h.kept.shape hrest haway⟩

/-- **A task between two terminal calls** keeps the invariant. -/
theorem Inv.taskBegin (h : Inv S s) (hw : 100 ≤ Impl.getWidth S)
    (hp : s.tasks[i]? = some ⟨stage, .done⟩) (hfree : StageFree S s stage)
    (hs : Preempted.taskBegin S s stage = some (t, p')) :
    Inv S { t with tasks := s.tasks.set i p' } := by
  have hmem := List.mem_of_getElem? hp
  have hfits : stage.Fits S := h.fits _ hmem
  cases stage with
  | start =>
    cases hs
    exact ⟨h.exclusive.set hp id, fits_set h.fits hfree,
      h.kept.quiet hp (not_uses rfl) (not_uses rfl)⟩
  | count n =>
    cases hs
    exact ⟨h.exclusive.set hp id, fits_set h.fits hfits,
      h.kept.quiet hp (not_uses rfl) (not_uses rfl)⟩
  | sleep n => cases hs
  | lock n txt =>
    simp only [Preempted.taskBegin] at hs
    rcases s.mutex.lockIteration_cases with ⟨hflag, hlock⟩ | ⟨hflag, hlock⟩
    · rw [hlock] at hs
      cases hs
      exact ⟨h.exclusive.held hp held_flag, fits_set h.fits hfits,
        h.kept.quiet hp (not_uses rfl) (not_uses rfl)⟩
    · rw [hlock] at hs
      cases hs
      exact ⟨h.exclusive.acquire hflag held_flag _, fits_set h.fits hfits,
        h.kept.quiet hp (not_uses rfl) (not_uses rfl)⟩
  | readY n txt =>
    -- the cursor is safe, since no one else uses it
    have hnobody := nobodyUses_of_holds h.exclusive hp (.inr rfl) (not_uses rfl)
    have hrest := Prog.eq_done hfree
    have hsafe := (h.kept.idle hnobody).2
    rw [hrest] at hsafe
    cases hs
    exact h.held hp (.inr rfl) hfits hrest ⟨List.forall_mem_nil _, rfl, hsafe⟩
  | readX n txt y =>
    obtain ⟨hrest, haway⟩ := h.kept.away i _ hp (.inr rfl)
    obtain ⟨hy, hsafe⟩ : y = s.cursor.y ∧ _ := haway.leaves
    cases hs
    rw [hy]
    exact h.held hp (.inr rfl) hfits hrest ⟨List.forall_mem_nil _, hsafe.onGrid, hsafe⟩
  | moveTo n txt saved =>
    obtain ⟨hrest, haway⟩ := h.kept.away i _ hp (.inr rfl)
    have hown : OnGrid S (taskPos n) := ⟨taskPos_x_lt n hw, hfits⟩
    cases hs
    exact h.held hp (.inr rfl) hfits hrest ⟨moveCursor_inRange hown, hown, haway.leaves.2⟩
  | print n txt saved =>
    obtain ⟨hrest, haway⟩ := h.kept.away i _ hp (.inr rfl)
    obtain ⟨hgrid, hsafe⟩ : OnGrid S s.cursor ∧ _ := haway.leaves
    cases txt with
    | nil =>
      cases hs
      exact h.held hp (.inr rfl) hfits hrest ⟨moveCursor_inRange hsafe.onGrid, hsafe⟩
    | cons ch txt =>
      cases hs
      exact h.held hp (.inr rfl) hfits hrest
        ⟨putChar_inRange hgrid ch, onGrid_putChar hgrid ch, hsafe⟩
  | unlock n =>
    cases hs
    exact ⟨h.exclusive.release hp (.inr rfl) (not_holds rfl), fits_set h.fits hfits,
      h.kept.quiet hp (not_uses rfl) (not_uses rfl)⟩
  | line lines =>
    cases lines with
    | nil => cases hs
    | cons txt lines =>
      simp only [Preempted.taskBegin] at hs
      rcases s.mutex.lockIteration_cases with ⟨hflag, hlock⟩ | ⟨hflag, hlock⟩
      · rw [hlock] at hs
        cases hs
        exact ⟨h.exclusive.held hp held_flag, fits_set h.fits hfits,
          h.kept.quiet hp (not_uses rfl) (not_uses rfl)⟩
      · rw [hlock] at hs
        cases hs
        exact ⟨h.exclusive.acquire hflag held_flag _, fits_set h.fits trivial,
          h.kept.quiet hp (not_uses rfl) (not_uses rfl)⟩
  | locked txt lines =>
    have hnobody := nobodyUses_of_holds h.exclusive hp (.inr rfl) (not_uses rfl)
    obtain ⟨hdone, hindex, hedits⟩ := hfree
    have hrest := Prog.eq_done hdone
    have hsafe := (h.kept.idle hnobody).2
    rw [hrest] at hsafe
    have hnone : ∀ pos, OnGrid S pos → pos.x = 0 →
        Safe S s.statics.inputBufferIndex s.shell.acts pos := by
      rw [hindex]
      exact fun pos hgrid hx => safe_of_not_edits hw h.kept.shape hedits hgrid hx
    cases hs
    exact h.held hp (.inr rfl) trivial hrest ⟨List.forall_mem_nil _, hsafe.onGrid, hnone⟩
  | printLine txt lines =>
    obtain ⟨hrest, haway⟩ := h.kept.away i _ hp (.inr rfl)
    obtain ⟨hgrid, hsafe⟩ : OnGrid S s.cursor ∧ _ := haway.leaves
    cases txt with
    | nil =>
      obtain ⟨hgrid', hx⟩ := nextLine_start hgrid
      cases hs
      exact h.held hp (.inr rfl) trivial hrest ⟨nextLine_inRange, hsafe _ hgrid' hx⟩
    | cons ch txt =>
      cases hs
      exact h.held hp (.inr rfl) trivial hrest
        ⟨putChar_inRange hgrid ch, onGrid_putChar hgrid ch, hsafe⟩
  | unlockLine lines =>
    cases hs
    exact ⟨h.exclusive.release hp (.inr rfl) (not_holds rfl), fits_set h.fits trivial,
      h.kept.quiet hp (not_uses rfl) (not_uses rfl)⟩

/-- **A task in a terminal call** keeps the invariant. -/
theorem Inv.taskCall (h : Inv S s) (hp : s.tasks[i]? = some p) (hcall : p.rest.isDone = false) :
    Inv S { s with
      cursor := (p.rest.step s.cursor).1
      tasks := s.tasks.set i { p with rest := (p.rest.step s.cursor).2.2 } } := by
  obtain ⟨hrest, haway⟩ := h.kept.away i p hp (.inl hcall)
  refine ⟨h.exclusive.set hp fun _ => .inl hcall,
    fits_set h.fits (h.fits p (List.mem_of_getElem? hp)), ?_⟩
  refine Kept.held h.exclusive hp (.inl hcall) h.kept.shape hrest ⟨?_, ?_⟩
  · exact (Prog.forall_events_step haway.inRange).2
  · simp only [Prog.finish_step]
    exact haway.leaves

/-- **The shell begins a call.** -/
theorem Inv.shellBegin (h : Inv S s) (hdone : s.shell.rest.isDone = true)
    (hacts : s.shell.acts = act :: acts) (hfree : Free S s .shell) :
    Inv S (Preempted.shellBegin S s acts act) := by
  have hkept := h.kept
  have hrest := Prog.eq_done hdone
  obtain ⟨cursor, mutex, taskCount, statics, ⟨acts₀, rest⟩, tasks⟩ := s
  obtain rfl : rest = .done := hrest
  obtain rfl : acts₀ = act :: acts := hacts
  have hshape := shape_tail hkept.shape
  cases hcall : (actProg S act).isDone with
  | true =>
    obtain ⟨function, rfl⟩ := eq_createProcess hcall
    have hturn := hkept.turn hshape fun pos hsafe => hsafe.2.2
    refine ⟨h.exclusive.append ?_, ?_, hturn.create ?_⟩
    · cases function <;> exact not_holds rfl
    · intro q hq
      rcases List.mem_append.mp hq with hq | hq
      · exact h.fits q hq
      · obtain rfl := List.mem_singleton.mp hq
        cases function <;> exact trivial
    · cases function <;> exact not_uses rfl
  | false =>
    have hnobody : NobodyUses tasks := hfree (.inr ⟨act, rfl, hcall⟩)
    obtain ⟨-, -, hevents, hsafe⟩ := hkept.idle hnobody
    rw [shellBegin_of_call hcall]
    exact ⟨h.exclusive, h.fits, Kept.call hnobody hshape hevents hsafe⟩

/-- **The shell in a terminal call** keeps the invariant. -/
theorem Inv.shellCall (h : Inv S s) (hcall : s.shell.rest.isDone = false)
    (hfree : Free S s .shell) :
    Inv S { s with
      cursor := (s.shell.rest.step s.cursor).1
      shell := { s.shell with rest := (s.shell.rest.step s.cursor).2.2 } } := by
  have hnobody : NobodyUses s.tasks := hfree (.inl hcall)
  obtain ⟨hevents, hsafe⟩ := h.kept.idle hnobody
  refine ⟨h.exclusive, h.fits, Kept.call hnobody h.kept.shape ?_ ?_⟩
  · exact (Prog.forall_events_step hevents).2
  · simp only [Prog.finish_step]
    exact hsafe

/-- The shell starts behind its prompt. -/
theorem safe_bootCursor (hw : 100 ≤ Impl.getWidth S) : Safe S 0 [] (bootCursor S).pos := by
  have hname := Cursor.onGrid_putChars (c := ⟨⟨0, 0⟩, 0⟩) ⟨getWidth_pos S, getHeight_pos S⟩
    (bytes "HryOS!")
  obtain ⟨hgrid, hx⟩ := nextLine_start hname
  obtain ⟨-, -, -, -, hsafe⟩ := safe_prompts hw hgrid hx
  rw [nextLine_finish] at hsafe
  simp only [actProg, putChar_finish] at hsafe
  exact hsafe

theorem Inv.init (hw : 100 ≤ Impl.getWidth S) (behind : Callback → ℕ → UInt8) :
    Inv S (Preempted.init S behind) := by
  refine ⟨⟨?_, ?_⟩, List.forall_mem_nil _, ?_⟩
  · intro _ i p hp
    cases hp
  · intro i j p _ hp
    cases hp
  · have hindex : (Preempted.init S behind).statics.inputBufferIndex = 0 :=
      (registerCommand_line (registrations behind) CommandLine.init).2
    refine Kept.call (List.forall_mem_nil _) (.inl (List.forall_mem_nil _))
      (List.forall_mem_nil _) ?_
    rw [hindex]
    exact safe_bootCursor hw

/-- **One step under the condition** keeps the invariant. -/
theorem Inv.step (h : Inv S s) (hw : 100 ≤ Impl.getWidth S) (hfree : Free S s l)
    (hs : Preempted.step S s l = some s') : Inv S s' := by
  cases l with
  | key event out =>
    simp only [Preempted.step] at hs
    split at hs
    · rename_i hidle
      obtain ⟨⟨statics, calls⟩, hq, hs⟩ := Option.map_eq_some_iff.mp hs
      cases hs
      obtain ⟨hdone, hacts⟩ := hidle
      have hkept := h.kept
      have hkey := keyActs hq out s.statics.commands
      have hshell : s.shell = ⟨[], .done⟩ := by
        rw [← hacts, ← Prog.eq_done hdone]
      rw [hshell] at hkept
      exact ⟨h.exclusive, h.fits,
        hkept.turn (shape_of_keyActs hkey) fun pos hsafe => safe_key hw hkey hsafe⟩
    · cases hs
  | shell =>
    simp only [Preempted.step] at hs
    split at hs
    · rename_i hdone
      split at hs
      · cases hs
      · rename_i act acts hacts
        cases hs
        exact h.shellBegin hdone hacts hfree
    · rename_i hcall
      cases hs
      exact h.shellCall (Bool.eq_false_iff.mpr hcall) hfree
  | task i =>
    simp only [Preempted.step] at hs
    split at hs
    · cases hs
    · rename_i p hp
      split at hs
      · rename_i hdone
        obtain ⟨⟨t, p'⟩, ht, hs⟩ := Option.map_eq_some_iff.mp hs
        cases hs
        obtain ⟨stage, rest⟩ := p
        obtain rfl := Prog.eq_done hdone
        rw [taskBegin_frame ht]
        exact h.taskBegin hw hp (hfree _ hp) ht
      · rename_i hcall
        cases hs
        exact h.taskCall hp (Bool.eq_false_iff.mpr hcall)
  | round i digits =>
    simp only [Preempted.step] at hs
    split at hs
    · rename_i n hp
      cases hs
      have hfits := h.fits _ (List.mem_of_getElem? hp)
      exact ⟨h.exclusive.set hp id, fits_set h.fits hfits,
        h.kept.quiet hp (not_uses rfl) (not_uses rfl)⟩
    · cases hs

/-- Under the invariant the next step passes positions on the screen. -/
theorem Inv.inRange (h : Inv S s) (hfree : Free S s l) : PassesInRange S s l := by
  unfold PassesInRange
  cases l with
  | key event out => exact List.forall_mem_nil _
  | round i digits => exact List.forall_mem_nil _
  | shell =>
    simp only [passed]
    cases hrest : s.shell.rest.isDone with
    | true =>
      rw [Prog.eq_done hrest]
      exact List.forall_mem_nil _
    | false =>
      have hnobody : NobodyUses s.tasks := hfree (.inl hrest)
      exact (Prog.forall_events_step (h.kept.idle hnobody).1).1
  | task i =>
    simp only [passed]
    cases hp : s.tasks[i]? with
    | none => exact List.forall_mem_nil _
    | some p =>
      cases hrest : p.rest.isDone with
      | true =>
        simp only [Prog.eq_done hrest]
        exact List.forall_mem_nil _
      | false =>
        obtain ⟨-, haway⟩ := h.kept.away i p hp (.inl hrest)
        exact (Prog.forall_events_step haway.inRange).1

/-! ## The conditions on given runs -/

instance (p : Process) : Decidable p.Uses :=
  inferInstanceAs (Decidable (p.rest.isDone = false ∨ p.stage.away = true))

instance (tasks : List Process) : Decidable (NobodyUses tasks) :=
  inferInstanceAs (Decidable (∀ p ∈ tasks, ¬ p.Uses))

instance (shell : Shell) : Decidable (shell.Calls S) :=
  inferInstanceAs (Decidable (shell.rest.isDone = false ∨
    ∃ act ∈ shell.acts.head?, (actProg S act).isDone = false))

instance (s : State) : Decidable (LineEmpty s) :=
  inferInstanceAs (Decidable (s.statics.inputBufferIndex = 0 ∧ ∀ act ∈ s.shell.acts, ¬ act.Edits))

instance (s : State) : ∀ stage, Decidable (StageFree S s stage)
  | .start => inferInstanceAs (Decidable (u32 s.taskCount / 7 < Impl.getHeight S))
  | .readY .. => inferInstanceAs (Decidable (s.shell.rest.isDone = true))
  | .locked .. => inferInstanceAs (Decidable (s.shell.rest.isDone = true ∧ LineEmpty s))
  | .count _ | .sleep _ | .lock .. | .readX .. | .moveTo .. | .print .. | .unlock _ | .line _
  | .printLine .. | .unlockLine _ => isTrue trivial

instance (s : State) : ∀ l, Decidable (Free S s l)
  | .shell => inferInstanceAs (Decidable (s.shell.Calls S → NobodyUses s.tasks))
  | .task i => inferInstanceAs (Decidable (∀ p ∈ s.tasks[i]?, StageFree S s p.stage))
  | .key .. | .round .. => isTrue trivial

instance (s : State) (l : Label) : Decidable (PassesInRange S s l) :=
  inferInstanceAs (Decidable (∀ op ∈ passed s l, op.InRange S))

/-- A key goes up, and the shell makes its accesses for it. -/
def typed (key accesses : ℕ) : List Label :=
  .key ⟨.released, key⟩ ⟨[], []⟩ :: List.replicate accesses .shell

/-- "rt", and the new timer takes the mutex and saves the cursor behind the prompt. -/
def timerAway : List Label :=
  typed 0x13 5 ++ typed 0x14 5 ++ typed enter 21 ++ List.replicate 2 (.task 0) ++
    .round 0 [48] :: List.replicate 3 (.task 0)

/-- It prints "0 sec" in its own place, and restores the cursor. -/
def timerBack : List Label := List.replicate 33 (.task 0)

/-- A character is taken back. -/
def takenBack : List Label := .key ⟨.pressed, backspace⟩ ⟨[], []⟩ :: List.replicate 10 .shell

/-- A character is typed after the timer is back, and taken back. -/
def typedAfter : List Label := timerAway ++ timerBack ++ typed 0x1E 5 ++ takenBack

/-- Three characters are typed before the timer restores the cursor, and taken back after it. -/
def threeBackspaces : List Label :=
  timerAway ++ (List.replicate 3 (typed 0x1E 5)).flatten ++ timerBack ++
    (List.replicate 3 takenBack).flatten

/-- 800 by 16 pixels. -/
def screenOneRow : Screen := ⟨⟨800, 16⟩, by decide, by decide, by decide⟩

/-- The timer of "rt" saves the cursor while the shell is in `next_line` for the next Enter. -/
def savedInNextLine : List Label :=
  typed 0x13 5 ++ typed 0x14 5 ++ typed enter 25 ++ List.replicate 2 (.task 0) ++
    .round 0 [48] :: typed enter 4 ++ List.replicate 3 (.task 0) ++ timerBack

/-! ## Positions on the screen -/

/-- **The callers keep the terminal in range**, in every interleaving of the shell with any number
    of tasks in which the shell calls the terminal only while no task uses the cursor. -/
theorem positions_in_range (hw : 100 ≤ Impl.getWidth S) (behind : Callback → ℕ → UInt8)
    {ls : List Label} (hfree : EveryStep (Preempted.step S) (Free S) (Preempted.init S behind) ls) :
    EveryStep (Preempted.step S) (PassesInRange S) (Preempted.init S behind) ls :=
  everyStep_of (fun _ _ _ h hl hs => h.step hw hl hs) (fun _ _ h hl => h.inRange hl)
    (Inv.init hw behind) hfree

/-- A character is typed and taken back after the timer is back. -/
theorem positions_in_range_example :
    (run (Preempted.step screen800) (Preempted.init screen800 fun _ _ => 0)
        typedAfter).isSome = true ∧
      EveryStep (Preempted.step screen800) (PassesInRange screen800)
        (Preempted.init screen800 fun _ _ => 0) typedAfter :=
  ⟨by decide +kernel, positions_in_range (by decide) (fun _ _ => 0) (by decide +kernel)⟩

/-- The third backspace passes a column left of the screen. -/
theorem backspace_passes_out_of_range :
    (run (Preempted.step screen800) (Preempted.init screen800 fun _ _ => 0)
        threeBackspaces).isSome = true ∧
      ¬ EveryStep (Preempted.step screen800) (PassesInRange screen800)
        (Preempted.init screen800 fun _ _ => 0) threeBackspaces := by
  decide +kernel

-- no key is taken back: the timer saves the row below the only one, before `scroll_down`
example :
    (run (Preempted.step screenOneRow) (Preempted.init screenOneRow fun _ _ => 0)
        savedInNextLine).isSome = true ∧
      ¬ EveryStep (Preempted.step screenOneRow) (PassesInRange screenOneRow)
        (Preempted.init screenOneRow fun _ _ => 0) savedInNextLine := by
  decide +kernel

end HryOS.Preempted
