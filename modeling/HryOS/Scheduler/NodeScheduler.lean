import HryOS.Scheduler.ListMoves
import HryOS.Scheduler.System

/-!
# The scheduler on its nodes

`scheduler.cpp` on the nodes and pointers of its lists: the state lists, which keep erased nodes,
and `processes`, which deletes them.  A null dereference has no result.

* `nodeStep` — the system of `step` on the nodes; a label comes with the address that `new` returns
  for a node of `processes`.
* `NodeSched.Represents` — the nodes hold the sequences.
* `node_scheduler_refines` — in any run, the nodes hold what the run on the sequences computes, and
  no step that is enabled there dereferences a null pointer.
-/

set_option autoImplicit false

namespace HryOS.Scheduler

open HlibList LinkedChain Transition ByteMemory

/-- The globals of `scheduler.cpp`, with the lists on their nodes.  The two kinds of list have
    different types of node. -/
structure NodeSched where
  isEnabled : Bool
  processes : State Ptr
  nodes : Nodes
  currentProcess : Option Ptr
  timer : ℕ
  pidGenerator : ℕ

namespace NodeSched

variable (new : ℕ → ℕ) (s : NodeSched)

def getTimer : ℕ := u32 s.timer

/-- `get_list`. -/
def getList (st : ProcState) : State Ptr := s.nodes.lists.list st

def setList (st : ProcState) (list : State Ptr) : NodeSched :=
  { s with nodes := { s.nodes with lists := s.nodes.lists.setList st list } }

def setProc (p : Ptr) (q : Process) : NodeSched :=
  { s with nodes := { s.nodes with proc := Function.update s.nodes.proc p q } }

/-- `p->state = st`. -/
def setState (p : Ptr) (st : ProcState) : NodeSched :=
  s.setProc p { s.nodes.proc p with state := st }

/-- `get_list(st).push_back(p)`. -/
def pushBack (st : ProcState) (p : Ptr) : Option NodeSched := do
  let list ← HlibList.pushBack true (s.getList st) p (new s.nodes.pushes)
  let s := s.setList st list
  return { s with nodes := { s.nodes with pushes := s.nodes.pushes + 1 } }

/-- `move_to_back_if`. -/
def moveToBackIf (source target : ProcState) (predicate : Process → Bool) : Option NodeSched := do
  let nodes ← s.nodes.moveToBackIf new source target fun _ => predicate
  return { s with nodes }

/-- `move_to_front_if`. -/
def moveToFrontIf (source target : ProcState) (predicate : Process → Bool) :
    Option NodeSched := do
  let nodes ← s.nodes.moveToFrontIf new source target fun _ => predicate
  return { s with nodes }

/-- What `switch_to_task` does to the globals. -/
def switchToTask (p : Ptr) : NodeSched := { s with currentProcess := some p }

/-- The part of `reschedule` about the process that has been running. -/
def requeueCurrent : Option NodeSched :=
  match s.currentProcess with
  | some c =>
    if (s.nodes.proc c).state = .running then (s.setState c .ready).pushBack new .ready c
    else some s
  | none => some s

/-- `scheduler::reschedule`. -/
def reschedule : Option NodeSched := do
  if !s.isEnabled then return s
  let s ← s.moveToFrontIf new .sleeping .ready fun q =>
    decide (q.stateData.sleepTimeout < s.getTimer)
  if isEmpty (s.getList .ready) then return s
  let p ← front (s.getList .ready)
  let list ← popFront true (s.getList .ready)
  let s := s.setList .ready list
  if s.currentProcess = some p then return s
  let s ← s.requeueCurrent new
  if (s.nodes.proc p).state = .ready then return (s.setState p .running).switchToTask p
  return s

/-- `scheduler::create_process`, where `new` returns `p` for the process and `address` for its node
    of `processes`. -/
def createProcess (p : Ptr) (task : Task) (address : ℕ) : Option NodeSched := do
  let processes ← HlibList.pushBack false s.processes p address
  let s := { s with processes }
  let s := s.setProc p ⟨s.pidGenerator, .ready, .none, task, s.getTimer⟩
  let s := { s with pidGenerator := u32 (s.pidGenerator + 1) }
  s.pushBack new .ready p

/-- What `process_starter` does from the end of the task of `c`, the current process, on. -/
def processStarterTail (c : Ptr) : Option NodeSched := do
  let s ← s.moveToBackIf new .waiting .ready fun q =>
    decide (q.stateData.waitingPid = (s.nodes.proc c).pid)
  let (processes, _) ← HlibList.eraseIf false s.processes fun p => decide (p = c)
  { s with processes, currentProcess := none }.reschedule new

/-- The critical section of `block_current_process`, `sleep_ms` and `wait_for`. -/
def enqueueCurrent (c : Ptr) (st : ProcState) (data : StateData) : Option NodeSched :=
  (s.setProc c { s.nodes.proc c with state := st, stateData := data }).pushBack new st c

/-- `scheduler::notify_blocked`. -/
def notifyBlocked (type : BlockedType) : Option NodeSched :=
  s.moveToFrontIf new .blocked .ready fun q => decide (q.stateData.blockedType = type)

/-- `irq_callback` of `pit.cpp`. -/
def timerCallback : Option NodeSched :=
  { s with timer := (s.timer + 1) % 18446744073709551616 }.reschedule new

end NodeSched

/-! ## The system -/

/-- `System`, with the scheduler on its nodes. -/
structure NodeSystem where
  sched : NodeSched
  loc : Ptr → Loc
  returned : List ℕ
  deleted : List Ptr

namespace NodeSystem

/-- The current process, when it is at `l` and runs code of its own. -/
def acting (s : NodeSystem) (l : Loc) : Option Ptr :=
  s.sched.currentProcess.filter fun c =>
    decide ((s.sched.nodes.proc c).task ≠ .idleProcess) && decide (s.loc c = l)

/-- The critical section of a blocking call. -/
def enqueue (new : ℕ → ℕ) (s : NodeSystem) (st : ProcState) (data : StateData) :
    Option NodeSystem := do
  let c ← s.acting .user
  let sched ← s.sched.enqueueCurrent new c st data
  return { s with sched, loc := Function.update s.loc c .window }

end NodeSystem

/-- One step.  `new` returns memory that no live process occupies. -/
def nodeStep (new : ℕ → ℕ) (s : NodeSystem) : Label × ℕ → Option NodeSystem
  | (.boot, _) => do
    if s.sched.currentProcess = none then
      let sched ← s.sched.reschedule new
      return { s with sched }
    else none
  | (.createProcess p task, address) => do
    let _ ← s.acting .user
    let live ← forEach s.sched.processes
    if p ∈ live then none
    else do
      let sched ← s.sched.createProcess new p task address
      return {
        sched
        loc := Function.update s.loc p .user
        returned := s.sched.pidGenerator :: s.returned
        deleted := s.deleted.filter (· ≠ p) }
  | (.sleepMs time, _) => s.enqueue new .sleeping (.sleepData (u32 (s.sched.getTimer + time)))
  | (.blockCurrentProcess type, _) => s.enqueue new .blocked (.blockedData type)
  | (.waitFor pid, _) => s.enqueue new .waiting (.waitingData pid)
  | (.reschedule, _) => do
    let c ← s.acting .window
    let sched ← s.sched.reschedule new
    return { s with sched, loc := Function.update s.loc c .user }
  | (.taskReturn, _) => do
    let c ← s.acting .user
    let sched ← s.sched.processStarterTail new c
    return { s with sched, deleted := c :: s.deleted }
  | (.timerIrq, _) => do
    let _ ← s.sched.currentProcess
    let sched ← s.sched.timerCallback new
    return { s with sched }
  | (.keyboardIrq, _) => do
    let _ ← s.sched.currentProcess
    let sched ← s.sched.notifyBlocked new .io
    return { s with sched }

/-- The globals before `kernel_main`. -/
def emptyNodeSched : NodeSched where
  isEnabled := false
  processes := HlibList.empty
  nodes :=
    { lists := ⟨fun _ => none, fun _ => ⟨none, none, none, []⟩⟩
      proc := fun _ => ⟨0, .empty, .none, .function 0, 0⟩
      pushes := 0 }
  currentProcess := none
  timer := 0
  pidGenerator := 0

/-- The system when `scheduler::init` has returned; `a` and `b` are what `new` returned for the
    nodes of `processes`. -/
def nodeInit (new : ℕ → ℕ) (t i : Ptr) (terminal : Task) (a b : ℕ) : Option NodeSystem := do
  let sched ← emptyNodeSched.createProcess new t terminal a
  let sched ← { sched with isEnabled := true }.createProcess new i .idleProcess b
  return { sched, loc := fun _ => .user, returned := [1, 0], deleted := [] }

/-! ## What the nodes represent -/

/-- `n` holds the sequences and the other globals of `s`. -/
structure NodeSched.Represents (new : ℕ → ℕ) (n : NodeSched) (s : Sched) : Prop where
  isEnabled : n.isEnabled = s.isEnabled
  processes : ∃ es, Holds false n.processes es [] ∧ es.map Prod.snd = s.processes
  nodes : ∃ es fs, Scheduler.Represents new n.nodes es fs s
  currentProcess : n.currentProcess = s.currentProcess
  timer : n.timer = s.timer
  pidGenerator : n.pidGenerator = s.pidGenerator

variable {new : ℕ → ℕ} {n n' : NodeSched} {s s' : Sched} {p c : Ptr} {st source target : ProcState}
  {es fs : Entries} {predicate : Process → Bool}

/-- Only the state lists and the process objects differ between `s` and `s'`. -/
structure SameGlobals (s s' : Sched) : Prop where
  isEnabled : s'.isEnabled = s.isEnabled
  processes : s'.processes = s.processes
  currentProcess : s'.currentProcess = s.currentProcess
  timer : s'.timer = s.timer
  pidGenerator : s'.pidGenerator = s.pidGenerator

theorem SameGlobals.trans {s'' : Sched} (h : SameGlobals s s') (h' : SameGlobals s' s'') :
    SameGlobals s s'' where
  isEnabled := h'.isEnabled.trans h.isEnabled
  processes := h'.processes.trans h.processes
  currentProcess := h'.currentProcess.trans h.currentProcess
  timer := h'.timer.trans h.timer
  pidGenerator := h'.pidGenerator.trans h.pidGenerator

theorem moveOne_sameGlobals {method : List Ptr → Ptr → List Ptr} {select : Ptr → Process → Bool} :
    SameGlobals s (moveOne source target select method s p).2 := by
  unfold moveOne
  split
  · exact ⟨rfl, rfl, rfl, rfl, rfl⟩
  · exact ⟨rfl, rfl, rfl, rfl, rfl⟩

theorem eraseIf_sameGlobals {func : Sched → Ptr → Bool × Sched}
    (hfunc : ∀ s p, SameGlobals s (func s p).2) (l : List Ptr) :
    ∀ s, SameGlobals s (eraseIf func s l).2 := by
  induction l with
  | nil => exact fun s => ⟨rfl, rfl, rfl, rfl, rfl⟩
  | cons p l ih => exact fun s => (hfunc s p).trans (ih _)

/-- `move_to_if` writes to the state lists and the process objects only. -/
theorem moveToIf_sameGlobals (s : Sched) (source target : ProcState) (predicate : Process → Bool)
    (method : List Ptr → Ptr → List Ptr) :
    SameGlobals s (moveToIf s source target predicate method) := by
  have hone : ∀ s p, SameGlobals s (moveOne source target (fun _ => predicate) method s p).2 :=
    fun _ _ => moveOne_sameGlobals
  have hwalk := eraseIf_sameGlobals hone (s.lists source) s
  exact ⟨hwalk.isEnabled, hwalk.processes, hwalk.currentProcess, hwalk.timer, hwalk.pidGenerator⟩

/-- `Scheduler.Represents` is about the process objects and the state lists. -/
theorem Represents.congr {nodes : Nodes} (h : Represents new nodes es fs s)
    (hproc : s'.proc = s.proc) (hlists : s'.lists = s.lists) : Represents new nodes es fs s' :=
  ⟨h.holds, h.unused, hproc.trans h.proc_eq, hlists ▸ h.lists_eq⟩

namespace NodeSched.Represents

/-- The other globals may change. -/
theorem nodes_congr (h : n.Represents new s) (hproc : s'.proc = s.proc)
    (hlists : s'.lists = s.lists) : ∃ es fs, Scheduler.Represents new n.nodes es fs s' := by
  obtain ⟨es, fs, hn⟩ := h.nodes
  exact ⟨es, fs, hn.congr hproc hlists⟩

theorem proc_eq (h : n.Represents new s) : n.nodes.proc = s.proc := by
  obtain ⟨es, fs, hn⟩ := h.nodes
  exact hn.proc_eq.symm

theorem getTimer_eq (h : n.Represents new s) : n.getTimer = s.getTimer := by
  unfold NodeSched.getTimer Sched.getTimer
  rw [h.timer]

/-- A state list, and the sequence it holds. -/
theorem list (h : n.Represents new s) (st : ProcState) :
    ∃ es fs, Holds true (n.getList st) es fs ∧ es.map Prod.snd = s.lists st := by
  obtain ⟨es, fs, hn⟩ := h.nodes
  exact ⟨es st, fs st, hn.holds.list st, (hn.lists_eq st).symm⟩

/-- `p->…`, a write to a process object. -/
theorem setProc (h : n.Represents new s) (p : Ptr) (q : Process) :
    (n.setProc p q).Represents new (s.setProc p q) := by
  obtain ⟨es, fs, hn⟩ := h.nodes
  refine ⟨h.isEnabled, h.processes, ⟨es, fs, hn.holds, hn.unused, ?_, hn.lists_eq⟩,
    h.currentProcess, h.timer, h.pidGenerator⟩
  show Function.update s.proc p q = Function.update n.nodes.proc p q
  rw [h.proc_eq]

theorem setState (h : n.Represents new s) (p : Ptr) (st : ProcState) :
    (n.setState p st).Represents new (s.setState p st) := by
  unfold NodeSched.setState Sched.setState
  rw [h.proc_eq]
  exact h.setProc p _

/-- `get_list(st).push_back(p)`. -/
theorem pushBack (h : n.Represents new s) (hnew : new.Injective) (st : ProcState) (p : Ptr) :
    ∃ n', n.pushBack new st p = some n' ∧
      n'.Represents new (s.setList st (Scheduler.pushBack (s.lists st) p)) := by
  obtain ⟨es, fs, hn⟩ := h.nodes
  obtain ⟨list, ts, us, hlist, hholds, hvalues, hgrows⟩ :=
    pushBack_inserts _ _ _ p _ (hn.holds.list st) (hn.unused n.nodes.pushes (Nat.le_refl _))
  have hunused : (n.nodes.lists.setList st list).Unused new (n.nodes.pushes + 1) := by
    refine hn.unused.setList hn.holds hgrows (Nat.le_succ _) ?_
    intro k hk heq
    have := hnew heq
    omega
  refine ⟨{ n.setList st list with
    nodes := { (n.setList st list).nodes with pushes := n.nodes.pushes + 1 } }, ?_, h.isEnabled,
    h.processes, ⟨_, _, hn.holds.setList hholds hgrows, hunused, hn.proc_eq, ?_⟩,
    h.currentProcess, h.timer, h.pidGenerator⟩
  · unfold NodeSched.pushBack NodeSched.getList
    rw [hlist]
    rfl
  intro st'
  unfold Entries.values
  by_cases hst : st' = st
  · subst hst
    rw [Sched.setList_lists_self, Function.update_self, hvalues]
    exact congrArg (Scheduler.pushBack · p) (hn.lists_eq st')
  · rw [Sched.setList_lists_of_ne _ _ _ hst, Function.update_of_ne hst]
    exact hn.lists_eq st'

/-- `pop_front`, on a list that is not empty. -/
theorem popFront {rest : List Ptr} (h : n.Represents new s) (hl : s.lists st = p :: rest) :
    isEmpty (n.getList st) = false ∧ front (n.getList st) = some p ∧
      ∃ list, popFront true (n.getList st) = some list ∧
        (n.setList st list).Represents new (s.setList st rest) := by
  obtain ⟨es, fs, hn⟩ := h.nodes
  have hlist := hn.holds.list st
  have hvalues : (es st).map Prod.snd = p :: rest := (hn.lists_eq st).symm.trans hl
  obtain ⟨e, r, hes, rfl, rfl⟩ := List.map_eq_cons_iff.mp hvalues
  rw [hes] at hlist
  refine ⟨hlist.isEmpty_eq, hlist.front_eq, ?_⟩
  obtain ⟨list, herase, hholds, hgrows⟩ :=
    erase_grows (l := []) hlist (new n.nodes.pushes)
  refine ⟨list, ?_, h.isEnabled, h.processes, ⟨_, _, hn.holds.setList hholds hgrows, ?_,
    hn.proc_eq, ?_⟩, h.currentProcess, h.timer, h.pidGenerator⟩
  · unfold HlibList.popFront NodeSched.getList
    rw [hlist.head]
    exact herase
  · -- no node was allocated
    obtain ⟨list', herase', -, hgrows'⟩ := erase_grows (l := []) hlist e.1
    obtain rfl : list = list' := Option.some.inj (herase.symm.trans herase')
    refine hn.unused.setList hn.holds hgrows' (Nat.le_refl _) ?_
    intro k hk heq
    have hexists : n.nodes.lists.heap e.1 ≠ none := hlist.linked.ne_none (by simp)
    exact hexists (heq ▸ hn.unused k hk)
  · intro st'
    unfold Entries.values
    by_cases hst : st' = st
    · subst hst
      rw [Sched.setList_lists_self, Function.update_self]
      rfl
    · rw [Sched.setList_lists_of_ne _ _ _ hst, Function.update_of_ne hst]
      exact hn.lists_eq st'

theorem isEmpty_of_nil (h : n.Represents new s) (hl : s.lists st = []) :
    isEmpty (n.getList st) = true := by
  obtain ⟨es, fs, hlist, hvalues⟩ := h.list st
  rw [hl, List.map_eq_nil_iff] at hvalues
  rw [hlist.isEmpty_eq, hvalues]
  rfl

/-- `move_to_if` leaves the other globals. -/
theorem moved {nodes : Nodes} {method : List Ptr → Ptr → List Ptr} (h : n.Represents new s)
    (hn : Scheduler.Represents new nodes es fs (moveToIf s source target predicate method)) :
    NodeSched.Represents new { n with nodes } (moveToIf s source target predicate method) := by
  have hg := moveToIf_sameGlobals s source target predicate method
  exact ⟨h.isEnabled.trans hg.isEnabled.symm, hg.processes.symm ▸ h.processes, ⟨es, fs, hn⟩,
    h.currentProcess.trans hg.currentProcess.symm, h.timer.trans hg.timer.symm,
    h.pidGenerator.trans hg.pidGenerator.symm⟩

theorem moveToBackIf (h : n.Represents new s) (hne : source ≠ target) (hnew : new.Injective)
    (predicate : Process → Bool) :
    ∃ n', n.moveToBackIf new source target predicate = some n' ∧
      n'.Represents new (Scheduler.moveToBackIf s source target predicate) := by
  obtain ⟨es, fs, hn⟩ := h.nodes
  obtain ⟨nodes, es', fs', hmove, hn', -⟩ :=
    moveToIf_refines hn hne pushBack_inserts hnew predicate
  refine ⟨{ n with nodes }, ?_, h.moved hn'⟩
  unfold NodeSched.moveToBackIf Nodes.moveToBackIf
  rw [hmove]
  rfl

theorem moveToFrontIf (h : n.Represents new s) (hne : source ≠ target) (hnew : new.Injective)
    (predicate : Process → Bool) :
    ∃ n', n.moveToFrontIf new source target predicate = some n' ∧
      n'.Represents new (Scheduler.moveToFrontIf s source target predicate) := by
  obtain ⟨es, fs, hn⟩ := h.nodes
  obtain ⟨nodes, es', fs', hmove, hn', -⟩ :=
    moveToIf_refines hn hne pushFront_inserts hnew predicate
  refine ⟨{ n with nodes }, ?_, h.moved hn'⟩
  unfold NodeSched.moveToFrontIf Nodes.moveToFrontIf
  rw [hmove]
  rfl

/-! ## The functions of the scheduler -/

theorem requeueCurrent (h : n.Represents new s) (hnew : new.Injective) :
    ∃ n', n.requeueCurrent new = some n' ∧ n'.Represents new (Scheduler.requeueCurrent s) := by
  unfold NodeSched.requeueCurrent Scheduler.requeueCurrent
  rw [h.currentProcess, h.proc_eq]
  cases s.currentProcess with
  | none => exact ⟨n, rfl, h⟩
  | some c =>
    dsimp only
    split
    · exact (h.setState c .ready).pushBack hnew .ready c
    · exact ⟨n, rfl, h⟩

/-- **`reschedule`** on the nodes. -/
theorem reschedule (h : n.Represents new s) (hnew : new.Injective) :
    ∃ n', n.reschedule new = some n' ∧ n'.Represents new (Scheduler.reschedule s) := by
  unfold NodeSched.reschedule Scheduler.reschedule
  rw [h.isEnabled]
  cases s.isEnabled with
  | false => exact ⟨n, rfl, h⟩
  | true =>
    obtain ⟨n₁, hmove, h₁⟩ := h.moveToFrontIf (show ProcState.sleeping ≠ .ready by simp) hnew
      fun q => decide (q.stateData.sleepTimeout < s.getTimer)
    have h₁ : n₁.Represents new (wakeSleepers s) := h₁
    simp only [h.getTimer_eq, hmove, Bool.not_true, Bool.false_eq_true, ↓reduceIte,
      Option.bind_eq_bind, Option.bind_some]
    cases hl : (wakeSleepers s).lists .ready with
    | nil =>
      rw [h₁.isEmpty_of_nil hl, if_pos rfl]
      exact ⟨n₁, rfl, h₁⟩
    | cons p rest =>
      obtain ⟨hempty, hfront, list, hpop, h₂⟩ := h₁.popFront hl
      simp only [hempty, hfront, hpop, Bool.false_eq_true, ↓reduceIte, Option.bind_some,
        h₂.currentProcess]
      by_cases hcur : ((wakeSleepers s).setList .ready rest).currentProcess = some p
      · simp only [if_pos hcur]
        exact ⟨_, rfl, h₂⟩
      · obtain ⟨n₃, hrequeue, h₃⟩ := h₂.requeueCurrent hnew
        simp only [if_neg hcur, hrequeue, Option.bind_some, h₃.proc_eq]
        split
        · have h₄ := h₃.setState p .running
          exact ⟨_, rfl, h₄.isEnabled, h₄.processes, h₄.nodes_congr rfl rfl, rfl, h₄.timer,
            h₄.pidGenerator⟩
        · exact ⟨n₃, rfl, h₃⟩

/-- `create_process` up to its last push, where `new` returns an address without a node. -/
theorem createProcess_push {address : ℕ} (h : n.Represents new s) (p : Ptr) (task : Task)
    (hfree : n.processes.heap address = none) :
    ∃ (n₁ : NodeSched) (s₁ : Sched), n₁.Represents new s₁ ∧
      n₁.nodes.lists = n.nodes.lists ∧ s₁.lists = s.lists ∧
      n.createProcess new p task address = n₁.pushBack new .ready p ∧
      Scheduler.createProcess s p task =
        s₁.setList .ready (Scheduler.pushBack (s₁.lists .ready) p) := by
  obtain ⟨es, hes, hvalues⟩ := h.processes
  obtain ⟨processes, node, fs, hpush, hholds, -⟩ := pushBack_spec hes p (Or.inl hfree)
  obtain rfl := (hholds.deleted rfl).1
  have h₁ : NodeSched.Represents new { n with processes }
      { s with processes := s.processes ++ [p] } :=
    ⟨h.isEnabled, ⟨_, hholds, by simp [hvalues]⟩, h.nodes_congr rfl rfl, h.currentProcess, h.timer,
      h.pidGenerator⟩
  have h₂ := h₁.setProc p ⟨s.pidGenerator, .ready, .none, task, s.getTimer⟩
  refine ⟨{ NodeSched.setProc { n with processes } p
      ⟨s.pidGenerator, .ready, .none, task, s.getTimer⟩ with
        pidGenerator := u32 (s.pidGenerator + 1) },
    { Sched.setProc { s with processes := s.processes ++ [p] } p
      ⟨s.pidGenerator, .ready, .none, task, s.getTimer⟩ with
        pidGenerator := u32 (s.pidGenerator + 1) },
    ⟨h₂.isEnabled, h₂.processes, h₂.nodes_congr rfl rfl, h₂.currentProcess, h₂.timer, rfl⟩,
    rfl, rfl, ?_, rfl⟩
  unfold NodeSched.createProcess
  simp only [hpush, Option.bind_eq_bind, Option.bind_some]
  rw [← h.pidGenerator, ← h.getTimer_eq]
  rfl

/-- `create_process`. -/
theorem createProcess {address : ℕ} (h : n.Represents new s) (hnew : new.Injective) (p : Ptr)
    (task : Task) (hfree : n.processes.heap address = none) :
    ∃ n', n.createProcess new p task address = some n' ∧
      n'.Represents new (Scheduler.createProcess s p task) := by
  obtain ⟨n₁, s₁, h₁, -, -, hn, hs⟩ := h.createProcess_push p task hfree
  rw [hn, hs]
  exact h₁.pushBack hnew .ready p

/-- The end of `process_starter`, up to its call of `reschedule`. -/
theorem processStarterTail_reschedule (h : n.Represents new s) (hnew : new.Injective) (c : Ptr) :
    ∃ m n₁, n.moveToBackIf new .waiting .ready
        (fun q => decide (q.stateData.waitingPid = (s.proc c).pid)) = some m ∧
      n₁.nodes = m.nodes ∧
      NodeSched.Represents new n₁
        (let s := Scheduler.moveToBackIf s .waiting .ready fun q =>
          decide (q.stateData.waitingPid = (s.proc c).pid)
        { s with processes := s.processes.filter (· ≠ c), currentProcess := none }) ∧
      n.processStarterTail new c = n₁.reschedule new := by
  obtain ⟨m, hmove, h₁⟩ := h.moveToBackIf (show ProcState.waiting ≠ .ready by simp) hnew
    fun q => decide (q.stateData.waitingPid = (s.proc c).pid)
  obtain ⟨es, hes, hvalues⟩ := h₁.processes
  obtain ⟨processes, fs, herase, hholds, -⟩ := eraseIf_spec hes fun p => decide (p = c)
  obtain rfl := (hholds.deleted rfl).1
  refine ⟨m, { m with processes, currentProcess := none }, hmove, rfl,
    ⟨h₁.isEnabled, ⟨_, hholds, ?_⟩, h₁.nodes_congr rfl rfl, rfl, h₁.timer, h₁.pidGenerator⟩, ?_⟩
  · dsimp only
    rw [← hvalues]
    simp [List.filter_map, Function.comp_def]
  · unfold NodeSched.processStarterTail
    simp only [h.proc_eq, hmove, herase, Option.bind_eq_bind, Option.bind_some]

/-- The end of `process_starter`. -/
theorem processStarterTail (h : n.Represents new s) (hnew : new.Injective) (c : Ptr) :
    ∃ n', n.processStarterTail new c = some n' ∧
      n'.Represents new (Scheduler.processStarterTail s c) := by
  obtain ⟨m, n₁, -, -, h₁, htail⟩ := h.processStarterTail_reschedule hnew c
  rw [htail]
  exact h₁.reschedule hnew

theorem enqueueCurrent (h : n.Represents new s) (hnew : new.Injective) (c : Ptr) (st : ProcState)
    (data : StateData) : ∃ n', n.enqueueCurrent new c st data = some n' ∧
      n'.Represents new (Scheduler.enqueueCurrent s c st data) := by
  unfold NodeSched.enqueueCurrent Scheduler.enqueueCurrent
  rw [h.proc_eq]
  exact (h.setProc c _).pushBack hnew st c

theorem notifyBlocked (h : n.Represents new s) (hnew : new.Injective) (type : BlockedType) :
    ∃ n', n.notifyBlocked new type = some n' ∧
      n'.Represents new (Scheduler.notifyBlocked s type) :=
  h.moveToFrontIf (by simp) hnew _

/-- The timer has ticked. -/
theorem tick (h : n.Represents new s) : NodeSched.Represents new
    { n with timer := (n.timer + 1) % 18446744073709551616 }
    { s with timer := (s.timer + 1) % 18446744073709551616 } :=
  ⟨h.isEnabled, h.processes, h.nodes_congr rfl rfl, h.currentProcess, by rw [h.timer],
    h.pidGenerator⟩

theorem timerCallback (h : n.Represents new s) (hnew : new.Injective) :
    ∃ n', n.timerCallback new = some n' ∧ n'.Represents new (Scheduler.timerCallback s) :=
  h.tick.reschedule hnew

end NodeSched.Represents

/-! ## Steps -/

/-- `n` holds the system `s` on its nodes. -/
structure NodeSystem.Represents (new : ℕ → ℕ) (n : NodeSystem) (s : System) : Prop where
  sched : n.sched.Represents new s.sched
  loc : n.loc = s.loc
  returned : n.returned = s.returned
  deleted : n.deleted = s.deleted

/-- The address that comes with a label is one without a node, where a node is made of it. -/
def FreshNode (n : NodeSched) : Label → ℕ → Prop
  | .createProcess _ _, address => n.processes.heap address = none
  | _, _ => True

namespace NodeSystem.Represents

variable {n n' : NodeSystem} {s s' : System} {a : Label} {address : ℕ}

theorem acting_eq (h : n.Represents new s) (l : Loc) : n.acting l = s.acting l := by
  unfold NodeSystem.acting System.acting
  rw [h.sched.currentProcess, h.sched.proc_eq, h.loc]

theorem forEach_eq (h : n.Represents new s) :
    forEach n.sched.processes = some s.sched.processes := by
  obtain ⟨es, hes, hvalues⟩ := h.sched.processes
  rw [hes.forEach_eq, hvalues]

theorem enqueue {st : ProcState} {data : StateData} (h : n.Represents new s)
    (hnew : new.Injective)
    (hs : (s.enqueue fun sched c => Scheduler.enqueueCurrent sched c st data) = some s') :
    ∃ n', n.enqueue new st data = some n' ∧ n'.Represents new s' := by
  obtain ⟨c, hc, rfl⟩ := Option.map_eq_some_iff.mp hs
  obtain ⟨sched, hsched, h'⟩ := h.sched.enqueueCurrent hnew c st data
  refine ⟨{ n with sched, loc := Function.update n.loc c .window }, ?_, h', ?_, h.returned,
    h.deleted⟩
  · unfold NodeSystem.enqueue
    simp [h.acting_eq, hc, hsched]
  · exact congrArg (Function.update · c .window) h.loc

/-- **A step** that is enabled on the sequences is enabled on the nodes, and does the same. -/
theorem step (h : n.Represents new s) (hnew : new.Injective) (hfresh : FreshNode n.sched a address)
    (hs : Scheduler.step s a = some s') :
    ∃ n', nodeStep new n (a, address) = some n' ∧ n'.Represents new s' := by
  cases a with
  | boot =>
    obtain ⟨sched, hsched, h'⟩ := h.sched.reschedule hnew
    simp only [Scheduler.step] at hs
    split at hs
    · rename_i hcur
      obtain rfl := Option.some.inj hs
      refine ⟨{ n with sched }, ?_, h', h.loc, h.returned, h.deleted⟩
      simp [nodeStep, h.sched.currentProcess, hcur, hsched]
    · cases hs
  | createProcess p task =>
    obtain ⟨c, hc, hs⟩ := Option.bind_eq_some_iff.mp hs
    obtain ⟨sched, hsched, h'⟩ := h.sched.createProcess hnew p task hfresh
    split at hs
    · cases hs
    · rename_i hp
      obtain rfl := Option.some.inj hs
      refine ⟨⟨sched, Function.update n.loc p .user, n.sched.pidGenerator :: n.returned,
        n.deleted.filter (· ≠ p)⟩, ?_, h', ?_, ?_, ?_⟩
      · simp [nodeStep, h.acting_eq, hc, h.forEach_eq, hp, hsched]
      · exact congrArg (Function.update · p .user) h.loc
      · exact congrArg₂ List.cons h.sched.pidGenerator h.returned
      · exact congrArg (List.filter (· ≠ p)) h.deleted
  | sleepMs time =>
    have hs' : (s.enqueue fun sched c => Scheduler.enqueueCurrent sched c .sleeping
        (.sleepData (u32 (s.sched.getTimer + time)))) = some s' := hs
    rw [← h.sched.getTimer_eq] at hs'
    exact h.enqueue hnew hs'
  | blockCurrentProcess type => exact h.enqueue hnew hs
  | waitFor pid => exact h.enqueue hnew hs
  | reschedule =>
    obtain ⟨c, hc, rfl⟩ := Option.map_eq_some_iff.mp hs
    obtain ⟨sched, hsched, h'⟩ := h.sched.reschedule hnew
    refine ⟨{ n with sched, loc := Function.update n.loc c .user }, ?_, h', ?_, h.returned,
      h.deleted⟩
    · simp [nodeStep, h.acting_eq, hc, hsched]
    · exact congrArg (Function.update · c .user) h.loc
  | taskReturn =>
    obtain ⟨c, hc, rfl⟩ := Option.map_eq_some_iff.mp hs
    obtain ⟨sched, hsched, h'⟩ := h.sched.processStarterTail hnew c
    refine ⟨{ n with sched, deleted := c :: n.deleted }, ?_, h', h.loc, h.returned, ?_⟩
    · simp [nodeStep, h.acting_eq, hc, hsched]
    · exact congrArg (List.cons c) h.deleted
  | timerIrq =>
    obtain ⟨c, hc, rfl⟩ := Option.map_eq_some_iff.mp hs
    obtain ⟨sched, hsched, h'⟩ := h.sched.timerCallback hnew
    refine ⟨{ n with sched }, ?_, h', h.loc, h.returned, h.deleted⟩
    simp [nodeStep, h.sched.currentProcess, hc, hsched]
  | keyboardIrq =>
    obtain ⟨c, hc, rfl⟩ := Option.map_eq_some_iff.mp hs
    obtain ⟨sched, hsched, h'⟩ := h.sched.notifyBlocked hnew .io
    refine ⟨{ n with sched }, ?_, h', h.loc, h.returned, h.deleted⟩
    simp [nodeStep, h.sched.currentProcess, hc, hsched]

/-- A node was made at an address where there was none. -/
theorem fresh_of_createProcess {n n' : NodeSched} {p : Ptr} {task : Task}
    (h : n.createProcess new p task address = some n') : n.processes.heap address = none := by
  unfold NodeSched.createProcess HlibList.pushBack at h
  simp only [Option.bind_eq_bind, Option.bind_eq_some_iff] at h
  obtain ⟨_, ⟨q, hq, -⟩, -⟩ := h
  exact (getFreeNode_legal hq).resolve_right (by simp)

/-- A step that has a result on the nodes is enabled on the sequences. -/
theorem enabled (h : n.Represents new s) (hn : nodeStep new n (a, address) = some n') :
    FreshNode n.sched a address ∧ ∃ s', Scheduler.step s a = some s' := by
  cases a with
  | boot =>
    simp only [nodeStep, h.sched.currentProcess] at hn
    split at hn
    · rename_i hcur
      exact ⟨trivial, _, if_pos hcur⟩
    · cases hn
  | createProcess p task =>
    simp only [nodeStep, h.acting_eq, h.forEach_eq, Option.bind_eq_bind, Option.bind_some,
      Option.bind_eq_some_iff] at hn
    obtain ⟨c, hc, hn⟩ := hn
    split at hn
    · cases hn
    · rename_i hp
      obtain ⟨sched, hsched, -⟩ := Option.bind_eq_some_iff.mp hn
      refine ⟨fresh_of_createProcess hsched, ?_⟩
      simp [Scheduler.step, hc, hp]
  | sleepMs time =>
    obtain ⟨c, hc, -⟩ := Option.bind_eq_some_iff.mp hn
    rw [h.acting_eq] at hc
    exact ⟨trivial, _, Option.map_eq_some_iff.mpr ⟨c, hc, rfl⟩⟩
  | blockCurrentProcess type =>
    obtain ⟨c, hc, -⟩ := Option.bind_eq_some_iff.mp hn
    rw [h.acting_eq] at hc
    exact ⟨trivial, _, Option.map_eq_some_iff.mpr ⟨c, hc, rfl⟩⟩
  | waitFor pid =>
    obtain ⟨c, hc, -⟩ := Option.bind_eq_some_iff.mp hn
    rw [h.acting_eq] at hc
    exact ⟨trivial, _, Option.map_eq_some_iff.mpr ⟨c, hc, rfl⟩⟩
  | reschedule =>
    obtain ⟨c, hc, -⟩ := Option.bind_eq_some_iff.mp hn
    rw [h.acting_eq] at hc
    exact ⟨trivial, _, Option.map_eq_some_iff.mpr ⟨c, hc, rfl⟩⟩
  | taskReturn =>
    obtain ⟨c, hc, -⟩ := Option.bind_eq_some_iff.mp hn
    rw [h.acting_eq] at hc
    exact ⟨trivial, _, Option.map_eq_some_iff.mpr ⟨c, hc, rfl⟩⟩
  | timerIrq =>
    obtain ⟨c, hc, -⟩ := Option.bind_eq_some_iff.mp hn
    rw [h.sched.currentProcess] at hc
    exact ⟨trivial, _, Option.map_eq_some_iff.mpr ⟨c, hc, rfl⟩⟩
  | keyboardIrq =>
    obtain ⟨c, hc, -⟩ := Option.bind_eq_some_iff.mp hn
    rw [h.sched.currentProcess] at hc
    exact ⟨trivial, _, Option.map_eq_some_iff.mpr ⟨c, hc, rfl⟩⟩

/-- **The two systems enable the same steps**, where `new` returns an address that is free. -/
theorem isSome_iff (h : n.Represents new s) (hnew : new.Injective)
    (hfresh : FreshNode n.sched a address) :
    (nodeStep new n (a, address)).isSome ↔ (Scheduler.step s a).isSome := by
  constructor
  · intro hn
    obtain ⟨n', hn⟩ := Option.isSome_iff_exists.mp hn
    exact Option.isSome_iff_exists.mpr (h.enabled hn).2
  · intro hs
    obtain ⟨s', hs⟩ := Option.isSome_iff_exists.mp hs
    obtain ⟨n', hn, -⟩ := h.step hnew hfresh hs
    exact Option.isSome_iff_exists.mpr ⟨n', hn⟩

/-- A step on the nodes is one on the sequences. -/
theorem step_of_nodeStep (h : n.Represents new s) (hnew : new.Injective)
    (hn : nodeStep new n (a, address) = some n') :
    ∃ s', Scheduler.step s a = some s' ∧ n'.Represents new s' := by
  obtain ⟨hfresh, s', hs⟩ := h.enabled hn
  obtain ⟨n'', hn', h'⟩ := h.step hnew hfresh hs
  obtain rfl : n' = n'' := Option.some.inj (hn.symm.trans hn')
  exact ⟨s', hs, h'⟩

end NodeSystem.Represents

/-! ## Runs -/

variable {n₀ n : NodeSystem} {t i : Ptr} {terminal : Task} {a b : ℕ} {ls : List (Label × ℕ)}

theorem emptyNodeSched_represents : emptyNodeSched.Represents new emptySched := by
  refine ⟨rfl, ⟨[], Holds.empty, rfl⟩, ⟨fun _ => [], fun _ => [], ⟨?_, ?_⟩, ?_, rfl, ?_⟩, rfl, rfl,
    rfl⟩
  · exact fun _ => Holds.empty
  · exact fun _ _ _ _ hp => absurd hp List.not_mem_nil
  · exact fun _ _ => rfl
  · exact fun _ => rfl

/-- The two calls of `create_process` before the first switch. -/
theorem nodeInit_cases (hnew : new.Injective) (h : nodeInit new t i terminal a b = some n₀) :
    ∃ n₁ n₂, emptyNodeSched.createProcess new t terminal a = some n₁ ∧
      NodeSched.createProcess new { n₁ with isEnabled := true } i .idleProcess b = some n₂ ∧
      n₁.Represents new (createProcess emptySched t terminal) ∧
      NodeSched.Represents new { n₁ with isEnabled := true }
        { createProcess emptySched t terminal with isEnabled := true } ∧
      n₂.Represents new (initSched t i terminal) ∧
      n₀ = ⟨n₂, fun _ => .user, [1, 0], []⟩ := by
  unfold nodeInit at h
  simp only [Option.bind_eq_bind, Option.bind_eq_some_iff] at h
  obtain ⟨n₁, h₁, n₂, h₂, h⟩ := h
  obtain ⟨n₁', h₁', hr₁⟩ := emptyNodeSched_represents.createProcess hnew t terminal
    (NodeSystem.Represents.fresh_of_createProcess h₁)
  obtain rfl : n₁ = n₁' := Option.some.inj (h₁.symm.trans h₁')
  have hr : NodeSched.Represents new { n₁ with isEnabled := true }
      { createProcess emptySched t terminal with isEnabled := true } :=
    ⟨rfl, hr₁.processes, hr₁.nodes_congr rfl rfl, hr₁.currentProcess, hr₁.timer, hr₁.pidGenerator⟩
  obtain ⟨n₂', h₂', hr₂⟩ := hr.createProcess hnew i .idleProcess
    (NodeSystem.Represents.fresh_of_createProcess h₂)
  obtain rfl : n₂ = n₂' := Option.some.inj (h₂.symm.trans h₂')
  exact ⟨n₁, n₂, h₁, h₂, hr₁, hr, hr₂, (Option.some.inj h).symm⟩

theorem nodeInit_represents (hnew : new.Injective)
    (h : nodeInit new t i terminal a b = some n₀) : n₀.Represents new (init t i terminal) := by
  obtain ⟨n₁, n₂, -, -, -, -, hr₂, rfl⟩ := nodeInit_cases hnew h
  exact ⟨hr₂, rfl, rfl, rfl⟩

/-- **The scheduler on its nodes**: in every run the nodes hold what the same run on the sequences
    computes, and enable what it enables. -/
theorem node_scheduler_refines (hnew : new.Injective)
    (hinit : nodeInit new t i terminal a b = some n₀) (hrun : run (nodeStep new) n₀ ls = some n) :
    ∃ s, run step (init t i terminal) (ls.map Prod.fst) = some s ∧ n.Represents new s ∧
      ∀ label address, FreshNode n.sched label address →
        ((nodeStep new n (label, address)).isSome ↔ (step s label).isSome) := by
  obtain ⟨s, hs, h⟩ : ∃ s, run step (init t i terminal) (ls.map Prod.fst) = some s ∧
      n.Represents new s := by
    refine run_history (I := fun ls n => ∃ s, run step (init t i terminal) (ls.map Prod.fst) =
      some s ∧ NodeSystem.Represents new n s) ⟨_, rfl, nodeInit_represents hnew hinit⟩ ?_ hrun
    rintro ls n ⟨label, address⟩ n' ⟨s, hs, h⟩ hn
    obtain ⟨s', hs', h'⟩ := h.step_of_nodeStep hnew hn
    refine ⟨s', ?_, h'⟩
    rw [List.map_append, run_append, hs]
    simp [run, hs']
  exact ⟨s, hs, h, fun label address hfresh => h.isSome_iff hnew hfresh⟩

/-- A process is created, waited for and deleted, and the next one takes its node of `processes`. -/
def lifecycle : List (Label × ℕ) :=
  [(.boot, 0), (.createProcess 12288 (.function 2), 300), (.waitFor 2, 0), (.reschedule, 0),
    (.timerIrq, 0), (.taskReturn, 0), (.timerIrq, 0), (.createProcess 16384 (.function 3), 300)]

theorem lifecycle_runs : ∃ n₀ n, nodeInit (· + 1000) 4096 8192 (.function 1) 100 200 = some n₀ ∧
    run (nodeStep (· + 1000)) n₀ lifecycle = some n := by
  have hsome : ((nodeInit (· + 1000) 4096 8192 (.function 1) 100 200).bind fun n₀ =>
      run (nodeStep (· + 1000)) n₀ lifecycle).isSome = true := by decide +kernel
  obtain ⟨n, hn⟩ := Option.isSome_iff_exists.mp hsome
  obtain ⟨n₀, hinit, hrun⟩ := Option.bind_eq_some_iff.mp hn
  exact ⟨n₀, n, hinit, hrun⟩

theorem node_scheduler_refines_example : ∃ n₀ n s,
    nodeInit (· + 1000) 4096 8192 (.function 1) 100 200 = some n₀ ∧
      run (nodeStep (· + 1000)) n₀ lifecycle = some n ∧
      run step (init 4096 8192 (.function 1)) (lifecycle.map Prod.fst) = some s ∧
      n.Represents (· + 1000) s := by
  obtain ⟨n₀, n, hinit, hrun⟩ := lifecycle_runs
  obtain ⟨s, hs, h, -⟩ :=
    node_scheduler_refines (fun _ _ => Nat.add_right_cancel) hinit hrun
  exact ⟨n₀, n, s, hinit, hrun, hs, h⟩

end HryOS.Scheduler
