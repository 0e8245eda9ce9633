import HryOS.Scheduler.Moves

/-!
# The scheduler's lists are consistent

* `Wf` — the invariant of the globals: lists against states, variants and `processes`.
* `IdleReady` — `idle` is on the processor or on the ready list, so whoever else gives up the
  processor finds a process to switch to.
* `Wf.enqueueCurrent`, `Wf.moved`, `Wf.pop`, `Wf.run`, … — what each kind of update needs.
* `reschedule_cases`, `reschedule_wf` — the three outcomes of `reschedule`.
-/

set_option autoImplicit false

namespace HryOS.Scheduler

/-- The states that have a list of their own in use. -/
def Listed (st : ProcState) : Prop := st ≠ .empty ∧ st ≠ .running

/-- The states a process enters by a blocking call. -/
def Blocking (st : ProcState) : Prop := st = .sleeping ∨ st = .waiting ∨ st = .blocked

theorem Blocking.listed {st : ProcState} (h : Blocking st) : Listed st := by
  rcases h with rfl | rfl | rfl <;> exact ⟨by simp, by simp⟩

theorem Blocking.ne_ready {st : ProcState} (h : Blocking st) : st ≠ .ready := by
  rcases h with rfl | rfl | rfl <;> decide

/-- The invariant of the globals. -/
structure Wf (s : Sched) : Prop where
  enabled : s.isEnabled = true
  nodup : ∀ st, (s.lists st).Nodup
  listed : ∀ st, ∀ p ∈ s.lists st, Listed st
  state_eq : ∀ st, ∀ p ∈ s.lists st, (s.proc p).state = st
  alive : ∀ st, ∀ p ∈ s.lists st, p ∈ s.processes
  matches_data : ∀ st, ∀ p ∈ s.lists st, (s.proc p).stateData.Matches st
  running : ∀ p ∈ s.processes, (s.proc p).state = .running → s.currentProcess = some p
  queued : ∀ p ∈ s.processes, Blocking (s.proc p).state → p ∈ s.lists (s.proc p).state
  not_empty : ∀ p ∈ s.processes, (s.proc p).state ≠ .empty
  current : ∀ c, s.currentProcess = some c → c ∈ s.processes

/-- Some idle process is running, or is ready and not current. -/
def IdleReady (s : Sched) : Prop :=
  ∃ i ∈ s.processes, (s.proc i).task = .idleProcess ∧
    ((s.currentProcess = some i ∧ (s.proc i).state = .running) ∨
      (s.currentProcess ≠ some i ∧ i ∈ s.lists .ready))

/-- `p` is on no list. -/
def OffLists (s : Sched) (p : Ptr) : Prop := ∀ st, p ∉ s.lists st

variable {s s' : Sched} {st source : ProcState} {p q c : Ptr} {rest ps : List Ptr}
  {data : StateData} {task : Task}

/-- A process is on no list but that of its state. -/
theorem Wf.offLists (h : Wf s) (hp : p ∉ s.lists (s.proc p).state) : OffLists s p := fun st hst =>
  hp ((h.state_eq st p hst).symm ▸ hst)

theorem Wf.offLists_of_running (h : Wf s) (hp : (s.proc p).state = .running) : OffLists s p := by
  apply h.offLists
  rw [hp]
  exact fun hl => (h.listed .running p hl).2 rfl

/-! ## Enqueueing one process -/

theorem enqueueCurrent_lists_self :
    (enqueueCurrent s c st data).lists st = s.lists st ++ [c] := Function.update_self ..

theorem enqueueCurrent_lists_of_ne {st' : ProcState} (hne : st' ≠ st) :
    (enqueueCurrent s c st data).lists st' = s.lists st' := Function.update_of_ne hne ..

theorem enqueueCurrent_proc_self : (enqueueCurrent s c st data).proc c =
    { s.proc c with state := st, stateData := data } := Function.update_self ..

theorem enqueueCurrent_proc_of_ne (hq : q ≠ c) :
    (enqueueCurrent s c st data).proc q = s.proc q := Function.update_of_ne hq ..

theorem mem_enqueueCurrent {st' : ProcState} : q ∈ (enqueueCurrent s c st data).lists st' ↔
    q ∈ s.lists st' ∨ (q = c ∧ st' = st) := by
  by_cases hne : st' = st
  · rw [hne, enqueueCurrent_lists_self, List.mem_append, List.mem_singleton]
    simp
  · rw [enqueueCurrent_lists_of_ne hne]
    simp [hne]

/-- A process on no list may enter the list of `st`. -/
theorem Wf.enqueueCurrent (h : Wf s) (hc : c ∈ s.processes) (hoff : OffLists s c)
    (hst : Listed st) (hdata : data.Matches st) : Wf (enqueueCurrent s c st data) := by
  have hproc : ∀ st', ∀ q ∈ s.lists st',
      (Scheduler.enqueueCurrent s c st data).proc q = s.proc q := fun st' q hq =>
    enqueueCurrent_proc_of_ne fun hqc => hoff st' (hqc ▸ hq)
  refine ⟨h.enabled, ?_, ?_, ?_, ?_, ?_, ?_, ?_, ?_,
    h.current⟩
  · intro st'
    by_cases hne : st' = st
    · rw [hne, enqueueCurrent_lists_self]
      exact (pushBack_perm (s.lists st) c).nodup_iff.mpr
        (List.nodup_cons.mpr ⟨hoff st, h.nodup st⟩)
    · rw [enqueueCurrent_lists_of_ne hne]
      exact h.nodup st'
  · intro st' q hq
    rcases mem_enqueueCurrent.mp hq with hq | ⟨-, rfl⟩
    · exact h.listed st' q hq
    · exact hst
  · intro st' q hq
    rcases mem_enqueueCurrent.mp hq with hq | ⟨rfl, rfl⟩
    · rw [hproc st' q hq]
      exact h.state_eq st' q hq
    · rw [enqueueCurrent_proc_self]
  · intro st' q hq
    rcases mem_enqueueCurrent.mp hq with hq | ⟨rfl, -⟩
    · exact h.alive st' q hq
    · exact hc
  · intro st' q hq
    rcases mem_enqueueCurrent.mp hq with hq | ⟨rfl, rfl⟩
    · rw [hproc st' q hq]
      exact h.matches_data st' q hq
    · rw [enqueueCurrent_proc_self]
      exact hdata
  · intro q hq hrun
    by_cases hqc : q = c
    · rw [hqc, enqueueCurrent_proc_self] at hrun
      exact absurd hrun hst.2
    · rw [enqueueCurrent_proc_of_ne hqc] at hrun
      exact h.running q hq hrun
  · intro q hq hb
    by_cases hqc : q = c
    · subst hqc
      rw [enqueueCurrent_proc_self]
      exact mem_enqueueCurrent.mpr (Or.inr ⟨rfl, rfl⟩)
    · rw [enqueueCurrent_proc_of_ne hqc] at hb ⊢
      exact mem_enqueueCurrent.mpr (Or.inl (h.queued q hq hb))
  · intro q hq
    by_cases hqc : q = c
    · rw [hqc, enqueueCurrent_proc_self]
      exact hst.1
    · rw [enqueueCurrent_proc_of_ne hqc]
      exact h.not_empty q hq

theorem IdleReady.enqueueCurrent (hi : IdleReady s) (hcur : s.currentProcess = some c)
    (hc : (s.proc c).task ≠ .idleProcess) : IdleReady (enqueueCurrent s c st data) := by
  obtain ⟨i, hip, htask, hor⟩ := hi
  have hic : i ≠ c := fun hic => hc (hic ▸ htask)
  refine ⟨i, hip, by rw [enqueueCurrent_proc_of_ne hic]; exact htask, Or.inr ?_⟩
  rcases hor with ⟨hcur', -⟩ | ⟨hne, hl⟩
  · exact absurd (Option.some.inj (hcur'.symm.trans hcur)) hic
  · exact ⟨hne, mem_enqueueCurrent.mpr (Or.inl hl)⟩

/-! ## Waking processes up -/

theorem Moved.mem_lists (hm : Moved source .ready ps s s') (hps : ∀ p ∈ ps, p ∈ s.lists source)
    (hq : q ∈ s'.lists st) : ∃ st', q ∈ s.lists st' := by
  by_cases h1 : st = source
  · exact ⟨source, ((hm.mem_source q).mp (h1 ▸ hq)).1⟩
  · by_cases h2 : st = .ready
    · rcases (hm.mem_target q).mp (h2 ▸ hq) with hq | hq
      · exact ⟨.ready, hq⟩
      · exact ⟨source, hps q hq⟩
    · exact ⟨st, hm.lists_of_ne st h1 h2 ▸ hq⟩

/-- Nothing leaves the lists in a move. -/
theorem Moved.exists_mem (hm : Moved source .ready ps s s') (hq : q ∈ s.lists st) :
    q ∈ s'.lists st ∨ q ∈ s'.lists .ready := by
  by_cases h1 : st = source
  · by_cases hqs : q ∈ ps
    · exact Or.inr ((hm.mem_target q).mpr (Or.inr hqs))
    · rw [h1]
      exact Or.inl ((hm.mem_source q).mpr ⟨h1 ▸ hq, hqs⟩)
  · by_cases h2 : st = .ready
    · exact Or.inr ((hm.mem_target q).mpr (Or.inl (h2 ▸ hq)))
    · exact Or.inl ((hm.lists_of_ne st h1 h2).symm ▸ hq)

theorem Moved.proc_of_not_mem (hm : Moved source .ready ps s s') (hq : q ∉ ps) :
    s'.proc q = s.proc q := by
  rw [hm.proc_eq, if_neg hq]

/-- Where an element of a list after the move comes from. -/
theorem Moved.mem_cases (hm : Moved source .ready ps s s') (h : Wf s)
    (hps : ∀ p ∈ ps, p ∈ s.lists source) (hq : q ∈ s'.lists st) :
    (q ∈ s.lists st ∧ q ∉ ps) ∨ (q ∈ ps ∧ st = .ready) := by
  have hother : st ≠ source → q ∈ s.lists st → q ∉ ps := fun hne hl hqs =>
    hne ((h.state_eq st q hl).symm.trans (h.state_eq source q (hps q hqs)))
  by_cases h1 : st = source
  · subst h1
    exact Or.inl ((hm.mem_source q).mp hq)
  · by_cases h2 : st = .ready
    · subst h2
      rcases (hm.mem_target q).mp hq with hl | hqs
      · exact Or.inl ⟨hl, hother h1 hl⟩
      · exact Or.inr ⟨hqs, rfl⟩
    · rw [hm.lists_of_ne st h1 h2] at hq
      exact Or.inl ⟨hq, hother h1 hq⟩

/-- Processes may move from a blocking list to the ready list. -/
theorem Wf.moved (h : Wf s) (hm : Moved source .ready ps s s') (hsrc : Blocking source)
    (hps : ∀ p ∈ ps, p ∈ s.lists source) : Wf s' := by
  have hready : ∀ q ∈ ps, (s'.proc q).state = .ready := fun q hq => by
    rw [hm.proc_eq, if_pos hq]
  refine ⟨hm.isEnabled.trans h.enabled, hm.nodup h.nodup ?_, ?_, ?_, ?_, ?_, ?_, ?_, ?_, ?_⟩
  · intro p hp hl
    exact hsrc.ne_ready.symm ((h.state_eq .ready p hl).symm.trans (h.state_eq source p (hps p hp)))
  · intro st q hq
    rcases hm.mem_cases h hps hq with ⟨hq, -⟩ | ⟨-, rfl⟩
    · exact h.listed st q hq
    · exact ⟨by simp, by simp⟩
  · intro st q hq
    rcases hm.mem_cases h hps hq with ⟨hq, hqs⟩ | ⟨hqs, rfl⟩
    · rw [hm.proc_of_not_mem hqs]
      exact h.state_eq st q hq
    · exact hready q hqs
  · intro st q hq
    rw [hm.processes]
    obtain ⟨st', hq'⟩ := hm.mem_lists hps hq
    exact h.alive st' q hq'
  · intro st q hq
    rcases hm.mem_cases h hps hq with ⟨hq, hqs⟩ | ⟨-, rfl⟩
    · rw [hm.proc_of_not_mem hqs]
      exact h.matches_data st q hq
    · exact trivial
  · intro q hq hrun
    rw [hm.currentProcess]
    rw [hm.processes] at hq
    by_cases hqs : q ∈ ps
    · rw [hready q hqs] at hrun
      cases hrun
    · rw [hm.proc_of_not_mem hqs] at hrun
      exact h.running q hq hrun
  · intro q hq hb
    rw [hm.processes] at hq
    by_cases hqs : q ∈ ps
    · rw [hready q hqs] at hb
      exact absurd rfl hb.ne_ready
    · rw [hm.proc_of_not_mem hqs] at hb ⊢
      rcases hm.exists_mem (h.queued q hq hb) with hl | hl
      · exact hl
      · rcases (hm.mem_target q).mp hl with hl | hl
        · exact absurd (h.state_eq .ready q hl) hb.ne_ready
        · exact absurd hl hqs
  · intro q hq
    rw [hm.processes] at hq
    by_cases hqs : q ∈ ps
    · rw [hready q hqs]
      decide
    · rw [hm.proc_of_not_mem hqs]
      exact h.not_empty q hq
  · intro c hc
    rw [hm.currentProcess] at hc
    rw [hm.processes]
    exact h.current c hc

theorem IdleReady.moved (hi : IdleReady s) (h : Wf s) (hm : Moved source .ready ps s s')
    (hps : ∀ p ∈ ps, p ∈ s.lists source) : IdleReady s' := by
  obtain ⟨i, hip, htask, hor⟩ := hi
  refine ⟨i, hm.processes ▸ hip, (hm.onlyState.task i).trans htask, ?_⟩
  rw [hm.currentProcess]
  rcases hor with ⟨hcur, hrun⟩ | ⟨hne, hl⟩
  · have his : i ∉ ps := fun his => h.offLists_of_running hrun source (hps i his)
    exact Or.inl ⟨hcur, by rw [hm.proc_of_not_mem his]; exact hrun⟩
  · exact Or.inr ⟨hne, (hm.mem_target i).mpr (Or.inl hl)⟩

theorem Moved.offLists (hm : Moved source .ready ps s s') (hps : ∀ p ∈ ps, p ∈ s.lists source)
    (hoff : OffLists s q) : OffLists s' q := fun st hst => by
  obtain ⟨st', hst'⟩ := hm.mem_lists hps hst
  exact hoff st' hst'

theorem selected_subset {f : Process → Bool} {l : List Ptr} : ∀ p ∈ selected s f l, p ∈ l :=
  fun _ hp => (List.mem_filter.mp hp).1

/-- The sleepers whose deadline is below the low half of the timer. -/
def due (s : Sched) : List Ptr :=
  selected s (fun q => decide (q.stateData.sleepTimeout < s.getTimer)) (s.lists .sleeping)

theorem wakeSleepers_due (h : Wf s) : Moved .sleeping .ready (due s) s (wakeSleepers s) :=
  moveToIf_moved pushFront_perm (by simp) (h.state_eq .sleeping) (h.nodup .sleeping)

theorem wakeSleepers_moved (h : Wf s) : ∃ ps, (∀ p ∈ ps, p ∈ s.lists .sleeping) ∧
    Moved .sleeping .ready ps s (wakeSleepers s) :=
  ⟨due s, selected_subset, wakeSleepers_due h⟩

theorem notifyBlocked_moved (h : Wf s) (type : BlockedType) :
    Moved .blocked .ready (selected s (fun q => decide (q.stateData.blockedType = type))
      (s.lists .blocked)) s (notifyBlocked s type) :=
  moveToIf_moved pushFront_perm (by simp) (h.state_eq .blocked) (h.nodup .blocked)

/-! ## `reschedule` -/

theorem Wf.pop (h : Wf s) (hl : s.lists .ready = p :: rest) : Wf (s.setList .ready rest) := by
  have hsub : ∀ st, ∀ q ∈ (s.setList .ready rest).lists st, q ∈ s.lists st := by
    intro st q hq
    by_cases hst : st = .ready
    · rw [hst, Sched.setList_lists_self] at hq
      rw [hst, hl]
      exact List.mem_cons_of_mem p hq
    · rwa [Sched.setList_lists_of_ne _ _ _ hst] at hq
  refine ⟨h.enabled, ?_, fun st q hq => h.listed st q (hsub st q hq),
    fun st q hq => h.state_eq st q (hsub st q hq), fun st q hq => h.alive st q (hsub st q hq),
    fun st q hq => h.matches_data st q (hsub st q hq), h.running, ?_, h.not_empty,
    h.current⟩
  · intro st
    by_cases hst : st = .ready
    · rw [hst, Sched.setList_lists_self]
      exact (List.nodup_cons.mp (hl ▸ h.nodup .ready)).2
    · rw [Sched.setList_lists_of_ne _ _ _ hst]
      exact h.nodup st
  · intro q hq hb
    rw [Sched.setList_lists_of_ne _ _ _ hb.ne_ready]
    exact h.queued q hq hb

theorem Wf.offLists_pop (h : Wf s) (hl : s.lists .ready = p :: rest) :
    OffLists (s.setList .ready rest) p := by
  apply (h.pop hl).offLists
  have hst : (s.proc p).state = .ready := h.state_eq .ready p (hl ▸ List.mem_cons_self)
  rw [Sched.setList_proc, hst, Sched.setList_lists_self]
  exact (List.nodup_cons.mp (hl ▸ h.nodup .ready)).1

/-- A running current process goes back by the same update as a blocking call. -/
theorem requeueCurrent_eq_of_running (hcur : s.currentProcess = some c)
    (hrun : (s.proc c).state = .running) :
    requeueCurrent s = enqueueCurrent s c .ready (s.proc c).stateData := by
  unfold requeueCurrent
  rw [hcur]
  exact if_pos hrun

theorem requeueCurrent_eq_self
    (hcur : ∀ c, s.currentProcess = some c → (s.proc c).state ≠ .running) :
    requeueCurrent s = s := by
  unfold requeueCurrent
  split
  · rename_i c hc
    exact if_neg (hcur c hc)
  · rfl

/-- The two forms `requeueCurrent` takes. -/
theorem requeueCurrent_cases (s : Sched) :
    (∃ c, s.currentProcess = some c ∧ (s.proc c).state = .running ∧
      requeueCurrent s = enqueueCurrent s c .ready (s.proc c).stateData) ∨
    ((∀ c, s.currentProcess = some c → (s.proc c).state ≠ .running) ∧ requeueCurrent s = s) := by
  by_cases h : ∃ c, s.currentProcess = some c ∧ (s.proc c).state = .running
  · obtain ⟨c, hcur, hrun⟩ := h
    exact Or.inl ⟨c, hcur, hrun, requeueCurrent_eq_of_running hcur hrun⟩
  · have hno : ∀ c, s.currentProcess = some c → (s.proc c).state ≠ .running :=
      fun c hc hrun => h ⟨c, hc, hrun⟩
    exact Or.inr ⟨hno, requeueCurrent_eq_self hno⟩

theorem requeueCurrent_processes (s : Sched) : (requeueCurrent s).processes = s.processes := by
  rcases requeueCurrent_cases s with ⟨c, -, -, heq⟩ | ⟨-, heq⟩ <;> rw [heq]
  rfl

theorem requeueCurrent_proc_of_ne (hp : s.currentProcess ≠ some p) :
    (requeueCurrent s).proc p = s.proc p := by
  rcases requeueCurrent_cases s with ⟨c, hcur, -, heq⟩ | ⟨-, heq⟩ <;> rw [heq]
  exact enqueueCurrent_proc_of_ne fun hpc => hp (hpc ▸ hcur)

/-- Putting the current process back leaves nobody running. -/
theorem Wf.requeueCurrent (h : Wf s) : Wf (requeueCurrent s) ∧
    (∀ q ∈ s.processes, ((requeueCurrent s).proc q).state ≠ .running) ∧
    (s.currentProcess ≠ some p → OffLists s p → OffLists (requeueCurrent s) p) := by
  rcases requeueCurrent_cases s with ⟨c, hcur, hrun, heq⟩ | ⟨hno, heq⟩
  · rw [heq]
    have hoff := h.offLists_of_running hrun
    refine ⟨h.enqueueCurrent (h.current c hcur) hoff ⟨by simp, by simp⟩ trivial, ?_, ?_⟩
    · intro q hq hqr
      by_cases hqc : q = c
      · rw [hqc, enqueueCurrent_proc_self] at hqr
        cases hqr
      · rw [enqueueCurrent_proc_of_ne hqc] at hqr
        exact hqc (Option.some.inj ((h.running q hq hqr).symm.trans hcur))
    · intro hne hp st hst
      rcases mem_enqueueCurrent.mp hst with hst | ⟨rfl, -⟩
      · exact hp st hst
      · exact hne hcur
  · rw [heq]
    exact ⟨h, fun q hq hqr => hno q (h.running q hq hqr) hqr, fun _ hp => hp⟩

/-- A process on no list may run when nobody does. -/
theorem Wf.run (h : Wf s) (hp : p ∈ s.processes) (hoff : OffLists s p)
    (hnone : ∀ q ∈ s.processes, (s.proc q).state ≠ .running) :
    Wf (switchToTask (s.setState p .running) p) := by
  have hproc : ∀ st, ∀ q ∈ s.lists st, (s.setState p .running).proc q = s.proc q :=
    fun st q hq => Sched.setProc_proc_of_ne s _ fun hqp => hoff st (hqp ▸ hq)
  have hself : (s.setState p .running).proc p = { s.proc p with state := .running } :=
    Sched.setProc_proc_self s _
  unfold switchToTask
  refine ⟨h.enabled, h.nodup, h.listed, ?_, h.alive, ?_, ?_, ?_, ?_, ?_⟩
  · intro st q hq
    show ((s.setState p .running).proc q).state = st
    rw [hproc st q hq]
    exact h.state_eq st q hq
  · intro st q hq
    show ((s.setState p .running).proc q).stateData.Matches st
    rw [hproc st q hq]
    exact h.matches_data st q hq
  · intro q hq hrun
    by_cases hqp : q = p
    · rw [hqp]
    · have hrun' : (s.proc q).state = .running := by
        rw [← Sched.setProc_proc_of_ne s { s.proc p with state := .running } hqp]
        exact hrun
      exact absurd hrun' (hnone q hq)
  · intro q hq hb
    by_cases hqp : q = p
    · rw [hqp] at hb
      have hb' : Blocking ((s.setState p .running).proc p).state := hb
      rw [hself] at hb'
      rcases hb' with h | h | h <;> cases h
    · have heq : (s.setState p .running).proc q = s.proc q := Sched.setProc_proc_of_ne s _ hqp
      show q ∈ s.lists ((s.setState p .running).proc q).state
      have hb' : Blocking ((s.setState p .running).proc q).state := hb
      rw [heq] at hb' ⊢
      exact h.queued q hq hb'
  · intro q hq
    show ((s.setState p .running).proc q).state ≠ .empty
    by_cases hqp : q = p
    · rw [hqp, hself]
      exact nofun
    · rw [show (s.setState p .running).proc q = s.proc q from Sched.setProc_proc_of_ne s _ hqp]
      exact h.not_empty q hq
  · intro c hc
    cases hc
    exact hp

/-- The end of `reschedule`, when it switches to the popped process `p`. -/
def dispatch (s : Sched) (p : Ptr) (rest : List Ptr) : Sched :=
  switchToTask ((requeueCurrent (s.setList .ready rest)).setState p .running) p

/-- **The three outcomes of `reschedule`**: no process is ready, the current process is popped,
    or another one is popped and dispatched. -/
theorem reschedule_cases (h : Wf s) :
    ((wakeSleepers s).lists .ready = [] ∧ reschedule s = wakeSleepers s) ∨
    (∃ p rest, (wakeSleepers s).lists .ready = p :: rest ∧ s.currentProcess = some p ∧
      reschedule s = (wakeSleepers s).setList .ready rest) ∨
    ∃ p rest, (wakeSleepers s).lists .ready = p :: rest ∧ s.currentProcess ≠ some p ∧
      reschedule s = dispatch (wakeSleepers s) p rest := by
  obtain ⟨ps, hps, hm⟩ := wakeSleepers_moved h
  have hw : Wf (wakeSleepers s) := h.moved hm (Or.inl rfl) hps
  have hcur := hm.currentProcess
  unfold reschedule
  rw [if_pos h.enabled]
  dsimp only
  cases hl : (wakeSleepers s).lists .ready with
  | nil => exact Or.inl ⟨rfl, rfl⟩
  | cons p rest =>
    dsimp only
    by_cases hp : s.currentProcess = some p
    · rw [if_pos (show ((wakeSleepers s).setList .ready rest).currentProcess = some p from
        hcur.trans hp)]
      exact Or.inr (Or.inl ⟨p, rest, rfl, hp, rfl⟩)
    · have hp' : ((wakeSleepers s).setList .ready rest).currentProcess ≠ some p := by
        rw [Sched.setList_currentProcess, hcur]
        exact hp
      have hst : ((wakeSleepers s).proc p).state = .ready :=
        hw.state_eq .ready p (hl ▸ List.mem_cons_self)
      rw [if_neg hp', requeueCurrent_proc_of_ne hp', Sched.setList_proc, if_pos hst]
      exact Or.inr (Or.inr ⟨p, rest, rfl, hp, rfl⟩)

theorem dispatch_wf (h : Wf s) (hl : s.lists .ready = p :: rest) (hp : s.currentProcess ≠ some p) :
    Wf (dispatch s p rest) ∧ OffLists (dispatch s p rest) p := by
  obtain ⟨hw, hnone, hoff⟩ := (h.pop hl).requeueCurrent (p := p)
  have hpp : p ∈ s.processes := h.alive .ready p (hl ▸ List.mem_cons_self)
  have hoff' := hoff hp (h.offLists_pop hl)
  have hprocs := requeueCurrent_processes (s.setList .ready rest)
  exact ⟨hw.run (hprocs ▸ hpp) hoff' fun q hq => hnone q (hprocs ▸ hq), hoff'⟩

/-- The lists after a dispatch: `p` is gone, and a running current process has joined. -/
theorem mem_dispatch : q ∈ (dispatch s p rest).lists st ↔
    q ∈ (s.setList .ready rest).lists st ∨
      (s.currentProcess = some q ∧ (s.proc q).state = .running ∧ st = .ready) := by
  show q ∈ (requeueCurrent (s.setList .ready rest)).lists st ↔ _
  rcases requeueCurrent_cases (s.setList .ready rest) with ⟨c, hcur, hrun, heq⟩ | ⟨hno, heq⟩
  · rw [heq, mem_enqueueCurrent]
    refine or_congr_right ⟨?_, ?_⟩
    · rintro ⟨rfl, rfl⟩
      exact ⟨hcur, hrun, rfl⟩
    · rintro ⟨hq, -, rfl⟩
      exact ⟨Option.some.inj (hq.symm.trans hcur), rfl⟩
  · rw [heq]
    refine ⟨Or.inl, ?_⟩
    rintro (hq | ⟨hq, hqr, -⟩)
    · exact hq
    · exact absurd hqr (hno q hq)

theorem setState_onlyState (s : Sched) (p : Ptr) (st : ProcState) :
    OnlyState s (s.setState p st) := fun q => by
  by_cases hqp : q = p
  · rw [hqp]
    exact ⟨st, Sched.setProc_proc_self s _⟩
  · exact ⟨(s.proc q).state, Sched.setProc_proc_of_ne s _ hqp⟩

theorem requeueCurrent_onlyState (s : Sched) : OnlyState s (requeueCurrent s) := by
  rcases requeueCurrent_cases s with ⟨c, -, -, heq⟩ | ⟨-, heq⟩
  · rw [heq]
    exact setState_onlyState s c .ready
  · rw [heq]
    exact OnlyState.refl s

theorem dispatch_onlyState : OnlyState s (dispatch s p rest) :=
  (requeueCurrent_onlyState (s.setList .ready rest)).trans
    (setState_onlyState (requeueCurrent (s.setList .ready rest)) p .running)

theorem dispatch_processes : (dispatch s p rest).processes = s.processes :=
  requeueCurrent_processes (s.setList .ready rest)

theorem IdleReady.dispatch (hi : IdleReady s) (hl : s.lists .ready = p :: rest)
    (hp : s.currentProcess ≠ some p) : IdleReady (dispatch s p rest) := by
  obtain ⟨i, hip, htask, hor⟩ := hi
  refine ⟨i, dispatch_processes.symm ▸ hip, (dispatch_onlyState.task i).trans htask, ?_⟩
  by_cases hipp : i = p
  · subst hipp
    refine Or.inl ⟨rfl, ?_⟩
    show ((Sched.setState _ i .running).proc i).state = .running
    rw [Sched.setState, Sched.setProc_proc_self]
  · refine Or.inr ⟨fun hcur => hipp (Option.some.inj hcur).symm, mem_dispatch.mpr ?_⟩
    rcases hor with ⟨hcur, hrun⟩ | ⟨-, hil⟩
    · exact Or.inr ⟨hcur, hrun, rfl⟩
    · rw [hl] at hil
      rw [Sched.setList_lists_self]
      exact Or.inl ((List.mem_cons.mp hil).resolve_left hipp)

/-- `reschedule` keeps the invariant, and whoever runs afterwards is on no list, unless nobody
    was ready. -/
theorem reschedule_wf (h : Wf s) (hi : IdleReady s) :
    Wf (reschedule s) ∧ IdleReady (reschedule s) ∧
      (reschedule s).processes = s.processes ∧
      OnlyState s (reschedule s) ∧
      ((reschedule s).currentProcess = s.currentProcess ∧ (wakeSleepers s).lists .ready = [] ∧
          reschedule s = wakeSleepers s ∨
        ∃ c, (reschedule s).currentProcess = some c ∧ OffLists (reschedule s) c) := by
  obtain ⟨ps, hps, hm⟩ := wakeSleepers_moved h
  have hw : Wf (wakeSleepers s) := h.moved hm (Or.inl rfl) hps
  have hwi : IdleReady (wakeSleepers s) := hi.moved h hm hps
  rcases reschedule_cases h with ⟨hl, heq⟩ | ⟨p, rest, hl, hp, heq⟩ | ⟨p, rest, hl, hp, heq⟩
  · rw [heq]
    exact ⟨hw, hwi, hm.processes, hm.onlyState, Or.inl ⟨hm.currentProcess, hl, rfl⟩⟩
  · rw [heq]
    have hp' : (wakeSleepers s).currentProcess = some p := hm.currentProcess.trans hp
    refine ⟨hw.pop hl, ?_, hm.processes, hm.onlyState, Or.inr ⟨p, hp', hw.offLists_pop hl⟩⟩
    obtain ⟨i, hip, hit, hor⟩ := hwi
    refine ⟨i, hip, hit, ?_⟩
    rcases hor with ⟨hcur, hrun⟩ | ⟨hne, hil⟩
    · exact Or.inl ⟨hcur, hrun⟩
    · refine Or.inr ⟨hne, ?_⟩
      rw [hl] at hil
      rw [Sched.setList_lists_self]
      exact (List.mem_cons.mp hil).resolve_left fun hipp => hne (hipp ▸ hp')
  · rw [heq]
    have hp' : (wakeSleepers s).currentProcess ≠ some p := by
      rw [hm.currentProcess]
      exact hp
    obtain ⟨hwf, hoff⟩ := dispatch_wf hw hl hp'
    exact ⟨hwf, hwi.dispatch hl hp', dispatch_processes.trans hm.processes,
      hm.onlyState.trans dispatch_onlyState, Or.inr ⟨p, rfl, hoff⟩⟩

/-- `reschedule` touches only the sleeping and the ready list. -/
theorem mem_reschedule_of_ne (h : Wf s) (h1 : st ≠ .sleeping) (h2 : st ≠ .ready) :
    q ∈ (reschedule s).lists st ↔ q ∈ s.lists st := by
  obtain ⟨ps, hps, hm⟩ := wakeSleepers_moved h
  rw [← hm.lists_of_ne st h1 h2]
  rcases reschedule_cases h with ⟨-, heq⟩ | ⟨p, rest, -, -, heq⟩ | ⟨p, rest, -, -, heq⟩
  · rw [heq]
  · rw [heq, Sched.setList_lists_of_ne _ _ _ h2]
  · rw [heq, mem_dispatch, Sched.setList_lists_of_ne _ _ _ h2]
    exact or_iff_left fun hr => h2 hr.2.2

end HryOS.Scheduler
