import HryOS.Scheduler.Consistency
import HryOS.Scheduler.System

/-!
# The invariant of the running scheduler

* `Inv` — `Wf` and `IdleReady` of the globals, and where processes stand: one in its own code is
  on no list, and `idle` never makes a blocking call.
* `step_inv` — every step keeps `Inv`.
* `lists_consistent` — what it says about the lists in every reachable state.
-/

set_option autoImplicit false

namespace HryOS.Scheduler

open ByteMemory Transition

variable {s s' : Sched} {c p q : Ptr} {task : Task}

/-! ## Creating a process -/

/-- `create_process` up to its last statement, the insertion into the ready list. -/
def register (s : Sched) (p : Ptr) (task : Task) : Sched :=
  { s.setProc p ⟨s.pidGenerator, .ready, .none, task, s.getTimer⟩ with
    processes := s.processes ++ [p]
    pidGenerator := u32 (s.pidGenerator + 1) }

theorem createProcess_eq : createProcess s p task =
    (register s p task).setList .ready (pushBack (s.lists .ready) p) := rfl

theorem mem_createProcess {st : ProcState} : q ∈ (createProcess s p task).lists st ↔
    q ∈ s.lists st ∨ (q = p ∧ st = .ready) := by
  rw [createProcess_eq]
  by_cases hst : st = .ready
  · subst hst
    rw [Sched.setList_lists_self, pushBack, List.mem_append, List.mem_singleton]
    simp
  · rw [Sched.setList_lists_of_ne _ _ _ hst]
    exact ⟨Or.inl, fun h => h.resolve_right fun h => hst h.2⟩

theorem createProcess_proc_self : (createProcess s p task).proc p =
    ⟨s.pidGenerator, .ready, .none, task, s.getTimer⟩ := Function.update_self ..

/-- The new object is no live process, so the records of these stay. -/
theorem createProcess_proc_of_mem (hp : p ∉ s.processes) (hq : q ∈ s.processes) :
    (createProcess s p task).proc q = s.proc q := by
  have hqp : q ≠ p := fun hqp => hp (hqp ▸ hq)
  exact Function.update_of_ne hqp ..

theorem createProcess_processes : (createProcess s p task).processes = s.processes ++ [p] := rfl

theorem Wf.createProcess (h : Wf s) (hp : p ∉ s.processes) : Wf (createProcess s p task) := by
  have hoff : ∀ st, p ∉ s.lists st := fun st hst => hp (h.alive st p hst)
  have hself : (Scheduler.createProcess s p task).proc p =
      ⟨s.pidGenerator, .ready, .none, task, s.getTimer⟩ := createProcess_proc_self
  have hold : ∀ q ∈ s.processes, (Scheduler.createProcess s p task).proc q = s.proc q :=
    fun q hq => createProcess_proc_of_mem hp hq
  refine ⟨h.enabled, ?_, ?_, ?_, ?_, ?_, ?_, ?_, ?_, ?_⟩
  · intro st
    rw [createProcess_eq]
    by_cases hst : st = .ready
    · rw [hst, Sched.setList_lists_self]
      exact (pushBack_perm (s.lists .ready) p).nodup_iff.mpr
        (List.nodup_cons.mpr ⟨hoff .ready, h.nodup .ready⟩)
    · rw [Sched.setList_lists_of_ne _ _ _ hst]
      exact h.nodup st
  · intro st q hq
    rcases mem_createProcess.mp hq with hq | ⟨-, rfl⟩
    · exact h.listed st q hq
    · exact ⟨by simp, by simp⟩
  · intro st q hq
    rcases mem_createProcess.mp hq with hq | ⟨rfl, rfl⟩
    · rw [hold q (h.alive st q hq)]
      exact h.state_eq st q hq
    · rw [hself]
  · intro st q hq
    rw [createProcess_processes, List.mem_append, List.mem_singleton]
    rcases mem_createProcess.mp hq with hq | ⟨rfl, -⟩
    · exact Or.inl (h.alive st q hq)
    · exact Or.inr rfl
  · intro st q hq
    rcases mem_createProcess.mp hq with hq | ⟨rfl, rfl⟩
    · rw [hold q (h.alive st q hq)]
      exact h.matches_data st q hq
    · exact trivial
  · intro q hq hrun
    rw [createProcess_processes, List.mem_append, List.mem_singleton] at hq
    rcases hq with hq | rfl
    · rw [hold q hq] at hrun
      exact h.running q hq hrun
    · rw [hself] at hrun
      cases hrun
  · intro q hq hb
    rw [createProcess_processes, List.mem_append, List.mem_singleton] at hq
    rcases hq with hq | rfl
    · rw [hold q hq] at hb ⊢
      exact mem_createProcess.mpr (Or.inl (h.queued q hq hb))
    · rw [hself] at hb
      exact absurd rfl hb.ne_ready
  · intro q hq
    rw [createProcess_processes, List.mem_append, List.mem_singleton] at hq
    rcases hq with hq | rfl
    · rw [hold q hq]
      exact h.not_empty q hq
    · rw [hself]
      exact nofun
  · intro c hc
    rw [createProcess_processes, List.mem_append]
    exact Or.inl (h.current c hc)

theorem IdleReady.createProcess (hi : IdleReady s) (hp : p ∉ s.processes) :
    IdleReady (createProcess s p task) := by
  obtain ⟨i, hip, htask, hor⟩ := hi
  have hold : (Scheduler.createProcess s p task).proc i = s.proc i :=
    createProcess_proc_of_mem hp hip
  refine ⟨i, List.mem_append_left [p] hip, by rw [hold]; exact htask, ?_⟩
  rw [hold]
  exact hor.imp_right fun h => ⟨h.1, mem_createProcess.mpr (Or.inl h.2)⟩

/-! ## Ending a process -/

/-- `process_starter` after the task of `c`, up to its call of `reschedule`. -/
def terminated (s : Sched) (c : Ptr) : Sched :=
  let w := moveToBackIf s .waiting .ready fun q =>
    decide (q.stateData.waitingPid = (s.proc c).pid)
  { w with processes := w.processes.filter (· ≠ c), currentProcess := none }

theorem wakeWaiters_moved (h : Wf s) (c : Ptr) :
    Moved .waiting .ready
      (selected s (fun q => decide (q.stateData.waitingPid = (s.proc c).pid)) (s.lists .waiting)) s
      (moveToBackIf s .waiting .ready fun q =>
        decide (q.stateData.waitingPid = (s.proc c).pid)) :=
  moveToIf_moved pushBack_perm (by simp) (h.state_eq .waiting) (h.nodup .waiting)

theorem mem_terminated_processes (h : Wf s) :
    q ∈ (terminated s c).processes ↔ q ∈ s.processes ∧ q ≠ c := by
  show q ∈ List.filter _ _ ↔ _
  rw [(wakeWaiters_moved h c).processes, List.mem_filter, decide_eq_true_eq]

theorem terminated_onlyState (h : Wf s) : OnlyState s (terminated s c) :=
  (wakeWaiters_moved h c).onlyState

theorem Wf.terminated (h : Wf s) (hcur : s.currentProcess = some c) (hoff : OffLists s c) :
    Wf (terminated s c) := by
  have hm := wakeWaiters_moved h c
  have hw := h.moved hm (Or.inr (Or.inl rfl)) selected_subset
  have hmem : ∀ q, q ∈ (Scheduler.terminated s c).processes ↔ q ∈ s.processes ∧ q ≠ c := fun q =>
    mem_terminated_processes h
  have hold : ∀ q ∈ (Scheduler.terminated s c).processes, q ∈ (moveToBackIf s .waiting .ready
      fun q => decide (q.stateData.waitingPid = (s.proc c).pid)).processes := fun q hq => by
    rw [hm.processes]
    exact ((hmem q).mp hq).1
  refine ⟨hw.enabled, hw.nodup, hw.listed, hw.state_eq, ?_, hw.matches_data, ?_,
    fun q hq hb => hw.queued q (hold q hq) hb,
    fun q hq => hw.not_empty q (hold q hq), fun d hd => by cases hd⟩
  · intro st q hq
    obtain ⟨st', hst'⟩ := hm.mem_lists selected_subset hq
    exact (hmem q).mpr ⟨h.alive st' q hst', fun hqc => hoff st' (hqc ▸ hst')⟩
  · intro q hq hrun
    have hcur' : s.currentProcess = some q := hm.currentProcess ▸ hw.running q (hold q hq) hrun
    exact absurd (Option.some.inj (hcur'.symm.trans hcur)) ((hmem q).mp hq).2

theorem IdleReady.terminated (hi : IdleReady s) (h : Wf s) (hcur : s.currentProcess = some c)
    (hc : (s.proc c).task ≠ .idleProcess) : IdleReady (terminated s c) := by
  obtain ⟨i, hip, htask, hor⟩ := hi
  have hic : i ≠ c := fun hic => hc (hic ▸ htask)
  refine ⟨i, (mem_terminated_processes h).mpr ⟨hip, hic⟩, ((terminated_onlyState h).task i).trans htask,
    Or.inr ⟨nofun, ?_⟩⟩
  rcases hor with ⟨hcur', -⟩ | ⟨-, hl⟩
  · exact absurd (Option.some.inj (hcur'.symm.trans hcur)) hic
  · exact ((wakeWaiters_moved h c).mem_target i).mpr (Or.inl hl)

/-! ## The invariant -/

/-- What holds of every reachable state. -/
structure Inv (s : System) : Prop where
  wf : Wf s.sched
  idle : IdleReady s.sched
  user : ∀ c, s.sched.currentProcess = some c → s.loc c = .user → OffLists s.sched c
  window : ∀ p ∈ s.sched.processes, s.loc p = .window → (s.sched.proc p).task ≠ .idleProcess
  deleted : ∀ p ∈ s.deleted, p ∉ s.sched.processes

variable {t t' : System} {l : Loc}

theorem acting_iff : t.acting l = some c ↔
    t.sched.currentProcess = some c ∧ (t.sched.proc c).task ≠ .idleProcess ∧ t.loc c = l := by
  unfold System.acting
  rw [Option.filter_eq_some_iff, Bool.and_eq_true, decide_eq_true_eq, decide_eq_true_eq]

/-- What `step` does, label by label. -/
theorem step_cases {a : Label} (h : step t a = some t') :
    (a = .boot ∧ t.sched.currentProcess = none ∧ t' = { t with sched := reschedule t.sched }) ∨
    (∃ c p task, a = .createProcess p task ∧ t.acting .user = some c ∧ p ∉ t.sched.processes ∧
      t' = ⟨createProcess t.sched p task, Function.update t.loc p .user,
        t.sched.pidGenerator :: t.returned, t.deleted.filter (· ≠ p)⟩) ∨
    (∃ c st data, t.acting .user = some c ∧ Blocking st ∧ data.Matches st ∧
      ((∃ time, a = .sleepMs time ∧ st = .sleeping ∧
          data = .sleepData (u32 (t.sched.getTimer + time))) ∨
        (∃ type, a = .blockCurrentProcess type ∧ st = .blocked ∧ data = .blockedData type) ∨
        ∃ pid, a = .waitFor pid ∧ st = .waiting ∧ data = .waitingData pid) ∧
      t' = { t with sched := enqueueCurrent t.sched c st data
                    loc := Function.update t.loc c .window }) ∨
    (∃ c, a = .reschedule ∧ t.acting .window = some c ∧
      t' = { t with sched := reschedule t.sched, loc := Function.update t.loc c .user }) ∨
    (∃ c, a = .taskReturn ∧ t.acting .user = some c ∧
      t' = { t with sched := reschedule (terminated t.sched c), deleted := c :: t.deleted }) ∨
    (∃ c, a = .timerIrq ∧ t.sched.currentProcess = some c ∧
      t' = { t with sched := timerCallback t.sched }) ∨
    ∃ c, a = .keyboardIrq ∧ t.sched.currentProcess = some c ∧
      t' = { t with sched := notifyBlocked t.sched .io } := by
  cases a with
  | boot =>
    simp only [step] at h
    split at h
    · rename_i hcur
      exact Or.inl ⟨rfl, hcur, (Option.some.inj h).symm⟩
    · cases h
  | createProcess p task =>
    obtain ⟨c, hc, h⟩ := Option.bind_eq_some_iff.mp h
    split at h
    · cases h
    · rename_i hp
      exact Or.inr (Or.inl ⟨c, p, task, rfl, hc, hp, (Option.some.inj h).symm⟩)
  | sleepMs time =>
    obtain ⟨c, hc, h⟩ := Option.map_eq_some_iff.mp h
    exact Or.inr (Or.inr (Or.inl ⟨c, .sleeping, _, hc, Or.inl rfl, ⟨_, rfl⟩,
      Or.inl ⟨time, rfl, rfl, rfl⟩, h.symm⟩))
  | blockCurrentProcess type =>
    obtain ⟨c, hc, h⟩ := Option.map_eq_some_iff.mp h
    exact Or.inr (Or.inr (Or.inl ⟨c, .blocked, _, hc, Or.inr (Or.inr rfl), ⟨_, rfl⟩,
      Or.inr (Or.inl ⟨type, rfl, rfl, rfl⟩), h.symm⟩))
  | waitFor pid =>
    obtain ⟨c, hc, h⟩ := Option.map_eq_some_iff.mp h
    exact Or.inr (Or.inr (Or.inl ⟨c, .waiting, _, hc, Or.inr (Or.inl rfl), ⟨_, rfl⟩,
      Or.inr (Or.inr ⟨pid, rfl, rfl, rfl⟩), h.symm⟩))
  | reschedule =>
    obtain ⟨c, hc, h⟩ := Option.map_eq_some_iff.mp h
    exact Or.inr (Or.inr (Or.inr (Or.inl ⟨c, rfl, hc, h.symm⟩)))
  | taskReturn =>
    obtain ⟨c, hc, h⟩ := Option.map_eq_some_iff.mp h
    exact Or.inr (Or.inr (Or.inr (Or.inr (Or.inl ⟨c, rfl, hc, h.symm⟩))))
  | timerIrq =>
    obtain ⟨c, hc, h⟩ := Option.map_eq_some_iff.mp h
    exact Or.inr (Or.inr (Or.inr (Or.inr (Or.inr (Or.inl ⟨c, rfl, hc, h.symm⟩)))))
  | keyboardIrq =>
    obtain ⟨c, hc, h⟩ := Option.map_eq_some_iff.mp h
    exact Or.inr (Or.inr (Or.inr (Or.inr (Or.inr (Or.inr ⟨c, rfl, hc, h.symm⟩)))))

/-- `reschedule` keeps the invariant when the current process is on no list, or is in a blocking
    call (so that `idle`, being another process, is ready). -/
theorem Inv.reschedule (hwf : Wf t.sched) (hi : IdleReady t.sched)
    (hu : ∀ c, t.sched.currentProcess = some c → t.loc c = .user →
      OffLists t.sched c ∨ (t.sched.proc c).task ≠ .idleProcess)
    (hw : ∀ p ∈ t.sched.processes, t.loc p = .window → (t.sched.proc p).task ≠ .idleProcess)
    (hd : ∀ p ∈ t.deleted, p ∉ t.sched.processes) :
    Inv { t with sched := reschedule t.sched } := by
  obtain ⟨hwf', hi', hprocs, honly, hcur⟩ := reschedule_wf hwf hi
  refine ⟨hwf', hi', ?_, ?_, ?_⟩
  · intro c hc huser
    rcases hcur with ⟨hsame, hl, heq⟩ | ⟨d, hd, hoff⟩
    · have hc' : t.sched.currentProcess = some c := hsame ▸ hc
      rcases hu c hc' huser with hoff | hidle
      · obtain ⟨ps, hps, hm⟩ := wakeSleepers_moved hwf
        show OffLists (Scheduler.reschedule t.sched) c
        rw [heq]
        exact hm.offLists hps hoff
      · -- nobody is ready, so `idle` is the current process
        obtain ⟨i, -, hit, ⟨hic, -⟩ | ⟨-, hil⟩⟩ := hi'
        · have hic' : i = c := Option.some.inj (hic.symm.trans hc)
          rw [hic', honly.task] at hit
          exact absurd hit hidle
        · rw [heq, hl] at hil
          exact absurd hil List.not_mem_nil
    · have hdc : d = c := Option.some.inj (hd.symm.trans hc)
      exact hdc ▸ hoff
  · intro p hp hloc
    show ((Scheduler.reschedule t.sched).proc p).task ≠ .idleProcess
    rw [honly.task]
    exact hw p (hprocs ▸ hp) hloc
  · intro p hp
    show p ∉ (Scheduler.reschedule t.sched).processes
    rw [hprocs]
    exact hd p hp

/-- The timer plays no part in the invariant. -/
theorem Wf.tick (h : Wf s) (n : ℕ) : Wf { s with timer := n } :=
  ⟨h.enabled, h.nodup, h.listed, h.state_eq, h.alive, h.matches_data, h.running, h.queued,
    h.not_empty, h.current⟩

/-! ## Steps keep the invariant -/

theorem Inv.createProcess (h : Inv t) (hc : t.acting .user = some c) (hp : p ∉ t.sched.processes) :
    Inv ⟨createProcess t.sched p task, Function.update t.loc p .user,
      t.sched.pidGenerator :: t.returned, t.deleted.filter (· ≠ p)⟩ := by
  obtain ⟨hcur, -, -⟩ := acting_iff.mp hc
  have hne : ∀ q ∈ t.sched.processes, q ≠ p := fun q hq hqp => hp (hqp ▸ hq)
  refine ⟨h.wf.createProcess hp, h.idle.createProcess hp, ?_, ?_, ?_⟩
  · intro d hd huser st hst
    have hdc : d = c := Option.some.inj (hd.symm.trans hcur)
    have hdp : d ≠ p := hne d (h.wf.current d hd)
    have huser' : t.loc d = .user := by
      rw [← huser]
      exact (Function.update_of_ne hdp ..).symm
    rcases mem_createProcess.mp hst with hst | ⟨rfl, -⟩
    · exact h.user d hd huser' st hst
    · exact hdp rfl
  · intro q hq hloc
    rcases List.mem_append.mp hq with hq | hq
    · have hqp := hne q hq
      show ((Scheduler.createProcess t.sched p task).proc q).task ≠ .idleProcess
      rw [createProcess_proc_of_mem hp hq]
      apply h.window q hq
      rw [← hloc]
      exact (Function.update_of_ne hqp ..).symm
    · have hqp := List.mem_singleton.mp hq
      rw [hqp] at hloc
      exact absurd ((Function.update_self ..).symm.trans hloc) (by simp)
  · intro q hq
    obtain ⟨hqd, hqp⟩ := List.mem_filter.mp hq
    rw [createProcess_processes, List.mem_append, List.mem_singleton]
    rintro (hqs | rfl)
    · exact h.deleted q hqd hqs
    · simp at hqp

/-- The critical section of a blocking call. -/
theorem Inv.enqueueCurrent {st : ProcState} {data : StateData} (h : Inv t)
    (hc : t.acting .user = some c) (hb : Blocking st) (hd : data.Matches st) :
    Inv { t with sched := enqueueCurrent t.sched c st data
                 loc := Function.update t.loc c .window } := by
  obtain ⟨hcur, htask, hloc⟩ := acting_iff.mp hc
  refine ⟨h.wf.enqueueCurrent (h.wf.current c hcur) (h.user c hcur hloc) hb.listed hd,
    h.idle.enqueueCurrent hcur htask, ?_, ?_, h.deleted⟩
  · intro d hd' huser
    have hdc : d = c := Option.some.inj (hd'.symm.trans hcur)
    rw [hdc] at huser
    exact absurd ((Function.update_self ..).symm.trans huser) (by simp)
  · intro q hq hqloc
    by_cases hqc : q = c
    · rw [hqc]
      show ((Scheduler.enqueueCurrent t.sched c st data).proc c).task ≠ .idleProcess
      rw [enqueueCurrent_proc_self]
      exact htask
    · show ((Scheduler.enqueueCurrent t.sched c st data).proc q).task ≠ .idleProcess
      rw [enqueueCurrent_proc_of_ne hqc]
      apply h.window q hq
      rw [← hqloc]
      exact (Function.update_of_ne hqc ..).symm

/-- The `reschedule` of a blocking call. -/
theorem Inv.leaveWindow (h : Inv t) (hc : t.acting .window = some c) :
    Inv { t with sched := Scheduler.reschedule t.sched, loc := Function.update t.loc c .user } := by
  obtain ⟨hcur, htask, hloc⟩ := acting_iff.mp hc
  apply Inv.reschedule (t := { t with loc := Function.update t.loc c .user }) h.wf h.idle
  · intro d hd _
    have hdc : d = c := Option.some.inj (hd.symm.trans hcur)
    exact Or.inr (hdc ▸ htask)
  · intro q hq hqloc
    apply h.window q hq
    by_cases hqc : q = c
    · rw [hqc] at hqloc
      exact absurd ((Function.update_self ..).symm.trans hqloc) (by simp)
    · rw [← hqloc]
      exact (Function.update_of_ne hqc ..).symm
  · exact h.deleted

theorem Inv.taskReturn (h : Inv t) (hc : t.acting .user = some c) :
    Inv { t with sched := Scheduler.reschedule (terminated t.sched c)
                 deleted := c :: t.deleted } := by
  obtain ⟨hcur, htask, hloc⟩ := acting_iff.mp hc
  have hoff := h.user c hcur hloc
  apply Inv.reschedule
    (t := { t with sched := terminated t.sched c, deleted := c :: t.deleted })
    (h.wf.terminated hcur hoff) (h.idle.terminated h.wf hcur htask)
  · intro d hd
    cases hd
  · intro q hq hqloc
    show ((terminated t.sched c).proc q).task ≠ .idleProcess
    rw [(terminated_onlyState h.wf).task]
    exact h.window q ((mem_terminated_processes h.wf).mp hq).1 hqloc
  · intro q hq hqs
    obtain ⟨hqs, hqc⟩ := (mem_terminated_processes h.wf).mp hqs
    rcases List.mem_cons.mp hq with rfl | hq
    · exact hqc rfl
    · exact h.deleted q hq hqs

theorem Inv.timerIrq (h : Inv t) : Inv { t with sched := timerCallback t.sched } := by
  have hu : ∀ d, t.sched.currentProcess = some d → t.loc d = .user →
      OffLists t.sched d ∨ (t.sched.proc d).task ≠ .idleProcess := fun d hd huser =>
    Or.inl (h.user d hd huser)
  exact Inv.reschedule (t := { t with sched := { t.sched with timer := _ } })
    (h.wf.tick _) h.idle hu h.window h.deleted

theorem Inv.keyboardIrq (h : Inv t) : Inv { t with sched := notifyBlocked t.sched .io } := by
  have hm := notifyBlocked_moved h.wf .io
  have hsub := selected_subset (s := t.sched) (l := t.sched.lists .blocked)
    (f := fun q => decide (q.stateData.blockedType = .io))
  refine ⟨h.wf.moved hm (Or.inr (Or.inr rfl)) hsub, h.idle.moved h.wf hm hsub, ?_, ?_, ?_⟩
  · intro d hd huser
    exact hm.offLists hsub (h.user d (hm.currentProcess ▸ hd) huser)
  · intro q hq hloc
    show ((notifyBlocked t.sched .io).proc q).task ≠ .idleProcess
    rw [hm.onlyState.task]
    exact h.window q (hm.processes ▸ hq) hloc
  · intro q hq
    show q ∉ (notifyBlocked t.sched .io).processes
    rw [hm.processes]
    exact h.deleted q hq

/-- **Every step keeps the invariant.** -/
theorem step_inv {a : Label} (h : Inv t) (hs : step t a = some t') : Inv t' := by
  rcases step_cases hs with ⟨rfl, hcur, rfl⟩ | ⟨c, p, task, rfl, hc, hp, rfl⟩ |
    ⟨c, st, data, hc, hb, hd, -, rfl⟩ | ⟨c, rfl, hc, rfl⟩ | ⟨c, rfl, hc, rfl⟩ | ⟨c, rfl, hc, rfl⟩ |
    ⟨c, rfl, hc, rfl⟩
  · exact Inv.reschedule h.wf h.idle (fun c hc => by rw [hcur] at hc; cases hc) h.window h.deleted
  · exact h.createProcess hc hp
  · exact h.enqueueCurrent hc hb hd
  · exact h.leaveWindow hc
  · exact h.taskReturn hc
  · exact h.timerIrq
  · exact h.keyboardIrq

/-! ## Reachable states -/

theorem emptySched_wf : Wf { emptySched with isEnabled := true } :=
  ⟨rfl, fun _ => List.nodup_nil, nofun, nofun, nofun, nofun, nofun, nofun, nofun, nofun⟩

theorem init_inv {x i : Ptr} (hne : x ≠ i) (terminal : Task) : Inv (init x i terminal) := by
  have hwf : Wf (createProcess { emptySched with isEnabled := true } x terminal) :=
    emptySched_wf.createProcess List.not_mem_nil
  have hi : i ∉ (createProcess { emptySched with isEnabled := true } x terminal).processes := by
    rw [createProcess_processes]
    exact fun h => hne (List.mem_singleton.mp h).symm
  refine ⟨hwf.createProcess hi, ⟨i, ?_, ?_, Or.inr ⟨nofun, ?_⟩⟩, nofun, nofun, nofun⟩
  · exact List.mem_append_right _ (List.mem_singleton.mpr rfl)
  · show ((createProcess _ i .idleProcess).proc i).task = .idleProcess
    rw [createProcess_proc_self]
  · exact mem_createProcess.mpr (Or.inr ⟨rfl, rfl⟩)

theorem reachable_inv {x i : Ptr} (hne : x ≠ i) (terminal : Task)
    (h : Reachable step (init x i terminal) t) : Inv t :=
  h.invariant (init_inv hne terminal) fun _ _ _ => step_inv

/-- The consistency of the lists, spelled out. -/
structure ListsConsistent (t : System) : Prop where
  once : (t.sched.lists .ready ++ t.sched.lists .sleeping ++ t.sched.lists .waiting ++
    t.sched.lists .blocked).Nodup
  state_eq : ∀ st, ∀ p ∈ t.sched.lists st, (t.sched.proc p).state = st
  sleeping : ∀ p ∈ t.sched.lists .sleeping, ∃ timeout,
    (t.sched.proc p).stateData = .sleepData timeout
  waiting : ∀ p ∈ t.sched.lists .waiting, ∃ pid, (t.sched.proc p).stateData = .waitingData pid
  blocked : ∀ p ∈ t.sched.lists .blocked, ∃ type, (t.sched.proc p).stateData = .blockedData type
  running : ∀ p ∈ t.sched.processes, (t.sched.proc p).state = .running →
    t.sched.currentProcess = some p
  deleted : ∀ p ∈ t.deleted, p ∉ t.sched.processes ∧ ∀ st, p ∉ t.sched.lists st

theorem Inv.listsConsistent (h : Inv t) : ListsConsistent t := by
  have hdisj : ∀ {st st' : ProcState}, st ≠ st' → ∀ p ∈ t.sched.lists st,
      p ∉ t.sched.lists st' := fun hne p hp hp' =>
    hne ((h.wf.state_eq _ p hp).symm.trans (h.wf.state_eq _ p hp'))
  refine ⟨?_, h.wf.state_eq, h.wf.matches_data .sleeping, h.wf.matches_data .waiting,
    h.wf.matches_data .blocked, h.wf.running, fun p hp => ⟨h.deleted p hp, ?_⟩⟩
  · refine List.nodup_append.mpr ⟨List.nodup_append.mpr ⟨List.nodup_append.mpr
      ⟨h.wf.nodup .ready, h.wf.nodup .sleeping, ?_⟩, h.wf.nodup .waiting, ?_⟩,
      h.wf.nodup .blocked, ?_⟩
    · rintro p hp q hq rfl
      exact hdisj (by simp) p hp hq
    · rintro p hp q hq rfl
      rcases List.mem_append.mp hp with hp | hp
      · exact hdisj (by simp) p hp hq
      · exact hdisj (by simp) p hp hq
    · rintro p hp q hq rfl
      rcases List.mem_append.mp hp with hp | hp
      · rcases List.mem_append.mp hp with hp | hp
        · exact hdisj (by simp) p hp hq
        · exact hdisj (by simp) p hp hq
      · exact hdisj (by simp) p hp hq
  · intro st hst
    exact h.deleted p hp (h.wf.alive st p hst)

/-- **List consistency**, in every state any interleaving can reach. -/
theorem lists_consistent {x i : Ptr} (hne : x ≠ i) (terminal : Task)
    (h : Reachable step (init x i terminal) t) : ListsConsistent t :=
  (reachable_inv hne terminal h).listsConsistent

/-- A sleeping, a waiting and a blocked process at once. -/
theorem lists_consistent_example : ∃ t, run step (init 4096 8192 (.function 1))
    [.boot, .createProcess 12288 (.function 2), .createProcess 16384 (.function 3), .sleepMs 10,
      .reschedule, .timerIrq, .waitFor 3, .timerIrq, .blockCurrentProcess .io, .reschedule] =
        some t ∧ ListsConsistent t := by
  obtain ⟨t, ht⟩ := Option.isSome_iff_exists.mp (show (run step (init 4096 8192 (.function 1))
    [.boot, .createProcess 12288 (.function 2), .createProcess 16384 (.function 3), .sleepMs 10,
      .reschedule, .timerIrq, .waitFor 3, .timerIrq, .blockCurrentProcess .io,
      .reschedule]).isSome = true by decide +kernel)
  exact ⟨t, ht, lists_consistent (by simp) _ ⟨_, ht⟩⟩

end HryOS.Scheduler
