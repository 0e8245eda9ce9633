import HryOS.Scheduler.Invariant

/-!
# When a process waits for nobody

`process_starter` wakes the waiters of a process once, when it ends; `wait_for` enqueues its
caller without looking whether the process it names is still there.

* `WaitsOnSomebody` — every waiting process names the identifier of another live process.
* `waitsOnSomebody_step` — only a `wait_for` on an identifier that no other live process has
  breaks it.
* `waits_on_somebody_iff` — the same over whole runs.
-/

set_option autoImplicit false

namespace HryOS.Scheduler

open Transition

/-- Some process other than `p` has the identifier `pid`. -/
def OtherHas (s : Sched) (p : Ptr) (pid : ℕ) : Prop :=
  ∃ q ∈ s.processes, q ≠ p ∧ (s.proc q).pid = pid

/-- Every waiting process waits for another process that is still there. -/
def WaitsOnSomebody (s : Sched) : Prop := ∀ p ∈ s.lists .waiting,
  ∃ pid, (s.proc p).stateData = .waitingData pid ∧ OtherHas s p pid

/-- The condition on a step: a `wait_for` names the identifier of another live process. -/
def WaitsForLive (t : System) : Label → Prop
  | .waitFor pid => ∀ c ∈ t.sched.currentProcess, OtherHas t.sched c pid
  | _ => True

/-- What the callers of `wait_for` provide: an identifier that `create_process` returned. -/
def WaitsForReturned (t : System) : Label → Prop
  | .waitFor pid => pid ∈ t.returned
  | _ => True

instance (s : Sched) (p : Ptr) (pid : ℕ) : Decidable (OtherHas s p pid) := by
  unfold OtherHas; infer_instance

instance (t : System) : ∀ a : Label, Decidable (WaitsForLive t a)
  | .waitFor pid => inferInstanceAs (Decidable (∀ c ∈ t.sched.currentProcess, OtherHas t.sched c pid))
  | .boot | .createProcess .. | .sleepMs _ | .blockCurrentProcess _ | .reschedule | .taskReturn
  | .timerIrq | .keyboardIrq => isTrue trivial

instance (t : System) : ∀ a : Label, Decidable (WaitsForReturned t a)
  | .waitFor pid => inferInstanceAs (Decidable (pid ∈ t.returned))
  | .boot | .createProcess .. | .sleepMs _ | .blockCurrentProcess _ | .reschedule | .taskReturn
  | .timerIrq | .keyboardIrq => isTrue trivial

variable {s s' : Sched} {p q c : Ptr} {st : ProcState} {data : StateData} {t t' : System}

/-! ## Steps that keep the waiting list -/

/-- The waiting list may lose processes, `processes` may grow, and the records that matter stay. -/
theorem WaitsOnSomebody.mono (h : WaitsOnSomebody s)
    (hwait : ∀ p ∈ s'.lists .waiting, p ∈ s.lists .waiting ∧
      (s'.proc p).stateData = (s.proc p).stateData)
    (hproc : ∀ q ∈ s.processes, q ∈ s'.processes ∧ (s'.proc q).pid = (s.proc q).pid) :
    WaitsOnSomebody s' := fun p hp => by
  obtain ⟨hps, hdata⟩ := hwait p hp
  obtain ⟨pid, hpid, q, hq, hqp, hqpid⟩ := h p hps
  exact ⟨pid, hdata.trans hpid, q, (hproc q hq).1, hqp, (hproc q hq).2.trans hqpid⟩

theorem WaitsOnSomebody.reschedule (h : WaitsOnSomebody s) (hwf : Wf s) (hi : IdleReady s) :
    WaitsOnSomebody (reschedule s) := by
  obtain ⟨-, -, hprocs, honly, -⟩ := reschedule_wf hwf hi
  refine h.mono (fun p hp => ⟨?_, honly.stateData p⟩) fun q hq => ⟨hprocs.symm ▸ hq, honly.pid q⟩
  exact (mem_reschedule_of_ne hwf (by simp) (by simp)).mp hp

/-- Ending `c` wakes whoever waits for it, so the others keep their targets. -/
theorem WaitsOnSomebody.terminated (h : WaitsOnSomebody s) (hwf : Wf s) :
    WaitsOnSomebody (terminated s c) := fun p hp => by
  have hm := wakeWaiters_moved hwf c
  obtain ⟨hps, hsel⟩ := (hm.mem_source p).mp hp
  obtain ⟨pid, hpid, q, hq, hqp, hqpid⟩ := h p hps
  have hqc : q ≠ c := by
    rintro rfl
    -- `p` was selected: it waits for the identifier of `c`
    apply hsel
    refine List.mem_filter.mpr ⟨hps, decide_eq_true ?_⟩
    rw [hpid, hqpid]
    rfl
  have honly := terminated_onlyState (c := c) hwf
  exact ⟨pid, (honly.stateData p).trans hpid, q, (mem_terminated_processes hwf).mpr ⟨hq, hqc⟩, hqp,
    (honly.pid q).trans hqpid⟩

theorem WaitsOnSomebody.createProcess {task : Task} (h : WaitsOnSomebody s) (hwf : Wf s)
    (hp : p ∉ s.processes) : WaitsOnSomebody (createProcess s p task) := by
  have hold : ∀ q ∈ s.processes, (Scheduler.createProcess s p task).proc q = s.proc q :=
    fun q hq => createProcess_proc_of_mem hp hq
  refine h.mono ?_ fun q hq => ⟨List.mem_append_left [p] hq, by rw [hold q hq]⟩
  intro q hq
  rcases mem_createProcess.mp hq with hq | ⟨-, hst⟩
  · exact ⟨hq, by rw [hold q (hwf.alive .waiting q hq)]⟩
  · cases hst

theorem enqueueCurrent_pid : ((enqueueCurrent s c st data).proc q).pid = (s.proc q).pid := by
  by_cases hqc : q = c
  · rw [hqc, enqueueCurrent_proc_self]
  · rw [enqueueCurrent_proc_of_ne hqc]

/-- A blocking call: the caller is the only process whose wait is new. -/
theorem waitsOnSomebody_enqueue (h : WaitsOnSomebody s) (hoff : OffLists s c) :
    WaitsOnSomebody (enqueueCurrent s c st data) ↔
      (st = .waiting → ∃ pid, data = .waitingData pid ∧ OtherHas s c pid) := by
  have hother : ∀ p pid, OtherHas (enqueueCurrent s c st data) p pid ↔ OtherHas s p pid := by
    intro p pid
    unfold OtherHas
    simp only [enqueueCurrent_pid]
    exact Iff.rfl
  constructor
  · rintro hw rfl
    obtain ⟨pid, hpid, ho⟩ := hw c (mem_enqueueCurrent.mpr (Or.inr ⟨rfl, rfl⟩))
    rw [enqueueCurrent_proc_self] at hpid
    exact ⟨pid, hpid, (hother c pid).mp ho⟩
  · intro hnew p hp
    rcases mem_enqueueCurrent.mp hp with hp | ⟨rfl, hst⟩
    · have hpc : p ≠ c := fun hpc => hoff .waiting (hpc ▸ hp)
      obtain ⟨pid, hpid, ho⟩ := h p hp
      rw [enqueueCurrent_proc_of_ne hpc]
      exact ⟨pid, hpid, (hother p pid).mpr ho⟩
    · obtain ⟨pid, hpid, ho⟩ := hnew hst.symm
      rw [enqueueCurrent_proc_self]
      exact ⟨pid, hpid, (hother p pid).mpr ho⟩

/-- **One step.** -/
theorem waitsOnSomebody_step {a : Label} (h : Inv t) (hw : WaitsOnSomebody t.sched)
    (hs : step t a = some t') : WaitsOnSomebody t'.sched ↔ WaitsForLive t a := by
  rcases step_cases hs with ⟨rfl, hcur, rfl⟩ | ⟨d, p, task, rfl, hd, hp, rfl⟩ |
    ⟨d, st, data, hd, hb, -, ha, rfl⟩ | ⟨d, rfl, hd, rfl⟩ | ⟨d, rfl, hd, rfl⟩ | ⟨d, rfl, hd, rfl⟩ |
    ⟨d, rfl, hd, rfl⟩
  · exact iff_of_true (hw.reschedule h.wf h.idle) trivial
  · exact iff_of_true (hw.createProcess h.wf hp) trivial
  · obtain ⟨hcur, -, hloc⟩ := acting_iff.mp hd
    show WaitsOnSomebody (enqueueCurrent t.sched d st data) ↔ _
    rw [waitsOnSomebody_enqueue hw (h.user d hcur hloc)]
    rcases ha with ⟨time, rfl, rfl, rfl⟩ | ⟨type, rfl, rfl, rfl⟩ | ⟨pid, rfl, rfl, rfl⟩
    · exact iff_of_true nofun trivial
    · exact iff_of_true nofun trivial
    · constructor
      · intro hnew c hc
        obtain ⟨pid', hpid, ho⟩ := hnew rfl
        cases hpid
        have hdc : d = c := Option.some.inj (hcur.symm.trans hc)
        exact hdc ▸ ho
      · intro hlive _
        exact ⟨pid, rfl, hlive d hcur⟩
  · exact iff_of_true (hw.reschedule h.wf h.idle) trivial
  · obtain ⟨hcur, htask, hloc⟩ := acting_iff.mp hd
    have hoff := h.user d hcur hloc
    exact iff_of_true ((hw.terminated h.wf).reschedule (h.wf.terminated hcur hoff)
      (h.idle.terminated h.wf hcur htask)) trivial
  · have htick : WaitsOnSomebody
        { t.sched with timer := (t.sched.timer + 1) % 18446744073709551616 } := hw
    exact iff_of_true (htick.reschedule (h.wf.tick _) h.idle) trivial
  · have hm := notifyBlocked_moved h.wf .io
    refine iff_of_true (hw.mono (fun p hp => ⟨?_, hm.onlyState.stateData p⟩) ?_) trivial
    · rw [← hm.lists_of_ne .waiting (by simp) (by simp)]
      exact hp
    · intro q hq
      exact ⟨hm.processes.symm ▸ hq, hm.onlyState.pid q⟩

/-! ## Whole runs -/

/-- **`wait_for` never waits on nobody, exactly when** each call names another process that is
    still there when the caller is enqueued. -/
theorem waits_on_somebody_iff {x i : Ptr} (hne : x ≠ i) (terminal : Task) {ls : List Label}
    (hrun : run step (init x i terminal) ls = some t) :
    Along step (fun u => WaitsOnSomebody u.sched) (init x i terminal) ls ↔
      EveryStep step WaitsForLive (init x i terminal) ls := by
  apply along_iff_everyStep (I := Inv) (fun u a u' h hs => step_inv h hs)
    (fun u a u' h hw hs => waitsOnSomebody_step h hw hs) (init_inv hne terminal) _ hrun
  intro p hp
  exact absurd hp List.not_mem_nil

/-- The waiter is enqueued first; the child runs and ends later. -/
theorem waits_on_somebody_example : ∃ t, run step (init 4096 8192 (.function 1))
    [.boot, .createProcess 12288 (.function 2), .waitFor 2, .reschedule, .timerIrq] = some t ∧
      WaitsOnSomebody t.sched := by
  obtain ⟨t, ht⟩ := Option.isSome_iff_exists.mp (show (run step (init 4096 8192 (.function 1))
    [.boot, .createProcess 12288 (.function 2), .waitFor 2, .reschedule,
      .timerIrq]).isSome = true by decide +kernel)
  have hall : EveryStep step WaitsForLive (init 4096 8192 (.function 1))
    [.boot, .createProcess 12288 (.function 2), .waitFor 2, .reschedule, .timerIrq] := by
    decide +kernel
  exact ⟨t, ht, (waits_on_somebody_iff (by simp) _ ht).mpr hall _ (List.prefix_refl _) t ht⟩

/-- Two ticks between `create_process` and `wait_for`, in which the child runs to its end: the
    parent then waits for an identifier nobody has. -/
theorem waiter_stranded : ¬∀ (x i : Ptr) (terminal : Task) (ls : List Label) (t : System), x ≠ i →
    EveryStep step WaitsForReturned (init x i terminal) ls →
    run step (init x i terminal) ls = some t → WaitsOnSomebody t.sched := by
  intro h
  have hret : EveryStep step WaitsForReturned (init 4096 8192 (.function 1))
      [.boot, .createProcess 12288 (.function 2), .timerIrq, .timerIrq, .taskReturn,
        .waitFor 2] := by decide +kernel
  obtain ⟨t, ht, hmem, hnone⟩ : ∃ t ∈ run step (init 4096 8192 (.function 1))
      [.boot, .createProcess 12288 (.function 2), .timerIrq, .timerIrq, .taskReturn, .waitFor 2],
        4096 ∈ t.sched.lists .waiting ∧ (t.sched.proc 4096).stateData = .waitingData 2 ∧
          ¬OtherHas t.sched 4096 2 := by decide +kernel
  obtain ⟨pid, hpid, ho⟩ := h 4096 8192 _ _ t (by simp) hret ht 4096 hmem
  cases hnone.1.symm.trans hpid
  exact hnone.2 ho

end HryOS.Scheduler
