import HryOS.Scheduler.Invariant

/-!
# When a process is lost

`reschedule` pops the first ready process and returns at once when that is the current one,
which then is `ready` and on no list.  The next switch away from it puts only a *running*
process back, so it is never scheduled again.

* `Covered` — every process is current or on one of the four lists.
* `covered_reschedule` — one call keeps `Covered` unless it finds the current process in that
  state.
* `no_process_lost_iff` — over whole runs, this is exactly when processes are lost.
-/

set_option autoImplicit false

namespace HryOS.Scheduler

open Transition

/-- Every process is current or on the ready, sleeping, waiting or blocked list. -/
def Covered (s : Sched) : Prop := ∀ p ∈ s.processes, s.currentProcess = some p ∨
  p ∈ s.lists .ready ∨ p ∈ s.lists .sleeping ∨ p ∈ s.lists .waiting ∨ p ∈ s.lists .blocked

instance (s : Sched) : Decidable (Covered s) := by unfold Covered; infer_instance

/-- The current process is not `ready` while off the ready list. -/
def Requeued (s : Sched) : Prop := ∀ c ∈ s.currentProcess, (s.proc c).state = .ready →
  c ∈ s.lists .ready

instance (s : Sched) : Decidable (Requeued s) := by unfold Requeued; infer_instance

/-- The condition on a step: it is no call of `reschedule` that finds the current process `ready`
    and off the ready list. -/
def KeepsAll (t : System) (a : Label) : Prop :=
  a = .reschedule ∨ a = .timerIrq → Requeued t.sched

instance (t : System) (a : Label) : Decidable (KeepsAll t a) := by unfold KeepsAll; infer_instance

variable {s s' : Sched} {p c : Ptr} {st source : ProcState} {ps rest : List Ptr} {t t' : System}

theorem Wf.covered_iff (h : Wf s) : Covered s ↔
    ∀ p ∈ s.processes, s.currentProcess = some p ∨ ∃ st, p ∈ s.lists st := by
  refine forall₂_congr fun p _ => or_congr_right ⟨?_, ?_⟩
  · rintro (hp | hp | hp | hp)
    · exact ⟨_, hp⟩
    · exact ⟨_, hp⟩
    · exact ⟨_, hp⟩
    · exact ⟨_, hp⟩
  · rintro ⟨st, hp⟩
    obtain ⟨he, hr⟩ := h.listed st p hp
    cases st with
    | empty => exact absurd rfl he
    | running => exact absurd rfl hr
    | ready => exact Or.inl hp
    | sleeping => exact Or.inr (Or.inl hp)
    | waiting => exact Or.inr (Or.inr (Or.inl hp))
    | blocked => exact Or.inr (Or.inr (Or.inr hp))

theorem Covered.moved (hc : Covered s) (h : Wf s) (hm : Moved source .ready ps s s')
    (hsrc : Blocking source) (hps : ∀ p ∈ ps, p ∈ s.lists source) : Covered s' := by
  rw [(h.moved hm hsrc hps).covered_iff]
  intro p hp
  rw [hm.currentProcess]
  rw [hm.processes] at hp
  refine (h.covered_iff.mp hc p hp).imp_right fun ⟨st, hst⟩ => ?_
  rcases hm.exists_mem hst with hl | hl
  · exact ⟨st, hl⟩
  · exact ⟨.ready, hl⟩

/-- Waking sleepers does not change whether the current process is `ready` and off the list. -/
theorem requeued_moved (h : Wf s) (hm : Moved source .ready ps s s') (hsrc : Blocking source)
    (hps : ∀ p ∈ ps, p ∈ s.lists source) : Requeued s' ↔ Requeued s := by
  unfold Requeued
  rw [hm.currentProcess]
  refine forall₂_congr ?_
  intro c _
  rw [hm.mem_target, hm.proc_eq]
  by_cases hcs : c ∈ ps
  · rw [if_pos hcs]
    have hst := h.state_eq source c (hps c hcs)
    exact ⟨fun _ hr => absurd (hst.symm.trans hr) hsrc.ne_ready, fun _ _ => Or.inr hcs⟩
  · rw [if_neg hcs]
    simp [hcs]

/-- Switching away from the current process loses it exactly when it is `ready` and off the
    ready list. -/
theorem covered_dispatch (h : Wf s) (hc : Covered s) (hl : s.lists .ready = p :: rest)
    (hp : s.currentProcess ≠ some p) : Covered (dispatch s p rest) ↔ Requeued s := by
  rw [(dispatch_wf h hl hp).1.covered_iff]
  have hcur : (dispatch s p rest).currentProcess = some p := rfl
  -- popping `p` removes nothing else
  have hkept : ∀ q st, q ≠ p → q ∈ s.lists st → q ∈ (s.setList .ready rest).lists st := by
    intro q st hqp hq
    by_cases hst : st = .ready
    · rw [hst] at hq ⊢
      rw [hl] at hq
      rw [Sched.setList_lists_self]
      exact (List.mem_cons.mp hq).resolve_left hqp
    · rw [Sched.setList_lists_of_ne _ _ _ hst]
      exact hq
  constructor
  · intro hcov c hc hready
    have hcp : c ≠ p := fun hcp => hp (hcp ▸ hc)
    have hcs : c ∈ (dispatch s p rest).processes := by
      rw [dispatch_processes]
      exact h.current c hc
    rcases hcov c hcs with hcc | ⟨st, hst⟩
    · exact absurd (Option.some.inj (hcc.symm.trans hcur)) hcp
    · rcases mem_dispatch.mp hst with hst | ⟨-, hrun, -⟩
      · have hmem : c ∈ s.lists st := by
          by_cases hr : st = .ready
          · rw [hr, Sched.setList_lists_self] at hst
            rw [hr, hl]
            exact List.mem_cons_of_mem p hst
          · rwa [Sched.setList_lists_of_ne _ _ _ hr] at hst
        have hsr : st = .ready := (h.state_eq st c hmem).symm.trans hready
        exact hsr ▸ hmem
      · exact absurd (hready.symm.trans hrun) (by simp)
  · intro hreq q hq
    rw [dispatch_processes] at hq
    by_cases hqp : q = p
    · exact Or.inl (hqp ▸ hcur)
    · refine Or.inr ?_
      rcases h.covered_iff.mp hc q hq with hqc | ⟨st, hst⟩
      · by_cases hrun : (s.proc q).state = .running
        · exact ⟨.ready, mem_dispatch.mpr (Or.inr ⟨hqc, hrun, rfl⟩)⟩
        · have hmem : q ∈ s.lists (s.proc q).state := by
            cases hst : (s.proc q).state with
            | empty => exact absurd hst (h.not_empty q hq)
            | running => exact absurd hst hrun
            | ready => exact hreq q hqc hst
            | sleeping => exact hst ▸ h.queued q hq (Or.inl hst)
            | waiting => exact hst ▸ h.queued q hq (Or.inr (Or.inl hst))
            | blocked => exact hst ▸ h.queued q hq (Or.inr (Or.inr hst))
          exact ⟨_, mem_dispatch.mpr (Or.inl (hkept q _ hqp hmem))⟩
      · exact ⟨st, mem_dispatch.mpr (Or.inl (hkept q st hqp hst))⟩

/-- **One call of `reschedule`.** -/
theorem covered_reschedule (h : Wf s) (hi : IdleReady s) (hc : Covered s) :
    Covered (reschedule s) ↔ Requeued s := by
  obtain ⟨ps, hps, hm⟩ := wakeSleepers_moved h
  have hw := h.moved hm (Or.inl rfl) hps
  have hcw := hc.moved h hm (Or.inl rfl) hps
  have hwi := hi.moved h hm hps
  rw [← requeued_moved h hm (Or.inl rfl) hps]
  rcases reschedule_cases h with ⟨hl, heq⟩ | ⟨p, rest, hl, hp, heq⟩ | ⟨p, rest, hl, hp, heq⟩
  · -- nobody is ready, so `idle` is running
    rw [heq]
    refine iff_of_true hcw ?_
    intro c hc hready
    obtain ⟨i, -, -, ⟨hic, hrun⟩ | ⟨-, hil⟩⟩ := hwi
    · have hci : c = i := Option.some.inj (hc.symm.trans hic)
      rw [hci, hrun] at hready
      cases hready
    · rw [hl] at hil
      exact absurd hil List.not_mem_nil
  · -- the early return: the popped process is current
    rw [heq, (hw.pop hl).covered_iff]
    have hpw : (wakeSleepers s).currentProcess = some p := hm.currentProcess.trans hp
    refine iff_of_true ?_ ?_
    · intro q hq
      rcases hw.covered_iff.mp hcw q hq with hqc | ⟨st, hst⟩
      · exact Or.inl hqc
      · by_cases hr : st = .ready
        · rw [hr, hl] at hst
          rcases List.mem_cons.mp hst with rfl | hst
          · exact Or.inl hpw
          · refine Or.inr ⟨.ready, ?_⟩
            rw [Sched.setList_lists_self]
            exact hst
        · refine Or.inr ⟨st, ?_⟩
          rw [Sched.setList_lists_of_ne _ _ _ hr]
          exact hst
    · intro c hc _
      have hcp : c = p := Option.some.inj (hc.symm.trans hpw)
      rw [hcp, hl]
      exact List.mem_cons_self
  · rw [heq]
    have hpw : (wakeSleepers s).currentProcess ≠ some p := by
      rw [hm.currentProcess]
      exact hp
    exact covered_dispatch hw hcw hl hpw

theorem Requeued.of_none (h : s.currentProcess = none) : Requeued s := fun c hc => by
  rw [h] at hc
  cases hc

/-- Ending a process leaves the others covered. -/
theorem Covered.terminated (hc : Covered s) (h : Wf s) (hcur : s.currentProcess = some c)
    (hoff : OffLists s c) : Covered (terminated s c) := by
  rw [(h.terminated hcur hoff).covered_iff]
  intro q hq
  obtain ⟨hqs, hqc⟩ := (mem_terminated_processes h).mp hq
  rcases h.covered_iff.mp hc q hqs with hcur' | ⟨st, hst⟩
  · exact absurd (Option.some.inj (hcur'.symm.trans hcur)) hqc
  · rcases (wakeWaiters_moved h c).exists_mem hst with hl | hl
    · exact Or.inr ⟨st, hl⟩
    · exact Or.inr ⟨.ready, hl⟩

/-- **One step** loses no process exactly when it meets the condition. -/
theorem covered_step {a : Label} (h : Inv t) (hc : Covered t.sched) (hs : step t a = some t') :
    Covered t'.sched ↔ KeepsAll t a := by
  have hinv' := step_inv h hs
  rcases step_cases hs with ⟨rfl, hcur, rfl⟩ | ⟨d, p, task, rfl, hd, hp, rfl⟩ |
    ⟨d, st, data, hd, hb, -, ha, rfl⟩ | ⟨d, rfl, hd, rfl⟩ | ⟨d, rfl, hd, rfl⟩ | ⟨d, rfl, hd, rfl⟩ |
    ⟨d, rfl, hd, rfl⟩
  · refine iff_of_true ?_ nofun
    exact (covered_reschedule h.wf h.idle hc).mpr (Requeued.of_none hcur)
  · refine iff_of_true ?_ nofun
    rw [hinv'.wf.covered_iff]
    intro q hq
    rcases List.mem_append.mp hq with hq | hq
    · exact (h.wf.covered_iff.mp hc q hq).imp_right fun ⟨st, hst⟩ =>
        ⟨st, mem_createProcess.mpr (Or.inl hst)⟩
    · exact Or.inr ⟨.ready, mem_createProcess.mpr (Or.inr ⟨List.mem_singleton.mp hq, rfl⟩)⟩
  · refine iff_of_true ?_ ?_
    · rw [hinv'.wf.covered_iff]
      intro q hq
      exact (h.wf.covered_iff.mp hc q hq).imp_right fun ⟨st', hst⟩ =>
        ⟨st', mem_enqueueCurrent.mpr (Or.inl hst)⟩
    · rcases ha with ⟨_, rfl, -⟩ | ⟨_, rfl, -⟩ | ⟨_, rfl, -⟩ <;> exact nofun
  · have hkeeps : KeepsAll t .reschedule ↔ Requeued t.sched := by simp [KeepsAll]
    rw [hkeeps]
    exact covered_reschedule h.wf h.idle hc
  · refine iff_of_true ?_ nofun
    obtain ⟨hcur, htask, hloc⟩ := acting_iff.mp hd
    have hoff := h.user d hcur hloc
    exact (covered_reschedule (h.wf.terminated hcur hoff) (h.idle.terminated h.wf hcur htask)
      (hc.terminated h.wf hcur hoff)).mpr (Requeued.of_none rfl)
  · have hkeeps : KeepsAll t .timerIrq ↔ Requeued t.sched := by simp [KeepsAll]
    rw [hkeeps]
    exact covered_reschedule (h.wf.tick _) h.idle hc
  · refine iff_of_true ?_ nofun
    exact hc.moved h.wf (notifyBlocked_moved h.wf .io) (Or.inr (Or.inr rfl)) selected_subset

/-! ## Whole runs -/

theorem init_covered (x i : Ptr) (terminal : Task) : Covered (init x i terminal).sched := by
  intro p hp
  refine Or.inr (Or.inl ?_)
  show p ∈ (createProcess _ i .idleProcess).lists .ready
  rcases List.mem_append.mp hp with hp | hp
  · refine mem_createProcess.mpr (Or.inl (mem_createProcess.mpr (Or.inr ⟨?_, rfl⟩)))
    exact List.mem_singleton.mp hp
  · exact mem_createProcess.mpr (Or.inr ⟨List.mem_singleton.mp hp, rfl⟩)

/-- **No process is lost, exactly when** no call of `reschedule` finds the current process `ready`
    and off the ready list. -/
theorem no_process_lost_iff {x i : Ptr} (hne : x ≠ i) (terminal : Task) {ls : List Label}
    (hrun : run step (init x i terminal) ls = some t) :
    Along step (fun u => Covered u.sched) (init x i terminal) ls ↔
      EveryStep step KeepsAll (init x i terminal) ls := by
  apply along_iff_everyStep (I := Inv) (fun u a u' h hs => step_inv h hs)
    (fun u a u' h hc hs => covered_step h hc hs) (init_inv hne terminal)
    (init_covered x i terminal) hrun

/-- A sleeper that is woken by a later tick. -/
theorem no_process_lost_example : ∃ t, run step (init 4096 8192 (.function 1))
    [.boot, .sleepMs 0, .reschedule, .timerIrq, .timerIrq] = some t ∧ Covered t.sched := by
  obtain ⟨t, ht⟩ := Option.isSome_iff_exists.mp (show (run step (init 4096 8192 (.function 1))
    [.boot, .sleepMs 0, .reschedule, .timerIrq, .timerIrq]).isSome = true by decide +kernel)
  have hall : EveryStep step KeepsAll (init 4096 8192 (.function 1))
    [.boot, .sleepMs 0, .reschedule, .timerIrq, .timerIrq] := by decide +kernel
  exact ⟨t, ht, (no_process_lost_iff (by simp) _ ht).mpr hall _ (List.prefix_refl _) t ht⟩

/-- `sleep_ms(0)` with a tick in its window: the tick makes the sleeper `ready` and pops it, and
    its own `reschedule` then leaves it for `idle`. -/
theorem sleeper_lost : ¬∀ (x i : Ptr) (terminal : Task) (ls : List Label) (t : System), x ≠ i →
    run step (init x i terminal) ls = some t → Covered t.sched := by
  intro h
  obtain ⟨t, ht, hlost⟩ : ∃ t ∈ run step (init 4096 8192 (.function 1))
      [.boot, .sleepMs 0, .timerIrq, .reschedule], ¬Covered t.sched := by decide +kernel
  exact hlost (h 4096 8192 _ _ t (by simp) ht)

end HryOS.Scheduler
