import HryOS.Scheduler.Invariant

/-!
# Two processes taking turns

With nobody asleep and one other process ready, a tick swaps the running process with the ready
one.  So a process can be running its own code at every value of the 64-bit timer.

* `Turns.tick` — one tick.
* `exists_acting` — every timer value is reached, with a process that may make a system call.
-/

set_option autoImplicit false

namespace HryOS.Scheduler

open ByteMemory Transition

/-- `p` runs and `q` is ready, at the timer value `n`; nobody else is ready or asleep. -/
structure Turns (p q n : ℕ) (t : System) : Prop where
  inv : Inv t
  current : t.sched.currentProcess = some p
  running : (t.sched.proc p).state = .running
  ready : t.sched.lists .ready = [q]
  sleeping : t.sched.lists .sleeping = []
  timer : t.sched.timer = n

variable {s : Sched} {t t' : System} {p q n : ℕ}

theorem wakeSleepers_of_nil (h : s.lists .sleeping = []) : wakeSleepers s = s := by
  unfold wakeSleepers moveToFrontIf
  apply moveToIf_eq_self
  intro p hp
  exact absurd (h ▸ hp) List.not_mem_nil

/-- `reschedule` swaps the two. -/
theorem reschedule_turns (h : Wf s) (hcur : s.currentProcess = some p)
    (hrun : (s.proc p).state = .running) (hready : s.lists .ready = [q])
    (hsleeping : s.lists .sleeping = []) :
    (reschedule s).currentProcess = some q ∧ ((reschedule s).proc q).state = .running ∧
      (reschedule s).lists .ready = [p] ∧ (reschedule s).lists .sleeping = [] ∧
      (reschedule s).timer = s.timer := by
  have hpq : p ≠ q := by
    intro hpq
    have hq := h.state_eq .ready q (by rw [hready]; exact List.mem_singleton_self q)
    rw [← hpq, hrun] at hq
    cases hq
  have hw := wakeSleepers_of_nil hsleeping
  have hreq : requeueCurrent (s.setList .ready []) =
      enqueueCurrent (s.setList .ready []) p .ready (s.proc p).stateData :=
    requeueCurrent_eq_of_running hcur hrun
  have heq : reschedule s = dispatch s q [] := by
    rcases reschedule_cases h with ⟨hl, -⟩ | ⟨r, rest, hl, hr, -⟩ | ⟨r, rest, hl, -, heq⟩
    · rw [hw, hready] at hl
      cases hl
    · rw [hw, hready] at hl
      cases hl
      exact absurd (Option.some.inj (hcur.symm.trans hr)) hpq
    · rw [hw, hready] at hl
      cases hl
      rw [heq, hw]
  rw [heq, dispatch, hreq]
  refine ⟨rfl, ?_, ?_, ?_, rfl⟩
  · show ((Sched.setState _ q .running).proc q).state = .running
    rw [Sched.setState, Sched.setProc_proc_self]
  · show (enqueueCurrent (s.setList .ready []) p .ready (s.proc p).stateData).lists .ready = [p]
    rw [enqueueCurrent_lists_self, Sched.setList_lists_self]
    rfl
  · show (enqueueCurrent (s.setList .ready []) p .ready (s.proc p).stateData).lists .sleeping = []
    rw [enqueueCurrent_lists_of_ne (by simp), Sched.setList_lists_of_ne _ _ _ (by simp),
      hsleeping]

/-- **One tick** swaps the two; tasks and positions stay. -/
theorem Turns.tick (h : Turns p q n t) (hn : n + 1 < 18446744073709551616) :
    ∃ t', step t .timerIrq = some t' ∧ Turns q p (n + 1) t' ∧
      (∀ c, (t'.sched.proc c).task = (t.sched.proc c).task) ∧ t'.loc = t.loc := by
  have hwf := h.inv.wf.tick ((t.sched.timer + 1) % 18446744073709551616)
  obtain ⟨-, -, -, honly, -⟩ := reschedule_wf hwf h.inv.idle
  obtain ⟨hcur, hrun, hready, hsleeping, htimer⟩ :=
    reschedule_turns hwf h.current h.running h.ready h.sleeping
  have hstep : step t .timerIrq = some { t with sched := timerCallback t.sched } := by
    rw [step, h.current, Option.map_some]
  refine ⟨_, hstep, ⟨step_inv h.inv hstep, hcur, hrun, hready, hsleeping, ?_⟩, honly.task, rfl⟩
  show (reschedule _).timer = n + 1
  rw [htimer, h.timer]
  exact Nat.mod_eq_of_lt hn

/-- `p` can make a system call. -/
def MayCall (p : ℕ) (t : System) : Prop := (t.sched.proc p).task ≠ .idleProcess ∧ t.loc p = .user

/-- After two ticks it is the turn of `p` again. -/
theorem Turns.iterate {s₀ : System} {r : ℕ} (h : Turns p q n t) (hp : MayCall r t)
    (ht : Reachable step s₀ t) :
    ∀ k, n + 2 * k < 18446744073709551616 → ∃ t', Reachable step s₀ t' ∧
      Turns p q (n + 2 * k) t' ∧ MayCall r t'
  | 0, _ => ⟨t, ht, h, hp⟩
  | k + 1, hk => by
    obtain ⟨u, hu, hturns, hcall⟩ := h.iterate hp ht k (by omega)
    obtain ⟨v, hv, hv', htask, hloc⟩ := hturns.tick (by omega)
    obtain ⟨w, hw, hw', htask', hloc'⟩ := hv'.tick (by omega)
    refine ⟨w, (hu.tail hv).tail hw, hw', ?_, ?_⟩
    · rw [htask', htask]
      exact hcall.1
    · rw [hloc', hloc]
      exact hcall.2

/-- The parts of `Turns` and `MayCall` that a given state shows. -/
def AtTurn (p q n : ℕ) (t : System) : Prop :=
  (t.sched.currentProcess = some p ∧ (t.sched.proc p).state = .running ∧
    t.sched.lists .ready = [q] ∧ t.sched.lists .sleeping = [] ∧ t.sched.timer = n) ∧
  (t.sched.proc p).task ≠ .idleProcess ∧ t.loc p = .user

instance (p q n : ℕ) (t : System) : Decidable (AtTurn p q n t) := by
  unfold AtTurn
  infer_instance

/-- The even timer values: `terminal` takes turns with `idle`. -/
def evenCalls : List Label := [.boot]

/-- The odd ones: `terminal` starts a process and blocks, and that process takes the turns. -/
def oddCalls : List Label :=
  [.boot, .createProcess 12288 (.function 2), .blockCurrentProcess .io, .reschedule, .timerIrq]

theorem evenCalls_atTurn : (run step (init 4096 8192 (.function 1)) evenCalls).any
    (fun t => decide (AtTurn 4096 8192 0 t)) = true := by
  decide +kernel

theorem oddCalls_atTurn : (run step (init 4096 8192 (.function 1)) oddCalls).any
    (fun t => decide (AtTurn 12288 8192 1 t)) = true := by
  decide +kernel

/-- **Every timer value is reached**, with a process that runs code of its own. -/
theorem exists_acting (hn : n < 18446744073709551616) :
    ∃ t p, Reachable step (init 4096 8192 (.function 1)) t ∧ t.sched.timer = n ∧
      t.acting .user = some p := by
  obtain ⟨calls, p, hcalls⟩ : ∃ calls p, (run step (init 4096 8192 (.function 1)) calls).any
      (fun t => decide (AtTurn p 8192 (n % 2) t)) = true := by
    rcases Nat.mod_two_eq_zero_or_one n with h0 | h1
    · rw [h0]
      exact ⟨evenCalls, 4096, evenCalls_atTurn⟩
    · rw [h1]
      exact ⟨oddCalls, 12288, oddCalls_atTurn⟩
  obtain ⟨t, hrun, hat⟩ := (Option.any_eq_true _ _).mp hcalls
  obtain ⟨⟨hcur, hrunning, hready, hsleeping, htimer⟩, hcall⟩ := of_decide_eq_true hat
  have hreach : Reachable step (init 4096 8192 (.function 1)) t := ⟨calls, hrun⟩
  have hturns : Turns p 8192 (n % 2) t :=
    ⟨reachable_inv (by simp) _ hreach, hcur, hrunning, hready, hsleeping, htimer⟩
  obtain ⟨u, hu, hturns', htask, hloc⟩ := hturns.iterate hcall hreach (n / 2) (by omega)
  refine ⟨u, p, hu, ?_, acting_iff.mpr ⟨hturns'.current, htask, hloc⟩⟩
  rw [hturns'.timer]
  omega

end HryOS.Scheduler
