import HryOS.Scheduler.Consistency
import HryOS.Scheduler.System
import Mathlib.Data.List.Rotate

/-!
# Ready processes take turns

The running process and the ready list form a cycle.  A tick that wakes nobody turns the cycle by
one place, and so `k` ticks turn it by `k` places.

* `RoundRobin` — who runs, and who is ready in which order.
* `RoundRobin.reschedule` — one tick.
* `ready_rotates` — any number of ticks.
-/

set_option autoImplicit false

namespace HryOS.Scheduler

open ByteMemory Transition

/-- `c` runs and the processes `ps` are ready, in this order. -/
structure RoundRobin (s : Sched) (c : Ptr) (ps : List Ptr) : Prop where
  isEnabled : s.isEnabled = true
  currentProcess : s.currentProcess = some c
  running : (s.proc c).state = .running
  ready : s.lists .ready = ps
  ready_state : ∀ p ∈ ps, (s.proc p).state = .ready
  nodup : (c :: ps).Nodup

/-- At the timer value `n` no sleeping process is due. -/
def NoneDue (s : Sched) (n : ℕ) : Prop :=
  ∀ p ∈ s.lists .sleeping, (s.proc p).state = .sleeping →
    u32 n ≤ (s.proc p).stateData.sleepTimeout

/-- The sleeping processes of `s` sleep on in `s'`, and nobody else does. -/
structure SleepOn (s s' : Sched) : Prop where
  timer : s'.timer = s.timer
  sleeping : s'.lists .sleeping = s.lists .sleeping
  proc_eq : ∀ p, (s'.proc p).state = .sleeping → s'.proc p = s.proc p

variable {s s' : Sched} {t : System} {c p : Ptr} {ps rest : List Ptr} {n : ℕ}

theorem wakeSleepers_of_noneDue (h : NoneDue s s.timer) : wakeSleepers s = s := by
  unfold wakeSleepers moveToFrontIf
  apply moveToIf_eq_self
  rintro p hp ⟨hstate, hdue⟩
  have hle := h p hp hstate
  have hlt := of_decide_eq_true hdue
  rw [Sched.getTimer] at hlt
  omega

theorem SleepOn.noneDue (h : SleepOn s s') (hdue : NoneDue s n) : NoneDue s' n := by
  intro p hp hstate
  have heq := h.proc_eq p hstate
  rw [h.sleeping] at hp
  rw [heq] at hstate ⊢
  exact hdue p hp hstate

/-! ## One tick -/

/-- Nobody else is ready: the current process goes on. -/
theorem RoundRobin.reschedule_nil (h : RoundRobin s c []) (hdue : NoneDue s s.timer) :
    reschedule s = s := by
  unfold Scheduler.reschedule
  rw [if_pos h.isEnabled, wakeSleepers_of_noneDue hdue]
  dsimp only
  rw [h.ready]

theorem RoundRobin.ne (h : RoundRobin s c (p :: rest)) : c ≠ p :=
  List.ne_of_not_mem_cons (List.nodup_cons.mp h.nodup).1

/-- The first ready process goes on, and the current one is the last to be ready. -/
theorem RoundRobin.reschedule_cons (h : RoundRobin s c (p :: rest)) (hdue : NoneDue s s.timer) :
    reschedule s = dispatch s p rest := by
  have hcur : s.currentProcess ≠ some p := by
    rw [h.currentProcess]
    exact fun heq => h.ne (Option.some.inj heq)
  have hstate : ((requeueCurrent (s.setList .ready rest)).proc p).state = .ready := by
    rw [requeueCurrent_proc_of_ne (s := s.setList .ready rest) hcur, Sched.setList_proc]
    exact h.ready_state p List.mem_cons_self
  unfold Scheduler.reschedule
  rw [if_pos h.isEnabled, wakeSleepers_of_noneDue hdue]
  dsimp only
  rw [h.ready]
  dsimp only
  rw [Sched.setList_currentProcess, if_neg hcur, if_pos hstate]
  rfl

theorem RoundRobin.dispatch_eq (h : RoundRobin s c (p :: rest)) : dispatch s p rest =
    { (enqueueCurrent (s.setList .ready rest) c .ready (s.proc c).stateData).setState p .running with
      currentProcess := some p } := by
  have hreq : requeueCurrent (s.setList .ready rest) =
      enqueueCurrent (s.setList .ready rest) c .ready (s.proc c).stateData :=
    requeueCurrent_eq_of_running h.currentProcess h.running
  rw [Scheduler.dispatch, hreq]
  rfl

theorem RoundRobin.ne_of_mem (h : RoundRobin s c (p :: rest)) {q : Ptr} (hq : q ∈ rest) :
    q ≠ p ∧ q ≠ c := by
  obtain ⟨hc, hrest⟩ := List.nodup_cons.mp h.nodup
  constructor
  · rintro rfl
    exact (List.nodup_cons.mp hrest).1 hq
  · rintro rfl
    exact hc (List.mem_cons_of_mem p hq)

/-- The process that goes on. -/
theorem RoundRobin.dispatch_proc_head (h : RoundRobin s c (p :: rest)) :
    ((Scheduler.dispatch s p rest).proc p).state = .running := by
  rw [h.dispatch_eq, Sched.setState, Sched.setProc_proc_self]

/-- The process that ran. -/
theorem RoundRobin.dispatch_proc_current (h : RoundRobin s c (p :: rest)) :
    ((Scheduler.dispatch s p rest).proc c).state = .ready := by
  rw [h.dispatch_eq, Sched.setState, Sched.setProc_proc_of_ne _ _ h.ne, enqueueCurrent_proc_self]

theorem RoundRobin.dispatch_proc_of_ne (h : RoundRobin s c (p :: rest)) {q : Ptr} (hp : q ≠ p)
    (hc : q ≠ c) : (Scheduler.dispatch s p rest).proc q = s.proc q := by
  rw [h.dispatch_eq, Sched.setState, Sched.setProc_proc_of_ne _ _ hp, enqueueCurrent_proc_of_ne hc]
  rfl

/-- The cycle has turned by one place. -/
theorem RoundRobin.dispatch (h : RoundRobin s c (p :: rest)) :
    RoundRobin (dispatch s p rest) p (rest ++ [c]) := by
  have hnodup : (p :: (rest ++ [c])).Nodup := by
    rw [← List.cons_append, List.nodup_append_comm]
    exact h.nodup
  refine ⟨?_, rfl, h.dispatch_proc_head, ?_, ?_, hnodup⟩
  · rw [h.dispatch_eq]
    exact h.isEnabled
  · rw [h.dispatch_eq]
    show (enqueueCurrent (s.setList .ready rest) c .ready _).lists .ready = rest ++ [c]
    rw [enqueueCurrent_lists_self, Sched.setList_lists_self]
  · intro q hq
    rcases List.mem_append.mp hq with hrest | hlast
    · obtain ⟨hqp, hqc⟩ := h.ne_of_mem hrest
      rw [h.dispatch_proc_of_ne hqp hqc]
      exact h.ready_state q (List.mem_cons_of_mem p hrest)
    · rw [List.mem_singleton.mp hlast]
      exact h.dispatch_proc_current

theorem RoundRobin.dispatch_sleepOn (h : RoundRobin s c (p :: rest)) :
    SleepOn s (Scheduler.dispatch s p rest) := by
  refine ⟨?_, ?_, ?_⟩
  · rw [h.dispatch_eq]
    rfl
  · rw [h.dispatch_eq]
    show (enqueueCurrent (s.setList .ready rest) c .ready (s.proc c).stateData).lists .sleeping = _
    rw [enqueueCurrent_lists_of_ne (by simp), Sched.setList_lists_of_ne _ _ _ (by simp)]
  · intro q hq
    apply h.dispatch_proc_of_ne
    · rintro rfl
      rw [h.dispatch_proc_head] at hq
      cases hq
    · rintro rfl
      rw [h.dispatch_proc_current] at hq
      cases hq

/-- **One tick** turns the cycle by one place. -/
theorem RoundRobin.reschedule (h : RoundRobin s c ps) (hdue : NoneDue s s.timer) :
    ∃ c' ps', ps ++ [c] = c' :: ps' ∧ RoundRobin (reschedule s) c' ps' ∧
      SleepOn s (Scheduler.reschedule s) := by
  cases ps with
  | nil =>
    rw [h.reschedule_nil hdue]
    exact ⟨c, [], rfl, h, rfl, rfl, fun _ _ => rfl⟩
  | cons p rest =>
    rw [h.reschedule_cons hdue]
    exact ⟨p, rest ++ [c], rfl, h.dispatch, h.dispatch_sleepOn⟩

theorem RoundRobin.timerIrq (h : RoundRobin t.sched c ps)
    (hdue : NoneDue t.sched (t.sched.timer + 1)) :
    ∃ t' c' ps', step t .timerIrq = some t' ∧ ps ++ [c] = c' :: ps' ∧
      RoundRobin t'.sched c' ps' ∧ ∀ n, NoneDue t.sched (t.sched.timer + (n + 1)) →
        NoneDue t'.sched (t'.sched.timer + n) := by
  let ticked : Sched :=
    { t.sched with timer := (t.sched.timer + 1) % 18446744073709551616 }
  have hticked : RoundRobin ticked c ps :=
    ⟨h.isEnabled, h.currentProcess, h.running, h.ready, h.ready_state, h.nodup⟩
  -- the low half of the timer counts on where the 64 bits wrap
  have hu : ∀ n, u32 (ticked.timer + n) = u32 (t.sched.timer + (n + 1)) := fun n => by
    show u32 ((t.sched.timer + 1) % 18446744073709551616 + n) = _
    unfold u32
    omega
  have hdue' : NoneDue ticked ticked.timer := fun p hp hstate =>
    (hu 0).trans_le (hdue p hp hstate)
  obtain ⟨c', ps', hcycle, hnext, hsleep⟩ := hticked.reschedule hdue'
  refine ⟨{ t with sched := timerCallback t.sched }, c', ps', ?_, hcycle, hnext, ?_⟩
  · rw [step, h.currentProcess, Option.map_some]
  · intro n hn
    apply hsleep.noneDue
    intro p hp hstate
    have hle := hn p hp hstate
    rw [← hu, ← hsleep.timer] at hle
    exact hle

/-! ## Any number of ticks -/

/-- **Ready processes are rotated**: after `k` ticks the cycle of the running and the ready
    processes has turned by `k` places, and the `k`-th of `ps ++ [c]` runs. -/
theorem ready_rotates (h : RoundRobin t.sched c ps) (k : ℕ)
    (hdue : ∀ j, 1 ≤ j → j ≤ k → NoneDue t.sched (t.sched.timer + j)) :
    ∃ t' c' ps', run step t (List.replicate k .timerIrq) = some t' ∧
      RoundRobin t'.sched c' ps' ∧ (c :: ps).rotate k = c' :: ps' ∧
      (1 ≤ k → (ps ++ [c])[(k - 1) % (ps.length + 1)]? = some c') := by
  have hrotate : ∃ t' c' ps', run step t (List.replicate k .timerIrq) = some t' ∧
      RoundRobin t'.sched c' ps' ∧ (c :: ps).rotate k = c' :: ps' := by
    induction k generalizing t c ps with
    | zero => exact ⟨t, c, ps, rfl, h, List.rotate_zero _⟩
    | succ k ih =>
      obtain ⟨u, d, qs, hstep, hcycle, hnext, hlater⟩ := h.timerIrq (hdue 1 (by omega) (by omega))
      obtain ⟨t', c', ps', hrun, hend, hturned⟩ :=
        ih hnext fun j hj hjk => hlater j (hdue (j + 1) (by omega) (by omega))
      refine ⟨t', c', ps', run_cons_some.mpr ⟨u, hstep, hrun⟩, hend, ?_⟩
      rw [List.rotate_cons_succ, hcycle]
      exact hturned
  obtain ⟨t', c', ps', hrun, hend, hturned⟩ := hrotate
  refine ⟨t', c', ps', hrun, hend, hturned, ?_⟩
  intro hk
  obtain ⟨m, rfl⟩ : ∃ m, k = m + 1 := ⟨k - 1, by omega⟩
  rw [List.rotate_cons_succ] at hturned
  have hlen : (ps ++ [c]).length = ps.length + 1 := by simp
  have hat := List.getElem?_rotate (l := ps ++ [c]) (n := m) (m := 0) (by omega)
  rw [hturned, hlen, Nat.zero_add] at hat
  exact hat.symm

/-- `terminal` at 4096 and `idle` at 8192 after the boot, turned by five ticks. -/
theorem ready_rotates_example : ∃ t, run step (init 4096 8192 (.function 1)) [.boot] = some t ∧
    ∃ t' c' ps', run step t (List.replicate 5 .timerIrq) = some t' ∧
      RoundRobin t'.sched c' ps' ∧ [4096, 8192].rotate 5 = c' :: ps' ∧
      (1 ≤ 5 → ([8192] ++ [4096])[(5 - 1) % 2]? = some c') := by
  refine ⟨_, rfl, @ready_rotates _ 4096 [8192] ⟨?_, ?_, ?_, ?_, ?_, ?_⟩ 5 ?_⟩
  · rfl
  · rfl
  · rfl
  · rfl
  · simp
    rfl
  · simp
  · intro j _ _ p hp
    cases hp

end HryOS.Scheduler
