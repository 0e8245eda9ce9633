import HryOS.Drivers.Keyboard

/-!
# Keyboard wake-ups

`pull_key` tests the buffer with interrupts enabled and enqueues itself later.  An event stored
between the two wakes nobody, since the consumer is not on the blocked list yet.

* `NoLostWakeUp` — no process is blocked for io while the buffer holds an event.
* `noLostWakeUp_step` — only entering the critical section of `block_current_process` with an
  event in the buffer breaks it.
* `no_lost_wake_up_iff` — the same over whole runs.
-/

set_option autoImplicit false

namespace HryOS.Keyboard

open Transition HryOS.Scheduler

/-- No process is blocked for io while the buffer holds an event. -/
def NoLostWakeUp (d : Driver) : Prop := ∀ p ∈ d.sys.sched.lists .blocked,
  (d.sys.sched.proc p).stateData = .blockedData .io → d.buffer.empty = true

/-- The condition on a step: `pull_key` enters the critical section of `block_current_process`
    with the buffer as it tested it. -/
def BlocksOnEmpty (d : Driver) : Label → Prop
  | .block => d.buffer.empty = true
  | _ => True

instance (d : Driver) : Decidable (NoLostWakeUp d) := by unfold NoLostWakeUp; infer_instance

instance (d : Driver) : ∀ l, Decidable (BlocksOnEmpty d l)
  | .block => inferInstanceAs (Decidable (_ = _))
  | .sched _ | .keyboardIrq _ | .isBufferEmpty | .reschedule | .popEmpty | .popFront
  | .popResetFront | .popAdvance => isTrue trivial

/-- Inside `pop`, after its test. -/
def Popping : PullLoc → Prop
  | .front | .resetFront _ | .advance _ => True
  | _ => False

/-- The invariant: the scheduler's, and the buffer stays non-empty until `pop` advances. -/
structure DriverInv (d : Driver) : Prop where
  sys : Inv d.sys
  popping : Popping d.loc → d.buffer.empty = false

variable {x i : Ptr} {d d' : Driver} {l : Label} {t t' : System} {p : Ptr}

/-- What is on the blocked list is blocked for io. -/
theorem DriverInv.noLostWakeUp_iff (h : DriverInv d) :
    NoLostWakeUp d ↔ (d.sys.sched.lists .blocked ≠ [] → d.buffer.empty = true) := by
  constructor
  · intro hn hne
    obtain ⟨p, hp⟩ := List.exists_mem_of_ne_nil _ hne
    obtain ⟨⟨⟩, hdata⟩ := h.sys.wf.matches_data .blocked p hp
    exact hn p hp hdata
  · intro hn p hp _
    exact hn (List.ne_nil_of_mem hp)

/-! ## The blocked list -/

/-- Only `block_current_process` adds to the blocked list. -/
theorem mem_blocked_of_step {a : Scheduler.Label} (h : Inv t) (hs : Scheduler.step t a = some t')
    (ha : ∀ type, a ≠ .blockCurrentProcess type) (hp : p ∈ t'.sched.lists .blocked) :
    p ∈ t.sched.lists .blocked := by
  rcases Scheduler.step_cases hs with ⟨rfl, hcur, rfl⟩ | ⟨c, q, task, rfl, hc, hq, rfl⟩ |
    ⟨c, st, data, hc, hb, -, hd, rfl⟩ | ⟨c, rfl, hc, rfl⟩ | ⟨c, rfl, hc, rfl⟩ | ⟨c, rfl, hc, rfl⟩ |
    ⟨c, rfl, hc, rfl⟩
  · exact (mem_reschedule_of_ne h.wf (by simp) (by simp)).mp hp
  · exact (mem_createProcess.mp hp).resolve_right nofun
  · have hst : ProcState.blocked ≠ st := by
      rcases hd with ⟨_, -, rfl, -⟩ | ⟨type, rfl, -, -⟩ | ⟨_, -, rfl, -⟩
      · decide
      · exact absurd rfl (ha type)
      · decide
    exact (mem_enqueueCurrent.mp hp).resolve_right fun h => hst h.2
  · exact (mem_reschedule_of_ne h.wf (by simp) (by simp)).mp hp
  · obtain ⟨hcur, htask, hloc⟩ := acting_iff.mp hc
    have hwf := h.wf.terminated hcur (h.user c hcur hloc)
    have hp' : p ∈ (terminated t.sched c).lists .blocked :=
      (mem_reschedule_of_ne hwf (by simp) (by simp)).mp hp
    rw [← (wakeWaiters_moved h.wf c).lists_of_ne .blocked (by simp) (by simp)]
    exact hp'
  · have hwf := h.wf.tick ((t.sched.timer + 1) % 18446744073709551616)
    have hp' : p ∈ ({ t.sched with timer := (t.sched.timer + 1) % 18446744073709551616 } :
        Sched).lists .blocked := (mem_reschedule_of_ne hwf (by simp) (by simp)).mp hp
    exact hp'
  · have hm := notifyBlocked_moved h.wf .io
    exact ((hm.mem_source p).mp hp).1

/-- The keyboard interrupt empties the blocked list. -/
theorem blocked_eq_nil_of_keyboardIrq (h : Inv t)
    (hs : Scheduler.step t .keyboardIrq = some t') : t'.sched.lists .blocked = [] := by
  obtain ⟨c, -, rfl⟩ := Option.map_eq_some_iff.mp hs
  have hm := notifyBlocked_moved h.wf .io
  refine List.eq_nil_iff_forall_not_mem.mpr ?_
  intro p hp
  obtain ⟨hps, hsel⟩ := (hm.mem_source p).mp hp
  obtain ⟨⟨⟩, hdata⟩ := h.wf.matches_data .blocked p hps
  apply hsel
  exact List.mem_filter.mpr ⟨hps, decide_eq_true (by rw [hdata])⟩

/-- The critical section of `block_current_process` leaves its caller on the blocked list. -/
theorem blocked_ne_nil_of_block {type : BlockedType}
    (hs : Scheduler.step t (.blockCurrentProcess type) = some t') :
    t'.sched.lists .blocked ≠ [] := by
  obtain ⟨c, -, rfl⟩ := Option.map_eq_some_iff.mp hs
  exact List.ne_nil_of_mem (mem_enqueueCurrent.mpr (Or.inr ⟨rfl, rfl⟩))

/-! ## Steps and runs -/

theorem step_driverInv (h : DriverInv d) (hs : step x d l = some d') : DriverInv d' := by
  have hsys : Inv d'.sys := run_invariant (I := Inv) (fun _ _ _ => step_inv) h.sys (step_sched hs)
  refine ⟨hsys, ?_⟩
  rcases step_cases hs with ⟨a, sys, rfl, -, -, rfl⟩ | ⟨code, sys, rfl, -, rfl⟩ | ⟨rfl, rfl⟩ |
    ⟨sys, rfl, -, -, rfl⟩ | ⟨sys, rfl, -, rfl⟩ | ⟨rfl, -, rfl⟩ | ⟨rfl, he, rfl⟩ | ⟨rfl, hloc, rfl⟩ |
    ⟨value, rfl, hloc, rfl⟩ | ⟨value, rfl, hloc, rfl⟩
  · exact h.popping
  · exact fun hp => CircularBuffer.pushBack_empty d.buffer (h.popping hp) _
  · intro hp
    dsimp only at hp
    split at hp <;> cases hp
  · exact False.elim
  · exact False.elim
  · exact False.elim
  · exact fun _ => he
  · exact fun _ => h.popping (by rw [hloc]; trivial)
  · exact fun _ => h.popping (by rw [hloc]; trivial)
  · exact False.elim

/-- **One step.** -/
theorem noLostWakeUp_step (h : DriverInv d) (hn : NoLostWakeUp d) (hs : step x d l = some d') :
    NoLostWakeUp d' ↔ BlocksOnEmpty d l := by
  rw [(step_driverInv h hs).noLostWakeUp_iff]
  rw [h.noLostWakeUp_iff] at hn
  rcases step_cases hs with ⟨a, sys, rfl, hmay, hsys, rfl⟩ | ⟨code, sys, rfl, hsys, rfl⟩ |
    ⟨rfl, rfl⟩ | ⟨sys, rfl, -, hsys, rfl⟩ | ⟨sys, rfl, hsys, rfl⟩ | ⟨rfl, -, rfl⟩ | ⟨rfl, -, rfl⟩ |
    ⟨rfl, -, rfl⟩ | ⟨value, rfl, hloc, rfl⟩ | ⟨value, rfl, hloc, rfl⟩
  · refine iff_of_true (fun hne => hn ?_) trivial
    obtain ⟨p, hp⟩ := List.exists_mem_of_ne_nil _ hne
    exact List.ne_nil_of_mem (mem_blocked_of_step h.sys hsys (by rintro _ rfl; exact hmay) hp)
  · exact iff_of_true (fun hne => absurd (blocked_eq_nil_of_keyboardIrq h.sys hsys) hne) trivial
  · exact iff_of_true hn trivial
  · exact ⟨fun hn' => hn' (blocked_ne_nil_of_block hsys), fun he _ => he⟩
  · refine iff_of_true (fun hne => hn ?_) trivial
    obtain ⟨p, hp⟩ := List.exists_mem_of_ne_nil _ hne
    exact List.ne_nil_of_mem (mem_blocked_of_step h.sys hsys nofun hp)
  · exact iff_of_true hn trivial
  · exact iff_of_true hn trivial
  · exact iff_of_true hn trivial
  · exact iff_of_true hn trivial
  · -- the buffer held the popped event, so nobody was blocked
    refine iff_of_true ?_ trivial
    intro hne
    have hfull := h.popping (by rw [hloc]; trivial)
    rw [hn hne] at hfull
    cases hfull

theorem init_driverInv (hne : x ≠ i) (terminal : Task) : DriverInv (init x i terminal) :=
  ⟨init_inv hne terminal, False.elim⟩

/-- **No wake-up is lost, exactly when** `pull_key` never enters the critical section of
    `block_current_process` with an event in the buffer. -/
theorem no_lost_wake_up_iff (hne : x ≠ i) (terminal : Task) {ls : List Label}
    (hrun : run (step x) (init x i terminal) ls = some d) :
    Along (step x) NoLostWakeUp (init x i terminal) ls ↔
      EveryStep (step x) BlocksOnEmpty (init x i terminal) ls := by
  apply along_iff_everyStep (I := DriverInv) (fun u a u' h hs => step_driverInv h hs)
    (fun u a u' h hn hs => noLostWakeUp_step h hn hs) (init_driverInv hne terminal) _ hrun
  intro p hp
  exact absurd hp List.not_mem_nil

/-- The consumer blocks, `idle` runs, a key arrives and the consumer gets it. -/
theorem no_lost_wake_up_example : ∃ d, run (step 4096) (init 4096 8192 (.function 1))
    [.sched .boot, .isBufferEmpty, .block, .reschedule, .keyboardIrq 0x1E, .sched .timerIrq,
      .popEmpty, .popFront, .popResetFront, .popAdvance] = some d ∧
        d.pulled = [⟨.pressed, 0x1E⟩] ∧ NoLostWakeUp d := by
  obtain ⟨d, hd, hpulled⟩ : ∃ d ∈ run (step 4096) (init 4096 8192 (.function 1))
    [.sched .boot, .isBufferEmpty, .block, .reschedule, .keyboardIrq 0x1E, .sched .timerIrq,
      .popEmpty, .popFront, .popResetFront, .popAdvance], d.pulled = [⟨.pressed, 0x1E⟩] := by
    decide +kernel
  have hall : EveryStep (step 4096) BlocksOnEmpty (init 4096 8192 (.function 1))
    [.sched .boot, .isBufferEmpty, .block, .reschedule, .keyboardIrq 0x1E, .sched .timerIrq,
      .popEmpty, .popFront, .popResetFront, .popAdvance] := by decide +kernel
  exact ⟨d, hd, hpulled,
    (no_lost_wake_up_iff (by simp) _ hd).mpr hall _ (List.prefix_refl _) d hd⟩

/-- A key between the test of the buffer and the critical section: the consumer blocks on it. -/
theorem wake_up_lost : ¬∀ (x i : Ptr) (terminal : Task) (ls : List Label) (d : Driver), x ≠ i →
    run (step x) (init x i terminal) ls = some d → NoLostWakeUp d := by
  intro h
  obtain ⟨d, hd, hlost⟩ : ∃ d ∈ run (step 4096) (init 4096 8192 (.function 1))
      [.sched .boot, .isBufferEmpty, .keyboardIrq 0x1E, .block], ¬NoLostWakeUp d := by
    decide +kernel
  exact hlost (h 4096 8192 _ _ d (by simp) hd)

end HryOS.Keyboard
