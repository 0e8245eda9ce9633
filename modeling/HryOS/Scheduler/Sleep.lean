import HryOS.Scheduler.Uptime

/-!
# How long `sleep_ms` sleeps

The deadline is a wrapping 32-bit sum and `reschedule` compares it with the low half of the 64-bit
timer.

* `SleepHonoured` — a process that goes to sleep at `T₀` is made ready by the first `reschedule`
  for which more than `time` ticks have passed, and by none before.
* `asleep_step` — what one step does to a sleeping process.
* `sleep_honoured_iff` — this holds exactly when the deadline, counted from the low half of `T₀`,
  stays below `2 ^ 32 - 1`: a deadline that wraps is over at once, and one of `2 ^ 32 - 1` never.
-/

set_option autoImplicit false

namespace HryOS.Scheduler

open ByteMemory Transition

/-- The ticks from `T₀` to `T` on the 64-bit counter. -/
def elapsed (T₀ T : ℕ) : ℕ := (T + (18446744073709551616 - T₀)) % 18446744073709551616

/-- The globals in which a step calls `reschedule`, if it does. -/
def rescheduled (t : System) : Label → Option Sched
  | .boot | .reschedule => some t.sched
  | .taskReturn => t.sched.currentProcess.map (terminated t.sched)
  | .timerIrq => some { t.sched with timer := (t.sched.timer + 1) % 18446744073709551616 }
  | .createProcess .. | .sleepMs _ | .blockCurrentProcess _ | .waitFor _ | .keyboardIrq => none

/-- `c` is on the sleeping list. -/
def Sleeps (c : Ptr) (t : System) : Prop := c ∈ t.sched.lists .sleeping

/-- In every reachable state with the timer at `T₀`, for every process that calls `sleep_ms(time)`
    there: as long as it has slept on, whatever else ran, the next `reschedule` moves it to the
    ready list if and only if more than `time` ticks have passed. -/
def SleepHonoured (T₀ time : ℕ) : Prop :=
  ∀ (x i : Ptr) (terminal : Task), x ≠ i → ∀ t, Reachable step (init x i terminal) t →
    t.sched.timer = T₀ → ∀ c t₁, t.acting .user = some c → step t (.sleepMs time) = some t₁ →
    ∀ ls t₂, run step t₁ ls = some t₂ → Along step (Sleeps c) t₁ ls →
    ∀ a t₃ r, step t₂ a = some t₃ → rescheduled t₂ a = some r →
      (c ∈ (wakeSleepers r).lists .ready ↔ time < elapsed T₀ r.timer)

variable {s : Sched} {t t' : System} {c : Ptr} {a : Label}

/-! ## The sleeping list in one `reschedule` -/

theorem mem_due (hc : c ∈ s.lists .sleeping) :
    c ∈ due s ↔ (s.proc c).stateData.sleepTimeout < s.getTimer := by
  rw [due, selected, List.mem_filter, decide_eq_true_eq]
  exact and_iff_right hc

/-- A sleeper whose deadline has passed is made ready. -/
theorem mem_wakeSleepers_ready (h : Wf s) (hc : c ∈ s.lists .sleeping) :
    c ∈ (wakeSleepers s).lists .ready ↔ (s.proc c).stateData.sleepTimeout < s.getTimer := by
  have hready : c ∉ s.lists .ready := by
    intro hr
    exact absurd ((h.state_eq _ c hc).symm.trans (h.state_eq _ c hr)) (by simp)
  rw [(wakeSleepers_due h).mem_target, or_iff_right hready, mem_due hc]

/-- It leaves the sleeping list then, and otherwise stays. -/
theorem mem_reschedule_sleeping (h : Wf s) (hc : c ∈ s.lists .sleeping) :
    c ∈ (reschedule s).lists .sleeping ↔ c ∉ (wakeSleepers s).lists .ready := by
  have hw : c ∈ (wakeSleepers s).lists .sleeping ↔ c ∉ (wakeSleepers s).lists .ready := by
    rw [mem_wakeSleepers_ready h hc, (wakeSleepers_due h).mem_source, and_iff_right hc, mem_due hc]
  rw [← hw]
  rcases reschedule_cases h with ⟨-, heq⟩ | ⟨p, rest, -, -, heq⟩ | ⟨p, rest, -, -, heq⟩
  · rw [heq]
  · rw [heq, Sched.setList_lists_of_ne _ _ _ (by simp)]
  · rw [heq, mem_dispatch, Sched.setList_lists_of_ne _ _ _ (by simp)]
    exact or_iff_left fun hr => absurd hr.2.2 (by simp)

theorem reschedule_timer (h : Wf s) : (reschedule s).timer = s.timer := by
  have hw := (wakeSleepers_due h).timer
  rcases reschedule_cases h with ⟨-, heq⟩ | ⟨p, rest, -, -, heq⟩ | ⟨p, rest, -, -, heq⟩
  · rw [heq, hw]
  · rw [heq]
    exact hw
  · rw [heq]
    show (requeueCurrent ((wakeSleepers s).setList .ready rest)).timer = s.timer
    rcases requeueCurrent_cases ((wakeSleepers s).setList .ready rest) with
      ⟨d, -, -, heq'⟩ | ⟨-, heq'⟩
    · rw [heq']
      exact hw
    · rw [heq']
      exact hw

/-! ## One step -/

/-- What a step does to the sleeper `c`, whose deadline is in `s.proc c`: nothing, or the
    `reschedule` it makes in `r` wakes `c` or lets it sleep on. -/
def AsleepStep (c : Ptr) (t : System) (a : Label) (t' : System) : Prop :=
  match rescheduled t a with
  | none => Sleeps c t' ∧ t'.sched.timer = t.sched.timer
  | some r =>
    t'.sched.timer = r.timer ∧
      (r.timer = t.sched.timer ∨ r.timer = (t.sched.timer + 1) % 18446744073709551616) ∧
      (c ∈ (wakeSleepers r).lists .ready ↔
        (t.sched.proc c).stateData.sleepTimeout < r.getTimer) ∧
      (Sleeps c t' ↔ c ∉ (wakeSleepers r).lists .ready)

/-- The steps that call `reschedule`. -/
theorem asleepStep_of_reschedule {r : Sched} (hr : rescheduled t a = some r) (h : Wf r)
    (hc : c ∈ r.lists .sleeping)
    (hdata : (r.proc c).stateData = (t.sched.proc c).stateData)
    (htimer : r.timer = t.sched.timer ∨ r.timer = (t.sched.timer + 1) % 18446744073709551616)
    (ht' : t'.sched = reschedule r) : AsleepStep c t a t' := by
  unfold AsleepStep
  rw [hr]
  simp only [Sleeps, ht']
  refine ⟨reschedule_timer h, htimer, ?_, mem_reschedule_sleeping h hc⟩
  rw [mem_wakeSleepers_ready h hc, hdata]

/-- **A step of any process or interrupt** leaves the deadline of a sleeper as it was, and wakes it
    by a `reschedule` after the deadline only. -/
theorem asleep_step (h : Inv t) (hc : Sleeps c t) (hs : step t a = some t') :
    (t'.sched.proc c).stateData = (t.sched.proc c).stateData ∧ AsleepStep c t a t' := by
  have halive := h.wf.alive .sleeping c hc
  rcases step_cases hs with ⟨rfl, hcur, rfl⟩ | ⟨d, p, task, rfl, hd, hp, rfl⟩ |
    ⟨d, st, data, hd, hb, -, ha, rfl⟩ | ⟨d, rfl, hd, rfl⟩ | ⟨d, rfl, hd, rfl⟩ | ⟨d, rfl, hd, rfl⟩ |
    ⟨d, rfl, hd, rfl⟩
  · obtain ⟨-, -, -, honly, -⟩ := reschedule_wf h.wf h.idle
    exact ⟨honly.stateData c, asleepStep_of_reschedule rfl h.wf hc rfl (Or.inl rfl) rfl⟩
  · exact ⟨congrArg _ (createProcess_proc_of_mem hp halive), mem_createProcess.mpr (Or.inl hc), rfl⟩
  · obtain ⟨hcur, -, hloc⟩ := acting_iff.mp hd
    have hcd : c ≠ d := fun hcd => h.user d hcur hloc .sleeping (hcd ▸ hc)
    refine ⟨congrArg _ (enqueueCurrent_proc_of_ne hcd), ?_⟩
    have hmem : c ∈ (enqueueCurrent t.sched d st data).lists .sleeping :=
      mem_enqueueCurrent.mpr (Or.inl hc)
    rcases ha with ⟨time, rfl, -, -⟩ | ⟨type, rfl, -, -⟩ | ⟨pid, rfl, -, -⟩
    · exact ⟨hmem, rfl⟩
    · exact ⟨hmem, rfl⟩
    · exact ⟨hmem, rfl⟩
  · obtain ⟨-, -, -, honly, -⟩ := reschedule_wf h.wf h.idle
    exact ⟨honly.stateData c, asleepStep_of_reschedule rfl h.wf hc rfl (Or.inl rfl) rfl⟩
  · obtain ⟨hcur, htask, hloc⟩ := acting_iff.mp hd
    have hm := wakeWaiters_moved h.wf d
    have hwf := h.wf.terminated hcur (h.user d hcur hloc)
    obtain ⟨-, -, -, honly, -⟩ := reschedule_wf hwf (h.idle.terminated h.wf hcur htask)
    have hdata := (terminated_onlyState (c := d) h.wf).stateData c
    have hsleep : c ∈ (terminated t.sched d).lists .sleeping := by
      have hl := hm.lists_of_ne .sleeping (by simp) (by simp)
      rw [show (terminated t.sched d).lists .sleeping = t.sched.lists .sleeping from hl]
      exact hc
    have hr : rescheduled t .taskReturn = some (terminated t.sched d) := by
      rw [rescheduled, hcur, Option.map_some]
    exact ⟨(honly.stateData c).trans hdata, asleepStep_of_reschedule hr hwf hsleep hdata
      (Or.inl hm.timer) rfl⟩
  · have hwf := h.wf.tick ((t.sched.timer + 1) % 18446744073709551616)
    obtain ⟨-, -, -, honly, -⟩ := reschedule_wf hwf h.idle
    exact ⟨honly.stateData c, asleepStep_of_reschedule rfl hwf hc rfl (Or.inr rfl) rfl⟩
  · have hm := notifyBlocked_moved h.wf .io
    have hl := hm.lists_of_ne .sleeping (by simp) (by simp)
    refine ⟨hm.onlyState.stateData c, ?_, hm.timer⟩
    show c ∈ (notifyBlocked t.sched .io).lists .sleeping
    rw [hl]
    exact hc

/-! ## A deadline that does not wrap -/

/-- `c` has slept since `T₀`, for no more than `time` ticks. -/
structure Asleep (T₀ time : ℕ) (c : Ptr) (t : System) : Prop where
  inv : Inv t
  sleeps : Sleeps c t
  data : (t.sched.proc c).stateData = .sleepData (u32 (u32 T₀ + time))
  elapsed_le : elapsed T₀ t.sched.timer ≤ time
  timer_lt : t.sched.timer < 18446744073709551616

/-- After at most `time + 1` ticks the comparison of `reschedule` is exact. -/
theorem deadline_lt_iff {T₀ T time : ℕ} (hT₀ : T₀ < 18446744073709551616)
    (hfit : u32 T₀ + time + 1 < 4294967296)
    (hle : elapsed T₀ T ≤ time + 1) : u32 (u32 T₀ + time) < u32 T ↔ time < elapsed T₀ T := by
  simp only [u32, elapsed] at *
  omega

/-- The tick moves the elapsed time by one at most. -/
theorem elapsed_succ_le {T₀ T T' time : ℕ}
    (htime : time < 4294967296) (hle : elapsed T₀ T ≤ time)
    (hT' : T' = T ∨ T' = (T + 1) % 18446744073709551616) : elapsed T₀ T' ≤ time + 1 := by
  simp only [elapsed] at *
  omega

/-- The `reschedule` of a step wakes the sleeper if and only if its time is over. -/
theorem Asleep.wakes_iff {T₀ time : ℕ} {r : Sched} (hT₀ : T₀ < 18446744073709551616)
    (hfit : u32 T₀ + time + 1 < 4294967296) (h : Asleep T₀ time c t) (hs : step t a = some t')
    (hr : rescheduled t a = some r) :
    c ∈ (wakeSleepers r).lists .ready ↔ time < elapsed T₀ r.timer := by
  obtain ⟨-, hstep⟩ := asleep_step h.inv h.sleeps hs
  rw [AsleepStep, hr] at hstep
  obtain ⟨-, htimer, hwake, -⟩ := hstep
  have hle := elapsed_succ_le (by omega) h.elapsed_le htimer
  rw [hwake, h.data]
  exact deadline_lt_iff hT₀ hfit hle

/-- A step that lets the sleeper sleep on. -/
theorem Asleep.step {T₀ time : ℕ} (hT₀ : T₀ < 18446744073709551616)
    (hfit : u32 T₀ + time + 1 < 4294967296) (h : Asleep T₀ time c t) (hc : Sleeps c t')
    (hs : Scheduler.step t a = some t') : Asleep T₀ time c t' := by
  obtain ⟨hdata, hstep⟩ := asleep_step h.inv h.sleeps hs
  have hlt := h.timer_lt
  have hinv := step_inv h.inv hs
  rw [h.data] at hdata
  cases hr : rescheduled t a with
  | none =>
    rw [AsleepStep, hr] at hstep
    refine ⟨hinv, hc, hdata, ?_, ?_⟩
    · rw [hstep.2]
      exact h.elapsed_le
    · rw [hstep.2]
      exact hlt
  | some r =>
    have hwakes := h.wakes_iff hT₀ hfit hs hr
    rw [AsleepStep, hr] at hstep
    obtain ⟨heq, htimer, -, hsleeps⟩ := hstep
    have hnot := hsleeps.mp hc
    refine ⟨hinv, hc, hdata, ?_, ?_⟩
    · rw [heq]
      exact not_lt.mp fun hover => hnot (hwakes.mpr hover)
    · rw [heq]
      omega

/-- The state in which `sleep_ms` leaves its caller. -/
theorem asleep_of_sleepMs {T₀ time : ℕ} (h : Inv t) (hT : t.sched.timer = T₀)
    (hT₀ : T₀ < 18446744073709551616) (hc : t.acting .user = some c)
    (hs : Scheduler.step t (.sleepMs time) = some t') : Asleep T₀ time c t' := by
  have hinv := step_inv h hs
  obtain ⟨d, hd, rfl⟩ := Option.map_eq_some_iff.mp hs
  obtain rfl : d = c := Option.some.inj (hd.symm.trans hc)
  refine ⟨hinv, mem_enqueueCurrent.mpr (Or.inr ⟨rfl, rfl⟩), ?_, ?_, ?_⟩
  · rw [← hT]
    exact congrArg Process.stateData enqueueCurrent_proc_self
  · show elapsed T₀ t.sched.timer ≤ time
    rw [hT, elapsed, Nat.add_sub_cancel' hT₀.le]
    exact Nat.zero_le _
  · exact hT ▸ hT₀

theorem sleepHonoured_of_fit {T₀ time : ℕ} (hT₀ : T₀ < 18446744073709551616)
    (hfit : u32 T₀ + time + 1 < 4294967296) : SleepHonoured T₀ time := by
  intro x i terminal hne t ht hT c t₁ hc hs ls t₂ hrun halong a t₃ r hstep hr
  have h₁ := asleep_of_sleepMs (reachable_inv hne terminal ht) hT hT₀ hc hs
  have h₂ : Asleep T₀ time c t₂ := run_along (P := Sleeps c)
    (fun _ _ _ h hc hs => h.step hT₀ hfit hc hs) h₁ halong hrun
  exact h₂.wakes_iff hT₀ hfit hstep hr

/-! ## A deadline that wraps -/

/-- The `reschedule` at the end of `sleep_ms` is enabled. -/
theorem exists_reschedule {time : ℕ} (hc : t.acting .user = some c)
    (hs : step t (.sleepMs time) = some t') : ∃ t'', step t' .reschedule = some t'' := by
  obtain ⟨hcur, htask, -⟩ := acting_iff.mp hc
  obtain ⟨d, hd, rfl⟩ := Option.map_eq_some_iff.mp hs
  obtain rfl : d = c := Option.some.inj (hd.symm.trans hc)
  have hacting : System.acting { t with sched := sleepMs t.sched d time
                                        loc := Function.update t.loc d .window } .window =
      some d := by
    refine acting_iff.mpr ⟨hcur, ?_, Function.update_self ..⟩
    show ((enqueueCurrent t.sched d .sleeping _).proc d).task ≠ .idleProcess
    rw [enqueueCurrent_proc_self]
    exact htask
  exact ⟨_, by rw [step, hacting, Option.map_some]⟩

/-- A wrapped deadline has passed already. -/
theorem not_sleepHonoured_of_wrap {T₀ time : ℕ} (hT₀ : T₀ < 18446744073709551616)
    (htime : time < 4294967296) (hwrap : 4294967296 ≤ u32 T₀ + time) : ¬SleepHonoured T₀ time := by
  intro hall
  obtain ⟨t, c, ht, hT, hc⟩ := exists_acting hT₀
  obtain ⟨t₁, hs⟩ : ∃ t₁, step t (.sleepMs time) = some t₁ :=
    ⟨_, by rw [step, System.enqueue, hc, Option.map_some]⟩
  obtain ⟨t₂, hs₂⟩ := exists_reschedule hc hs
  have h₁ := asleep_of_sleepMs (reachable_inv (by simp) _ ht) hT hT₀ hc hs
  have hiff := hall 4096 8192 (.function 1) (by simp) t ht hT c t₁ hc hs [] t₁ rfl
    (along_nil.mpr h₁.sleeps) .reschedule t₂ t₁.sched hs₂ rfl
  have hnot : ¬time < elapsed T₀ t₁.sched.timer := not_lt.mpr h₁.elapsed_le
  rw [mem_wakeSleepers_ready h₁.inv.wf h₁.sleeps, h₁.data] at hiff
  refine hnot (hiff.mp ?_)
  obtain ⟨d, hd, rfl⟩ := Option.map_eq_some_iff.mp hs
  show u32 (u32 T₀ + time) < u32 t.sched.timer
  rw [hT]
  simp only [u32] at *
  omega

/-! ## A deadline of `2 ^ 32 - 1` -/

/-- `c` sleeps until the low half of the timer exceeds `2 ^ 32 - 1`, and something runs. -/
structure Stuck (c : Ptr) (t : System) : Prop where
  inv : Inv t
  sleeps : Sleeps c t
  data : (t.sched.proc c).stateData = .sleepData 4294967295
  running : t.sched.currentProcess.isSome

/-- No `reschedule` wakes it. -/
theorem Stuck.not_woken {r : Sched} (h : Stuck c t) (hs : step t a = some t')
    (hr : rescheduled t a = some r) : c ∉ (wakeSleepers r).lists .ready := by
  obtain ⟨-, hstep⟩ := asleep_step h.inv h.sleeps hs
  rw [AsleepStep, hr] at hstep
  rw [hstep.2.2.1, h.data]
  have := u32_lt r.timer
  show ¬4294967295 < u32 r.timer
  omega

/-- A tick from there leads there. -/
theorem Stuck.tick (h : Stuck c t) : ∃ t', step t .timerIrq = some t' ∧ Stuck c t' ∧
    t'.sched.timer = (t.sched.timer + 1) % 18446744073709551616 := by
  obtain ⟨d, hd⟩ := Option.isSome_iff_exists.mp h.running
  have hstep : step t .timerIrq = some { t with sched := timerCallback t.sched } := by
    rw [step, hd, Option.map_some]
  have hwf := h.inv.wf.tick ((t.sched.timer + 1) % 18446744073709551616)
  obtain ⟨-, -, -, honly, hcur⟩ := reschedule_wf hwf h.inv.idle
  have hnot := h.not_woken hstep rfl
  refine ⟨_, hstep, ⟨step_inv h.inv hstep, ?_, ?_, ?_⟩, reschedule_timer hwf⟩
  · exact (mem_reschedule_sleeping hwf h.sleeps).mpr hnot
  · rw [← h.data]
    exact honly.stateData c
  · rcases hcur with ⟨hsame, -, -⟩ | ⟨e, he, -⟩
    · exact (congrArg Option.isSome hsame).trans h.running
    · exact congrArg Option.isSome he

/-- So it sleeps on through any number of ticks. -/
theorem Stuck.ticks (h : Stuck c t) (k : ℕ) : ∃ t', run step t (List.replicate k .timerIrq) =
    some t' ∧ Along step (Sleeps c) t (List.replicate k .timerIrq) ∧ Stuck c t' ∧
    t'.sched.timer % 18446744073709551616 = (t.sched.timer + k) % 18446744073709551616 := by
  induction k generalizing t with
  | zero => exact ⟨t, rfl, along_nil.mpr h.sleeps, h, rfl⟩
  | succ k ih =>
    obtain ⟨u, hu, hstuck, htimer⟩ := h.tick
    obtain ⟨t', hrun, halong, hstuck', htimer'⟩ := ih hstuck
    refine ⟨t', run_cons_some.mpr ⟨u, hu, hrun⟩, along_cons.mpr ⟨h.sleeps, ?_⟩, hstuck', ?_⟩
    · intro v hv
      cases hu.symm.trans hv
      exact halong
    · rw [htimer', htimer]
      omega

/-- The process is still asleep when its time is over. -/
theorem not_sleepHonoured_of_max {T₀ time : ℕ} (hT₀ : T₀ < 18446744073709551616)
    (htime : time < 4294967296) (hmax : u32 T₀ + time = 4294967295) : ¬SleepHonoured T₀ time := by
  intro hall
  obtain ⟨t, c, ht, hT, hc⟩ := exists_acting hT₀
  obtain ⟨t₁, hs⟩ : ∃ t₁, step t (.sleepMs time) = some t₁ :=
    ⟨_, by rw [step, System.enqueue, hc, Option.map_some]⟩
  have h₁ := asleep_of_sleepMs (reachable_inv (by simp) _ ht) hT hT₀ hc hs
  obtain ⟨hcur, -, -⟩ := acting_iff.mp hc
  have htimer₁ : t₁.sched.timer = T₀ ∧ t₁.sched.currentProcess = some c := by
    obtain ⟨d, hd, rfl⟩ := Option.map_eq_some_iff.mp hs
    exact ⟨hT, hcur⟩
  have hstuck : Stuck c t₁ := by
    refine ⟨h₁.inv, h₁.sleeps, ?_, by rw [htimer₁.2]; rfl⟩
    rw [h₁.data, hmax]
    rfl
  obtain ⟨t₂, hrun, halong, hstuck₂, htimer₂⟩ := hstuck.ticks time
  obtain ⟨t₃, hs₃, -, -⟩ := hstuck₂.tick
  have hiff := hall 4096 8192 (.function 1) (by simp) t ht hT c t₁ hc hs _ t₂ hrun halong
    .timerIrq t₃ _ hs₃ rfl
  refine hstuck₂.not_woken hs₃ rfl (hiff.mpr ?_)
  rw [htimer₁.1] at htimer₂
  simp only [elapsed]
  omega

/-! ## The exact condition -/

/-- **Sleep duration.**  At the timer value `T₀`, `sleep_ms(time)` sleeps for exactly `time` ticks
    if and only if its deadline, counted from the low half of `T₀`, is below `2 ^ 32 - 1`. -/
theorem sleep_honoured_iff (T₀ : UInt64) (time : UInt32) :
    SleepHonoured T₀.toNat time.toNat ↔ u32 T₀.toNat + time.toNat + 1 < 4294967296 := by
  have hT₀ := T₀.toNat_lt
  have htime := time.toNat_lt
  constructor
  · intro hall
    by_contra hfit
    rcases Nat.lt_or_ge (u32 T₀.toNat + time.toNat) 4294967296 with hlt | hge
    · exact not_sleepHonoured_of_max hT₀ htime (by omega) hall
    · exact not_sleepHonoured_of_wrap hT₀ htime hge hall
  · exact sleepHonoured_of_fit hT₀

/-- At the timer value `2 ^ 32 - 10`, with 20 ticks to sleep, the deadline is 10. -/
theorem sleep_wrapped : ¬SleepHonoured 4294967286 20 :=
  not_sleepHonoured_of_wrap (by decide) (by decide) (by decide)

end HryOS.Scheduler
