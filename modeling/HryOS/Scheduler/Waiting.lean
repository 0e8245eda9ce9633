import HryOS.Scheduler.Starvation
import HryOS.Scheduler.WaitFor

/-!
# How long a wait lasts

`wait_for` names a process by its identifier, and `process_starter` wakes by the identifier of the
process that ends.

* `Numbered` — `pid_generator` counts the creations, so that no two live processes share an
  identifier before the `int` overflows.
* `WaitsFor` — one process waits for another one, which lives.
* `WaitsFor.of_step` — only the end of the second process changes that.
* `waits_while_alive` — the caller of `wait_for` waits exactly as long as the process it named
  lives, and is ready or running when that one has ended.
-/

set_option autoImplicit false

namespace HryOS.Scheduler

open ByteMemory Transition

variable {s s' : Sched} {p q w c d : Ptr} {t t' s₁ : System} {a : Label}
  {ls : List Label}

/-! ## Identifiers -/

/-- `create_process` has not been called so often that `pid_generator`, an `int`, overflowed. -/
def NoOverflow (t : System) : Prop := t.returned.length < 2147483648

/-- What the identifiers of the live processes are. -/
structure Numbered (t : System) : Prop where
  generator : t.sched.pidGenerator = u32 t.returned.length
  below : NoOverflow t → ∀ p ∈ t.sched.processes, (t.sched.proc p).pid < t.returned.length
  distinct : NoOverflow t → ∀ p ∈ t.sched.processes, ∀ q ∈ t.sched.processes,
    (t.sched.proc p).pid = (t.sched.proc q).pid → p = q

/-- No process is created, and none gets another identifier. -/
theorem Numbered.keep (h : Numbered t) (hret : t'.returned = t.returned)
    (hgen : t'.sched.pidGenerator = t.sched.pidGenerator)
    (hprocs : ∀ q ∈ t'.sched.processes, q ∈ t.sched.processes)
    (hpid : ∀ q, (t'.sched.proc q).pid = (t.sched.proc q).pid) : Numbered t' := by
  have hover : NoOverflow t' ↔ NoOverflow t := by unfold NoOverflow; rw [hret]
  refine ⟨by rw [hgen, hret, h.generator], ?_, ?_⟩
  · intro ho p hp
    rw [hpid, hret]
    exact h.below (hover.mp ho) p (hprocs p hp)
  · intro ho p hp q hq heq
    rw [hpid, hpid] at heq
    exact h.distinct (hover.mp ho) p (hprocs p hp) q (hprocs q hq) heq

theorem requeueCurrent_pidGenerator (s : Sched) :
    (requeueCurrent s).pidGenerator = s.pidGenerator := by
  rcases requeueCurrent_cases s with ⟨c, -, -, heq⟩ | ⟨-, heq⟩
  · rw [heq]
    rfl
  · rw [heq]

theorem reschedule_pidGenerator (h : Wf s) : (reschedule s).pidGenerator = s.pidGenerator := by
  have hw := (wakeSleepers_due h).pidGenerator
  rcases reschedule_cases h with ⟨-, heq⟩ | ⟨p, rest, -, -, heq⟩ | ⟨p, rest, -, -, heq⟩
  · rw [heq, hw]
  · rw [heq]
    exact hw
  · rw [heq]
    exact (requeueCurrent_pidGenerator _).trans hw

/-- `reschedule` in a state with the identifiers of `t`. -/
theorem Numbered.reschedule (h : Numbered t) (hwf : Wf s) (hi : IdleReady s)
    (hret : t'.returned = t.returned) (hsched : t'.sched = reschedule s)
    (hgen : s.pidGenerator = t.sched.pidGenerator)
    (hprocs : ∀ q ∈ s.processes, q ∈ t.sched.processes)
    (hpid : ∀ q, (s.proc q).pid = (t.sched.proc q).pid) : Numbered t' := by
  obtain ⟨-, -, hsame, honly, -⟩ := reschedule_wf hwf hi
  refine h.keep hret ?_ ?_ ?_
  · rw [hsched, reschedule_pidGenerator hwf, hgen]
  · rw [hsched, hsame]
    exact hprocs
  · intro q
    rw [hsched, honly.pid, hpid]

/-- The new identifier is above all that live processes have. -/
theorem Numbered.createProcess {task : Task} (h : Numbered t) (hp : p ∉ t.sched.processes)
    {loc : Ptr → Loc} {deleted : List Ptr} :
    Numbered ⟨createProcess t.sched p task, loc, t.sched.pidGenerator :: t.returned, deleted⟩ := by
  have hold : ∀ q ∈ t.sched.processes,
      (Scheduler.createProcess t.sched p task).proc q = t.sched.proc q :=
    fun q hq => createProcess_proc_of_mem hp hq
  have hself : ((Scheduler.createProcess t.sched p task).proc p).pid = t.sched.pidGenerator := by
    rw [createProcess_proc_self]
  refine ⟨?_, ?_, ?_⟩
  · show u32 (t.sched.pidGenerator + 1) = u32 (t.returned.length + 1)
    rw [h.generator]
    unfold u32
    omega
  all_goals
    intro hover
    have hlen : t.returned.length + 1 < 2147483648 := hover
    have ho : NoOverflow t := show t.returned.length < 2147483648 by omega
    have hgen : t.sched.pidGenerator = t.returned.length :=
      h.generator.trans (u32_of_lt (by omega))
  · intro q hq
    show ((Scheduler.createProcess t.sched p task).proc q).pid < t.returned.length + 1
    rcases List.mem_append.mp hq with hq | hq
    · rw [hold q hq]
      exact (h.below ho q hq).trans (Nat.lt_succ_self _)
    · rw [List.mem_singleton.mp hq, hself, hgen]
      exact Nat.lt_succ_self _
  · have hne : ∀ q ∈ t.sched.processes, (t.sched.proc q).pid ≠ t.sched.pidGenerator := by
      intro q hq
      rw [hgen]
      exact (h.below ho q hq).ne
    intro q hq r hr heq
    change ((Scheduler.createProcess t.sched p task).proc q).pid =
      ((Scheduler.createProcess t.sched p task).proc r).pid at heq
    rcases List.mem_append.mp hq with hq | hq
    · rcases List.mem_append.mp hr with hr | hr
      · rw [hold q hq, hold r hr] at heq
        exact h.distinct ho q hq r hr heq
      · rw [hold q hq, List.mem_singleton.mp hr, hself] at heq
        exact absurd heq (hne q hq)
    · rcases List.mem_append.mp hr with hr | hr
      · rw [hold r hr, List.mem_singleton.mp hq, hself] at heq
        exact absurd heq.symm (hne r hr)
      · rw [List.mem_singleton.mp hq, List.mem_singleton.mp hr]

theorem step_numbered (hi : Inv t) (h : Numbered t) (hs : step t a = some t') : Numbered t' := by
  rcases step_cases hs with ⟨rfl, -, rfl⟩ | ⟨d, p, task, rfl, -, hp, rfl⟩ |
    ⟨d, st, data, -, -, -, -, rfl⟩ | ⟨d, rfl, -, rfl⟩ | ⟨d, rfl, hd, rfl⟩ | ⟨d, rfl, -, rfl⟩ |
    ⟨d, rfl, -, rfl⟩
  · exact h.reschedule hi.wf hi.idle rfl rfl rfl (fun _ hq => hq) fun _ => rfl
  · exact h.createProcess hp
  · exact h.keep rfl rfl (fun _ hq => hq) fun _ => enqueueCurrent_pid
  · exact h.reschedule hi.wf hi.idle rfl rfl rfl (fun _ hq => hq) fun _ => rfl
  · obtain ⟨hcur, htask, hloc⟩ := acting_iff.mp hd
    refine h.reschedule (hi.wf.terminated hcur (hi.user d hcur hloc))
      (hi.idle.terminated hi.wf hcur htask) rfl rfl ?_ ?_ ?_
    · exact (wakeWaiters_moved hi.wf d).pidGenerator
    · intro q hq
      exact ((mem_terminated_processes hi.wf).mp hq).1
    · exact (terminated_onlyState hi.wf).pid
  · have htick := hi.wf.tick ((t.sched.timer + 1) % 18446744073709551616)
    exact h.reschedule htick hi.idle rfl rfl rfl (fun _ hq => hq) fun _ => rfl
  · have hm := notifyBlocked_moved hi.wf .io
    refine h.keep rfl hm.pidGenerator (fun q hq => ?_) hm.onlyState.pid
    exact hm.processes ▸ hq

theorem init_numbered {x i : Ptr} (hne : x ≠ i) (terminal : Task) :
    Numbered (init x i terminal) := by
  have hempty : Numbered ⟨emptySched, fun _ => .user, [], []⟩ := ⟨rfl, nofun, nofun⟩
  have hx : Numbered ⟨createProcess emptySched x terminal, fun _ => .user, [0], []⟩ :=
    hempty.createProcess List.not_mem_nil
  have hon : Numbered ⟨{ createProcess emptySched x terminal with isEnabled := true },
      fun _ => .user, [0], []⟩ := hx.keep rfl rfl (fun _ hq => hq) fun _ => rfl
  exact hon.createProcess fun hi => hne (List.mem_singleton.mp hi).symm

theorem reachable_numbered {x i : Ptr} (hne : x ≠ i) (terminal : Task)
    (h : Reachable step (init x i terminal) t) : Inv t ∧ Numbered t :=
  h.invariant (I := fun u => Inv u ∧ Numbered u) ⟨init_inv hne terminal, init_numbered hne terminal⟩
    fun _ _ _ h hs => ⟨step_inv h.1 hs, step_numbered h.1 h.2 hs⟩

/-- Identifiers are only ever added. -/
theorem step_returned (hs : step t a = some t') : t.returned.length ≤ t'.returned.length := by
  rcases step_cases hs with ⟨-, -, rfl⟩ | ⟨d, p, task, -, -, -, rfl⟩ |
    ⟨d, st, data, -, -, -, -, rfl⟩ | ⟨d, -, -, rfl⟩ | ⟨d, -, -, rfl⟩ | ⟨d, -, -, rfl⟩ |
    ⟨d, -, -, rfl⟩
  case inr.inl => exact Nat.le_succ _
  all_goals exact Nat.le_refl _

theorem NoOverflow.of_run (hrun : run step t ls = some t') (h : NoOverflow t') : NoOverflow t := by
  have hle : t.returned.length ≤ t'.returned.length :=
    run_invariant (I := fun u => t.returned.length ≤ u.returned.length)
      (fun u a u' hu hs => hu.trans (step_returned hs)) (Nat.le_refl _) hrun
  exact Nat.lt_of_le_of_lt hle h

/-! ## A wait -/

/-- `w` is on the waiting list, for the live process `q`. -/
structure WaitsFor (s : Sched) (w q : Ptr) : Prop where
  waiting : w ∈ s.lists .waiting
  data : (s.proc w).stateData = .waitingData (s.proc q).pid
  live : q ∈ s.processes

/-- The task of `q` returns. -/
def Ends (q : Ptr) (t : System) (a : Label) : Prop :=
  a = .taskReturn ∧ t.sched.currentProcess = some q

/-- A waiter has been woken: it is on the ready list, or was dispatched at once. -/
structure Woken (s : Sched) (w q : Ptr) : Prop where
  not_waiting : w ∉ s.lists .waiting
  not_live : q ∉ s.processes
  ready : w ∈ s.lists .ready ∨ s.currentProcess = some w

theorem WaitsFor.reschedule (h : WaitsFor s w q) (hwf : Wf s) (hi : IdleReady s) :
    WaitsFor (reschedule s) w q := by
  obtain ⟨-, -, hprocs, honly, -⟩ := reschedule_wf hwf hi
  refine ⟨(mem_reschedule_of_ne hwf (by simp) (by simp)).mpr h.waiting, ?_, ?_⟩
  · rw [honly.stateData, honly.pid]
    exact h.data
  · rw [hprocs]
    exact h.live

theorem Woken.reschedule (h : Woken s w q) (hwf : Wf s) (hi : IdleReady s)
    (hcur : s.currentProcess = none) : Woken (reschedule s) w q := by
  obtain ⟨-, -, hprocs, -, -⟩ := reschedule_wf hwf hi
  have hready : w ∈ s.lists .ready := h.ready.resolve_right fun hw => by
    rw [hcur] at hw
    cases hw
  refine ⟨?_, hprocs ▸ h.not_live, ?_⟩
  · rw [mem_reschedule_of_ne hwf (by simp) (by simp)]
    exact h.not_waiting
  · refine or_iff_not_imp_right.mpr fun hne => ?_
    -- the process popped is another one, so `w` is still behind it
    obtain ⟨woken, ⟨front, rest, back, hlist, hfront, hrest⟩, -, -, -⟩ :=
      reschedule_popped hwf hready hne
    have hw : w ∈ front :: rest := hlist ▸ List.mem_append_right woken hready
    rw [hrest]
    exact List.mem_append_left back ((List.mem_cons.mp hw).resolve_left hfront.symm)

/-- Ending `d` wakes `w` exactly when `d` is the process `w` waits for: no other live process has
    its identifier. -/
theorem mem_terminated_waiting (hwf : Wf s) (h : WaitsFor s w q)
    (hd : (s.proc d).pid = (s.proc q).pid → d = q) :
    w ∈ (terminated s d).lists .waiting ↔ d ≠ q := by
  have hm := wakeWaiters_moved hwf d
  have hsel : w ∈ selected s (fun p => decide (p.stateData.waitingPid = (s.proc d).pid))
      (s.lists .waiting) ↔ d = q := by
    rw [selected, List.mem_filter, and_iff_right h.waiting, decide_eq_true_eq, h.data]
    exact ⟨fun heq => hd heq.symm, fun heq => by rw [heq]; rfl⟩
  exact (hm.mem_source w).trans ((and_iff_right h.waiting).trans (not_congr hsel))

/-- The end of `q` wakes `w`. -/
theorem WaitsFor.woken (h : WaitsFor s w q) (hwf : Wf s) : Woken (terminated s q) w q := by
  have hm := wakeWaiters_moved hwf q
  have hout : w ∉ (terminated s q).lists .waiting := fun hw =>
    (mem_terminated_waiting hwf h fun _ => rfl).mp hw rfl
  refine ⟨hout, fun hq => ((mem_terminated_processes hwf).mp hq).2 rfl, Or.inl ?_⟩
  refine (hm.mem_target w).mpr (Or.inr (not_not.mp fun hw => hout ?_))
  exact (hm.mem_source w).mpr ⟨h.waiting, hw⟩

/-- The end of another process leaves the wait alone. -/
theorem WaitsFor.terminated (h : WaitsFor s w q) (hwf : Wf s) (hne : d ≠ q)
    (hd : (s.proc d).pid = (s.proc q).pid → d = q) : WaitsFor (terminated s d) w q := by
  have honly := terminated_onlyState (c := d) hwf
  refine ⟨(mem_terminated_waiting hwf h hd).mpr hne, ?_, ?_⟩
  · rw [honly.stateData, honly.pid]
    exact h.data
  · exact (mem_terminated_processes hwf).mpr ⟨h.live, hne.symm⟩

/-- The critical section of a blocking call, by a process other than `w`. -/
theorem WaitsFor.enqueueCurrent {st : ProcState} {data : StateData} (h : WaitsFor s w q)
    (hoff : OffLists s c) : WaitsFor (enqueueCurrent s c st data) w q := by
  have hwc : w ≠ c := fun hwc => hoff .waiting (hwc ▸ h.waiting)
  refine ⟨mem_enqueueCurrent.mpr (Or.inl h.waiting), ?_, h.live⟩
  rw [enqueueCurrent_proc_of_ne hwc, enqueueCurrent_pid]
  exact h.data

/-- **One step** leaves the wait alone, unless it ends the process waited for: then it ends the
    wait. -/
theorem WaitsFor.of_step (h : WaitsFor t.sched w q) (hi : Inv t) (hn : Numbered t)
    (hover : NoOverflow t) (hs : step t a = some t') :
    (¬Ends q t a → WaitsFor t'.sched w q) ∧ (Ends q t a → Woken t'.sched w q) := by
  rcases step_cases hs with ⟨rfl, -, rfl⟩ | ⟨d, p, task, rfl, -, hp, rfl⟩ |
    ⟨d, st, data, hd, -, -, ha, rfl⟩ | ⟨d, rfl, -, rfl⟩ | ⟨d, rfl, hd, rfl⟩ | ⟨d, rfl, -, rfl⟩ |
    ⟨d, rfl, -, rfl⟩
  · exact ⟨fun _ => h.reschedule hi.wf hi.idle, nofun⟩
  · refine ⟨fun _ => ?_, nofun⟩
    refine ⟨mem_createProcess.mpr (Or.inl h.waiting), ?_, List.mem_append_left [p] h.live⟩
    show ((createProcess t.sched p task).proc w).stateData =
      .waitingData ((createProcess t.sched p task).proc q).pid
    rw [createProcess_proc_of_mem hp (hi.wf.alive .waiting w h.waiting),
      createProcess_proc_of_mem hp h.live]
    exact h.data
  · obtain ⟨hcur, -, hloc⟩ := acting_iff.mp hd
    refine ⟨fun _ => h.enqueueCurrent (hi.user d hcur hloc), ?_⟩
    rcases ha with ⟨_, rfl, -⟩ | ⟨_, rfl, -⟩ | ⟨_, rfl, -⟩
    · exact nofun
    · exact nofun
    · exact nofun
  · exact ⟨fun _ => h.reschedule hi.wf hi.idle, nofun⟩
  · obtain ⟨hcur, htask, hloc⟩ := acting_iff.mp hd
    have hwf := hi.wf.terminated hcur (hi.user d hcur hloc)
    have hidle := hi.idle.terminated hi.wf hcur htask
    constructor
    · intro hnot
      have hne : d ≠ q := fun hdq => hnot ⟨rfl, hdq ▸ hcur⟩
      have honly := hn.distinct hover d (hi.wf.current d hcur) q h.live
      exact (h.terminated hi.wf hne honly).reschedule hwf hidle
    · rintro ⟨-, hq⟩
      obtain rfl : d = q := Option.some.inj (hcur.symm.trans hq)
      exact (h.woken hi.wf).reschedule hwf hidle rfl
  · have htick : WaitsFor
        { t.sched with timer := (t.sched.timer + 1) % 18446744073709551616 } w q :=
      ⟨h.waiting, h.data, h.live⟩
    exact ⟨fun _ => htick.reschedule (hi.wf.tick _) hi.idle, nofun⟩
  · refine ⟨fun _ => ?_, nofun⟩
    have hm := notifyBlocked_moved hi.wf .io
    refine ⟨?_, ?_, ?_⟩
    · show w ∈ (notifyBlocked t.sched .io).lists .waiting
      rw [hm.lists_of_ne .waiting (by simp) (by simp)]
      exact h.waiting
    · show ((notifyBlocked t.sched .io).proc w).stateData =
        .waitingData ((notifyBlocked t.sched .io).proc q).pid
      rw [hm.onlyState.stateData, hm.onlyState.pid]
      exact h.data
    · show q ∈ (notifyBlocked t.sched .io).processes
      rw [hm.processes]
      exact h.live

/-- The call of `wait_for` with the identifier of a live process. -/
theorem waitFor_waitsFor (hc : t.acting .user = some c) (hq : q ∈ t.sched.processes)
    (hs : step t (.waitFor (t.sched.proc q).pid) = some t') : WaitsFor t'.sched c q := by
  obtain ⟨d, hd, rfl⟩ := Option.map_eq_some_iff.mp hs
  obtain rfl : d = c := Option.some.inj (hd.symm.trans hc)
  refine ⟨mem_enqueueCurrent.mpr (Or.inr ⟨rfl, rfl⟩), ?_, hq⟩
  show ((enqueueCurrent t.sched d .waiting _).proc d).stateData =
    .waitingData ((enqueueCurrent t.sched d .waiting _).proc q).pid
  rw [enqueueCurrent_proc_self, enqueueCurrent_pid]

/-! ## Whole runs -/

/-- How long `w` waits for `q` in the run `ls` from `t` to `t'`. -/
structure WaitLasts (t : System) (w q : Ptr) (ls : List Label) (t' : System) : Prop where
  /-- `w` is on the waiting list all along exactly if `q` is live all along -/
  while_alive : Along step (fun u => w ∈ u.sched.lists .waiting) t ls ↔
    Along step (fun u => q ∈ u.sched.processes) t ls
  /-- the first step to take `w` off the list is the one that ends `q` -/
  until_end : Along step (fun u => w ∈ u.sched.lists .waiting) t ls → ∀ a u,
    step t' a = some u → w ∉ u.sched.lists .waiting → Ends q t' a ∧ Woken u.sched w q

/-- The induction over the run. -/
theorem WaitsFor.lasts (h : WaitsFor t.sched w q) (hi : Inv t) (hn : Numbered t)
    (hover : NoOverflow t') (hrun : run step t ls = some t') : WaitLasts t w q ls t' := by
  induction ls generalizing t with
  | nil =>
    cases hrun
    refine ⟨iff_of_true (along_nil.mpr h.waiting) (along_nil.mpr h.live), fun _ a u hs hw => ?_⟩
    obtain ⟨hkeep, hend⟩ := h.of_step hi hn hover hs
    have hends : Ends q t' a := not_not.mp fun hnot => hw (hkeep hnot).waiting
    exact ⟨hends, hend hends⟩
  | cons b ls ih =>
    obtain ⟨s', hs, hls⟩ := run_cons_some.mp hrun
    obtain ⟨hkeep, hend⟩ := h.of_step hi hn (hover.of_run hrun) hs
    have hfirst : ∀ {P : System → Prop}, Along step P t (b :: ls) → P s' ∧ Along step P s' ls :=
      fun hP => ⟨(along_cons.mp hP).2 s' hs [] List.nil_prefix s' rfl, (along_cons.mp hP).2 s' hs⟩
    by_cases hends : Ends q t b
    · have hwoken := hend hends
      refine ⟨iff_of_false (fun hP => hwoken.not_waiting (hfirst hP).1)
        fun hP => hwoken.not_live (hfirst hP).1, fun hP => ?_⟩
      exact absurd (hfirst hP).1 hwoken.not_waiting
    · have hrest := ih (hkeep hends) (step_inv hi hs) (step_numbered hi hn hs) hls
      have hcons : ∀ {P : System → Prop}, P t → Along step P s' ls → Along step P t (b :: ls) :=
        fun h0 hP => along_cons.mpr ⟨h0, fun u hu => by cases hs.symm.trans hu; exact hP⟩
      refine ⟨⟨fun hP => ?_, fun hP => ?_⟩, fun hP => hrest.until_end (hfirst hP).2⟩
      · exact hcons h.live (hrest.while_alive.mp (hfirst hP).2)
      · exact hcons h.waiting (hrest.while_alive.mpr (hfirst hP).2)

/-- **`wait_for` waits exactly as long as the process it names lives**, under every interleaving,
    as long as `pid_generator` does not overflow. -/
theorem waits_while_alive {x i : Ptr} (hne : x ≠ i) (terminal : Task)
    (h : Reachable step (init x i terminal) t) (hw : t.acting .user = some w)
    (hq : q ∈ t.sched.processes) (hs : step t (.waitFor (t.sched.proc q).pid) = some s₁)
    (hrun : run step s₁ ls = some t') (hover : NoOverflow t') : WaitLasts s₁ w q ls t' := by
  obtain ⟨hi, hn⟩ := reachable_numbered hne terminal h
  exact (waitFor_waitsFor hw hq hs).lasts (step_inv hi hs) (step_numbered hi hn hs) hover hrun

/-- `terminal` waits for a child, which a tick later runs and ends. -/
theorem waits_while_alive_example : ∃ s₁ t',
    WaitLasts s₁ 4096 12288 [.reschedule, .timerIrq, .taskReturn] t' ∧
      4096 ∈ t'.sched.lists .ready ∧
      ¬Along step (fun u => 12288 ∈ u.sched.processes) s₁
        [.reschedule, .timerIrq, .taskReturn] := by
  obtain ⟨t, ht, hw, hq, s₁, hs, t', ht', hover, hlive, hready⟩ :
      ∃ t ∈ run step (init 4096 8192 (.function 1)) [.boot, .createProcess 12288 (.function 2)],
        t.acting .user = some 4096 ∧ 12288 ∈ t.sched.processes ∧
          ∃ s₁ ∈ step t (.waitFor (t.sched.proc 12288).pid),
            ∃ t' ∈ run step s₁ [.reschedule, .timerIrq, .taskReturn],
              t'.returned.length < 2147483648 ∧ 12288 ∉ t'.sched.processes ∧
                4096 ∈ t'.sched.lists .ready := by
    decide +kernel
  refine ⟨s₁, t', ?_, hready, fun hP => hlive (hP _ (List.prefix_refl _) t' ht')⟩
  exact waits_while_alive (by simp) (.function 1) ⟨_, ht⟩ hw hq hs ht' hover

end HryOS.Scheduler
