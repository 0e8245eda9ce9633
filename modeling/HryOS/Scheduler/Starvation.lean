import Mathlib.Data.List.Nodup
import Mathlib.Data.List.Perm.Basic
import HryOS.Scheduler.Invariant

/-!
# No ready process starves

Woken processes are put in front of the ready list, so a process that waits for its turn can be
overtaken.  Each of them must have made a blocking call, though, and the call ends in a
`reschedule` of its own, which takes somebody off the list again.

* `rivals` — who is in front of a ready process, and who may yet be put there.
* `Queued` — it is ready, and whoever has been created since is behind it.
* `step_queued` — a step that does not dispatch it; a tick of the timer costs a rival.
* `ready_process_runs` — two ticks for every live process are enough.
-/

set_option autoImplicit false

namespace HryOS.Scheduler

open ByteMemory Transition

variable {s s' : Sched} {p q c : Ptr} {st source : ProcState} {predicate : Process → Bool}
  {front back rest woken l : List Ptr}

/-- The processes in front of `p` on the ready list, and those that may yet be put in front. -/
def Sched.rivals (s : Sched) (p : Ptr) : ℕ :=
  (s.lists .ready).idxOf p + (s.lists .sleeping).length + (s.lists .blocked).length

theorem foldl_pushFront (ps : List Ptr) : ∀ l, ps.foldl pushFront l = ps.reverse ++ l := by
  induction ps with
  | nil => exact fun _ => rfl
  | cons p ps ih =>
    intro l
    rw [List.foldl_cons, ih, pushFront, List.reverse_cons, List.append_assoc]
    rfl

theorem foldl_pushBack (ps : List Ptr) : ∀ l, ps.foldl pushBack l = l ++ ps := by
  induction ps with
  | nil => exact fun l => (List.append_nil l).symm
  | cons p ps ih =>
    intro l
    rw [List.foldl_cons, ih, pushBack, List.append_assoc]
    rfl

/-- The lists after `move_to_if`. -/
theorem moveToIf_lists (method : List Ptr → Ptr → List Ptr) (predicate : Process → Bool)
    (hne : source ≠ .ready) (hs : ∀ p ∈ s.lists source, (s.proc p).state = source)
    (hl : (s.lists source).Nodup) :
    (moveToIf s source .ready predicate method).lists .ready =
        (selected s predicate (s.lists source)).foldl method (s.lists .ready) ∧
      ((moveToIf s source .ready predicate method).lists source).length +
        (selected s predicate (s.lists source)).length = (s.lists source).length ∧
      ∀ st, st ≠ source → st ≠ .ready →
        (moveToIf s source .ready predicate method).lists st = s.lists st := by
  rw [moveToIf_eq hs hl]
  refine ⟨?_, ?_, ?_⟩
  · rw [Sched.setList_lists_of_ne _ _ _ hne.symm]
    unfold pushAll
    dsimp only
    rw [Function.update_self]
  · rw [Sched.setList_lists_self, Nat.add_comm]
    exact (List.length_eq_length_filter_add _).symm
  · intro st h1 h2
    rw [Sched.setList_lists_of_ne _ _ _ h1]
    exact Function.update_of_ne h2 ..

/-! ## `reschedule` -/

/-- Between `s` and `s'` the processes `woken` were put in front of the ready list, its first
    process was taken off, which is not `p`, and others may have joined at the back. -/
structure Popped (p : Ptr) (woken : List Ptr) (s s' : Sched) : Prop where
  ready : ∃ front rest back, woken ++ s.lists .ready = front :: rest ∧ front ≠ p ∧
    s'.lists .ready = rest ++ back
  sleeping : (s'.lists .sleeping).length + woken.length = (s.lists .sleeping).length
  blocked : s'.lists .blocked = s.lists .blocked
  not_woken : p ∉ woken

theorem dispatch_lists (s : Sched) (p : Ptr) (rest : List Ptr) :
    ∃ back, (dispatch s p rest).lists .ready = rest ++ back ∧
      ∀ st, st ≠ .ready → (dispatch s p rest).lists st = s.lists st := by
  show ∃ back, (requeueCurrent (s.setList .ready rest)).lists .ready = rest ++ back ∧
    ∀ st, st ≠ .ready → (requeueCurrent (s.setList .ready rest)).lists st = s.lists st
  rcases requeueCurrent_cases (s.setList .ready rest) with ⟨c, -, -, heq⟩ | ⟨-, heq⟩
  · rw [heq]
    refine ⟨[c], ?_, ?_⟩
    · rw [enqueueCurrent_lists_self, Sched.setList_lists_self]
    · intro st hst
      rw [enqueueCurrent_lists_of_ne hst, Sched.setList_lists_of_ne _ _ _ hst]
  · rw [heq]
    refine ⟨[], ?_, fun st hst => Sched.setList_lists_of_ne _ _ _ hst⟩
    rw [Sched.setList_lists_self, List.append_nil]

/-- **`reschedule`** pops the ready list, if it does not dispatch `p`. -/
theorem reschedule_popped (h : Wf s) (hp : p ∈ s.lists .ready)
    (hcur : (reschedule s).currentProcess ≠ some p) :
    ∃ woken, Popped p woken s (reschedule s) := by
  have hnot : p ∉ due s := fun hmem => by
    have hsleeping := h.state_eq .sleeping p (selected_subset p hmem)
    exact absurd ((h.state_eq .ready p hp).symm.trans hsleeping) (by simp)
  obtain ⟨hready, hlen, hother⟩ := moveToIf_lists pushFront
    (fun q => decide (q.stateData.sleepTimeout < s.getTimer))
    (show ProcState.sleeping ≠ .ready by simp) (h.state_eq .sleeping) (h.nodup .sleeping)
  have hw : (wakeSleepers s).lists .ready = (due s).reverse ++ s.lists .ready :=
    hready.trans (foldl_pushFront _ _)
  have hwc : (wakeSleepers s).currentProcess = s.currentProcess :=
    (wakeSleepers_due h).currentProcess
  have hsleeping : ((wakeSleepers s).lists .sleeping).length + (due s).reverse.length =
      (s.lists .sleeping).length := by
    rw [List.length_reverse]
    exact hlen
  have hblocked : (wakeSleepers s).lists .blocked = s.lists .blocked :=
    hother .blocked (by simp) (by simp)
  refine ⟨(due s).reverse, ?_⟩
  rcases reschedule_cases h with ⟨hl, -⟩ | ⟨q, rest, hl, hq, heq⟩ | ⟨q, rest, hl, -, heq⟩
  · rw [hw] at hl
    have hnil := (List.append_eq_nil_iff.mp hl).2
    rw [hnil] at hp
    exact absurd hp List.not_mem_nil
  · rw [heq] at hcur ⊢
    refine ⟨⟨q, rest, [], hw.symm.trans hl, ?_, ?_⟩, ?_, ?_, by simpa using hnot⟩
    · rintro rfl
      exact hcur (hwc.trans hq)
    · rw [Sched.setList_lists_self, List.append_nil]
    · rw [Sched.setList_lists_of_ne _ _ _ (by simp)]
      exact hsleeping
    · rw [Sched.setList_lists_of_ne _ _ _ (by simp)]
      exact hblocked
  · rw [heq] at hcur ⊢
    obtain ⟨back, hback, hdispatch⟩ := dispatch_lists (wakeSleepers s) q rest
    refine ⟨⟨q, rest, back, hw.symm.trans hl, ?_, hback⟩, ?_, ?_, by simpa using hnot⟩
    · rintro rfl
      exact hcur rfl
    · rw [hdispatch _ (by simp)]
      exact hsleeping
    · rw [hdispatch _ (by simp)]
      exact hblocked

/-- The process stays ready, and has a rival less. -/
theorem Popped.rivals (h : Popped p woken s s') (hp : p ∈ s.lists .ready) :
    p ∈ s'.lists .ready ∧ s'.rivals p + 1 = s.rivals p := by
  obtain ⟨front, rest, back, hl, hne, hready⟩ := h.ready
  have hmem : p ∈ front :: rest := hl ▸ List.mem_append_right woken hp
  have hrest : p ∈ rest := (List.mem_cons.mp hmem).resolve_left hne.symm
  have hidx : woken.length + (s.lists .ready).idxOf p = rest.idxOf p + 1 := by
    rw [← List.idxOf_append_of_notMem h.not_woken, hl, List.idxOf_cons_ne _ hne]
  refine ⟨hready ▸ List.mem_append_left back hrest, ?_⟩
  have hlen := h.sleeping
  unfold Sched.rivals
  rw [hready, h.blocked, List.idxOf_append_of_mem hrest]
  omega

/-- Whoever is behind it stays behind it. -/
theorem Popped.sublist (h : Popped p woken s s') (hq : [p, q].Sublist (s.lists .ready)) :
    [p, q].Sublist (s'.lists .ready) := by
  obtain ⟨front, rest, back, hl, hne, hready⟩ := h.ready
  have hsub : [p, q].Sublist (front :: rest) := hl ▸ hq.trans (List.sublist_append_right ..)
  rw [hready]
  cases hsub with
  | cons _ hsub => exact hsub.trans (List.sublist_append_left ..)
  | cons_cons _ _ => exact absurd rfl hne

/-! ## Processes in a blocking call -/

/-- How many processes of `l` are in a blocking call. -/
def inCall (loc : Ptr → Loc) (l : List Ptr) : ℕ := l.countP fun q => decide (loc q = .window)

theorem inCall_update (loc : Ptr → Loc) (hl : l.Nodup) (hc : c ∈ l) (v : Loc) :
    inCall (Function.update loc c v) l =
      inCall loc (l.erase c) + if v = .window then 1 else 0 := by
  have hperm := List.perm_cons_erase hc
  have hrest : ∀ q ∈ l.erase c, Function.update loc c v q = loc q := fun q hq => by
    apply Function.update_of_ne
    rintro rfl
    exact hl.not_mem_erase hq
  unfold inCall
  rw [hperm.countP_eq, List.countP_cons, Function.update_self]
  refine congrArg₂ (· + ·) (List.countP_congr fun q hq => by rw [hrest q hq]) ?_
  simp

/-- A process makes a blocking call. -/
theorem inCall_enter {loc : Ptr → Loc} (hl : l.Nodup) (hc : c ∈ l) (hu : loc c = .user) :
    inCall (Function.update loc c .window) l = inCall loc l + 1 := by
  have hself := inCall_update loc hl hc (loc c)
  rw [Function.update_eq_self, hu] at hself
  rw [inCall_update loc hl hc, hself]
  simp

/-- A blocking call ends. -/
theorem inCall_leave {loc : Ptr → Loc} (hl : l.Nodup) (hc : c ∈ l) (hw : loc c = .window) :
    inCall (Function.update loc c .user) l + 1 = inCall loc l := by
  have hself := inCall_update loc hl hc (loc c)
  rw [Function.update_eq_self, hw] at hself
  rw [inCall_update loc hl hc, hself]
  simp

/-- One process is deleted, outside a blocking call. -/
theorem inCall_filter {loc : Ptr → Loc} (hu : loc c = .user) :
    inCall loc (l.filter (· ≠ c)) = inCall loc l := by
  unfold inCall
  rw [List.countP_filter]
  apply List.countP_congr
  intro q _
  by_cases hq : q = c
  · simp [hq, hu]
  · simp [hq]

/-! ## Steps -/

variable {t t' u : System} {a : Label} {old : List Ptr} {ls : List Label}

/-- `p` is ready, the processes are distinct, and whoever is not of `old` is behind `p` on the
    ready list. -/
structure Queued (old : List Ptr) (p : Ptr) (t : System) : Prop where
  ready : p ∈ t.sched.lists .ready
  nodup : t.sched.processes.Nodup
  behind : ∀ q ∈ t.sched.processes, q ∉ old → t.loc q = .user ∧
    [p, q].Sublist (t.sched.lists .ready)

/-- The ticks of the timer in a step. -/
def ticks (a : Label) : ℕ := if a = .timerIrq then 1 else 0

/-- From `t` to `t'` the rivals of `p` did not get more, with a blocking call that has not come to
    its `reschedule` counted off; every tick has cost one. -/
def Overtaken (p : Ptr) (t t' : System) (ticks : ℕ) : Prop :=
  t'.sched.rivals p + ticks + inCall t.loc t.sched.processes ≤
    t.sched.rivals p + inCall t'.loc t'.sched.processes

/-- A call of `reschedule`. -/
theorem Queued.popped (h : Queued old p t) (hpop : Popped p woken t.sched t'.sched)
    (hprocs : t'.sched.processes = t.sched.processes)
    (hloc : ∀ q, t.loc q = .user → t'.loc q = .user) :
    Queued old p t' ∧ t'.sched.rivals p + 1 = t.sched.rivals p := by
  obtain ⟨hready, hrivals⟩ := hpop.rivals h.ready
  refine ⟨⟨hready, hprocs ▸ h.nodup, ?_⟩, hrivals⟩
  intro q hq hold
  obtain ⟨huser, hsub⟩ := h.behind q (hprocs ▸ hq) hold
  exact ⟨hloc q huser, hpop.sublist hsub⟩

/-- Processes join the ready list at the back, and no others. -/
theorem Queued.joined (h : Queued old p t) (hready : t'.sched.lists .ready =
      t.sched.lists .ready ++ back) (hnodup : t'.sched.processes.Nodup)
    (hbehind : ∀ q ∈ t'.sched.processes, q ∉ old → q ∈ t.sched.processes ∨
      t'.loc q = .user ∧ q ∈ back)
    (hloc : ∀ q, t.loc q = .user → q ∉ old → q ∈ t.sched.lists .ready → t'.loc q = .user) :
    Queued old p t' ∧
      (t'.sched.lists .ready).idxOf p = (t.sched.lists .ready).idxOf p := by
  refine ⟨⟨?_, hnodup, ?_⟩, ?_⟩
  · rw [hready]
    exact List.mem_append_left back h.ready
  · intro q hq hold
    rw [hready]
    rcases hbehind q hq hold with hq | ⟨huser, hq⟩
    · obtain ⟨huser, hsub⟩ := h.behind q hq hold
      exact ⟨hloc q huser hold (hsub.subset (by simp)), hsub.trans (List.sublist_append_left ..)⟩
    · exact ⟨huser, List.Sublist.append (List.singleton_sublist.mpr h.ready)
        (List.singleton_sublist.mpr hq)⟩
  · rw [hready, List.idxOf_append_of_mem h.ready]

/-- `reschedule`, from a state in which `p` is queued. -/
theorem Queued.reschedule (h : Queued old p t) (hwf : Wf t.sched) (hi : IdleReady t.sched)
    (hcur : (Scheduler.reschedule t.sched).currentProcess ≠ some p) {loc : Ptr → Loc}
    (returned : List ℕ) (deleted : List Ptr) (hloc : ∀ q, t.loc q = .user → loc q = .user) :
    Queued old p ⟨Scheduler.reschedule t.sched, loc, returned, deleted⟩ ∧
      (Scheduler.reschedule t.sched).rivals p + 1 = t.sched.rivals p := by
  obtain ⟨woken, hpop⟩ := reschedule_popped hwf h.ready hcur
  obtain ⟨-, -, hprocs, -⟩ := reschedule_wf hwf hi
  exact h.popped hpop hprocs hloc

theorem Queued.createProcess {task : Task} (h : Queued old p t) (hwf : Wf t.sched)
    (hq : q ∉ t.sched.processes) :
    let t' : System := ⟨createProcess t.sched q task, Function.update t.loc q .user,
      t.sched.pidGenerator :: t.returned, t.deleted.filter (· ≠ q)⟩
    Queued old p t' ∧ Overtaken p t t' 0 := by
  intro t'
  have hready : t'.sched.lists .ready = t.sched.lists .ready ++ [q] := by
    show (Scheduler.createProcess t.sched q task).lists .ready = _
    rw [createProcess_eq, Sched.setList_lists_self]
    rfl
  have hother : ∀ st, st ≠ .ready → t'.sched.lists st = t.sched.lists st := fun st hst => by
    show (Scheduler.createProcess t.sched q task).lists st = _
    rw [createProcess_eq, Sched.setList_lists_of_ne _ _ _ hst]
    rfl
  have hloc : ∀ r, r ≠ q → t'.loc r = t.loc r := fun r hr => Function.update_of_ne hr ..
  have hnew : t'.loc q = .user := Function.update_self ..
  obtain ⟨hq', hidx⟩ := h.joined hready
    (List.nodup_append.mpr ⟨h.nodup, List.nodup_singleton q, fun r hr r' hr' heq =>
      hq (List.mem_singleton.mp hr' ▸ heq ▸ hr)⟩)
    (fun r hr hold => (List.mem_append.mp hr).imp_right fun hr => by
      rw [List.mem_singleton.mp hr]
      exact ⟨hnew, List.mem_singleton_self q⟩)
    (fun r hu _ hr => (hloc r fun hrq => hq (hrq ▸ hwf.alive .ready r hr)).trans hu)
  refine ⟨hq', ?_⟩
  have hcall : inCall t'.loc t'.sched.processes = inCall t.loc t.sched.processes := by
    show inCall t'.loc (t.sched.processes ++ [q]) = _
    unfold inCall
    rw [List.countP_append, List.countP_singleton, hnew]
    refine List.countP_congr fun r hr => ?_
    rw [hloc r fun hrq => hq (hrq ▸ hr)]
  unfold Overtaken Sched.rivals
  rw [hidx, hother .sleeping (by simp), hother .blocked (by simp), hcall]
  omega

/-- The critical section of a blocking call. -/
theorem Queued.enqueueCurrent (data : StateData) (h : Queued old p t) (hinv : Inv t)
    (hc : t.acting .user = some c) (hb : Blocking st) :
    let t' : System := { t with sched := enqueueCurrent t.sched c st data
                                loc := Function.update t.loc c .window }
    Queued old p t' ∧ Overtaken p t t' 0 := by
  intro t'
  obtain ⟨hcur, -, huser⟩ := acting_iff.mp hc
  have hoff : c ∉ t.sched.lists .ready := hinv.user c hcur huser .ready
  have hready : t'.sched.lists .ready = t.sched.lists .ready ++ [] := by
    rw [List.append_nil]
    exact enqueueCurrent_lists_of_ne hb.ne_ready.symm
  obtain ⟨hq', hidx⟩ := h.joined hready h.nodup (fun r hr _ => Or.inl hr)
    (fun r hu _ hr => (Function.update_of_ne (fun hrc : r = c => hoff (hrc ▸ hr)) ..).trans hu)
  refine ⟨hq', ?_⟩
  have hcall : inCall t'.loc t'.sched.processes = inCall t.loc t.sched.processes + 1 :=
    inCall_enter h.nodup (hinv.wf.current c hcur) huser
  have hlists : (t'.sched.lists .sleeping).length + (t'.sched.lists .blocked).length ≤
      (t.sched.lists .sleeping).length + (t.sched.lists .blocked).length + 1 := by
    have hone : ∀ st', st' ≠ st → t'.sched.lists st' = t.sched.lists st' := fun st' hne =>
      enqueueCurrent_lists_of_ne hne
    have hself : (t'.sched.lists st).length = (t.sched.lists st).length + 1 := by
      show ((Scheduler.enqueueCurrent t.sched c st data).lists st).length = _
      rw [enqueueCurrent_lists_self]
      exact List.length_append
    rcases hb with rfl | rfl | rfl
    · rw [hself, hone .blocked (by simp)]
      omega
    · rw [hone .sleeping (by simp), hone .blocked (by simp)]
      omega
    · rw [hself, hone .sleeping (by simp)]
      omega
  unfold Overtaken Sched.rivals
  rw [hidx, hcall]
  omega

/-- The `reschedule` of a blocking call. -/
theorem Queued.leaveWindow (h : Queued old p t) (hinv : Inv t) (hc : t.acting .window = some c)
    (hcur : (Scheduler.reschedule t.sched).currentProcess ≠ some p) :
    let t' : System := { t with sched := Scheduler.reschedule t.sched
                                loc := Function.update t.loc c .user }
    Queued old p t' ∧ Overtaken p t t' 0 := by
  intro t'
  obtain ⟨hc', -, hwindow⟩ := acting_iff.mp hc
  have hloc : ∀ q, t.loc q = .user → t'.loc q = .user := fun q hu => by
    by_cases hqc : q = c
    · rw [hqc]
      exact Function.update_self ..
    · exact (Function.update_of_ne hqc ..).trans hu
  obtain ⟨hq, hrivals⟩ := h.reschedule hinv.wf hinv.idle hcur t.returned t.deleted hloc
  refine ⟨hq, ?_⟩
  obtain ⟨-, -, hprocs, -⟩ := reschedule_wf hinv.wf hinv.idle
  have hcall : inCall t'.loc t'.sched.processes + 1 = inCall t.loc t.sched.processes := by
    show inCall t'.loc (Scheduler.reschedule t.sched).processes + 1 = _
    rw [hprocs]
    exact inCall_leave h.nodup (hinv.wf.current c hc') hwindow
  have hrivals : t'.sched.rivals p + 1 = t.sched.rivals p := hrivals
  unfold Overtaken
  omega

/-- The end of a process. -/
theorem Queued.taskReturn (h : Queued old p t) (hinv : Inv t) (hc : t.acting .user = some c)
    (hcur : (Scheduler.reschedule (terminated t.sched c)).currentProcess ≠ some p) :
    let t' : System := { t with sched := Scheduler.reschedule (terminated t.sched c)
                                deleted := c :: t.deleted }
    Queued old p t' ∧ Overtaken p t t' 0 := by
  intro t'
  obtain ⟨hc', htask, huser⟩ := acting_iff.mp hc
  have hwf := hinv.wf
  have hoff := hinv.user c hc' huser
  obtain ⟨hready, -, hother⟩ := moveToIf_lists pushBack
    (fun q => decide (q.stateData.waitingPid = (t.sched.proc c).pid))
    (show ProcState.waiting ≠ .ready by simp) (hwf.state_eq .waiting) (hwf.nodup .waiting)
  let t₁ : System := { t with sched := terminated t.sched c }
  have hready₁ : t₁.sched.lists .ready = _ := hready.trans (foldl_pushBack _ _)
  have hprocs₁ : t₁.sched.processes = t.sched.processes.filter (· ≠ c) := by
    show (moveToBackIf t.sched _ _ _).processes.filter _ = _
    rw [(wakeWaiters_moved hwf c).processes]
  obtain ⟨hq₁, hidx⟩ := h.joined hready₁ (hprocs₁ ▸ h.nodup.filter _)
    (fun r hr _ => Or.inl ((mem_terminated_processes hwf).mp hr).1) (fun r hu _ _ => hu)
  have hwf₁ : Wf t₁.sched := hwf.terminated hc' hoff
  have hi₁ : IdleReady t₁.sched := hinv.idle.terminated hwf hc' htask
  obtain ⟨hq, hrivals⟩ := hq₁.reschedule hwf₁ hi₁ hcur t.returned (c :: t.deleted)
    (fun _ hu => hu)
  refine ⟨hq, ?_⟩
  obtain ⟨-, -, hprocs, -⟩ := reschedule_wf hwf₁ hi₁
  have hcall : inCall t'.loc t'.sched.processes = inCall t.loc t.sched.processes := by
    show inCall t.loc (Scheduler.reschedule t₁.sched).processes = _
    rw [hprocs, hprocs₁, inCall_filter huser]
  have hrivals₁ : t₁.sched.rivals p = t.sched.rivals p := by
    have h1 : t₁.sched.lists .sleeping = t.sched.lists .sleeping :=
      hother .sleeping (by simp) (by simp)
    have h2 : t₁.sched.lists .blocked = t.sched.lists .blocked :=
      hother .blocked (by simp) (by simp)
    unfold Sched.rivals
    rw [hidx, h1, h2]
  have hrivals' : t'.sched.rivals p + 1 = t₁.sched.rivals p := hrivals
  unfold Overtaken
  omega

/-- A tick of the timer. -/
theorem Queued.timerIrq (h : Queued old p t) (hinv : Inv t)
    (hcur : (timerCallback t.sched).currentProcess ≠ some p) :
    let t' : System := { t with sched := timerCallback t.sched }
    Queued old p t' ∧ Overtaken p t t' 1 := by
  intro t'
  let s₁ : Sched := { t.sched with timer := (t.sched.timer + 1) % 18446744073709551616 }
  have hwf₁ : Wf s₁ := hinv.wf.tick _
  have hq₁ : Queued old p { t with sched := s₁ } := ⟨h.ready, h.nodup, h.behind⟩
  obtain ⟨hq, hrivals⟩ := hq₁.reschedule hwf₁ hinv.idle hcur t.returned t.deleted
    (fun _ hu => hu)
  obtain ⟨-, -, hprocs, -⟩ := reschedule_wf hwf₁ hinv.idle
  refine ⟨hq, ?_⟩
  have hcall : inCall t'.loc t'.sched.processes = inCall t.loc t.sched.processes :=
    congrArg (inCall t.loc) hprocs
  have hrivals' : t'.sched.rivals p + 1 = t.sched.rivals p := hrivals
  unfold Overtaken
  omega

/-- A key: readers of the keyboard are put in front. -/
theorem Queued.keyboardIrq (h : Queued old p t) (hinv : Inv t) :
    let t' : System := { t with sched := notifyBlocked t.sched .io }
    Queued old p t' ∧ Overtaken p t t' 0 := by
  intro t'
  have hwf := hinv.wf
  have hm := notifyBlocked_moved hwf .io
  obtain ⟨hready, hlen, hother⟩ := moveToIf_lists pushFront
    (fun q => decide (q.stateData.blockedType = .io))
    (show ProcState.blocked ≠ .ready by simp) (hwf.state_eq .blocked) (hwf.nodup .blocked)
  generalize hps : selected t.sched (fun q => decide (q.stateData.blockedType = .io))
    (t.sched.lists .blocked) = ps at hready hlen hm
  have hready' : t'.sched.lists .ready = ps.reverse ++ t.sched.lists .ready :=
    hready.trans (foldl_pushFront _ _)
  have hsleeping : t'.sched.lists .sleeping = t.sched.lists .sleeping :=
    hother .sleeping (by simp) (by simp)
  have hblocked : (t'.sched.lists .blocked).length + ps.length = _ := hlen
  have hnot : p ∉ ps.reverse := fun hmem => by
    rw [List.mem_reverse, ← hps] at hmem
    have hb := hwf.state_eq .blocked p (selected_subset p hmem)
    exact absurd ((hwf.state_eq .ready p h.ready).symm.trans hb) (by simp)
  have hprocs : t'.sched.processes = t.sched.processes := hm.processes
  refine ⟨⟨?_, hprocs ▸ h.nodup, ?_⟩, ?_⟩
  · rw [hready']
    exact List.mem_append_right _ h.ready
  · intro q hq hold
    obtain ⟨huser, hsub⟩ := h.behind q (hprocs ▸ hq) hold
    rw [hready']
    exact ⟨huser, hsub.trans (List.sublist_append_right ..)⟩
  · unfold Overtaken Sched.rivals
    rw [hready', List.idxOf_append_of_notMem hnot, List.length_reverse, hsleeping, hprocs]
    show _ + _ + _ + 0 + inCall t.loc _ ≤ _ + inCall t.loc _
    omega

/-- **A step that does not dispatch `p`.** -/
theorem step_queued (hinv : Inv t) (h : Queued old p t) (hs : step t a = some t')
    (hcur : t'.sched.currentProcess ≠ some p) :
    Queued old p t' ∧ Overtaken p t t' (ticks a) := by
  rcases step_cases hs with ⟨rfl, -, rfl⟩ | ⟨c, q, task, rfl, hc, hq, rfl⟩ |
    ⟨c, st, data, hc, hb, hd, hlabel, rfl⟩ | ⟨c, rfl, hc, rfl⟩ | ⟨c, rfl, hc, rfl⟩ |
    ⟨c, rfl, hc, rfl⟩ | ⟨c, rfl, hc, rfl⟩
  · obtain ⟨hq, hrivals⟩ := h.reschedule hinv.wf hinv.idle hcur t.returned t.deleted
      (fun _ hu => hu)
    obtain ⟨-, -, hprocs, -⟩ := reschedule_wf hinv.wf hinv.idle
    refine ⟨hq, ?_⟩
    show (reschedule t.sched).rivals p + 0 + _ ≤ _ + inCall t.loc (reschedule t.sched).processes
    rw [hprocs]
    omega
  · exact h.createProcess hinv.wf hq
  · obtain ⟨hq, ho⟩ := h.enqueueCurrent data hinv hc hb
    rcases hlabel with ⟨time, rfl, -⟩ | ⟨type, rfl, -⟩ | ⟨pid, rfl, -⟩
    · exact ⟨hq, ho⟩
    · exact ⟨hq, ho⟩
    · exact ⟨hq, ho⟩
  · exact h.leaveWindow hinv hc hcur
  · exact h.taskReturn hinv hc hcur
  · exact h.timerIrq hinv hcur
  · exact h.keyboardIrq hinv

/-! ## Runs -/

theorem step_processes_nodup (hinv : Inv t) (h : t.sched.processes.Nodup)
    (hs : step t a = some t') : t'.sched.processes.Nodup := by
  have hres : ∀ {s : Sched}, Wf s → IdleReady s → s.processes.Nodup →
      (reschedule s).processes.Nodup := fun hwf hi hnd => by
    obtain ⟨-, -, hprocs, -⟩ := reschedule_wf hwf hi
    exact hprocs ▸ hnd
  have hwf := hinv.wf
  rcases step_cases hs with ⟨rfl, -, rfl⟩ | ⟨c, q, task, rfl, hc, hq, rfl⟩ |
    ⟨c, st, data, hc, hb, hd, -, rfl⟩ | ⟨c, rfl, hc, rfl⟩ | ⟨c, rfl, hc, rfl⟩ |
    ⟨c, rfl, hc, rfl⟩ | ⟨c, rfl, hc, rfl⟩
  · exact hres hwf hinv.idle h
  · rw [createProcess_processes]
    exact List.nodup_append.mpr ⟨h, List.nodup_singleton q, fun r hr r' hr' heq =>
      hq (List.mem_singleton.mp hr' ▸ heq ▸ hr)⟩
  · exact h
  · exact hres hwf hinv.idle h
  · obtain ⟨hcur, htask, huser⟩ := acting_iff.mp hc
    refine hres (hwf.terminated hcur (hinv.user c hcur huser))
      (hinv.idle.terminated hwf hcur htask) ?_
    refine List.Nodup.filter _ ?_
    rw [(wakeWaiters_moved hwf c).processes]
    exact h
  · exact hres (s := { t.sched with timer := (t.sched.timer + 1) % 18446744073709551616 })
      (hwf.tick _) hinv.idle h
  · rw [(notifyBlocked_moved hwf .io).processes]
    exact h

/-- The processes of every reachable state are distinct. -/
theorem reachable_processes_nodup {x i : Ptr} {terminal : Task} (hne : x ≠ i)
    (h : Reachable step (init x i terminal) t) : t.sched.processes.Nodup := by
  have hinit : (init x i terminal).sched.processes.Nodup := by
    show [x, i].Nodup
    simp [hne]
  exact (h.invariant (I := fun t => Inv t ∧ t.sched.processes.Nodup) ⟨init_inv hne terminal, hinit⟩
    fun _ _ _ hi hs => ⟨step_inv hi.1 hs, step_processes_nodup hi.1 hi.2 hs⟩).2

/-- **Along a run that does not dispatch `p`**, the ticks are paid for by its rivals. -/
theorem run_queued (hinv : Inv t) (h : Queued old p t) (hrun : run step t ls = some u)
    (hno : ∀ pre v, pre <+: ls → pre ≠ [] → run step t pre = some v →
      v.sched.currentProcess ≠ some p) :
    Queued old p u ∧ Overtaken p t u (ls.count .timerIrq) := by
  induction ls generalizing t with
  | nil =>
    cases hrun
    exact ⟨h, Nat.le_refl _⟩
  | cons a ls ih =>
    obtain ⟨t', hs, hrest⟩ := run_cons_some.mp hrun
    have hcur := hno [a] t' (List.cons_prefix_cons.mpr ⟨rfl, List.nil_prefix⟩) (by simp)
      (run_cons_some.mpr ⟨t', hs, rfl⟩)
    obtain ⟨h', ho⟩ := step_queued hinv h hs hcur
    obtain ⟨hq, ho'⟩ := ih (step_inv hinv hs) h' hrest fun pre v hpre hne hv =>
      hno (a :: pre) v (List.cons_prefix_cons.mpr ⟨rfl, hpre⟩) (by simp)
        (run_cons_some.mpr ⟨t', hs, hv⟩)
    refine ⟨hq, ?_⟩
    have hcount : (a :: ls).count .timerIrq = ls.count .timerIrq + ticks a := by
      unfold ticks
      rw [List.count_cons]
      simp
    unfold Overtaken at ho ho' ⊢
    omega

/-- The rivals of a ready process are live, and so is itself. -/
theorem Inv.rivals_lt (hinv : Inv t) (hp : p ∈ t.sched.lists .ready) :
    t.sched.rivals p < t.sched.processes.length := by
  have hnd : (t.sched.lists .ready ++ t.sched.lists .sleeping ++ t.sched.lists .blocked).Nodup :=
    hinv.listsConsistent.once.sublist
      ((List.sublist_append_left ..).append (List.Sublist.refl _))
  have hsub : t.sched.lists .ready ++ t.sched.lists .sleeping ++ t.sched.lists .blocked ⊆
      t.sched.processes := fun q hq => by
    rcases List.mem_append.mp hq with hq | hq
    · rcases List.mem_append.mp hq with hq | hq
      · exact hinv.wf.alive _ q hq
      · exact hinv.wf.alive _ q hq
    · exact hinv.wf.alive _ q hq
  have hlen := (List.subperm_of_subset hnd hsub).length_le
  simp only [List.length_append] at hlen
  have hidx := List.idxOf_lt_length_of_mem hp
  unfold Sched.rivals
  omega

/-- Nobody who is behind `p` is in a blocking call. -/
theorem Queued.inCall_le (h : Queued old p t) : inCall t.loc t.sched.processes ≤ old.length := by
  unfold inCall
  rw [List.countP_eq_length_filter]
  refine (List.subperm_of_subset (h.nodup.filter _) fun q hq => ?_).length_le
  obtain ⟨hq, hwindow⟩ := List.mem_filter.mp hq
  by_contra hold
  have huser := (h.behind q hq hold).1
  rw [huser] at hwindow
  simp at hwindow

/-- **No ready process starves**: in whatever way the steps are interleaved, it is dispatched
    before the timer has ticked twice for every live process. -/
theorem ready_process_runs {x i : Ptr} {terminal : Task} (hne : x ≠ i)
    (h : Reachable step (init x i terminal) t) (hp : p ∈ t.sched.lists .ready)
    (hrun : run step t ls = some u)
    (hticks : 2 * t.sched.processes.length ≤ ls.count .timerIrq) :
    ∃ pre v, pre <+: ls ∧ pre ≠ [] ∧ run step t pre = some v ∧
      v.sched.currentProcess = some p := by
  by_contra hno
  push Not at hno
  have hinv := reachable_inv hne terminal h
  have hq : Queued t.sched.processes p t :=
    ⟨hp, reachable_processes_nodup hne h, fun q hq hold => absurd hq hold⟩
  obtain ⟨hq', ho⟩ := run_queued hinv hq hrun hno
  have hrivals := hinv.rivals_lt hp
  have hcall := hq'.inCall_le
  unfold Overtaken at ho
  omega

/-- `idle` is the second to be ready, and the first tick dispatches it. -/
theorem ready_process_runs_example : ∃ t u,
    run step (init 4096 8192 (.function 1)) [.boot] = some t ∧
    run step t [.timerIrq, .timerIrq, .timerIrq, .timerIrq] = some u ∧
      ∃ pre v, pre <+: [.timerIrq, .timerIrq, .timerIrq, .timerIrq] ∧ pre ≠ [] ∧
        run step t pre = some v ∧ v.sched.currentProcess = some 8192 := by
  have hsome : ((run step (init 4096 8192 (.function 1)) [.boot]).bind fun t =>
      run step t [.timerIrq, .timerIrq, .timerIrq, .timerIrq]).isSome = true := by decide +kernel
  have hready : ∀ t ∈ run step (init 4096 8192 (.function 1)) [.boot],
      8192 ∈ t.sched.lists .ready ∧ t.sched.processes.length = 2 := by decide +kernel
  obtain ⟨u, hu⟩ := Option.isSome_iff_exists.mp hsome
  obtain ⟨t, ht, hrun⟩ := Option.bind_eq_some_iff.mp hu
  obtain ⟨hmem, hlen⟩ := hready t ht
  exact ⟨t, u, ht, hrun, ready_process_runs (x := 4096) (i := 8192) (by simp) ⟨_, ht⟩ hmem hrun
    (by simp [hlen])⟩

end HryOS.Scheduler
