import Mathlib.Data.List.Perm.Basic
import HryOS.Scheduler.Invariant
import HryOS.Scheduler.NodeScheduler

/-!
# How many nodes the scheduler allocates

The state lists take an erased node again before they allocate, so the nodes of each are bounded by
the longest it has been, and that by the processes there were at one time.

* `Within` — no state list has allocated more than so many nodes.
* `Walk.eraseIfLoop_within` — the loop of `move_to_if`, whose function pushes in every round.
* `node_memory_bounded` — over any run, each list has allocated at most as many nodes as there were
  processes in some state of the run.
-/

set_option autoImplicit false

namespace HryOS.Scheduler

open HlibList LinkedChain Transition ByteMemory

/-- No state list has allocated more than `k` nodes. -/
def Nodes.Within (n : Nodes) (k : ℕ) : Prop :=
  ∀ st, (n.lists.header st).allocated.length ≤ k

/-- A list method that allocates only where every node of the list is in use. -/
def Thrifty (method : ListMethod) : Prop :=
  ∀ s es fs value address s', Holds true s es fs → s.heap address = none →
    method s value address = some s' →
      s'.allocated = s.allocated ∨ s'.allocated.length = es.length + 1

variable {new : ℕ → ℕ} {source target st : ProcState} {predicate : Ptr → Process → Bool}
  {method : ListMethod} {insert : List Ptr → Ptr → List Ptr} {n n' : Nodes} {es fs : Entries}
  {s : Sched} {p : Ptr} {k : ℕ} {list : State Ptr}

theorem Nodes.Within.setList (h : n.Within k) (hlist : list.allocated.length ≤ k)
    {proc : Ptr → Process} {pushes : ℕ} :
    Nodes.Within ⟨n.lists.setList st list, proc, pushes⟩ k := by
  intro st'
  by_cases hst : st' = st
  · subst hst
    simpa [Family.setList] using hlist
  · rw [Family.setList_header_of_ne hst]
    exact h st'

theorem thrifty_of_grows {s s' : State Ptr} {es es' fs' : List (ℕ × Ptr)}
    (h' : Holds true s' es' fs') (hlen : es'.length = es.length + 1)
    (hgrows : s'.allocated = s.allocated ∨ fs' = []) :
    s'.allocated = s.allocated ∨ s'.allocated.length = es.length + 1 := by
  rcases hgrows with hsame | rfl
  · exact Or.inl hsame
  · right
    have hperm := (h'.stored rfl).length_eq
    rw [List.append_nil, List.length_map] at hperm
    rw [← hperm, hlen]

theorem pushBack_thrifty : Thrifty (HlibList.pushBack true) := by
  intro s es fs value address s' h hfree hs
  obtain ⟨s'', node, fs', hs', h', hgrows⟩ := pushBack_spec h value (Or.inl hfree)
  obtain rfl : s' = s'' := Option.some.inj (hs.symm.trans hs')
  exact thrifty_of_grows h' (by simp) hgrows

theorem pushFront_thrifty : Thrifty (HlibList.pushFront true) := by
  intro s es fs value address s' h hfree hs
  obtain ⟨s'', node, fs', hs', h', hgrows⟩ := pushFront_spec h value (Or.inl hfree)
  obtain rfl : s' = s'' := Option.some.inj (hs.symm.trans hs')
  exact thrifty_of_grows h' (by simp) hgrows

/-! ## `move_to_if` -/

theorem moveOne_length (hinsert : ∀ l p, (insert l p).length = l.length + 1) :
    (s.lists target).length ≤
      ((moveOne source target predicate insert s p).2.lists target).length := by
  unfold moveOne
  split
  · dsimp only
    rw [Sched.setList_lists_self, hinsert]
    exact Nat.le_succ _
  · exact Nat.le_refl _

/-- The list that is pushed to does not get shorter. -/
theorem eraseIf_moveOne_length (hinsert : ∀ l p, (insert l p).length = l.length + 1)
    (l : List Ptr) : ∀ s : Sched, (s.lists target).length ≤
      ((eraseIf (moveOne source target predicate insert) s l).2.lists target).length := by
  induction l with
  | nil => exact fun s => Nat.le_refl _
  | cons p l ih => exact fun s => le_trans (moveOne_length hinsert) (ih _)

/-- One call of the function passed to `erase_if`. -/
theorem Walk.callback_within {b : Bool} (h : Walk new source n es fs s) (hne : source ≠ target)
    (hthrifty : Thrifty method) (hinsert : ∀ l p, (insert l p).length = l.length + 1)
    (hcall : n.callback new source target predicate method p = some (b, n')) (hw : n.Within k)
    (hlen : ((moveOne source target predicate insert s p).2.lists target).length ≤ k) :
    n'.Within k := by
  unfold Nodes.callback at hcall
  unfold moveOne at hlen
  rw [h.proc_eq] at hlen
  split at hcall
  · rename_i hsel
    rw [if_pos hsel] at hlen
    simp only [Option.bind_eq_bind, Option.bind_eq_some_iff] at hcall
    obtain ⟨list, hlist, hcall⟩ := hcall
    cases hcall
    apply hw.setList
    rcases hthrifty _ _ _ p _ _ (h.holds.list target) (h.unused n.pushes (Nat.le_refl _)) hlist
      with hsame | hgrown
    · rw [hsame]
      exact hw target
    · dsimp only at hlen
      rw [Sched.setList_lists_self, hinsert] at hlen
      have hvalues : (es target).length = (s.lists target).length := by
        rw [h.lists_eq target hne.symm]
        exact (List.length_map ..).symm
      rw [hgrown, hvalues]
      exact hlen
  · cases hcall
    exact hw

/-- **The loop**: it allocates no more than the list it pushes to is long in the end. -/
theorem Walk.eraseIfLoop_within {l r : List (ℕ × Ptr)} {rounds : ℕ} (hne : source ≠ target)
    (hmethod : Inserts method insert) (hthrifty : Thrifty method)
    (hinsert : ∀ l p, (insert l p).length = l.length + 1) (hnew : new.Injective)
    (h : Walk new source n es fs s) (hes : es source = l ++ r)
    (hloop : Nodes.eraseIfLoop source (Nodes.callback new source target predicate method) rounds n
      (first r none) = some n') (hw : n.Within k)
    (hlen : ((eraseIf (moveOne source target predicate insert) s (r.map Prod.snd)).2.lists
      target).length ≤ k) : n'.Within k := by
  induction r generalizing rounds n es fs s l with
  | nil =>
    cases rounds with
    | zero => cases hloop
    | succ rounds =>
      simp [Nodes.eraseIfLoop, (h.holds.list source).end_eq] at hloop
      exact hloop ▸ hw
  | cons e r ih =>
    cases rounds with
    | zero => cases hloop
    | succ rounds =>
      obtain ⟨n₁, es₁, fs₁, hcall, h₁, hsource, -⟩ := h.callback hne hmethod hnew predicate e.2
      have hlist := h.holds.list source
      have hlist₁ := h₁.holds.list source
      rw [hes] at hlist
      rw [hsource, hes] at hlist₁
      have hnode : n.lists.heap e.1 = _ := (linked_append.mp hlist.linked).2.1
      have hnode₁ : n₁.lists.heap e.1 = _ := (linked_append.mp hlist₁.linked).2.1
      unfold Nodes.eraseIfLoop at hloop
      simp only [Option.bind_eq_bind, Option.bind_some, hlist.end_eq, first_cons, reduceCtorEq,
        ↓reduceIte, hnode, hcall, hnode₁] at hloop
      simp only [List.map_cons, eraseIf] at hlen
      have hw₁ : n₁.Within k := h.callback_within hne hthrifty hinsert hcall hw
        (le_trans (eraseIf_moveOne_length hinsert _ _) hlen)
      cases hmoved : (moveOne source target predicate insert s e.2).1 with
      | true =>
        obtain ⟨list, herase, h₂⟩ := h₁.erase (hsource.trans hes)
        obtain ⟨list', herase', -, halloc⟩ := erase_spec hlist₁
        obtain rfl : list = list' := Option.some.inj (herase.symm.trans herase')
        simp only [hmoved, ↓reduceIte, herase, Option.map_some, Option.bind_some] at hloop
        refine ih h₂ (l := l) (Function.update_self ..) hloop (hw₁.setList ?_) hlen
        rw [halloc]
        exact hw₁ source
      | false =>
        simp only [hmoved, Bool.false_eq_true, ↓reduceIte] at hloop
        exact ih h₁ (l := l ++ [e]) (by rw [hsource, hes, List.append_cons]) hloop hw₁ hlen

/-- `move_to_if`. -/
theorem Represents.moveToIf_within {predicate : Process → Bool} (h : Represents new n es fs s)
    (hne : source ≠ target) (hmethod : Inserts method insert) (hthrifty : Thrifty method)
    (hinsert : ∀ l p, (insert l p).length = l.length + 1) (hnew : new.Injective)
    (hmove : Nodes.moveToIf new n source target (fun _ => predicate) method = some n')
    (hw : n.Within k)
    (hlen : ((moveToIf s source target predicate insert).lists target).length ≤ k) :
    n'.Within k := by
  have hwalk : Walk new source n es fs s :=
    ⟨h.holds, h.unused, h.proc_eq, fun st _ => h.lists_eq st⟩
  have hhead : (n.lists.header source).head = first (es source) none := (h.holds.list source).head
  unfold Nodes.moveToIf at hmove
  rw [hhead] at hmove
  refine hwalk.eraseIfLoop_within hne hmethod hthrifty hinsert hnew
    (List.nil_append (es source)).symm hmove hw ?_
  rw [moveToIf_eq_eraseIf, Sched.setList_lists_of_ne _ _ _ hne.symm] at hlen
  rw [show (es source).map Prod.snd = s.lists source from (h.lists_eq source).symm]
  exact hlen

/-! ## The functions of the scheduler -/

namespace NodeSched.Represents

variable {n n' : NodeSched} {s : Sched} {c : Ptr} {predicate : Process → Bool}

/-- `get_list(st).push_back(p)`. -/
theorem pushBack_within (h : n.Represents new s) (hpush : n.pushBack new st p = some n')
    (hw : n.nodes.Within k) (hlen : (s.lists st).length + 1 ≤ k) : n'.nodes.Within k := by
  obtain ⟨es, fs, hn⟩ := h.nodes
  unfold NodeSched.pushBack at hpush
  simp only [Option.bind_eq_bind, Option.bind_eq_some_iff] at hpush
  obtain ⟨list, hlist, hpush⟩ := hpush
  cases hpush
  apply hw.setList
  rcases pushBack_thrifty _ _ _ p _ _ (hn.holds.list st) (hn.unused _ (Nat.le_refl _)) hlist
    with hsame | hgrown
  · rw [hsame]
    exact hw st
  · have hvalues : (es st).length = (s.lists st).length := by
      rw [hn.lists_eq st]
      exact (List.length_map ..).symm
    rw [hgrown, hvalues]
    exact hlen

theorem moveToBackIf_within (h : n.Represents new s) (hne : source ≠ target)
    (hnew : new.Injective) (hmove : n.moveToBackIf new source target predicate = some n')
    (hw : n.nodes.Within k)
    (hlen : ((Scheduler.moveToBackIf s source target predicate).lists target).length ≤ k) :
    n'.nodes.Within k := by
  obtain ⟨es, fs, hn⟩ := h.nodes
  obtain ⟨nodes, hnodes, hmove⟩ := Option.bind_eq_some_iff.mp hmove
  cases hmove
  exact hn.moveToIf_within hne pushBack_inserts pushBack_thrifty (by simp) hnew hnodes hw hlen

theorem moveToFrontIf_within (h : n.Represents new s) (hne : source ≠ target)
    (hnew : new.Injective) (hmove : n.moveToFrontIf new source target predicate = some n')
    (hw : n.nodes.Within k)
    (hlen : ((Scheduler.moveToFrontIf s source target predicate).lists target).length ≤ k) :
    n'.nodes.Within k := by
  obtain ⟨es, fs, hn⟩ := h.nodes
  obtain ⟨nodes, hnodes, hmove⟩ := Option.bind_eq_some_iff.mp hmove
  cases hmove
  exact hn.moveToIf_within hne pushFront_inserts pushFront_thrifty (by simp) hnew hnodes hw hlen

/-- `pop_front` allocates nothing. -/
theorem popFront_within (h : n.Represents new s) {rest : List Ptr} (hl : s.lists st = p :: rest)
    (hpop : HlibList.popFront true (n.getList st) = some list) (hw : n.nodes.Within k) :
    (n.setList st list).nodes.Within k := by
  obtain ⟨es, fs, hlist, hvalues⟩ := h.list st
  rw [hl] at hvalues
  obtain ⟨e, r, rfl, -, -⟩ := List.map_eq_cons_iff.mp hvalues
  obtain ⟨list', herase, -, halloc⟩ := erase_spec (l := []) hlist
  unfold HlibList.popFront at hpop
  rw [hlist.head] at hpop
  obtain rfl : list = list' := Option.some.inj (hpop.symm.trans herase)
  apply hw.setList
  rw [halloc]
  exact hw st

theorem requeueCurrent_within (h : n.Represents new s) (hrequeue : n.requeueCurrent new = some n')
    (hw : n.nodes.Within k) (hlen : (s.lists .ready).length + 1 ≤ k) : n'.nodes.Within k := by
  unfold NodeSched.requeueCurrent at hrequeue
  split at hrequeue
  · rename_i c hcur
    split at hrequeue
    · exact (h.setState c .ready).pushBack_within hrequeue hw hlen
    · cases hrequeue
      exact hw
  · cases hrequeue
    exact hw

end NodeSched.Represents

/-- A list holds live processes, each once. -/
theorem Wf.length_le (h : Wf s) (st : ProcState) : (s.lists st).length ≤ s.processes.length :=
  (List.subperm_of_subset (h.nodup st) (h.alive st)).length_le

theorem wakeSleepers_wf (h : Wf s) :
    Wf (wakeSleepers s) ∧ (wakeSleepers s).processes = s.processes := by
  have hm := wakeSleepers_due h
  exact ⟨h.moved hm (Or.inl rfl) selected_subset, hm.processes⟩

namespace NodeSched.Represents

variable {n n' : NodeSched} {s : Sched} {c : Ptr}

/-- **`reschedule`**: one push at the back follows a pop at the front. -/
theorem reschedule_within (h : n.Represents new s) (hnew : new.Injective) (hwf : Wf s)
    (hle : s.processes.length ≤ k) (hres : n.reschedule new = some n') (hw : n.nodes.Within k) :
    n'.nodes.Within k := by
  obtain ⟨hwf₁, hprocs⟩ := wakeSleepers_wf hwf
  have hready : ((wakeSleepers s).lists .ready).length ≤ k :=
    (hwf₁.length_le .ready).trans (hprocs ▸ hle)
  unfold NodeSched.reschedule at hres
  split at hres
  · cases hres
    exact hw
  · obtain ⟨n₁, hmove, h₁⟩ := h.moveToFrontIf
      (show ProcState.sleeping ≠ .ready by simp) hnew
      fun q => decide (q.stateData.sleepTimeout < s.getTimer)
    have h₁ : n₁.Represents new (wakeSleepers s) := h₁
    have hw₁ : n₁.nodes.Within k := h.moveToFrontIf_within (by simp) hnew hmove hw hready
    simp only [h.getTimer_eq, hmove, Option.bind_eq_bind, Option.bind_some] at hres
    cases hl : (wakeSleepers s).lists .ready with
    | nil =>
      rw [h₁.isEmpty_of_nil hl, if_pos rfl] at hres
      cases hres
      exact hw₁
    | cons p rest =>
      obtain ⟨hempty, hfront, list, hpop, h₂⟩ := h₁.popFront hl
      have hw₂ := h₁.popFront_within hl hpop hw₁
      simp only [hempty, hfront, hpop, Bool.false_eq_true, ↓reduceIte, Option.bind_some] at hres
      split at hres
      · cases hres
        exact hw₂
      · obtain ⟨n₃, hrequeue, hres⟩ := Option.bind_eq_some_iff.mp hres
        have hw₃ : n₃.nodes.Within k := by
          refine h₂.requeueCurrent_within hrequeue hw₂ ?_
          rw [Sched.setList_lists_self]
          rwa [hl] at hready
        split at hres
        · cases hres
          exact hw₃
        · cases hres
          exact hw₃

theorem enqueueCurrent_within (h : n.Represents new s) {data : StateData}
    (henqueue : n.enqueueCurrent new c st data = some n') (hw : n.nodes.Within k)
    (hlen : ((Scheduler.enqueueCurrent s c st data).lists st).length ≤ k) : n'.nodes.Within k := by
  refine (h.setProc c { n.nodes.proc c with state := st, stateData := data }).pushBack_within
    henqueue hw ?_
  rw [enqueueCurrent_lists_self] at hlen
  simpa [Scheduler.pushBack] using hlen

theorem createProcess_within (h : n.Represents new s) {task : Task} {address : ℕ}
    (hfree : n.processes.heap address = none)
    (hcreate : n.createProcess new p task address = some n') (hw : n.nodes.Within k)
    (hlen : ((Scheduler.createProcess s p task).lists .ready).length ≤ k) : n'.nodes.Within k := by
  obtain ⟨n₁, s₁, h₁, hlists, -, hn, hs⟩ := h.createProcess_push p task hfree
  have hw₁ : n₁.nodes.Within k := fun st => by
    rw [hlists]
    exact hw st
  refine h₁.pushBack_within (hn ▸ hcreate) hw₁ ?_
  rw [hs, Sched.setList_lists_self] at hlen
  simpa [Scheduler.pushBack] using hlen

/-- The end of `process_starter`. -/
theorem processStarterTail_within (h : n.Represents new s) (hnew : new.Injective) (hwf : Wf s)
    (hwf' : Wf (terminated s c)) (hle : s.processes.length ≤ k)
    (htail : n.processStarterTail new c = some n') (hw : n.nodes.Within k) :
    n'.nodes.Within k := by
  obtain ⟨m, n₁, hmove, hnodes, h₁, htail'⟩ := h.processStarterTail_reschedule hnew c
  have h₁ : n₁.Represents new (terminated s c) := h₁
  have hm := wakeWaiters_moved hwf c
  have hwaked := hwf.moved hm (Or.inr (Or.inl rfl)) selected_subset
  have hle₁ : (terminated s c).processes.length ≤ k := by
    refine le_trans (List.length_filter_le _ _) ?_
    rw [hm.processes]
    exact hle
  have hw₁ : n₁.nodes.Within k := by
    rw [hnodes]
    refine h.moveToBackIf_within (by simp) hnew hmove hw ((hwaked.length_le .ready).trans ?_)
    rw [hm.processes]
    exact hle
  exact h₁.reschedule_within hnew hwf' hle₁ (htail' ▸ htail) hw₁

theorem notifyBlocked_within (h : n.Represents new s) (hnew : new.Injective) (hwf : Wf s)
    {type : BlockedType} (hle : s.processes.length ≤ k)
    (hnotify : n.notifyBlocked new type = some n') (hw : n.nodes.Within k) :
    n'.nodes.Within k := by
  have hm := notifyBlocked_moved hwf type
  have hwf' := hwf.moved hm (Or.inr (Or.inr rfl)) selected_subset
  refine h.moveToFrontIf_within (by simp) hnew hnotify hw ((hwf'.length_le .ready).trans ?_)
  rw [hm.processes]
  exact hle

end NodeSched.Represents

/-! ## Runs -/

variable {m m₀ m' : NodeSystem} {t : System} {a : Label} {address : ℕ} {ls : List (Label × ℕ)}
  {x i : Ptr} {terminal : Task} {b c : ℕ}

/-- Every step keeps the bound, where the processes before it and after it are no more. -/
theorem nodeStep_within (h : m.Represents new t) (hnew : new.Injective) (hinv : Inv t)
    (hle : t.sched.processes.length ≤ k) (hw : m.sched.nodes.Within k)
    (hstep : nodeStep new m (a, address) = some m')
    (hle' : ∀ t', step t a = some t' → t'.sched.processes.length ≤ k) :
    m'.sched.nodes.Within k := by
  obtain ⟨hfresh, t', ht'⟩ := h.enabled hstep
  have hinv' := step_inv hinv ht'
  have hlen : ∀ st, (t'.sched.lists st).length ≤ k := fun st =>
    (hinv'.wf.length_le st).trans (hle' t' ht')
  have hs := h.sched
  rcases step_cases ht' with ⟨rfl, hcur, rfl⟩ | ⟨c, p, task, rfl, hc, hp, rfl⟩ |
    ⟨c, st, data, hc, hb, hd, hlabel, rfl⟩ | ⟨c, rfl, hc, rfl⟩ | ⟨c, rfl, hc, rfl⟩ |
    ⟨c, rfl, hc, rfl⟩ | ⟨c, rfl, hc, rfl⟩
  · simp only [nodeStep, hs.currentProcess, hcur, ↓reduceIte] at hstep
    obtain ⟨sched, hsched, hstep⟩ := Option.bind_eq_some_iff.mp hstep
    cases hstep
    exact hs.reschedule_within hnew hinv.wf hle hsched hw
  · simp only [nodeStep, h.acting_eq, hc, h.forEach_eq, if_neg hp, Option.bind_eq_bind,
      Option.bind_some] at hstep
    obtain ⟨sched, hsched, hstep⟩ := Option.bind_eq_some_iff.mp hstep
    cases hstep
    exact hs.createProcess_within hfresh hsched hw (hlen .ready)
  · have henqueue : m.enqueue new st data = some m' := by
      rcases hlabel with ⟨time, rfl, rfl, rfl⟩ | ⟨type, rfl, rfl, rfl⟩ | ⟨pid, rfl, rfl, rfl⟩
      · rw [← hs.getTimer_eq]
        exact hstep
      · exact hstep
      · exact hstep
    simp only [NodeSystem.enqueue, h.acting_eq, hc, Option.bind_eq_bind, Option.bind_some]
      at henqueue
    obtain ⟨sched, hsched, henqueue⟩ := Option.bind_eq_some_iff.mp henqueue
    cases henqueue
    exact hs.enqueueCurrent_within hsched hw (hlen st)
  · simp only [nodeStep, h.acting_eq, hc, Option.bind_eq_bind, Option.bind_some] at hstep
    obtain ⟨sched, hsched, hstep⟩ := Option.bind_eq_some_iff.mp hstep
    cases hstep
    exact hs.reschedule_within hnew hinv.wf hle hsched hw
  · simp only [nodeStep, h.acting_eq, hc, Option.bind_eq_bind, Option.bind_some] at hstep
    obtain ⟨sched, hsched, hstep⟩ := Option.bind_eq_some_iff.mp hstep
    cases hstep
    obtain ⟨hcur, -, hloc⟩ := acting_iff.mp hc
    exact hs.processStarterTail_within hnew hinv.wf
      (hinv.wf.terminated hcur (hinv.user c hcur hloc)) hle hsched hw
  · simp only [nodeStep, hs.currentProcess, hc, Option.bind_eq_bind, Option.bind_some] at hstep
    obtain ⟨sched, hsched, hstep⟩ := Option.bind_eq_some_iff.mp hstep
    cases hstep
    exact NodeSched.Represents.reschedule_within hs.tick hnew (hinv.wf.tick _) hle hsched hw
  · simp only [nodeStep, hs.currentProcess, hc, Option.bind_eq_bind, Option.bind_some] at hstep
    obtain ⟨sched, hsched, hstep⟩ := Option.bind_eq_some_iff.mp hstep
    cases hstep
    exact hs.notifyBlocked_within hnew hinv.wf hle hsched hw

/-- The number of processes there are. -/
def NodeSystem.live (m : NodeSystem) : ℕ := (forEach m.sched.processes).elim 0 List.length

theorem NodeSystem.Represents.live_eq (h : m.Represents new t) :
    m.live = t.sched.processes.length := by
  unfold NodeSystem.live
  rw [h.forEach_eq]
  rfl

theorem nodeInit_within (hnew : new.Injective)
    (h : nodeInit new x i terminal b c = some m₀) : m₀.sched.nodes.Within 2 := by
  obtain ⟨n₁, n₂, h₁, h₂, -, hr, -, rfl⟩ := nodeInit_cases hnew h
  have hw : emptyNodeSched.nodes.Within 2 := fun _ => Nat.zero_le _
  have hw₁ := emptyNodeSched_represents.createProcess_within
    (NodeSystem.Represents.fresh_of_createProcess h₁) h₁ hw (k := 2) (by
      rw [createProcess_eq, Sched.setList_lists_self]
      exact Nat.le_succ 1)
  refine hr.createProcess_within (NodeSystem.Represents.fresh_of_createProcess h₂) h₂ hw₁ ?_
  rw [createProcess_eq, Sched.setList_lists_self]
  exact Nat.le_refl 2

/-- **The memory of the state lists is bounded**: at the end of any run, no list has allocated more
    nodes than there were processes in one of the states of the run. -/
theorem node_memory_bounded (hne : x ≠ i) (hnew : new.Injective)
    (hinit : nodeInit new x i terminal b c = some m₀) (hrun : run (nodeStep new) m₀ ls = some m) :
    ∃ pre m', pre <+: ls ∧ run (nodeStep new) m₀ pre = some m' ∧ m.live ≤ m'.live ∧
      ∀ st, (m.sched.getList st).allocated.length ≤ m'.live := by
  obtain ⟨-, t, hr, -, pre, m', hpre, hm', hle, hw⟩ : run (nodeStep new) m₀ ls = some m ∧
      ∃ t, m.Represents new t ∧ Inv t ∧ ∃ pre m', pre <+: ls ∧
        run (nodeStep new) m₀ pre = some m' ∧ t.sched.processes.length ≤ m'.live ∧
        m.sched.nodes.Within m'.live := by
    refine run_history (I := fun ls m => run (nodeStep new) m₀ ls = some m ∧
      ∃ t, NodeSystem.Represents new m t ∧ Inv t ∧ ∃ pre m', pre <+: ls ∧
        run (nodeStep new) m₀ pre = some m' ∧ t.sched.processes.length ≤ m'.live ∧
        m.sched.nodes.Within m'.live) ?_ ?_ hrun
    · have hr := nodeInit_represents hnew hinit
      have hlive : m₀.live = 2 := hr.live_eq
      exact ⟨rfl, _, hr, init_inv hne terminal, [], m₀, List.nil_prefix, rfl, hr.live_eq.ge,
        hlive ▸ nodeInit_within hnew hinit⟩
    · rintro ls m ⟨a, address⟩ m' ⟨hls, t, hr, hinv, pre, top, hpre, htop, hle, hw⟩ hstep
      obtain ⟨t', ht', hr'⟩ := hr.step_of_nodeStep hnew hstep
      have hone : ∀ u, step t a = some u → u.sched.processes.length = m'.live := fun u hu => by
        obtain rfl : t' = u := Option.some.inj (ht'.symm.trans hu)
        exact hr'.live_eq.symm
      have hrun' : run (nodeStep new) m₀ (ls ++ [(a, address)]) = some m' := by
        rw [run_append, hls]
        simp [run, hstep]
      refine ⟨hrun', t', hr', step_inv hinv ht', ?_⟩
      -- either an earlier state had as many processes, or this one has the most
      rcases Nat.le_total m'.live top.live with hmore | hless
      · refine ⟨pre, top, hpre.trans (List.prefix_append _ _), htop, hr'.live_eq ▸ hmore, ?_⟩
        exact nodeStep_within hr hnew hinv hle hw hstep fun u hu => (hone u hu).trans_le hmore
      · refine ⟨ls ++ [(a, address)], m', List.prefix_refl _, hrun', hr'.live_eq.ge, ?_⟩
        exact nodeStep_within hr hnew hinv (hle.trans hless) (fun st => (hw st).trans hless) hstep
          fun u hu => (hone u hu).le
  exact ⟨pre, m', hpre, hm', hr.live_eq ▸ hle, hw⟩

theorem node_memory_bounded_example : ∃ n₀ n,
    nodeInit (· + 1000) 4096 8192 (.function 1) 100 200 = some n₀ ∧
      run (nodeStep (· + 1000)) n₀ lifecycle = some n ∧
      ∃ pre n', pre <+: lifecycle ∧ run (nodeStep (· + 1000)) n₀ pre = some n' ∧
        n.live ≤ n'.live ∧ ∀ st, (n.sched.getList st).allocated.length ≤ n'.live := by
  obtain ⟨n₀, n, hinit, hrun⟩ := lifecycle_runs
  exact ⟨n₀, n, hinit, hrun,
    node_memory_bounded (by simp) (fun _ _ => Nat.add_right_cancel) hinit hrun⟩

end HryOS.Scheduler
