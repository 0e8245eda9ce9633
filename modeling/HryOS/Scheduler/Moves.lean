import HryOS.Scheduler.Scheduler

/-!
# What the list operations do

* `moveToIf_eq` — over a list of distinct processes in the list's own state, `move_to_if` is one
  simultaneous move of the selected processes.
* `Moved` — the effect the rest of the development uses; `moveToIf_moved` proves it for each of
  the two insertion ends.
-/

set_option autoImplicit false

namespace HryOS.Scheduler

variable {s s' : Sched} {source target : ProcState} {predicate : Process → Bool}
  {method : List Ptr → Ptr → List Ptr} {p q : Ptr} {l : List Ptr}

namespace Sched

variable (s) (st st' : ProcState) (r : Process)

@[simp] theorem setList_lists_self : (s.setList st l).lists st = l := Function.update_self ..

@[simp] theorem setList_lists_of_ne (h : st' ≠ st) : (s.setList st l).lists st' = s.lists st' :=
  Function.update_of_ne h ..

@[simp] theorem setList_proc : (s.setList st l).proc = s.proc := rfl

@[simp] theorem setList_processes : (s.setList st l).processes = s.processes := rfl

@[simp] theorem setList_currentProcess :
    (s.setList st l).currentProcess = s.currentProcess := rfl

@[simp] theorem setList_isEnabled : (s.setList st l).isEnabled = s.isEnabled := rfl

@[simp] theorem setProc_proc_self : (s.setProc p r).proc p = r := Function.update_self ..

@[simp] theorem setProc_proc_of_ne (h : q ≠ p) : (s.setProc p r).proc q = s.proc q :=
  Function.update_of_ne h ..

@[simp] theorem setProc_lists : (s.setProc p r).lists = s.lists := rfl

@[simp] theorem setProc_processes : (s.setProc p r).processes = s.processes := rfl

@[simp] theorem setProc_currentProcess :
    (s.setProc p r).currentProcess = s.currentProcess := rfl

@[simp] theorem setProc_isEnabled : (s.setProc p r).isEnabled = s.isEnabled := rfl

end Sched

/-! ## `move_to_if` -/

/-- The processes of `l` that `predicate` selects. -/
def selected (s : Sched) (predicate : Process → Bool) (l : List Ptr) : List Ptr :=
  l.filter fun p => predicate (s.proc p)

/-- `s` after `ps` got the state `target` and went through `method`, in order. -/
def pushAll (s : Sched) (target : ProcState) (method : List Ptr → Ptr → List Ptr)
    (ps : List Ptr) : Sched :=
  { s with
    proc := fun p => if p ∈ ps then { s.proc p with state := target } else s.proc p
    lists := Function.update s.lists target (ps.foldl method (s.lists target)) }

theorem pushAll_nil : pushAll s target method [] = s := by
  unfold pushAll
  simp

theorem pushAll_cons {ps : List Ptr} (hp : p ∉ ps) :
    pushAll ((s.setState p target).setList target (method (s.lists target) p)) target method ps =
      pushAll s target method (p :: ps) := by
  unfold pushAll Sched.setState Sched.setProc Sched.setList
  simp only [Function.update_self, Function.update_idem, List.foldl_cons, Sched.mk.injEq, true_and,
    and_true]
  funext q
  by_cases hq : q = p
  · subst hq
    simp [hp]
  · simp [hq]

/-- The function that `move_to_if` passes to `erase_if`; a predicate may look at the pointer. -/
def moveOne (source target : ProcState) (predicate : Ptr → Process → Bool)
    (method : List Ptr → Ptr → List Ptr) (s : Sched) (p : Ptr) : Bool × Sched :=
  if (s.proc p).state = source ∧ predicate p (s.proc p) then
    let s := s.setState p target
    (true, s.setList target (method (s.lists target) p))
  else (false, s)

/-- The walk moves what `select` selects, in order, when it meets no process of them twice. -/
theorem eraseIf_moveOne {select : Ptr → Process → Bool}
    (hs : ∀ p ∈ l, (s.proc p).state = source) (hl : (l.filter fun p => select p (s.proc p)).Nodup) :
    eraseIf (moveOne source target select method) s l =
      (l.filter fun p => !select p (s.proc p),
        pushAll s target method (l.filter fun p => select p (s.proc p))) := by
  induction l generalizing s with
  | nil => rw [List.filter_nil, List.filter_nil, pushAll_nil]; rfl
  | cons p l ih =>
    have hst : (s.proc p).state = source := hs p List.mem_cons_self
    have hrest : ∀ q ∈ l, (s.proc q).state = source := fun q hq => hs q (List.mem_cons_of_mem _ hq)
    unfold eraseIf
    by_cases hsel : select p (s.proc p) = true
    · have hsel' : (p :: l).filter (fun q => select q (s.proc q)) =
          p :: l.filter fun q => select q (s.proc q) := List.filter_cons_of_pos hsel
      have hkept : (p :: l).filter (fun q => !select q (s.proc q)) =
          l.filter fun q => !select q (s.proc q) := List.filter_cons_of_neg (by simp [hsel])
      rw [hsel'] at hl
      obtain ⟨hnotin, hl'⟩ := List.nodup_cons.mp hl
      have hp : p ∉ l := fun hmem => hnotin (List.mem_filter.mpr ⟨hmem, hsel⟩)
      unfold moveOne
      rw [if_pos ⟨hst, hsel⟩]
      -- the callback changes `p` only, and `p` is not met again
      have hproc : ∀ q ∈ l, (((s.setState p target).setList target
          (method ((s.setState p target).lists target) p)).proc q) = s.proc q := fun q hq =>
        Sched.setProc_proc_of_ne s _ fun hqp => hp (hqp ▸ hq)
      have hfilter : ∀ f : Ptr → Process → Bool, (l.filter fun q => f q (((s.setState p
          target).setList target (method ((s.setState p target).lists target) p)).proc q)) =
          l.filter fun q => f q (s.proc q) := fun f =>
        List.filter_congr fun q hq => by rw [hproc q hq]
      have ih' := ih (fun q hq => by rw [hproc q hq]; exact hrest q hq) (by rw [hfilter]; exact hl')
      unfold moveOne at ih'
      dsimp only
      rw [ih', hfilter, hfilter fun q r => !select q r, hsel', hkept]
      exact Prod.ext rfl (pushAll_cons hnotin)
    · have hsel' : (p :: l).filter (fun q => select q (s.proc q)) =
          l.filter fun q => select q (s.proc q) := List.filter_cons_of_neg hsel
      have hkept : (p :: l).filter (fun q => !select q (s.proc q)) =
          p :: l.filter fun q => !select q (s.proc q) := List.filter_cons_of_pos (by simp [hsel])
      rw [hsel'] at hl
      have ih' := ih hrest hl
      unfold moveOne at ih' ⊢
      rw [if_neg fun h => hsel h.2]
      dsimp only
      rw [ih', hsel', hkept]
      rfl

theorem moveToIf_eq_eraseIf : moveToIf s source target predicate method =
    (eraseIf (moveOne source target (fun _ => predicate) method) s (s.lists source)).2.setList source
      (eraseIf (moveOne source target (fun _ => predicate) method) s (s.lists source)).1 := rfl

/-- **`move_to_if`**: the selected processes leave `source` at once and enter `target` in order. -/
theorem moveToIf_eq (hs : ∀ p ∈ s.lists source, (s.proc p).state = source)
    (hl : (s.lists source).Nodup) :
    moveToIf s source target predicate method =
      (pushAll s target method (selected s predicate (s.lists source))).setList source
        ((s.lists source).filter fun p => !predicate (s.proc p)) := by
  rw [moveToIf_eq_eraseIf, eraseIf_moveOne hs (hl.filter _)]
  rfl

theorem eraseIf_of_false {σ : Type} {func : σ → Ptr → Bool × σ} {x : σ}
    (h : ∀ p ∈ l, func x p = (false, x)) : eraseIf func x l = (l, x) := by
  induction l with
  | nil => rfl
  | cons p l ih =>
    unfold eraseIf
    rw [h p List.mem_cons_self]
    dsimp only
    rw [ih fun q hq => h q (List.mem_cons_of_mem p hq)]
    rfl

/-- Where nothing qualifies, nothing happens. -/
theorem moveToIf_eq_self (h : ∀ p ∈ s.lists source,
    ¬((s.proc p).state = source ∧ predicate (s.proc p))) :
    moveToIf s source target predicate method = s := by
  unfold moveToIf
  rw [eraseIf_of_false fun p hp => if_neg (h p hp)]
  exact congrArg (fun lists => { s with lists := lists }) (Function.update_eq_self ..)

/-! ## The effect of a move -/

/-- Between `s` and `s'` the processes `ps` went from the list `source` to the list `target`. -/
structure Moved (source target : ProcState) (ps : List Ptr) (s s' : Sched) : Prop where
  proc_eq : ∀ p, s'.proc p = if p ∈ ps then { s.proc p with state := target } else s.proc p
  mem_source : ∀ p, p ∈ s'.lists source ↔ p ∈ s.lists source ∧ p ∉ ps
  mem_target : ∀ p, p ∈ s'.lists target ↔ p ∈ s.lists target ∨ p ∈ ps
  lists_of_ne : ∀ st, st ≠ source → st ≠ target → s'.lists st = s.lists st
  nodup : (∀ st, (s.lists st).Nodup) → (∀ p ∈ ps, p ∉ s.lists target) → ∀ st, (s'.lists st).Nodup
  processes : s'.processes = s.processes
  currentProcess : s'.currentProcess = s.currentProcess
  isEnabled : s'.isEnabled = s.isEnabled
  timer : s'.timer = s.timer
  pidGenerator : s'.pidGenerator = s.pidGenerator

/-- Only the `state` fields of the processes differ between `s` and `s'`. -/
def OnlyState (s s' : Sched) : Prop := ∀ q, ∃ st, s'.proc q = { s.proc q with state := st }

namespace OnlyState

variable (h : OnlyState s s')

theorem refl (s : Sched) : OnlyState s s := fun q => ⟨(s.proc q).state, rfl⟩

theorem trans {s'' : Sched} (h : OnlyState s s') (h' : OnlyState s' s'') : OnlyState s s'' :=
  fun q => by
    obtain ⟨st, hst⟩ := h q
    obtain ⟨st', hst'⟩ := h' q
    exact ⟨st', by rw [hst', hst]⟩

include h

theorem pid (q : Ptr) : (s'.proc q).pid = (s.proc q).pid := by
  obtain ⟨st, hst⟩ := h q
  rw [hst]

theorem task (q : Ptr) : (s'.proc q).task = (s.proc q).task := by
  obtain ⟨st, hst⟩ := h q
  rw [hst]

theorem stateData (q : Ptr) : (s'.proc q).stateData = (s.proc q).stateData := by
  obtain ⟨st, hst⟩ := h q
  rw [hst]

end OnlyState

theorem Moved.onlyState {ps : List Ptr} (hm : Moved source target ps s s') : OnlyState s s' :=
  fun q => by
    rw [hm.proc_eq]
    split
    · exact ⟨target, rfl⟩
    · exact ⟨(s.proc q).state, rfl⟩

theorem foldl_perm (hm : ∀ (l : List Ptr) (p : Ptr), (method l p).Perm (p :: l)) :
    ∀ (ps l : List Ptr), (ps.foldl method l).Perm (ps ++ l)
  | [], l => List.Perm.refl l
  | p :: ps, l => by
    calc ((p :: ps).foldl method l)
        _ = ps.foldl method (method l p) := rfl
        List.Perm _ (ps ++ method l p) := foldl_perm hm ps (method l p)
        List.Perm _ (ps ++ p :: l) := (hm l p).append_left ps
        List.Perm _ (p :: ps ++ l) := List.perm_middle

theorem pushBack_perm (l : List Ptr) (p : Ptr) : (pushBack l p).Perm (p :: l) :=
  List.perm_append_singleton p l

theorem pushFront_perm (l : List Ptr) (p : Ptr) : (pushFront l p).Perm (p :: l) :=
  List.Perm.refl _

theorem moveToIf_moved (hm : ∀ (l : List Ptr) (p : Ptr), (method l p).Perm (p :: l))
    (hne : source ≠ target) (hs : ∀ p ∈ s.lists source, (s.proc p).state = source)
    (hl : (s.lists source).Nodup) :
    Moved source target (selected s predicate (s.lists source)) s
      (moveToIf s source target predicate method) := by
  rw [moveToIf_eq hs hl]
  generalize hps : selected s predicate (s.lists source) = ps
  have hmem : ∀ p, p ∈ ps ↔ p ∈ s.lists source ∧ predicate (s.proc p) = true := fun p => by
    rw [← hps]
    exact List.mem_filter
  have hperm := foldl_perm hm ps (s.lists target)
  have htarget : ((pushAll s target method ps).setList source
      ((s.lists source).filter fun p => !predicate (s.proc p))).lists target =
        ps.foldl method (s.lists target) := by
    rw [Sched.setList_lists_of_ne _ _ _ hne.symm]
    exact Function.update_self ..
  have hother : ∀ st, st ≠ source → st ≠ target → ((pushAll s target method ps).setList source
      ((s.lists source).filter fun p => !predicate (s.proc p))).lists st = s.lists st :=
    fun st h1 h2 => by
      rw [Sched.setList_lists_of_ne _ _ _ h1]
      exact Function.update_of_ne h2 ..
  refine ⟨fun p => rfl, ?_, ?_, hother, ?_, rfl, rfl, rfl,
    rfl, rfl⟩
  · intro p
    rw [Sched.setList_lists_self, List.mem_filter, hmem]
    simp only [Bool.not_eq_true', not_and, Bool.not_eq_true]
    exact ⟨fun h => ⟨h.1, fun _ => h.2⟩, fun h => ⟨h.1, h.2 h.1⟩⟩
  · intro p
    rw [htarget, hperm.mem_iff, List.mem_append]
    exact or_comm
  · intro hnd hdisj st
    by_cases h1 : st = source
    · rw [h1, Sched.setList_lists_self]
      exact (hnd source).filter _
    · by_cases h2 : st = target
      · rw [h2, htarget, hperm.nodup_iff]
        have hps' : ps.Nodup := by
          rw [← hps]
          exact (hnd source).filter _
        exact List.nodup_append.mpr ⟨hps', hnd target, fun a ha b hb hab => hdisj a ha (hab ▸ hb)⟩
      · rw [hother st h1 h2]
        exact hnd st

end HryOS.Scheduler
