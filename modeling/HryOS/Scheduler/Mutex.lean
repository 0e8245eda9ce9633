import Mathlib.Data.UInt
import Mathlib.Logic.Function.Basic
import HryOS.Lib.Transition

/-!
# Mutexes

`mutex.hpp`: one flag byte, tested and set by an atomic exchange.  `lock()` takes the old value 0
for "acquired"; `try_lock()` returns true for the old value 1, that is when the mutex was held.
A `lock_guard` is the `lock` of its constructor and the `unlock` of its destructor.

* `testAndSet`, `release` — the two atomic accesses, `lockIteration`, `tryLock`, `unlock` on them.
* `step` — any number of processes `P` that use one mutex.
* `MutualExclusion` — at most one process is in its critical section.
* `mutual_exclusion_iff` — a run keeps it exactly when nobody calls `try_lock` while another
  process is in its critical section.
-/

set_option autoImplicit false

namespace HryOS

/-- `mutex`. -/
structure Mutex where
  flag : UInt8
  deriving DecidableEq, Repr

namespace Mutex

/-- `__sync_lock_test_and_set(&flag_, value)`: the old value, and the new one stored. -/
def testAndSet (m : Mutex) (value : UInt8) : UInt8 × Mutex := (m.flag, { m with flag := value })

/-- `__sync_lock_release(&flag_)`. -/
def release (m : Mutex) : Mutex := { m with flag := 0 }

/-- The constructor: `flag_(0)`, then a release. -/
def new : Mutex := release { flag := 0 }

/-- One evaluation of the condition of `lock`'s loop: whether the loop goes on. -/
def lockIteration (m : Mutex) : Bool × Mutex :=
  let (old, m) := m.testAndSet 1
  (old != 0, m)

/-- `try_lock`. -/
def tryLock (m : Mutex) : Bool × Mutex :=
  let (old, m) := m.testAndSet 1
  (old == 1, m)

/-- `unlock`. -/
def unlock (m : Mutex) : Mutex := m.release

/-- `lock` goes on exactly when the mutex was held. -/
theorem lockIteration_eq (m : Mutex) : m.lockIteration = (m.flag != 0, ⟨1⟩) := rfl

theorem lockIteration_held {m : Mutex} (hflag : m.flag ≠ 0) : m.lockIteration = (true, ⟨1⟩) := by
  simp [lockIteration_eq, hflag]

theorem lockIteration_free {m : Mutex} (hflag : m.flag = 0) : m.lockIteration = (false, ⟨1⟩) := by
  simp [lockIteration_eq, hflag]

theorem lockIteration_cases (m : Mutex) :
    (m.flag ≠ 0 ∧ m.lockIteration = (true, ⟨1⟩)) ∨
      (m.flag = 0 ∧ m.lockIteration = (false, ⟨1⟩)) := by
  by_cases hflag : m.flag = 0
  · exact .inr ⟨hflag, lockIteration_free hflag⟩
  · exact .inl ⟨hflag, lockIteration_held hflag⟩

/-- `try_lock` returns true exactly when the mutex was held. -/
theorem tryLock_eq (m : Mutex) : m.tryLock = (m.flag == 1, ⟨1⟩) := rfl

end Mutex

namespace MutexSystem

open Transition Function

variable {P : Type} [DecidableEq P]

/-- The mutex, and for each process whether it is in the loop of `lock()` and whether it is in its
    critical section. -/
structure State (P : Type) where
  mutex : Mutex
  locking : P → Bool
  critical : P → Bool

/-- A process calls `lock()`, evaluates the condition of its loop, calls `try_lock()`, calls
    `unlock()`. -/
inductive Label (P : Type)
  | lock (p : P)
  | lockIteration (p : P)
  | tryLock (p : P)
  | unlock (p : P)
  deriving DecidableEq, Repr

/-- Nobody has used the mutex yet. -/
def init : State P := { mutex := .new, locking := fun _ => false, critical := fun _ => false }

/-- One step.  A process is in its critical section once `lock()` returns or `try_lock()` returns
    true, and calls `unlock()` only from there. -/
def step (s : State P) : Label P → Option (State P)
  | .lock p => if s.locking p then none else some { s with locking := update s.locking p true }
  | .lockIteration p =>
    if s.locking p then
      match s.mutex.lockIteration with
      | (true, m) => some { s with mutex := m }
      | (false, m) => some { mutex := m, locking := update s.locking p false,
                             critical := update s.critical p true }
    else none
  | .tryLock p =>
    if s.locking p then none
    else
      match s.mutex.tryLock with
      | (true, m) => some { s with mutex := m, critical := update s.critical p true }
      | (false, m) => some { s with mutex := m }
  | .unlock p =>
    if !s.locking p && s.critical p then
      some { s with mutex := s.mutex.unlock, critical := update s.critical p false }
    else none

/-- At most one process is in its critical section. -/
def MutualExclusion (s : State P) : Prop :=
  ∀ p q, s.critical p = true → s.critical q = true → p = q

/-- The flag is set while a process is in its critical section. -/
def FlagHeld (s : State P) : Prop := ∀ p, s.critical p = true → s.mutex.flag = 1

/-- The condition on a step: `try_lock` is not called while another process is in its critical
    section. -/
def NoTryWhileHeld (s : State P) : Label P → Prop
  | .tryLock p => ∀ q, s.critical q = true → q = p
  | _ => True

omit [DecidableEq P] in
theorem init_mutualExclusion : MutualExclusion (init : State P) := by
  intro p q hp
  exact absurd hp nofun

omit [DecidableEq P] in
theorem init_flagHeld : FlagHeld (init : State P) := by
  intro p hp
  exact absurd hp nofun

variable {s s' : State P} {l : Label P} {p q : P}

/-- What a step can do. -/
theorem step_cases (hs : step s l = some s') :
    (∃ p, l = .lock p ∧ s' = { s with locking := update s.locking p true }) ∨
    (∃ p, l = .lockIteration p ∧ s.mutex.flag ≠ 0 ∧ s' = { s with mutex := ⟨1⟩ }) ∨
    (∃ p, l = .lockIteration p ∧ s.mutex.flag = 0 ∧
      s' = { mutex := ⟨1⟩, locking := update s.locking p false,
             critical := update s.critical p true }) ∨
    (∃ p, l = .tryLock p ∧ s.mutex.flag = 1 ∧
      s' = { s with mutex := ⟨1⟩, critical := update s.critical p true }) ∨
    (∃ p, l = .tryLock p ∧ s.mutex.flag ≠ 1 ∧ s' = { s with mutex := ⟨1⟩ }) ∨
    (∃ p, l = .unlock p ∧ s.critical p = true ∧
      s' = { s with mutex := ⟨0⟩, critical := update s.critical p false }) := by
  cases l with
  | lock p =>
    simp only [step] at hs
    split at hs
    · cases hs
    · exact Or.inl ⟨p, rfl, (Option.some.inj hs).symm⟩
  | lockIteration p =>
    apply Or.inr
    simp only [step] at hs
    split at hs
    · rcases s.mutex.lockIteration_cases with ⟨hflag, hlock⟩ | ⟨hflag, hlock⟩
      · rw [hlock] at hs
        exact Or.inl ⟨p, rfl, hflag, (Option.some.inj hs).symm⟩
      · rw [hlock] at hs
        exact Or.inr (Or.inl ⟨p, rfl, hflag, (Option.some.inj hs).symm⟩)
    · cases hs
  | tryLock p =>
    apply Or.inr ∘ Or.inr ∘ Or.inr
    simp only [step, Mutex.tryLock_eq] at hs
    split at hs
    · cases hs
    · split at hs
      · rename_i m hm
        obtain ⟨hflag, rfl⟩ := Prod.mk.inj hm
        exact Or.inl ⟨p, rfl, by simpa using hflag, (Option.some.inj hs).symm⟩
      · rename_i m hm
        obtain ⟨hflag, rfl⟩ := Prod.mk.inj hm
        exact Or.inr (Or.inl ⟨p, rfl, by simpa using hflag, (Option.some.inj hs).symm⟩)
  | unlock p =>
    simp only [step] at hs
    split at hs
    · rename_i hp
      rw [Bool.and_eq_true] at hp
      cases hs
      exact Or.inr (Or.inr (Or.inr (Or.inr (Or.inr ⟨p, rfl, hp.2, rfl⟩))))
    · cases hs

/-- Who is critical after `p` enters: `p`, and who was. -/
theorem critical_enter : update s.critical p true q = true ↔ q = p ∨ s.critical q = true := by
  by_cases h : q = p
  · simp [h]
  · simp [h]

theorem critical_leave : update s.critical p false q = true ↔ q ≠ p ∧ s.critical q = true := by
  by_cases h : q = p
  · simp [h]
  · simp [h]

/-! ## Steps -/

/-- The flag invariant is kept while there is mutual exclusion. -/
theorem step_flagHeld (hf : FlagHeld s) (hm : MutualExclusion s) (hs : step s l = some s') :
    FlagHeld s' := by
  rcases step_cases hs with ⟨p, -, rfl⟩ | ⟨p, -, -, rfl⟩ | ⟨p, -, -, rfl⟩ | ⟨p, -, -, rfl⟩ |
    ⟨p, -, -, rfl⟩ | ⟨p, -, hp, rfl⟩
  · exact hf
  · intro _ _; rfl
  · intro _ _; rfl
  · intro _ _; rfl
  · intro _ _; rfl
  · -- the only critical process leaves
    intro q hq
    obtain ⟨hne, hq⟩ := critical_leave.mp hq
    exact absurd (hm q p hq hp) hne

/-- Entering keeps mutual exclusion exactly when nobody else is critical. -/
theorem mutualExclusion_enter (t : State P)
    (ht : t.critical = update s.critical p true) :
    MutualExclusion t ↔ ∀ q, s.critical q = true → q = p := by
  unfold MutualExclusion
  rw [ht]
  constructor
  · intro h q hq
    exact h q p (critical_enter.mpr (Or.inr hq)) (critical_enter.mpr (Or.inl rfl))
  · intro h q r hq hr
    have heq : ∀ q, q = p ∨ s.critical q = true → q = p := fun q hq => hq.elim id (h q)
    rw [heq q (critical_enter.mp hq), heq r (critical_enter.mp hr)]

/-- **Step rule**: a step keeps mutual exclusion exactly when it does not call `try_lock` while
    another process is in its critical section. -/
theorem step_mutualExclusion_iff (hf : FlagHeld s) (hm : MutualExclusion s)
    (hs : step s l = some s') : MutualExclusion s' ↔ NoTryWhileHeld s l := by
  have hfree : s.mutex.flag ≠ 1 → ∀ q, s.critical q ≠ true := fun h q hq => h (hf q hq)
  rcases step_cases hs with ⟨p, rfl, rfl⟩ | ⟨p, rfl, -, rfl⟩ | ⟨p, rfl, hflag, rfl⟩ |
    ⟨p, rfl, hflag, rfl⟩ | ⟨p, rfl, hflag, rfl⟩ | ⟨p, rfl, hp, rfl⟩
  · exact iff_of_true hm trivial
  · exact iff_of_true hm trivial
  · refine iff_of_true ((mutualExclusion_enter _ rfl).mpr ?_) trivial
    intro q hq
    exact absurd hq (hfree (by rw [hflag]; decide) q)
  · exact mutualExclusion_enter _ rfl
  · refine iff_of_true hm ?_
    intro q hq
    exact absurd hq (hfree hflag q)
  · refine iff_of_true ?_ trivial
    intro q r hq hr
    exact hm q r (critical_leave.mp hq).2 (critical_leave.mp hr).2

/-! ## Runs -/

/-- **Mutual exclusion**: all along a run at most one process is in its critical section exactly
    when no step of the run calls `try_lock` while another process is. -/
theorem mutual_exclusion_iff {ls : List (Label P)} {t : State P}
    (hrun : run step init ls = some t) :
    Along step MutualExclusion init ls ↔ EveryStep step NoTryWhileHeld init ls :=
  along_iff_everyStep_of_kept (I := FlagHeld) (fun _ _ _ hf hm _ hs => step_flagHeld hf hm hs)
    (fun _ _ _ => step_mutualExclusion_iff) init_flagHeld init_mutualExclusion hrun

/-- Two processes take turns.  `try_lock` on the free mutex returns false to `1` and keeps the
    flag set, so that it returns true to `0`. -/
theorem mutual_exclusion_example :
    (∃ s, run step (init : State (Fin 2)) [.lock 1, .lockIteration 1, .unlock 1, .tryLock 1,
      .tryLock 0] = some s) ∧
    Along step MutualExclusion (init : State (Fin 2)) [.lock 1, .lockIteration 1, .unlock 1,
      .tryLock 1, .tryLock 0] := by
  refine ⟨⟨_, rfl⟩, (mutual_exclusion_iff rfl).mpr ?_⟩
  simp [everyStep_cons, everyStep_nil, NoTryWhileHeld, step, init, Mutex.lockIteration_eq,
    Mutex.tryLock_eq, Mutex.new, Mutex.release, Mutex.unlock]

/-- `0` locks the mutex, and `1` gets true from `try_lock`: both are in their critical sections. -/
theorem try_lock_enters_held :
    ∃ s ∈ run step (init : State (Fin 2)) [.lock 0, .lockIteration 0, .tryLock 1],
      ¬ MutualExclusion s :=
  ⟨_, rfl, fun h => absurd (h 0 1 rfl rfl) (by omega)⟩

end MutexSystem

end HryOS
