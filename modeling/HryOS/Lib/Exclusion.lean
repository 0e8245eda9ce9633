import Mathlib.Data.List.Basic

/-!
# A lock and a list of processes

Mutual exclusion as an invariant of a list of processes, one of which moves at a time.

* `Exclusive` — at most one process holds the lock, and none does while the lock is free.
* `Exclusive.set`, `.acquire`, `.release`, `.held`, `.append` — what a process can do with it.
-/

set_option autoImplicit false

namespace Exclusion

variable {P : Type*} {p q : P} {ps : List P} {i j : ℕ}

/-- At most one process holds the lock, and none where it is free. -/
structure Exclusive (Holds : P → Prop) (isFree : Prop) (ps : List P) : Prop where
  free : isFree → ∀ (i : ℕ) (p : P), ps[i]? = some p → ¬Holds p
  one : ∀ (i j : ℕ) (p q : P), ps[i]? = some p → ps[j]? = some q → Holds p → Holds q → i = j

/-! ## Lists of processes -/

theorem set_cases (h : (ps.set i p)[j]? = some q) :
    (j = i ∧ q = p) ∨ (j ≠ i ∧ ps[j]? = some q) := by
  rw [List.getElem?_set] at h
  split at h
  · rename_i heq
    split at h
    · exact .inl ⟨heq.symm, (Option.some.inj h).symm⟩
    · cases h
  · rename_i hne
    exact .inr ⟨fun heq => hne heq.symm, h⟩

theorem append_cases (h : (ps ++ [p])[j]? = some q) : ps[j]? = some q ∨ q = p := by
  rw [List.getElem?_append] at h
  split at h
  · exact .inl h
  · have hmem := List.mem_of_getElem? h
    exact .inr (List.mem_singleton.mp hmem)

theorem forall_mem_iff {R : P → Prop} :
    (∀ p ∈ ps, R p) ↔ ∀ (i : ℕ) (p : P), ps[i]? = some p → R p := by
  constructor
  · intro h i p hp
    exact h p (List.mem_of_getElem? hp)
  · intro h p hmem
    obtain ⟨i, hi⟩ := List.mem_iff_getElem?.mp hmem
    exact h i p hi

/-- What holds of all processes after one has moved, and of that one before, held of all. -/
theorem forall_of_set {R : P → Prop} (hp : ps[i]? = some p) (hR : R p)
    (h : ∀ u ∈ ps.set i q, R u) : ∀ u ∈ ps, R u := by
  rw [forall_mem_iff] at h ⊢
  intro j u hj
  by_cases hji : j = i
  · subst hji
    rw [Option.some.inj (hj.symm.trans hp)]
    exact hR
  · refine h j u ?_
    rw [List.getElem?_set_ne (Ne.symm hji)]
    exact hj

/-! ## The moves -/

namespace Exclusive

variable {Holds : P → Prop} {isFree isFree' : Prop}

/-- A process moves on without getting the lock. -/
theorem set (h : Exclusive Holds isFree ps) (hp : ps[i]? = some p) (hholds : Holds q → Holds p) :
    Exclusive Holds isFree (ps.set i q) := by
  refine ⟨?_, ?_⟩
  · intro hfree j u hj hu
    rcases set_cases hj with ⟨rfl, rfl⟩ | ⟨-, hj⟩
    · exact h.free hfree _ _ hp (hholds hu)
    · exact h.free hfree _ _ hj hu
  · intro j k u v hj hk hu hv
    rcases set_cases hj with ⟨rfl, rfl⟩ | ⟨-, hj₀⟩
    · rcases set_cases hk with ⟨rfl, -⟩ | ⟨-, hk₀⟩
      · rfl
      · exact h.one _ _ _ _ hp hk₀ (hholds hu) hv
    · rcases set_cases hk with ⟨rfl, rfl⟩ | ⟨-, hk₀⟩
      · exact h.one _ _ _ _ hj₀ hp hu (hholds hv)
      · exact h.one _ _ _ _ hj₀ hk₀ hu hv

/-- A process takes the free lock. -/
theorem acquire (h : Exclusive Holds isFree ps) (hfree : isFree) (hfree' : ¬isFree') (q : P) :
    Exclusive Holds isFree' (ps.set i q) := by
  have hnone := h.free hfree
  refine ⟨fun hf => absurd hf hfree', ?_⟩
  intro j k u v hj hk hu hv
  rcases set_cases hj with ⟨rfl, rfl⟩ | ⟨-, hj⟩
  · rcases set_cases hk with ⟨rfl, -⟩ | ⟨-, hk⟩
    · rfl
    · exact absurd hv (hnone _ _ hk)
  · exact absurd hu (hnone _ _ hj)

/-- The process that holds the lock gives it back. -/
theorem release (h : Exclusive Holds isFree ps) (hp : ps[i]? = some p) (hholds : Holds p)
    (hholds' : ¬Holds q) : Exclusive Holds isFree' (ps.set i q) := by
  have hnone : ∀ (j : ℕ) (u : P), (ps.set i q)[j]? = some u → ¬Holds u := by
    intro j u hj hu
    rcases set_cases hj with ⟨-, rfl⟩ | ⟨hne, hj⟩
    · exact hholds' hu
    · exact hne (h.one _ _ _ _ hj hp hu hholds)
  exact ⟨fun _ => hnone, fun j k u v hj _ hu _ => absurd hu (hnone j u hj)⟩

/-- The lock was held, and is marked as held again. -/
theorem held (h : Exclusive Holds isFree ps) (hp : ps[i]? = some p) (hfree' : ¬isFree') :
    Exclusive Holds isFree' (ps.set i p) :=
  ⟨fun hf => absurd hf hfree', (h.set hp id).one⟩

/-- A new process does not hold the lock. -/
theorem append (h : Exclusive Holds isFree ps) (hnew : ¬Holds p) :
    Exclusive Holds isFree (ps ++ [p]) := by
  refine ⟨?_, ?_⟩
  · intro hfree j u hj hu
    rcases append_cases hj with hj | rfl
    · exact h.free hfree j u hj hu
    · exact hnew hu
  · intro j k u v hj hk hu hv
    rcases append_cases hj with hj | rfl
    · rcases append_cases hk with hk | rfl
      · exact h.one _ _ _ _ hj hk hu hv
      · exact absurd hv hnew
    · exact absurd hu hnew

/-- While a process holds the lock no other one does. -/
theorem others (h : Exclusive Holds isFree ps) (hp : ps[i]? = some p) (hholds : Holds p)
    (hj : ps[j]? = some q) (hne : j ≠ i) : ¬Holds q :=
  fun hq => hne (h.one _ _ _ _ hj hp hq hholds)

end Exclusive

end Exclusion
