import Mathlib.Data.List.Induction
import Mathlib.Data.List.Infix
import Mathlib.Data.Option.Basic

/-!
# Executable labelled transition systems

A system is a partial step function `S → L → Option S`: `none` where the label is not enabled.

* `run` — execute a list of labels.
* `Along P` / `EveryStep Ok` — `P` holds in every state a run visits / `Ok` holds of every step
  a run takes (a condition on the state *before* the step and the label).
* `run_invariant`, `along_of_everyStep` — the invariant rules: every run, and every run whose
  steps meet a condition; `run_history` — the same with the labels so far.
* `run_along` — the invariant rule for a run all of whose states meet a condition.
* `along_iff_everyStep_of_kept`, `along_iff_everyStep` — when one step preserves `P` exactly if
  it meets `Ok`, a whole run does.
* `everyStep_of` — one condition on steps from another, under an invariant.
* `run_simulation` — a run of a concrete system maps to a run of an abstract one, where each
  concrete step is matched by any number of abstract steps; `run_forward` — the converse direction
  for a deterministic abstract system.
-/

set_option autoImplicit false

namespace Transition

variable {S L T M : Type*}

/-- A partial step function. -/
abbrev Step (S L : Type*) := S → L → Option S

/-- Execute the labels in order. -/
def run (step : Step S L) : S → List L → Option S
  | s, [] => some s
  | s, l :: ls => (step s l).bind fun s' => run step s' ls

/-- `s` is reached from `s₀` by some run. -/
def Reachable (step : Step S L) (s₀ s : S) : Prop := ∃ ls, run step s₀ ls = some s

/-- `P` holds in every state the run visits, the first one included. -/
def Along (step : Step S L) (P : S → Prop) (s : S) (ls : List L) : Prop :=
  ∀ pre, pre <+: ls → ∀ t, run step s pre = some t → P t

/-- Every step of the run meets `Ok`, a condition on the state before it and its label. -/
def EveryStep (step : Step S L) (Ok : S → L → Prop) (s : S) (ls : List L) : Prop :=
  ∀ pre l, pre ++ [l] <+: ls → ∀ t, run step s pre = some t → Ok t l

variable {step : Step S L} {s t : S} {l : L} {ls : List L}

@[simp] theorem run_nil : run step s [] = some s := rfl

theorem run_cons : run step s (l :: ls) = (step s l).bind fun s' => run step s' ls := rfl

theorem run_cons_some : run step s (l :: ls) = some t ↔
    ∃ s', step s l = some s' ∧ run step s' ls = some t := by
  rw [run_cons, Option.bind_eq_some_iff]

theorem run_append (ls ms : List L) (s : S) :
    run step s (ls ++ ms) = (run step s ls).bind fun s' => run step s' ms := by
  induction ls generalizing s with
  | nil => rfl
  | cons l ls ih =>
    rw [List.cons_append, run_cons, run_cons]
    cases step s l with
    | none => rfl
    | some s' => exact ih s'

theorem Reachable.refl (step : Step S L) (s : S) : Reachable step s s := ⟨[], rfl⟩

theorem Reachable.tail {s₀ s s' : S} (h : Reachable step s₀ s) (hs : step s l = some s') :
    Reachable step s₀ s' := by
  obtain ⟨ls, hls⟩ := h
  exact ⟨ls ++ [l], by rw [run_append, hls]; simp [run, hs]⟩

theorem Reachable.head {s₀ s s' : S} (hs : step s₀ l = some s) (h : Reachable step s s') :
    Reachable step s₀ s' := by
  obtain ⟨ls, hls⟩ := h
  exact ⟨l :: ls, run_cons_some.mpr ⟨s, hs, hls⟩⟩

theorem Reachable.trans {s₀ s s' : S} (h : Reachable step s₀ s) (h' : Reachable step s s') :
    Reachable step s₀ s' := by
  obtain ⟨ls, hls⟩ := h
  obtain ⟨ms, hms⟩ := h'
  exact ⟨ls ++ ms, by rw [run_append, hls]; exact hms⟩

/-- **Invariant rule**: what holds at the start and is kept by every step holds at the end of
    every run. -/
theorem run_invariant {I : S → Prop} (hstep : ∀ s l s', I s → step s l = some s' → I s') :
    ∀ {ls : List L} {s t : S}, I s → run step s ls = some t → I t
  | [], s, t, h, hrun => by cases hrun; exact h
  | l :: ls, s, t, h, hrun => by
    obtain ⟨s', hs, hls⟩ := run_cons_some.mp hrun
    exact run_invariant hstep (hstep s l s' h hs) hls

/-- **History rule**: an invariant of the state and the labels that led there. -/
theorem run_history {I : List L → S → Prop} {s₀ : S} (h₀ : I [] s₀)
    (hstep : ∀ ls s l s', I ls s → step s l = some s' → I (ls ++ [l]) s')
    (hrun : run step s₀ ls = some s) : I ls s := by
  induction ls using List.reverseRecOn generalizing s with
  | nil => cases hrun; exact h₀
  | append_singleton ls l ih =>
    rw [run_append, Option.bind_eq_some_iff] at hrun
    obtain ⟨t, ht, hl⟩ := hrun
    obtain ⟨s', hs, hs'⟩ := run_cons_some.mp hl
    cases hs'
    exact hstep ls t l s (ih ht) hs

theorem Reachable.invariant {I : S → Prop} {s₀ s : S} (h : Reachable step s₀ s) (h₀ : I s₀)
    (hstep : ∀ s l s', I s → step s l = some s' → I s') : I s := by
  obtain ⟨ls, hls⟩ := h
  exact run_invariant hstep h₀ hls

theorem along_cons {P : S → Prop} : Along step P s (l :: ls) ↔
    P s ∧ ∀ s', step s l = some s' → Along step P s' ls := by
  constructor
  · intro h
    refine ⟨h [] List.nil_prefix s rfl, ?_⟩
    intro s' hs pre hpre t ht
    exact h (l :: pre) (List.cons_prefix_cons.mpr ⟨rfl, hpre⟩) t (run_cons_some.mpr ⟨s', hs, ht⟩)
  · rintro ⟨h0, h⟩ pre hpre t ht
    cases pre with
    | nil => cases ht; exact h0
    | cons k pre =>
      obtain ⟨rfl, hpre'⟩ := List.cons_prefix_cons.mp hpre
      obtain ⟨s', hs, ht⟩ := run_cons_some.mp ht
      exact h s' hs pre hpre' t ht

theorem along_nil {P : S → Prop} : Along step P s ([] : List L) ↔ P s := by
  constructor
  · intro h; exact h [] List.nil_prefix s rfl
  · intro h pre hpre t ht
    obtain rfl := List.prefix_nil.mp hpre
    cases ht; exact h

theorem everyStep_cons {Ok : S → L → Prop} : EveryStep step Ok s (l :: ls) ↔
    Ok s l ∧ ∀ s', step s l = some s' → EveryStep step Ok s' ls := by
  constructor
  · intro h
    refine ⟨h [] l ⟨ls, rfl⟩ s rfl, ?_⟩
    intro s' hs pre k hpre t ht
    exact h (l :: pre) k (List.cons_prefix_cons.mpr ⟨rfl, hpre⟩) t (run_cons_some.mpr ⟨s', hs, ht⟩)
  · rintro ⟨h0, h⟩ pre k hpre t ht
    cases pre with
    | nil =>
      cases ht
      obtain ⟨rfl, -⟩ := List.cons_prefix_cons.mp hpre
      exact h0
    | cons j pre =>
      obtain ⟨rfl, hpre'⟩ := List.cons_prefix_cons.mp hpre
      obtain ⟨s', hs, ht⟩ := run_cons_some.mp ht
      exact h s' hs pre k hpre' t ht

theorem everyStep_nil {Ok : S → L → Prop} : EveryStep step Ok s ([] : List L) :=
  fun pre _ h => absurd h (by simp)

/-- A decidable step condition can be checked along a given run. -/
instance decidableEveryStep {Ok : S → L → Prop} [∀ s l, Decidable (Ok s l)] :
    ∀ (s : S) (ls : List L), Decidable (EveryStep step Ok s ls)
  | _, [] => .isTrue everyStep_nil
  | s, l :: ls =>
    have : ∀ s', Decidable (EveryStep step Ok s' ls) := fun s' => decidableEveryStep s' ls
    decidable_of_iff (Ok s l ∧ ∀ s' ∈ step s l, EveryStep step Ok s' ls) everyStep_cons.symm

/-- **Conditional invariant rule**: an invariant kept by every step that meets `Ok` holds all
    along a run whose steps all meet `Ok`. -/
theorem along_of_everyStep {I : S → Prop} {Ok : S → L → Prop}
    (hstep : ∀ s l s', I s → Ok s l → step s l = some s' → I s') :
    ∀ {ls : List L} {s : S}, I s → EveryStep step Ok s ls → Along step I s ls
  | [], _, h, _ => along_nil.mpr h
  | l :: ls, s, h, hok => by
    obtain ⟨hl, hls⟩ := everyStep_cons.mp hok
    exact along_cons.mpr ⟨h, fun s' hs =>
      along_of_everyStep hstep (hstep s l s' h hl hs) (hls s' hs)⟩

/-- **Rule for a run that keeps to `P`**: what every step that ends in `P` keeps. -/
theorem run_along {I P : S → Prop} (hstep : ∀ s l s', I s → P s' → step s l = some s' → I s') :
    ∀ {ls : List L} {s t : S}, I s → Along step P s ls → run step s ls = some t → I t
  | [], s, t, h, _, hrun => by cases hrun; exact h
  | l :: ls, s, t, h, hp, hrun => by
    obtain ⟨s', hs, hls⟩ := run_cons_some.mp hrun
    have hp' : Along step P s' ls := (along_cons.mp hp).2 s' hs
    exact run_along hstep (hstep s l s' h (hp' [] List.nil_prefix s' rfl) hs) hp' hls

/-- **Exactness rule**: let `I` be kept by every step that keeps `P`, and let one step from a
    state with `I` and `P` keep `P` exactly when it meets `Ok`.  Then `P` holds all along a run
    exactly when every step of the run meets `Ok`. -/
theorem along_iff_everyStep_of_kept {I P : S → Prop} {Ok : S → L → Prop}
    (hI : ∀ s l s', I s → P s → P s' → step s l = some s' → I s')
    (hP : ∀ s l s', I s → P s → step s l = some s' → (P s' ↔ Ok s l)) :
    ∀ {ls : List L} {s t : S}, I s → P s → run step s ls = some t →
      (Along step P s ls ↔ EveryStep step Ok s ls)
  | [], _, _, _, h, _ => ⟨fun _ => everyStep_nil, fun _ => along_nil.mpr h⟩
  | l :: ls, s, t, hi, hp, hrun => by
    obtain ⟨s', hs, hls⟩ := run_cons_some.mp hrun
    have hiff := hP s l s' hi hp hs
    have ih : P s' → (Along step P s' ls ↔ EveryStep step Ok s' ls) := fun hp' =>
      along_iff_everyStep_of_kept hI hP (hI s l s' hi hp hp' hs) hp' hls
    have hone : ∀ Q : S → Prop, (∀ u, step s l = some u → Q u) ↔ Q s' := fun Q =>
      ⟨fun h => h s' hs, fun h u hu => by cases hs.symm.trans hu; exact h⟩
    rw [along_cons, everyStep_cons, hone (fun u => Along step P u ls),
      hone (fun u => EveryStep step Ok u ls), ← hiff]
    constructor
    · rintro ⟨-, h⟩
      have hp' : P s' := h [] List.nil_prefix s' rfl
      exact ⟨hp', (ih hp').mp h⟩
    · rintro ⟨hp', h⟩
      exact ⟨hp, (ih hp').mpr h⟩

/-- **Step rule**: what holds of every step that meets `Ok` from a state with the invariant, holds
    of every step of a run whose steps all meet `Ok`. -/
theorem everyStep_of {I : S → Prop} {Q Ok : S → L → Prop}
    (hI : ∀ s l s', I s → Ok s l → step s l = some s' → I s')
    (hQ : ∀ s l, I s → Ok s l → Q s l) :
    ∀ {ls : List L} {s : S}, I s → EveryStep step Ok s ls → EveryStep step Q s ls
  | [], _, _, _ => everyStep_nil
  | l :: ls, s, hi, hok => by
    obtain ⟨hl, hls⟩ := everyStep_cons.mp hok
    exact everyStep_cons.mpr ⟨hQ s l hi hl, fun s' hs =>
      everyStep_of hI hQ (hI s l s' hi hl hs) (hls s' hs)⟩

/-- The exactness rule for an invariant `I` that every step keeps. -/
theorem along_iff_everyStep {I P : S → Prop} {Ok : S → L → Prop}
    (hI : ∀ s l s', I s → step s l = some s' → I s')
    (hP : ∀ s l s', I s → P s → step s l = some s' → (P s' ↔ Ok s l))
    {ls : List L} {s t : S} (hi : I s) (hp : P s) (hrun : run step s ls = some t) :
    Along step P s ls ↔ EveryStep step Ok s ls :=
  along_iff_everyStep_of_kept (fun s l s' hi _ _ => hI s l s' hi) hP hi hp hrun

/-- **Simulation rule**: if every step of the concrete system is matched, through `abs`, by a run of
    the abstract one, then so is every run. -/
theorem run_simulation {stepT : Step T M} (abs : S → T) {I : S → Prop}
    (hI : ∀ s l s', I s → step s l = some s' → I s')
    (hsim : ∀ s l s', I s → step s l = some s' → Reachable stepT (abs s) (abs s')) :
    ∀ {ls : List L} {s t : S}, I s → run step s ls = some t →
      Reachable stepT (abs s) (abs t)
  | [], s, _, _, hrun => by cases hrun; exact Reachable.refl stepT (abs s)
  | l :: ls, s, t, hi, hrun => by
    obtain ⟨s', hs, hls⟩ := run_cons_some.mp hrun
    exact (hsim s l s' hi hs).trans (run_simulation abs hI hsim (hI s l s' hi hs) hls)

/-- **Forward rule**: if from related states every step that meets `Ok` is enabled and leads to
    related states, where the abstract system is a function, then every run whose labels meet `Ok`
    is enabled and leads to related states. -/
theorem run_forward {R : S → T → Prop} {f : T → L → T} {Ok : L → Prop}
    (hstep : ∀ s t l, R s t → Ok l → ∃ s', step s l = some s' ∧ R s' (f t l)) :
    ∀ {ls : List L} {s : S} {t : T}, R s t → (∀ l ∈ ls, Ok l) →
      ∃ s', run step s ls = some s' ∧ R s' (ls.foldl f t)
  | [], s, _, h, _ => ⟨s, rfl, h⟩
  | l :: ls, s, t, h, hok => by
    obtain ⟨s', hs, h'⟩ := hstep s t l h (hok l List.mem_cons_self)
    obtain ⟨u, hu, h''⟩ := run_forward hstep h' fun k hk => hok k (List.mem_cons_of_mem l hk)
    exact ⟨u, run_cons_some.mpr ⟨s', hs, hu⟩, h''⟩

end Transition
