import HryOS.Drivers.Keyboard

/-!
# A pop under interrupts

`circular_buffer::pop` as its four accesses, with any number of `push_back` calls of an interrupt
handler between two of them: the handler runs to its end, the consumer waits.

* `popStep` — one consumer and the handler, on a buffer of any type and size; `run_pop` — its
  accesses in one go are `CircularBuffer.pop`.
* `Pending` — the queue a half-finished `pop` stands before.
* `pops_are_pushes` — the values popped are the values accepted, and a push is refused exactly
  where `Size - 1` of them are not popped.
* `Keyboard.buffer_reachable` — the buffer of the keyboard driver runs like that.
-/

set_option autoImplicit false

namespace HryOS

open Transition

namespace CircularBuffer

/-! ## The system -/

/-- Where the consumer stands in `pop`. -/
inductive PopLoc (T : Type)
  /-- before the test -/
  | outside
  /-- at the three statements behind it -/
  | front
  | resetFront (value : T)
  | advance (value : T)
  deriving DecidableEq, Repr

/-- The ring, the consumer's position, the values `push_back` stored and those `pop` returned. -/
structure PopState (T : Type) (Size : ℕ) where
  ring : CircularBuffer T Size
  loc : PopLoc T
  accepted : List T
  popped : List T

/-- The steps. -/
inductive PopLabel (T : Type)
  /-- the handler's `push_back` -/
  | pushBack (value : T)
  /-- the accesses of `pop`, in program order -/
  | test | front | resetFront | advance
  deriving DecidableEq, Repr

variable {T : Type} {Size : ℕ} (zero : T)

/-- One step; `zero` is `value_type()`. -/
def popStep : Step (PopState T Size) (PopLabel T)
  | s, .pushBack value =>
    some { s with
      ring := s.ring.pushBack value
      accepted := if s.ring.full then s.accepted else s.accepted ++ [value] }
  | s, .test =>
    match s.loc with
    | .outside => some { s with loc := if s.ring.empty then .outside else .front }
    | _ => none
  | s, .front =>
    match s.loc with
    | .front => some { s with loc := .resetFront s.ring.front }
    | _ => none
  | s, .resetFront =>
    match s.loc with
    | .resetFront value => some { s with ring := s.ring.resetFront zero, loc := .advance value }
    | _ => none
  | s, .advance =>
    match s.loc with
    | .advance value =>
      some { s with ring := s.ring.advance, loc := .outside, popped := s.popped ++ [value] }
    | _ => none

/-- An empty ring. -/
def popInit : PopState T Size where
  ring := ⟨0, 0, fun _ => zero⟩
  loc := .outside
  accepted := []
  popped := []

/-- The accesses with no push between them are the whole `pop`. -/
theorem run_pop (s : PopState T Size) (hloc : s.loc = .outside) :
    run (popStep zero) s (if s.ring.empty then [.test] else [.test, .front, .resetFront, .advance]) =
      some { s with
        ring := (s.ring.pop zero).2
        popped := s.popped ++ (s.ring.pop zero).1.toList } := by
  obtain ⟨ring, loc, accepted, popped⟩ := s
  subst hloc
  unfold CircularBuffer.pop
  cases hempty : ring.empty with
  | true => simp [run, popStep, hempty]
  | false => simp [run, popStep, hempty]

/-! ## The queue of a half-finished `pop` -/

/-- The cells that `pop` may have reset. -/
def PopLoc.skip : PopLoc T → ℕ
  | .advance _ => 1
  | _ => 0

/-- What `pop` knows of the queue. -/
def PopLoc.Knows : PopLoc T → List T → Prop
  | .outside, _ => True
  | .front, q => q ≠ []
  | .resetFront value, q | .advance value, q => q.head? = some value

/-- The values accepted and not popped stand in the ring, in order. -/
def Pending (s : PopState T Size) : Prop :=
  ∃ q, s.accepted = s.popped ++ q ∧ s.ring.Holds s.loc.skip q ∧ s.loc.Knows q

variable {zero}

theorem PopLoc.Knows.concat {loc : PopLoc T} {q : List T} (h : loc.Knows q) (value : T) :
    loc.Knows (q ++ [value]) := by
  cases loc with
  | outside => trivial
  | front => simp [PopLoc.Knows]
  | resetFront v | advance v =>
    obtain ⟨r, rfl⟩ := List.head?_eq_some_iff.mp h
    rfl

theorem Pending.init (hSize : 0 < Size) : Pending (popInit zero : PopState T Size) :=
  ⟨[], rfl, Holds.nil hSize _, trivial⟩

/-- A push between any two accesses. -/
theorem Pending.pushBack {s : PopState T Size} (h : Pending s) (value : T) :
    Pending { s with
      ring := s.ring.pushBack value
      accepted := if s.ring.full then s.accepted else s.accepted ++ [value] } := by
  obtain ⟨q, hacc, hq, hknows⟩ := h
  cases hfull : s.ring.full with
  | true => exact ⟨q, hacc, by simpa [CircularBuffer.pushBack, hfull] using hq, hknows⟩
  | false => exact ⟨q ++ [value], by simp [hacc], hq.pushBack hfull value, hknows.concat value⟩

/-- **One access or one push** keeps the queue. -/
theorem Pending.step {s s' : PopState T Size} {l : PopLabel T} (h : Pending s)
    (hs : popStep zero s l = some s') : Pending s' := by
  cases l with
  | pushBack value =>
    cases hs
    exact h.pushBack value
  | test =>
    obtain ⟨q, hacc, hq, -⟩ := h
    simp only [popStep] at hs
    split at hs <;> cases hs
    rename_i hloc
    rw [hloc] at hq
    refine ⟨q, hacc, ?_, ?_⟩
    · simp only
      split <;> exact hq
    · simp only
      split
      · trivial
      · rename_i hempty
        exact fun hnil => hempty (hq.empty_iff.mpr hnil)
  | front =>
    obtain ⟨q, hacc, hq, hknows⟩ := h
    simp only [popStep] at hs
    split at hs <;> cases hs
    rename_i hloc
    rw [hloc] at hq hknows
    obtain ⟨value, r, rfl⟩ := List.exists_cons_of_ne_nil hknows
    exact ⟨value :: r, hacc, hq, by rw [hq.front]; rfl⟩
  | resetFront =>
    obtain ⟨q, hacc, hq, hknows⟩ := h
    simp only [popStep] at hs
    split at hs <;> cases hs
    rename_i value hloc
    rw [hloc] at hq hknows
    exact ⟨q, hacc, hq.resetFront zero, hknows⟩
  | advance =>
    obtain ⟨q, hacc, hq, hknows⟩ := h
    simp only [popStep] at hs
    split at hs <;> cases hs
    rename_i value hloc
    rw [hloc] at hq hknows
    obtain ⟨r, rfl⟩ := List.head?_eq_some_iff.mp hknows
    exact ⟨r, by simp [hacc], hq.advance, trivial⟩

/-- **The buffer is safe against interrupts during pop**: in every interleaving the values popped
    are the values accepted, in order, none of them missing where the buffer tests empty, and a
    push is refused exactly where `Size - 1` accepted values are not popped to the end. -/
theorem pops_are_pushes (zero : T) (hSize : 0 < Size) {ls : List (PopLabel T)}
    {s : PopState T Size} (hrun : run (popStep zero) (popInit zero) ls = some s) :
    s.popped <+: s.accepted ∧
      (s.loc = .outside → (s.ring.empty = true ↔ s.popped = s.accepted)) ∧
      (s.ring.full = true ↔ s.accepted.length = s.popped.length + (Size - 1)) := by
  obtain ⟨q, hacc, hq, -⟩ := run_invariant (I := Pending) (fun s l s' h hs => h.step hs)
    (Pending.init hSize) hrun
  refine ⟨⟨q, hacc.symm⟩, fun _ => ?_, ?_⟩
  · rw [hq.empty_iff, hacc]
    simp
  · rw [hq.full_iff, hacc, List.length_append]
    omega

/-- Two pushes around a half-finished `pop` of three cells: the third push is refused. -/
theorem pops_are_pushes_example :
    ∃ s : PopState ℕ 3, run (popStep 0) (popInit 0)
        [.pushBack 7, .test, .pushBack 8, .front, .resetFront, .pushBack 9, .advance] = some s ∧
      s.popped <+: s.accepted ∧
      (s.loc = .outside → (s.ring.empty = true ↔ s.popped = s.accepted)) ∧
      (s.ring.full = true ↔ s.accepted.length = s.popped.length + (3 - 1)) := by
  obtain ⟨s, hs⟩ : ∃ s : PopState ℕ 3, run (popStep 0) (popInit 0)
      [.pushBack 7, .test, .pushBack 8, .front, .resetFront, .pushBack 9, .advance] = some s :=
    ⟨_, rfl⟩
  exact ⟨s, hs, pops_are_pushes 0 (by omega) hs⟩

end CircularBuffer

namespace Keyboard

open CircularBuffer Scheduler

/-! ## The keyboard's buffer -/

/-- The position in `pop` of the consumer. -/
def PullLoc.popLoc : PullLoc → PopLoc KeyEvent
  | .front => .front
  | .resetFront value => .resetFront value
  | .advance value => .advance value
  | _ => .outside

/-- The buffer of the driver is the ring of a run of accesses and pushes, which popped what
    `pull_key` returned from a buffer that was not empty. -/
def BufferRuns (d : Driver) : Prop :=
  ∃ p : PopState KeyEvent 100, Reachable (popStep KeyEvent.default) (popInit KeyEvent.default) p ∧
    p.ring = d.buffer ∧ p.loc = d.loc.popLoc ∧ List.Sublist p.popped d.pulled

variable {consumer x i : Ptr} {terminal : Task} {d d' : Driver} {l : Label}

/-- Where the consumer stands before the steps of `pull_key` outside of the accesses. -/
theorem step_loc (hs : step consumer d l = some d') :
    (l = .isBufferEmpty → d.loc = .outside) ∧ (l = .reschedule → d.loc = .reschedule) ∧
      (l = .popEmpty → d.loc = .pop) := by
  refine ⟨?_, ?_, ?_⟩
  all_goals
    rintro rfl
    simp only [step, Option.ite_none_right_eq_some] at hs
    exact hs.1.2

theorem BufferRuns.init : BufferRuns (Keyboard.init x i terminal) :=
  ⟨_, Reachable.refl _ _, rfl, rfl, List.Sublist.refl _⟩

/-- A step of the driver is an access, a push, or no step of the buffer. -/
theorem BufferRuns.step (h : BufferRuns d) (hs : Keyboard.step consumer d l = some d') :
    BufferRuns d' := by
  obtain ⟨p, hp, hring, hloc, hpopped⟩ := h
  obtain ⟨houtside, hresched, hpop⟩ := step_loc hs
  rcases step_cases hs with ⟨a, sys, rfl, -, -, rfl⟩ | ⟨code, sys, rfl, -, rfl⟩ | ⟨rfl, rfl⟩ |
    ⟨sys, rfl, hat, -, rfl⟩ | ⟨sys, rfl, -, rfl⟩ | ⟨rfl, -, rfl⟩ | ⟨rfl, hempty, rfl⟩ |
    ⟨rfl, hfront, rfl⟩ | ⟨value, rfl, hvalue, rfl⟩ | ⟨value, rfl, hvalue, rfl⟩
  · exact ⟨p, hp, hring, hloc, hpopped⟩
  · have hs : popStep KeyEvent.default p (.pushBack (keyEvent code)) = some { p with
        ring := p.ring.pushBack (keyEvent code)
        accepted := if p.ring.full then p.accepted else p.accepted ++ [keyEvent code] } := rfl
    exact ⟨_, hp.tail hs, by rw [← hring], hloc, hpopped⟩
  · rw [houtside rfl] at hloc
    refine ⟨p, hp, hring, hloc.trans ?_, hpopped⟩
    simp only
    split <;> rfl
  · rw [hat.2] at hloc
    exact ⟨p, hp, hring, hloc, hpopped⟩
  · rw [hresched rfl] at hloc
    exact ⟨p, hp, hring, hloc, hpopped⟩
  · rw [hpop rfl] at hloc
    exact ⟨p, hp, hring, hloc, hpopped.trans (List.sublist_append_left _ _)⟩
  · rw [hpop rfl] at hloc
    have hs : popStep KeyEvent.default p .test = some { p with loc := .front } := by
      simp [popStep, hloc, PullLoc.popLoc, hring, hempty]
    exact ⟨_, hp.tail hs, hring, rfl, hpopped⟩
  · rw [hfront] at hloc
    have hs : popStep KeyEvent.default p .front =
        some { p with loc := .resetFront d.buffer.front } := by
      simp [popStep, hloc, PullLoc.popLoc, hring]
    exact ⟨_, hp.tail hs, hring, rfl, hpopped⟩
  · rw [hvalue] at hloc
    have hs : popStep KeyEvent.default p .resetFront =
        some { p with ring := p.ring.resetFront KeyEvent.default, loc := .advance value } := by
      simp [popStep, hloc, PullLoc.popLoc]
    exact ⟨_, hp.tail hs, by rw [← hring], rfl, hpopped⟩
  · rw [hvalue] at hloc
    have hs : popStep KeyEvent.default p .advance = some { p with
        ring := p.ring.advance, loc := .outside, popped := p.popped ++ [value] } := by
      simp [popStep, hloc, PullLoc.popLoc]
    exact ⟨_, hp.tail hs, by rw [← hring], rfl, hpopped.append (List.Sublist.refl _)⟩

/-- **Refinement**: the buffer of the keyboard driver only ever makes accesses and pushes. -/
theorem buffer_reachable {ls : List Label}
    (hrun : run (Keyboard.step consumer) (Keyboard.init x i terminal) ls = some d) :
    BufferRuns d :=
  run_invariant (I := BufferRuns) (fun _ _ _ h hs => h.step hs) BufferRuns.init hrun

end Keyboard

end HryOS
