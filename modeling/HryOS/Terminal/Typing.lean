import HryOS.Drivers.KeyBuffer
import HryOS.Terminal.CommandLine

/-!
# From the scan codes to the commands

The process `terminal` of `command_line.cpp`, whose loop is `send_input(keyboard::pull_key())`, on
the keyboard driver: scan codes come in by interrupts at any time, between the accesses of `pop`
too, and other processes run whenever the scheduler says so.

* `step` — the driver's steps and the calls of `send_input`.
* `lineOf`, `commandsOf` — the line that scan codes leave, and the callbacks they ask for.
* `shell_runs_typed_commands` — in every run, the line and the commands invoked are those of the
  codes that have come through, which are the first of the codes the buffer took.
-/

set_option autoImplicit false

namespace HryOS.Typing

open Transition Keyboard CircularBuffer CommandLine HryOS.Scheduler

variable {K : Type}

/-- The driver with the command line behind it. -/
structure Session (K : Type) where
  driver : Driver
  statics : Statics K
  /-- how many of the events `pull_key` returned went through `send_input` -/
  handled : ℕ
  /-- the scan codes the buffer took -/
  accepted : List UInt8
  /-- the callbacks invoked so far -/
  invoked : List K

/-- The steps. -/
inductive Label
  | driver (l : Keyboard.Label)
  /-- `send_input`, on the event of the last `pull_key` -/
  | sendInput
  deriving DecidableEq, Repr

/-- The codes the buffer has taken after a step of the driver. -/
def accept (s : Session K) : Keyboard.Label → List UInt8
  | .keyboardIrq code => if s.driver.buffer.full then s.accepted else s.accepted ++ [code]
  | _ => s.accepted

/-- One step; the loop of `terminal_process` calls `pull_key` when `send_input` has returned. -/
def step (consumer : Ptr) (s : Session K) : Label → Option (Session K)
  | .driver l =>
    if l = .isBufferEmpty ∧ s.handled ≠ s.driver.pulled.length then none
    else
      (Keyboard.step consumer s.driver l).map fun driver =>
        { s with driver, accepted := accept s l }
  | .sendInput =>
    if s.driver.sys.acting .user = some consumer then do
      let event ← s.driver.pulled[s.handled]?
      let (statics, calls) ← sendInput s.statics event
      return { s with
        statics
        handled := s.handled + 1
        invoked := s.invoked ++ CommandLine.invoked calls }
    else none

/-- Nothing has been typed; the commands `regs` are registered. -/
def init (x i : Ptr) (terminal : Task) (regs : List (Registration K)) : Session K where
  driver := Keyboard.init x i terminal
  statics := regs.foldl registerCommand CommandLine.init
  handled := 0
  accepted := []
  invoked := []

/-! ## What the codes say -/

/-- The line the events leave. -/
def lineAfter (events : List KeyEvent) : List UInt8 := events.foldl editLine []

/-- The callbacks the events ask for, from the line `line` on. -/
def commandsFrom (regs : List (Registration K)) : List UInt8 → List KeyEvent → List K
  | _, [] => []
  | line, event :: events =>
    toInvoke regs line event ++ commandsFrom regs (editLine line event) events

/-- The line that scan codes leave. -/
def lineOf (codes : List UInt8) : List UInt8 := lineAfter (codes.map keyEvent)

/-- The callbacks that scan codes ask for. -/
def commandsOf (regs : List (Registration K)) (codes : List UInt8) : List K :=
  commandsFrom regs [] (codes.map keyEvent)

/-- What `pull_key` returns from an empty buffer is no key. -/
def real (event : KeyEvent) : Bool := event ≠ KeyEvent.default

variable {regs : List (Registration K)} {line : List UInt8} {event : KeyEvent}
  {events : List KeyEvent}

theorem editLine_default : editLine line KeyEvent.default = line := by
  simp [editLine, KeyEvent.default, backspace]

theorem toInvoke_default : toInvoke regs line KeyEvent.default = [] := by
  simp [toInvoke, KeyEvent.default]

/-- Events that are no keys do not edit the line. -/
theorem lineAfter_real (events : List KeyEvent) : ∀ line,
    (events.filter real).foldl editLine line = events.foldl editLine line := by
  induction events with
  | nil => exact fun _ => rfl
  | cons event events ih =>
    intro line
    by_cases h : event = KeyEvent.default
    · subst h
      rw [List.filter_cons_of_neg (by simp [real]), List.foldl_cons, editLine_default, ih]
    · rw [List.filter_cons_of_pos (by simp [real, h]), List.foldl_cons, List.foldl_cons, ih]

/-- Nor do they invoke anything. -/
theorem commandsFrom_real (events : List KeyEvent) : ∀ line,
    commandsFrom regs line (events.filter real) = commandsFrom regs line events := by
  induction events with
  | nil => exact fun _ => rfl
  | cons event events ih =>
    intro line
    by_cases h : event = KeyEvent.default
    · subst h
      rw [List.filter_cons_of_neg (by simp [real]), commandsFrom, toInvoke_default,
        editLine_default, List.nil_append, ih]
    · rw [List.filter_cons_of_pos (by simp [real, h]), commandsFrom, commandsFrom, ih]

theorem commandsFrom_concat : ∀ (events : List KeyEvent) (line : List UInt8),
    commandsFrom regs line (events ++ [event]) =
      commandsFrom regs line events ++ toInvoke regs (events.foldl editLine line) event
  | [], line => by simp [commandsFrom]
  | e :: events, line => by
    rw [List.cons_append, commandsFrom, commandsFrom, commandsFrom_concat events,
      List.append_assoc]
    rfl

/-! ## The invariant -/

/-- The ring is the one of a half-finished `pop`; what it accepted are the events of the codes, and
    what was popped is, but for events that are no keys, what `pull_key` returned. -/
def Flows (s : Session K) (p : PopState KeyEvent 100) : Prop :=
  Pending p ∧ p.ring = s.driver.buffer ∧ p.loc = s.driver.loc.popLoc ∧
    p.accepted = s.accepted.map keyEvent ∧
    p.popped.filter real = s.driver.pulled.filter real

/-- What holds of every state of a run. -/
structure Inv (regs : List (Registration K)) (s : Session K) : Prop where
  flows : ∃ p, Flows s p
  handled : s.handled ≤ s.driver.pulled.length
  line : LineHeld (regs.take 31) s.statics (lineAfter (s.driver.pulled.take s.handled))
  invoked : s.invoked = commandsFrom (regs.take 31) [] (s.driver.pulled.take s.handled)

variable {s s' : Session K} {d : Driver} {l : Keyboard.Label} {consumer x i : Ptr}
  {terminal : Task}

/-- A step of the driver pulls one event at most. -/
theorem pulled_cases (hs : Keyboard.step consumer s.driver l = some d) :
    d.pulled = s.driver.pulled ∨ ∃ event, d.pulled = s.driver.pulled ++ [event] := by
  rcases Keyboard.step_cases hs with ⟨a, sys, rfl, -, -, rfl⟩ | ⟨code, sys, rfl, -, rfl⟩ |
    ⟨rfl, rfl⟩ | ⟨sys, rfl, -, -, rfl⟩ | ⟨sys, rfl, -, rfl⟩ | ⟨rfl, -, rfl⟩ | ⟨rfl, -, rfl⟩ |
    ⟨rfl, -, rfl⟩ | ⟨value, rfl, -, rfl⟩ | ⟨value, rfl, -, rfl⟩
  · exact Or.inl rfl
  · exact Or.inl rfl
  · exact Or.inl rfl
  · exact Or.inl rfl
  · exact Or.inl rfl
  · exact Or.inr ⟨_, rfl⟩
  · exact Or.inl rfl
  · exact Or.inl rfl
  · exact Or.inl rfl
  · exact Or.inr ⟨_, rfl⟩

/-- **A step of the driver** is an access, a push, or leaves the ring. -/
theorem Flows.step {p : PopState KeyEvent 100} (h : Flows s p)
    (hs : Keyboard.step consumer s.driver l = some d) :
    ∃ p', Flows { s with driver := d, accepted := accept s l } p' := by
  obtain ⟨hp, hring, hloc, haccepted, hpopped⟩ := h
  obtain ⟨houtside, hresched, hpop⟩ := step_loc hs
  rcases Keyboard.step_cases hs with ⟨a, sys, rfl, -, -, rfl⟩ | ⟨code, sys, rfl, -, rfl⟩ |
    ⟨rfl, rfl⟩ | ⟨sys, rfl, hat, -, rfl⟩ | ⟨sys, rfl, -, rfl⟩ | ⟨rfl, -, rfl⟩ |
    ⟨rfl, hempty, rfl⟩ | ⟨rfl, hfront, rfl⟩ | ⟨value, rfl, hvalue, rfl⟩ | ⟨value, rfl, hvalue, rfl⟩
  · exact ⟨p, hp, hring, hloc, haccepted, hpopped⟩
  · refine ⟨_, hp.pushBack (keyEvent code), by rw [← hring], hloc, ?_, hpopped⟩
    simp only [accept, ← hring, haccepted]
    split
    · rfl
    · rw [List.map_append]
      rfl
  · rw [houtside rfl] at hloc
    refine ⟨p, hp, hring, hloc.trans ?_, haccepted, hpopped⟩
    simp only
    split <;> rfl
  · rw [hat.2] at hloc
    exact ⟨p, hp, hring, hloc, haccepted, hpopped⟩
  · rw [hresched rfl] at hloc
    exact ⟨p, hp, hring, hloc, haccepted, hpopped⟩
  · rw [hpop rfl] at hloc
    refine ⟨p, hp, hring, hloc, haccepted, ?_⟩
    rw [hpopped, List.filter_append]
    simp [real]
  · rw [hpop rfl] at hloc
    have htest : popStep KeyEvent.default p .test = some { p with loc := .front } := by
      simp [popStep, hloc, PullLoc.popLoc, hring, hempty]
    exact ⟨_, hp.step htest, hring, rfl, haccepted, hpopped⟩
  · rw [hfront] at hloc
    have hread : popStep KeyEvent.default p .front =
        some { p with loc := .resetFront s.driver.buffer.front } := by
      simp [popStep, hloc, PullLoc.popLoc, hring]
    exact ⟨_, hp.step hread, hring, rfl, haccepted, hpopped⟩
  · rw [hvalue] at hloc
    have hreset : popStep KeyEvent.default p .resetFront =
        some { p with ring := p.ring.resetFront KeyEvent.default, loc := .advance value } := by
      simp [popStep, hloc, PullLoc.popLoc]
    exact ⟨_, hp.step hreset, by rw [← hring], rfl, haccepted, hpopped⟩
  · rw [hvalue] at hloc
    have hadvance : popStep KeyEvent.default p .advance = some { p with
        ring := p.ring.advance, loc := .outside, popped := p.popped ++ [value] } := by
      simp [popStep, hloc, PullLoc.popLoc]
    refine ⟨_, hp.step hadvance, by rw [← hring], rfl, haccepted, ?_⟩
    show (p.popped ++ [value]).filter real = (s.driver.pulled ++ [value]).filter real
    rw [List.filter_append, List.filter_append, hpopped]

/-- A step of the driver leaves what was handled. -/
theorem Inv.driver (h : Inv regs s) (hs : Keyboard.step consumer s.driver l = some d) :
    Inv regs { s with driver := d, accepted := accept s l } := by
  obtain ⟨p, hp⟩ := h.flows
  have htake : d.pulled.take s.handled = s.driver.pulled.take s.handled ∧
      s.handled ≤ d.pulled.length := by
    rcases pulled_cases hs with heq | ⟨event, heq⟩
    · rw [heq]
      exact ⟨rfl, h.handled⟩
    · rw [heq, List.take_append_of_le_length h.handled, List.length_append]
      exact ⟨rfl, Nat.le_add_right_of_le h.handled⟩
  exact ⟨hp.step hs, htake.2, htake.1.symm ▸ h.line, htake.1.symm ▸ h.invoked⟩

/-- One event goes through `send_input`. -/
theorem Inv.sendInput (h : Inv regs s) (hs : step consumer s .sendInput = some s') :
    Inv regs s' := by
  simp only [step, Option.ite_none_right_eq_some, Option.bind_eq_bind,
    Option.bind_eq_some_iff] at hs
  obtain ⟨-, event, hevent, ⟨statics, calls⟩, hsend, hs⟩ := hs
  cases hs
  obtain ⟨hlt, hget⟩ := List.getElem?_eq_some_iff.mp hevent
  have htake : s.driver.pulled.take (s.handled + 1) =
      s.driver.pulled.take s.handled ++ [event] := by
    rw [List.take_add_one, hevent]
    rfl
  obtain ⟨statics', calls', hsend', hline, hinvoked⟩ := sendInput_spec h.line event
  obtain ⟨rfl, rfl⟩ := Prod.mk.inj (Option.some.inj (hsend.symm.trans hsend'))
  refine ⟨h.flows, hlt, ?_, ?_⟩
  · show LineHeld _ _ (lineAfter (s.driver.pulled.take (s.handled + 1)))
    unfold lineAfter at hline ⊢
    rw [htake, List.foldl_append]
    exact hline
  · show s.invoked ++ _ = commandsFrom _ _ (s.driver.pulled.take (s.handled + 1))
    rw [htake, commandsFrom_concat, h.invoked, hinvoked]
    rfl

theorem Inv.init : Inv regs (init x i terminal regs) := by
  obtain ⟨hbuffer, hindex⟩ := registerCommand_line regs (CommandLine.init (K := K))
  refine ⟨⟨popInit KeyEvent.default, Pending.init (by omega), rfl, rfl, rfl, rfl⟩, Nat.le_refl _,
    ⟨hbuffer, hindex, ?_, Nat.zero_le 32, List.not_mem_nil⟩, rfl⟩
  show (regs.foldl registerCommand CommandLine.init).commands = _
  rw [registerCommand_commands]
  rfl

/-- The line and the commands are those of any codes that give the same keys. -/
theorem Inv.of_codes (h : Inv regs s) {typed : List UInt8}
    (htyped : (typed.map keyEvent).filter real =
      (s.driver.pulled.take s.handled).filter real) :
    s.statics.inputBuffer = padded (lineOf typed) ∧
      s.statics.inputBufferIndex = (lineOf typed).length ∧
      s.invoked = commandsOf (regs.take 31) typed := by
  have hline : lineOf typed = lineAfter (s.driver.pulled.take s.handled) := by
    unfold lineOf lineAfter
    rw [← lineAfter_real, htyped, lineAfter_real]
  have hcommands : commandsOf (regs.take 31) typed =
      commandsFrom (regs.take 31) [] (s.driver.pulled.take s.handled) := by
    unfold commandsOf
    rw [← commandsFrom_real, htyped, commandsFrom_real]
  rw [hline, hcommands]
  exact ⟨h.line.buffer, h.line.index, h.invoked⟩

/-- The first codes the buffer took, as many as have come through. -/
theorem Inv.exists_codes (h : Inv regs s) : ∃ typed, typed <+: s.accepted ∧
    (typed.map keyEvent).filter real = (s.driver.pulled.take s.handled).filter real := by
  obtain ⟨p, ⟨q, haccepted, -, -⟩, -, -, hcodes, hpopped⟩ := h.flows
  have hprefix : (s.driver.pulled.take s.handled).filter real <+: p.popped.filter real := by
    rw [hpopped]
    exact (List.take_prefix ..).filter real
  obtain ⟨pre, hpre, heq⟩ := List.prefix_filter_iff.mp hprefix
  have hpre' : pre <+: s.accepted.map keyEvent := by
    rw [← hcodes, haccepted]
    exact hpre.trans (List.prefix_append _ _)
  refine ⟨s.accepted.take pre.length, List.take_prefix _ _, ?_⟩
  rw [List.map_take, ← List.prefix_iff_eq_take.mp hpre']
  exact heq.symm

/-- Nothing is under way. -/
theorem Inv.codes_eq (h : Inv regs s)
    (hempty : s.driver.buffer.empty = true) (hhandled : s.handled = s.driver.pulled.length) :
    (s.accepted.map keyEvent).filter real =
      (s.driver.pulled.take s.handled).filter real := by
  obtain ⟨p, ⟨q, haccepted, hq, -⟩, hring, -, hcodes, hpopped⟩ := h.flows
  rw [hring] at hq
  rw [hq.empty_iff.mp hempty, List.append_nil] at haccepted
  rw [← hcodes, haccepted, hpopped, hhandled, List.take_length]

/-- **The shell runs the typed commands**: in every interleaving, what has gone through the command
    line are the first of the codes the buffer took, and all of them once nothing is under way;
    the line is the one they leave, and the callbacks invoked are those they ask for, in order. -/
theorem shell_runs_typed_commands {ls : List Label}
    (hrun : run (step consumer) (init x i terminal regs) ls = some s) :
    ∃ typed, typed <+: s.accepted ∧
      (s.driver.buffer.empty = true → s.handled = s.driver.pulled.length → typed = s.accepted) ∧
      s.statics.inputBuffer = padded (lineOf typed) ∧
      s.statics.inputBufferIndex = (lineOf typed).length ∧
      s.invoked = commandsOf (regs.take 31) typed := by
  have h : Inv regs s := by
    refine run_invariant ?_ Inv.init hrun
    intro s l s' h hs
    cases l with
    | driver l =>
      simp only [step, Option.ite_none_left_eq_some, Option.map_eq_some_iff] at hs
      obtain ⟨-, d, hd, rfl⟩ := hs
      exact h.driver hd
    | sendInput => exact h.sendInput hs
  by_cases hquiet : s.driver.buffer.empty = true ∧ s.handled = s.driver.pulled.length
  · exact ⟨s.accepted, List.prefix_refl _, fun _ _ => rfl,
      h.of_codes (h.codes_eq hquiet.1 hquiet.2)⟩
  · obtain ⟨typed, hprefix, htyped⟩ := h.exists_codes
    exact ⟨typed, hprefix, fun h1 h2 => absurd ⟨h1, h2⟩ hquiet, h.of_codes htyped⟩

/-- A command named `a`. -/
def commandA : Registration ℕ where
  name := [97]
  behind := fun _ => 0
  callback := some 7
  noNul := fun h => absurd (List.mem_singleton.mp h) (by decide)
  short := by decide

/-- The releases of `a` and of Enter, both while the shell waits. -/
def runCommandA : List Label :=
  [.driver (.sched .boot), .driver .isBufferEmpty, .driver .block, .driver .reschedule,
    .driver (.keyboardIrq 0x9E), .driver (.keyboardIrq 0x9C), .driver (.sched .timerIrq),
    .driver .popEmpty, .driver .popFront, .driver .popResetFront, .driver .popAdvance, .sendInput,
    .driver .isBufferEmpty, .driver .popEmpty, .driver .popFront, .driver .popResetFront,
    .driver .popAdvance, .sendInput]

/-- `a` and Enter: its callback is invoked. -/
theorem shell_runs_typed_commands_example :
    ∃ s : Session ℕ,
      run (step 4096) (init 4096 8192 (.function 1) [commandA]) runCommandA = some s ∧
      (s.accepted = [0x9E, 0x9C] ∧ s.invoked = [7]) ∧
      ∃ typed, typed <+: s.accepted ∧
        (s.driver.buffer.empty = true → s.handled = s.driver.pulled.length →
          typed = s.accepted) ∧
        s.statics.inputBuffer = padded (lineOf typed) ∧
        s.statics.inputBufferIndex = (lineOf typed).length ∧
        s.invoked = commandsOf ([commandA].take 31) typed := by
  obtain ⟨s, hs, hends⟩ := (Option.any_eq_true
    (fun s : Session ℕ => decide (s.accepted = [0x9E, 0x9C] ∧ s.invoked = [7]))
    (run (step 4096) (init 4096 8192 (.function 1) [commandA]) runCommandA)).mp
    (by decide +kernel)
  exact ⟨s, hs, of_decide_eq_true hends, shell_runs_typed_commands hs⟩

end HryOS.Typing
