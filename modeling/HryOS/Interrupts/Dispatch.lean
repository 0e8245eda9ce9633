import HryOS.Interrupts.Idt
import HryOS.Lib.Pic8259
import HryOS.Lib.Transition

/-!
# Interrupts from the devices to their callbacks

`interrupts.cpp`: `remap_pic`, `pic_handler` and `register_isr_callback`, with the two controllers
and the processor between them.

* `outByte`, `remapPic` — the ports of the controllers, and their initialization.
* `State`, `step` — a device requests, the processor takes an interrupt, `pic_handler` goes on,
  other code turns interrupts on or off or registers a callback.
* `outstanding`, `registered` — what was requested and not yet taken, and which callback is set,
  read off the steps so far.
* `Inv`, `step_inv` — the invariant; `interrupts_served` — over every run.
-/

set_option autoImplicit false

namespace HryOS.Dispatch

open Idt Pic8259 Transition

/-! ## The ports of the controllers -/

/-- A byte to a port. -/
def outByte (p : Pair) (port data : ℕ) : Pair :=
  if port = 0x20 then { p with master := p.master.writeCommand data }
  else if port = 0x21 then { p with master := p.master.writeData data }
  else if port = 0xA0 then { p with slave := p.slave.writeCommand data }
  else if port = 0xA1 then { p with slave := p.slave.writeData data }
  else p

/-- `remap_pic`: ICW1 to ICW4, for each of the controllers. -/
def remapPic (p : Pair) : Pair :=
  let p := outByte p 0x20 0x11
  let p := outByte p 0xA0 0x11
  let p := outByte p 0x21 PIC1_OFFSET
  let p := outByte p 0xA1 PIC2_OFFSET
  let p := outByte p 0x21 0b00000100
  let p := outByte p 0xA1 2
  let p := outByte p 0x21 1
  outByte p 0xA1 1

/-- Whatever the controllers did before. -/
theorem remapPic_spec (p : Pair) : Configured PIC1_OFFSET PIC2_OFFSET (remapPic p) ∧
    Idle (remapPic p) ∧ ∀ k, (remapPic p).requested k = false := by
  have hcascade : (remapPic p).master.cascade.testBit 2 = true := by
    show (0b00000100 : ℕ).testBit 2 = true
    decide
  refine ⟨⟨⟨rfl, rfl⟩, ⟨fun _ => rfl, fun _ => rfl⟩, ⟨rfl, rfl⟩, rfl, rfl, hcascade, rfl⟩,
    ⟨fun _ => rfl, fun _ => rfl⟩, fun k => ?_⟩
  unfold Pair.requested
  split <;> rfl

/-! ## The system -/

/-- Where `pic_handler` is, for its interrupt. -/
inductive Phase
  /-- it does not run, or it is in the callback -/
  | idle
  /-- before the end of interrupt of the second controller -/
  | slave (n : ℕ)
  /-- before the end of interrupt of the first controller -/
  | master (n : ℕ)
  /-- before the callback -/
  | callback (n : ℕ)
  deriving DecidableEq, Repr

/-- The controllers, the interrupt flag, the table and `isr_callbacks`; as ghost state, the
    interrupts taken and the callbacks called. -/
structure State where
  pics : Pair
  enabled : Bool
  idt : ℕ → IdtEntry
  isr_callbacks : ℕ → Option ℕ
  phase : Phase
  taken : List ℕ
  called : List (ℕ × Option ℕ)

/-- The steps. -/
inductive Label
  /-- a device requests on its line -/
  | raise (k : ℕ)
  /-- the processor takes an interrupt, which enters the stub `isr n` -/
  | interrupt (n : ℕ)
  /-- the next action of `pic_handler` -/
  | handler
  /-- `sti`, `cli` or `iret` of other code -/
  | setEnabled (value : Bool)
  /-- `register_isr_callback` -/
  | register (irq_id : ℤ) (callback : Option ℕ)
  deriving DecidableEq, Repr

variable (A : Addresses)

/-- `pic_handler(regs)` begins, with `regs->irq_id = n`. -/
def picHandler (n : ℕ) : Phase := if 8 ≤ n then .slave n else .master n

/-- The processor takes an interrupt: the gate turns interrupts off. -/
def takeInterrupt (s : State) (n : ℕ) : Option State := do
  let (v, pics) ← s.pics.acknowledge
  let gate ← lookup s.idt v
  if s.enabled ∧ n < 16 ∧ gate.offset = A.isr n then
    return { s with pics, enabled := false, phase := picHandler n, taken := s.taken ++ [n] }
  else none

/-- One step; an index below `isr_callbacks` has no result. -/
def step : Step State Label
  | s, .raise k => if DeviceLine k then some { s with pics := s.pics.raise k } else none
  | s, .interrupt n => takeInterrupt A s n
  | s, .handler =>
    match s.phase with
    | .idle => none
    | .slave n => some { s with pics := outByte s.pics 0xA0 0x20, phase := .master n }
    | .master n => some { s with pics := outByte s.pics 0x20 0x20, phase := .callback n }
    | .callback n => some { s with phase := .idle, called := s.called ++ [(n, s.isr_callbacks n)] }
  | s, .setEnabled value => if s.phase = .idle then some { s with enabled := value } else none
  | s, .register irq_id callback =>
    if s.phase = .idle ∧ 0 ≤ irq_id then
      if irq_id < 16 then
        some { s with isr_callbacks := Function.update s.isr_callbacks irq_id.toNat callback }
      else some s
    else none

/-- After `interrupts::init`, with the controllers as they were before it. -/
def init (pics : Pair) : State where
  pics := remapPic pics
  enabled := false
  idt := idtInit A
  isr_callbacks := fun _ => none
  phase := .idle
  taken := []
  called := []

/-! ## What the steps so far say -/

/-- A request on line `k` that was not taken. -/
def outstanding (k : ℕ) (ls : List Label) : Bool :=
  ls.foldl (fun b l =>
    match l with
    | .raise j => b || k == j
    | .interrupt j => b && k != j
    | _ => b) false

/-- The callback last registered for line `n`. -/
def registered (n : ℕ) (ls : List Label) : Option ℕ :=
  ls.foldl (fun c l =>
    match l with
    | .register irq_id callback => if irq_id = n then callback else c
    | _ => c) none

/-- The interrupt that `pic_handler` was entered for and has not called back yet. -/
def Phase.current : Phase → List ℕ
  | .idle => []
  | .slave n | .master n | .callback n => [n]

variable {A} {s s' : State} {l : Label} {ls : List Label} {k n : ℕ}

theorem outstanding_append (k : ℕ) (ls : List Label) (l : Label) :
    outstanding k (ls ++ [l]) =
      match l with
      | .raise j => outstanding k ls || k == j
      | .interrupt j => outstanding k ls && k != j
      | _ => outstanding k ls := by
  unfold outstanding
  rw [List.foldl_append]
  cases l <;> rfl

theorem registered_append (n : ℕ) (ls : List Label) (l : Label) :
    registered n (ls ++ [l]) =
      match l with
      | .register irq_id callback => if irq_id = n then callback else registered n ls
      | _ => registered n ls := by
  unfold registered
  rw [List.foldl_append]
  cases l <;> rfl

/-! ## The invariant -/

/-- What is in service, by where `pic_handler` is. -/
def InService (p : Pair) : Phase → Prop
  | .idle => Idle p
  | .slave n => 8 ≤ n ∧ n < 16 ∧ Serving n p
  | .master n => n < 16 ∧ (∀ i, p.master.isr i = true ↔ i = if n < 8 then n else 2) ∧
      ∀ i, p.slave.isr i = false
  | .callback n => n < 16 ∧ Idle p

/-- What holds after the steps `ls`. -/
structure Inv (A : Addresses) (ls : List Label) (s : State) : Prop where
  idt : s.idt = idtInit A
  configured : Configured PIC1_OFFSET PIC2_OFFSET s.pics
  service : InService s.pics s.phase
  off : s.phase ≠ .idle → s.enabled = false
  requests : ∀ k, DeviceLine k → s.pics.requested k = outstanding k ls
  callbacks : ∀ n, n < 16 → s.isr_callbacks n = registered n ls
  calls : s.called.map Prod.fst ++ s.phase.current = s.taken

theorem init_inv (A : Addresses) (pics : Pair) : Inv A [] (init A pics) := by
  obtain ⟨hc, hidle, hreq⟩ := remapPic_spec pics
  exact ⟨rfl, hc, hidle, fun h => absurd rfl h, fun k _ => hreq k, fun _ _ => rfl, rfl⟩

theorem outByte_eoi_slave (p : Pair) : outByte p 0xA0 0x20 = { p with slave := p.slave.eoi } := rfl

theorem outByte_eoi_master (p : Pair) : outByte p 0x20 0x20 = { p with master := p.master.eoi } :=
  rfl

theorem InService.raise {p : Pair} {phase : Phase} (h : InService p phase) (k : ℕ) :
    InService (p.raise k) phase := by
  have hisr : (p.raise k).master.isr = p.master.isr ∧ (p.raise k).slave.isr = p.slave.isr := by
    unfold Pair.raise
    split
    · exact ⟨rfl, rfl⟩
    · exact ⟨rfl, rfl⟩
  obtain ⟨hmaster, hslave⟩ := hisr
  cases phase with
  | idle => exact Idle.raise h k
  | callback n => exact ⟨h.1, h.2.raise k⟩
  | slave n => exact ⟨h.1, h.2.1, h.2.2.raise k⟩
  | master n =>
    unfold InService
    rw [hmaster, hslave]
    exact h

theorem raise_inv (h : Inv A ls s) (hs : step A s (.raise k) = some s') :
    Inv A (ls ++ [.raise k]) s' := by
  simp only [step, Option.ite_none_right_eq_some, Option.some.injEq] at hs
  obtain ⟨-, rfl⟩ := hs
  refine ⟨h.idt, h.configured.raise k, h.service.raise k, h.off, fun j hj => ?_, fun n hn => ?_,
    h.calls⟩
  · rw [Pair.requested_raise, h.requests j hj, outstanding_append]
  · rw [h.callbacks n hn, registered_append]

/-- What the processor takes, and where it enters. -/
theorem interrupt_cases (h : Inv A ls s) (hs : step A s (.interrupt n) = some s') :
    s.phase = .idle ∧ ∃ v pics, Acknowledged PIC1_OFFSET PIC2_OFFSET s.pics v n pics ∧
      s' = { s with pics, enabled := false, phase := picHandler n, taken := s.taken ++ [n] } := by
  simp only [step, takeInterrupt, Option.bind_eq_bind, Option.bind_eq_some_iff,
    Option.ite_none_right_eq_some] at hs
  obtain ⟨⟨v, pics⟩, hack, gate, hgate, ⟨hon, hn, hoffset⟩, hs⟩ := hs
  cases hs
  have hphase : s.phase = .idle := by
    by_contra hne
    rw [h.off hne] at hon
    cases hon
  have hidle : Idle s.pics := by
    have hservice := h.service
    rw [hphase] at hservice
    exact hservice
  obtain ⟨m, hm⟩ := acknowledge_spec h.configured hidle hack
  have hm16 : m < 16 := hm.line.1
  have hv : v = 32 + m := by
    rw [hm.vector]
    unfold vector PIC1_OFFSET PIC2_OFFSET
    split <;> omega
  -- the gate of the vector names the line's own stub
  rw [h.idt, hv, gate_init A _, if_neg (by omega), if_pos (by omega)] at hgate
  cases hgate
  have hmn : m = n := by
    refine A.isr_inj m n hm16 hn ?_
    rw [← hoffset, show 32 + m - 32 = m by omega]
    rfl
  subst hmn
  exact ⟨hphase, v, pics, hm, rfl⟩

theorem interrupt_inv (h : Inv A ls s) (hs : step A s (.interrupt n) = some s') :
    Inv A (ls ++ [.interrupt n]) s' := by
  obtain ⟨hphase, v, pics, hm, rfl⟩ := interrupt_cases h hs
  have hn : n < 16 := hm.line.1
  refine ⟨h.idt, hm.configured, ?_, fun _ => rfl, fun k hk => ?_, fun j hj => ?_, ?_⟩
  · show InService pics (picHandler n)
    unfold picHandler
    split
    · rename_i h8
      exact ⟨h8, hn, hm.serving⟩
    · rename_i h8
      refine ⟨hn, hm.serving.master, fun i => ?_⟩
      rw [Bool.eq_false_iff]
      exact fun hi => h8 ((hm.serving.slave i).mp hi).1
  · rw [hm.requests k hk, h.requests k hk, outstanding_append]
  · rw [h.callbacks j hj, registered_append]
  · have hcalls := h.calls
    rw [hphase] at hcalls
    have hcurrent : (picHandler n).current = [n] := by
      unfold picHandler
      split <;> rfl
    show s.called.map Prod.fst ++ (picHandler n).current = s.taken ++ [n]
    rw [hcurrent, ← hcalls, Phase.current, List.append_nil]

theorem handler_inv (h : Inv A ls s) (hs : step A s .handler = some s') :
    Inv A (ls ++ [.handler]) s' := by
  have hservice := h.service
  have hcalls := h.calls
  have hoff := h.off
  have hreq : ∀ k, DeviceLine k → s.pics.requested k = outstanding k (ls ++ [.handler]) := by
    intro k hk
    rw [h.requests k hk, outstanding_append]
  have hcall : ∀ n, n < 16 → s.isr_callbacks n = registered n (ls ++ [.handler]) := by
    intro n hn
    rw [h.callbacks n hn, registered_append]
  simp only [step] at hs
  cases hp : s.phase with
  | idle =>
    rw [hp] at hs
    cases hs
  | slave n =>
    rw [hp] at hs hservice hcalls hoff
    cases hs
    obtain ⟨h8, h16, hserving⟩ := hservice
    obtain ⟨hslave, hmaster⟩ := hserving.eoiSlave h8 h16
    rw [outByte_eoi_slave]
    refine ⟨h.idt, h.configured.eoi.2, ⟨h16, ?_, hslave⟩, fun _ => hoff (by simp), fun k hk => ?_,
      hcall, hcalls⟩
    · rw [if_neg (by omega)]
      exact hmaster
    · rw [← hreq k hk]
      exact (requested_eoi s.pics k).2
  | master n =>
    rw [hp] at hs hservice hcalls hoff
    cases hs
    obtain ⟨h16, hmaster, hslave⟩ := hservice
    rw [outByte_eoi_master]
    refine ⟨h.idt, h.configured.eoi.1, ⟨h16, eoi_master hmaster (by split <;> omega) hslave⟩,
      fun _ => hoff (by simp), fun k hk => ?_, hcall, hcalls⟩
    rw [← hreq k hk]
    exact (requested_eoi s.pics k).1
  | callback n =>
    rw [hp] at hs hservice hcalls
    cases hs
    refine ⟨h.idt, h.configured, hservice.2, fun hne => absurd rfl hne, hreq, hcall, ?_⟩
    show (s.called ++ [(n, s.isr_callbacks n)]).map Prod.fst ++ [] = s.taken
    rw [List.map_append, List.append_nil]
    exact hcalls

theorem setEnabled_inv {value : Bool} (h : Inv A ls s)
    (hs : step A s (.setEnabled value) = some s') : Inv A (ls ++ [.setEnabled value]) s' := by
  simp only [step, Option.ite_none_right_eq_some, Option.some.injEq] at hs
  obtain ⟨hphase, rfl⟩ := hs
  refine ⟨h.idt, h.configured, h.service, fun hne => absurd hphase hne, fun k hk => ?_,
    fun n hn => ?_, h.calls⟩
  · rw [h.requests k hk, outstanding_append]
  · rw [h.callbacks n hn, registered_append]

theorem register_inv {irq_id : ℤ} {callback : Option ℕ} (h : Inv A ls s)
    (hs : step A s (.register irq_id callback) = some s') :
    Inv A (ls ++ [.register irq_id callback]) s' := by
  simp only [step, Option.ite_none_right_eq_some] at hs
  obtain ⟨⟨hphase, hpos⟩, hs⟩ := hs
  have hreq : ∀ k, DeviceLine k →
      s.pics.requested k = outstanding k (ls ++ [.register irq_id callback]) := by
    intro k hk
    rw [h.requests k hk, outstanding_append]
  by_cases hlt : irq_id < 16
  · rw [if_pos hlt] at hs
    cases hs
    refine ⟨h.idt, h.configured, h.service, h.off, hreq, fun n hn => ?_, h.calls⟩
    rw [registered_append]
    show Function.update s.isr_callbacks irq_id.toNat callback n = _
    rw [Function.update_apply]
    by_cases heq : irq_id = n
    · rw [if_pos (by omega)]
      exact (if_pos heq).symm
    · rw [if_neg (by omega), h.callbacks n hn]
      exact (if_neg heq).symm
  · rw [if_neg hlt] at hs
    cases hs
    refine ⟨h.idt, h.configured, h.service, h.off, hreq, fun n hn => ?_, h.calls⟩
    rw [registered_append, h.callbacks n hn]
    exact (if_neg (by omega)).symm

/-- **Step rule.** -/
theorem step_inv (h : Inv A ls s) (hs : step A s l = some s') : Inv A (ls ++ [l]) s' := by
  cases l with
  | raise k => exact raise_inv h hs
  | interrupt n => exact interrupt_inv h hs
  | handler => exact handler_inv h hs
  | setEnabled value => exact setEnabled_inv h hs
  | register irq_id callback => exact register_inv h hs

theorem run_inv {pics : Pair} (hrun : run (step A) (init A pics) ls = some s) : Inv A ls s :=
  run_history (I := fun ls s => Inv A ls s) (init_inv A pics) (fun _ _ _ _ => step_inv) hrun

/-! ## Every interrupt is served -/

/-- What is promised after the steps `ls`. -/
structure Served (A : Addresses) (ls : List Label) (s : State) : Prop where
  /-- the controllers hold every request that was not taken, and no other -/
  requests : ∀ k, DeviceLine k → s.pics.requested k = outstanding k ls
  /-- no line is in service outside the handler -/
  idle : s.phase = .idle → Idle s.pics
  /-- with interrupts on, a request interrupts the processor -/
  progress : s.enabled = true → ∀ k, DeviceLine k → outstanding k ls = true →
    ∃ n, (step A s (.interrupt n)).isSome = true
  /-- the handler is entered for a request that none precedes, and never while it runs -/
  order : ∀ n s', step A s (.interrupt n) = some s' → s.phase = .idle ∧ DeviceLine n ∧
    outstanding n ls = true ∧ ∀ k, DeviceLine k → outstanding k ls = true → rank n ≤ rank k
  /-- the handler goes on, with interrupts off -/
  handler : s.phase ≠ .idle → s.enabled = false ∧ (step A s .handler).isSome = true
  /-- it calls the callback that was registered last -/
  callback : ∀ n s', s.phase = .callback n → step A s .handler = some s' →
    s'.called = s.called ++ [(n, registered n ls)]
  /-- once for each interrupt taken, in their order -/
  calls : s.called.map Prod.fst ++ s.phase.current = s.taken

theorem Inv.progress (h : Inv A ls s) (hon : s.enabled = true) (hk : DeviceLine k)
    (hreq : s.pics.requested k = true) : ∃ n, (step A s (.interrupt n)).isSome = true := by
  have hphase : s.phase = .idle := by
    by_contra hne
    rw [h.off hne] at hon
    cases hon
  have hidle : Idle s.pics := by
    have hservice := h.service
    rw [hphase] at hservice
    exact hservice
  obtain ⟨⟨v, pics⟩, hack⟩ :=
    Option.isSome_iff_exists.mp (acknowledge_isSome h.configured hidle hk hreq)
  obtain ⟨n, hn⟩ := acknowledge_spec h.configured hidle hack
  have hn16 : n < 16 := hn.line.1
  have hv : v = 32 + n := by
    rw [hn.vector]
    unfold vector PIC1_OFFSET PIC2_OFFSET
    split <;> omega
  have hgate : lookup s.idt v = some (stubGate (A.isr n)) := by
    rw [h.idt, hv, gate_init A _, if_neg (by omega), if_pos (by omega),
      show 32 + n - 32 = n by omega]
  refine ⟨n, ?_⟩
  simp only [step, takeInterrupt, hack, hgate, Option.bind_eq_bind, Option.bind_some]
  rw [if_pos ⟨hon, hn16, rfl⟩]
  rfl

theorem Inv.served (h : Inv A ls s) : Served A ls s where
  requests := h.requests
  idle := by
    intro hphase
    have hservice := h.service
    rw [hphase] at hservice
    exact hservice
  progress := by
    intro hon k hk hout
    rw [← h.requests k hk] at hout
    exact h.progress hon hk hout
  order := by
    intro n s' hs
    obtain ⟨hphase, v, pics, hm, -⟩ := interrupt_cases h hs
    refine ⟨hphase, hm.line, ?_, fun k hk hout => ?_⟩
    · rw [← h.requests n hm.line]
      exact hm.requested
    · rw [← h.requests k hk] at hout
      exact hm.first_served k hk hout
  handler := by
    intro hne
    refine ⟨h.off hne, ?_⟩
    simp only [step]
    cases hp : s.phase with
    | idle => exact absurd hp hne
    | slave n => rfl
    | master n => rfl
    | callback n => rfl
  callback := by
    intro n s' hp hs
    have hservice := h.service
    rw [hp] at hservice
    simp only [step, hp] at hs
    cases hs
    rw [← h.callbacks n hservice.1]
  calls := h.calls

/-- **Every interrupt is served**: after `interrupts::init`, from any state of the controllers, in
    any order of requests, interrupts, steps of the handler, registrations, and of `sti` and `cli`
    elsewhere. -/
theorem interrupts_served (A : Addresses) (pics : Pair) (ls : List Label) (s : State)
    (hrun : run (step A) (init A pics) ls = some s) : Served A ls s :=
  (run_inv hrun).served

/-- Lines 14 and 5 request together: line 14, of the second controller, is served first, and line 5
    is still outstanding after it. -/
theorem interrupts_served_example :
    ∃ (A : Addresses) (pics : Pair) (s : State),
      run (step A) (init A pics) [.register 1 (some 7), .raise 14, .raise 5, .setEnabled true,
        .interrupt 14, .handler, .handler, .handler] = some s ∧
      s.pics.requested 5 = true ∧ Idle s.pics := by
  let A : Addresses := ⟨fun n => 4096 + n % 16, fun _ => 8192, fun n => by omega, fun _ => by omega,
    fun m n hm hn h => by
      have h' : 4096 + m % 16 = 4096 + n % 16 := h
      omega⟩
  let chip : Chip := ⟨fun _ => true, fun _ => true, fun _ => true, 8, 0, true, .ready, false, false⟩
  let ls : List Label := [.register 1 (some 7), .raise 14, .raise 5, .setEnabled true,
    .interrupt 14, .handler, .handler, .handler]
  obtain ⟨s, hs⟩ := Option.isSome_iff_exists.mp
    (show (run (step A) (init A ⟨chip, chip⟩) ls).isSome = true by decide +kernel)
  have hphase : ∀ s ∈ run (step A) (init A ⟨chip, chip⟩) ls, s.phase = .idle := by decide +kernel
  have h := interrupts_served A ⟨chip, chip⟩ ls s hs
  refine ⟨A, ⟨chip, chip⟩, s, hs, ?_, h.idle (hphase s hs)⟩
  rw [h.requests 5 (by decide)]
  decide

end HryOS.Dispatch
