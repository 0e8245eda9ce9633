import HryOS.Interrupts.Stubs
import HryOS.Scheduler.ContextSwitch

/-!
# Preemption is transparent

An interrupt arrives between two instructions of a process; its handler may switch to other
processes, which run, are interrupted and end themselves, before it returns.

* `HandlerKeeps` — what the handler's code does not touch: the part of its own stack in front of it,
  which a call leaves alone.
* `switch_mem` — what a switch writes to.
* `StackKept`, `step_kept` — while the process is away, nothing else reaches that part.
* `preemption_transparent` — when the handler returns, the process goes on as if nothing had
  happened.
-/

set_option autoImplicit false

namespace HryOS.Preemption

open ByteMemory X86 Transition TaskSwitch Stubs

variable {L : Layout} {s s' : State} {p q b ret lo hi x : ℕ}

/-! ## What a switch writes -/

/-- A switch writes to the stack in use below `esp`, to the object of the running process and to
    `current_process`. -/
theorem switch_mem (h : Inv L s) (hs : step L s (.switchToTask q ret) = some s')
    (hstack : x < s.cpu.esp - 36 ∨ s.cpu.esp ≤ x)
    (hobj : ∀ r, s.running = some r → x < r + stackTop ∨ r + stackTop + 4 ≤ x)
    (hcur : x < L.current_process ∨ L.current_process + 4 ≤ x) :
    s'.cpu.mem x = s.cpu.mem x := by
  simp only [step, Option.ite_none_right_eq_some] at hs
  obtain ⟨⟨hq, hroom⟩, hs⟩ := hs
  obtain ⟨lo, hi, ha⟩ := h.callArea hroom
  have hlo := ha.esp_lo
  have hhi := ha.esp_hi
  have hcp := ha.current
  have hqlt := h.place.object_lt q hq
  have hesp := h.wf.esp_lt
  have hrunning : s.running.getD 0 = 0 ∨
      s.running.getD 0 + sizeofProcess ≤ lo ∨ hi ≤ s.running.getD 0 := by
    cases hrun : s.running with
    | none => exact Or.inl rfl
    | some r => exact Or.inr (ha.object r (h.running r hrun))
  have hrunlt : s.running.getD 0 + sizeofProcess < 4294967296 := by
    cases hrun : s.running with
    | none => decide
    | some r => exact h.place.object_lt r (h.running r hrun)
  have hfar : s.running.getD 0 = 0 ∨ x < s.running.getD 0 + stackTop ∨
      s.running.getD 0 + stackTop + 4 ≤ x := by
    cases hrun : s.running with
    | none => exact Or.inl rfl
    | some r => exact Or.inr (hobj r hrun)
  obtain ⟨c, n, hsave, hsaved⟩ := run_save h.wf (show q < 4294967296 by omega) ret
    (by omega) h.current (by omega) (by omega) hrunlt
  obtain ⟨c', hload, -, hmem⟩ := run_loadTask n L.current_process
    (show c.esp + 32 < 4294967296 by rw [hsaved.esp]; omega)
    (show load32 c.mem (c.esp + 32) = q by
      rw [hsaved.esp, show s.cpu.esp - 36 + 32 = s.cpu.esp - 4 by omega]
      exact hsaved.arg)
    (h.suspended_saved hroom ha hsaved hq) hqlt (h.place.stack_lt q hq) (h.place.current q hq).2
  rw [hsave, hload] at hs
  cases hs
  show c'.mem x = s.cpu.mem x
  rw [hmem, store32_apply_of_outside hcur]
  exact hsaved.mem x hstack hfar

/-! ## What the handler keeps -/

/-- The code of process `p` leaves the bytes from `lo` to `hi` of its stack alone, calls
    `switch_to_task` below them, and does not end. -/
def HandlerKeeps (p lo hi : ℕ) (s : State) : Label → Prop
  | .compute _ _ mem => s.running = some p → ∀ x, lo ≤ x → x < hi → mem x = s.cpu.mem x
  | .switchToTask _ _ => s.running = some p → s.cpu.esp ≤ lo
  | .finish => s.running ≠ some p
  | .createProcess _ _ => True

/-- Process `p` is alive, with the bytes `w` from `lo` to `hi` of its stack. -/
structure StackKept (L : Layout) (p b lo hi : ℕ) (w : Mem) (s : State) : Prop where
  inv : Inv L s
  live : p ∈ s.live
  bottom : s.bottom p = b
  mem : ∀ x, lo ≤ x → x < hi → s.cpu.mem x = w x

variable {w : Mem}

/-- The objects of all processes lie outside the stack of a live one. -/
theorem object_apart (h : Inv L s) (hp : p ∈ s.live) {r : ℕ} (hr : r ∈ s.live) :
    Apart r sizeofProcess (s.bottom p) STACK_SIZE := by
  by_cases hrp : r = p
  · rw [hrp]
    exact h.place.own p hp
  · exact (h.place.separate r hr p hp hrp).2.1

theorem createProcess_kept (hlo : b ≤ lo) (hhi : hi ≤ b + STACK_SIZE) {b' : ℕ}
    (h : StackKept L p b lo hi w s) (hs : step L s (.createProcess q b') = some s') :
    StackKept L p b lo hi w s' := by
  have hinv := step_inv h.inv hs
  have hbottom := h.bottom
  simp only [step, Option.ite_none_right_eq_some, Option.some.injEq] at hs
  obtain ⟨hf, hs⟩ := hs
  have hpq : p ≠ q := fun hpq => hf.not_live (hpq ▸ h.live)
  obtain ⟨-, -, h2, h3, -, -, h6⟩ := hf
  obtain ⟨-, hobj, hstack⟩ := h6 p h.live
  unfold Apart at hobj hstack
  rw [hbottom] at hobj hstack
  obtain ⟨-, hmem⟩ := createStack_suspended (m := s.cpu.mem) h3 h2 L.starter_lt
  generalize createStack s.cpu.mem q b' L.process_starter = m at hs hmem
  subst hs
  refine ⟨hinv, List.mem_cons_of_mem q h.live, ?_, fun x h1 h2 => ?_⟩
  · exact (Function.update_of_ne hpq ..).trans hbottom
  · rw [← h.mem x h1 h2]
    exact hmem x (by omega) (by omega)

theorem compute_kept (hlo : b ≤ lo) (hhi : hi ≤ b + STACK_SIZE) {regs : Reg → ℕ} {eip : ℕ}
    {mem : Mem} (h : StackKept L p b lo hi w s)
    (hl : s.running = some p → ∀ x, lo ≤ x → x < hi → mem x = s.cpu.mem x)
    (hs : step L s (.compute regs eip mem) = some s') : StackKept L p b lo hi w s' := by
  have hinv := step_inv h.inv hs
  have hbottom := h.bottom
  cases hs
  refine ⟨hinv, h.live, hbottom, fun x h1 h2 => ?_⟩
  rw [← h.mem x h1 h2]
  dsimp only
  by_cases hr : s.running = some p
  · split
    · rfl
    · exact hl hr x h1 h2
  · -- the stack of a process that is away is protected
    exact if_pos (Or.inr ⟨p, h.live, Or.inr ⟨hr, by omega, by omega⟩⟩)

theorem switchToTask_kept (hlo : b ≤ lo) (hhi : hi ≤ b + STACK_SIZE)
    (h : StackKept L p b lo hi w s) (hl : s.running = some p → s.cpu.esp ≤ lo)
    (hs : step L s (.switchToTask q ret) = some s') : StackKept L p b lo hi w s' := by
  have hinv := step_inv h.inv hs
  have hbottom := h.bottom
  have hkept : ∀ x, lo ≤ x → x < hi → s'.cpu.mem x = s.cpu.mem x := by
    intro x h1 h2
    have hcurrent := (h.inv.place.current p h.live).2
    unfold Apart at hcurrent
    rw [hbottom] at hcurrent
    refine switch_mem h.inv hs ?_ ?_ (by omega)
    · by_cases hr : s.running = some p
      · exact Or.inr ((hl hr).trans h1)
      · simp only [step, Option.ite_none_right_eq_some] at hs
        obtain ⟨alo, ahi, ha⟩ := h.inv.callArea hs.1.2
        have hother := ha.other p h.live hr
        have h3 := ha.esp_lo
        have h4 := ha.esp_hi
        rw [hbottom] at hother
        omega
    · intro r hr
      have hapart := object_apart h.inv h.live (h.inv.running r hr)
      rw [hbottom] at hapart
      unfold Apart sizeofProcess at hapart
      unfold stackTop
      omega
  obtain ⟨-, c, c', rfl, -⟩ := switch_cases h.inv hs
  exact ⟨hinv, h.live, hbottom, fun x h1 h2 => (hkept x h1 h2).trans (h.mem x h1 h2)⟩

theorem finish_kept (hlo : b ≤ lo) (hhi : hi ≤ b + STACK_SIZE) (h : StackKept L p b lo hi w s)
    (hl : s.running ≠ some p) (hs : step L s .finish = some s') :
    StackKept L p b lo hi w s' := by
  have hinv := step_inv h.inv hs
  have hbottom := h.bottom
  obtain ⟨r, hr, rfl⟩ := Option.map_eq_some_iff.mp hs
  have hpr : p ≠ r := fun hpr => hl (hpr ▸ hr)
  have hcurrent := (h.inv.place.current p h.live).2
  unfold Apart at hcurrent
  rw [hbottom] at hcurrent
  refine ⟨hinv, List.mem_filter.mpr ⟨h.live, decide_eq_true hpr⟩, hbottom, fun x h1 h2 => ?_⟩
  rw [← h.mem x h1 h2]
  exact store32_apply_of_outside (by omega)

/-- **One step**: whichever process runs, the bytes stay. -/
theorem step_kept (hlo : b ≤ lo) (hhi : hi ≤ b + STACK_SIZE) {l : Label}
    (h : StackKept L p b lo hi w s) (hl : HandlerKeeps p lo hi s l) (hs : step L s l = some s') :
    StackKept L p b lo hi w s' := by
  cases l with
  | createProcess q b' => exact createProcess_kept hlo hhi h hs
  | compute regs eip mem => exact compute_kept hlo hhi h hl hs
  | switchToTask q ret => exact switchToTask_kept hlo hhi h hl hs
  | finish => exact finish_kept hlo hhi h hl hs

/-- A run of such steps. -/
theorem run_kept (hlo : b ≤ lo) (hhi : hi ≤ b + STACK_SIZE) {ls : List Label}
    (h : StackKept L p b lo hi w s) (hls : EveryStep (step L) (HandlerKeeps p lo hi) s ls)
    (hrun : Transition.run (step L) s ls = some s') : StackKept L p b lo hi w s' :=
  along_of_everyStep (fun _ _ _ h hl hs => step_kept hlo hhi h hl hs) h hls ls List.prefix_rfl s'
    hrun

/-! ## Interrupts of processes -/

/-- The machine while a process runs: the switches leave `cs` and `eflags` to the interrupts. -/
def machine (s : State) (cs eflags : ℕ) : Machine := ⟨s.cpu, s.eip, cs, eflags⟩

/-- The gate of an interrupt and the addresses in its stub. -/
structure Gate where
  selector : ℕ
  offset : ℕ
  handler : ℕ
  back : ℕ
  back_lt : back < 4294967296

/-- The machine when the handler of interrupt `n` begins. -/
def handlerEntered (G : Gate) (n : ℕ) (m : Machine) : Machine :=
  execStubAll (interrupt m G.selector G.offset) (isrEntry G.handler G.back n)

/-- The interrupt as a step of the running process. -/
def interruptLabel (G : Gate) (n : ℕ) (m : Machine) : Label :=
  .compute (handlerEntered G n m).cpu.regs (handlerEntered G n m).eip (handlerEntered G n m).cpu.mem

/-- The running process can be interrupted. -/
structure Interruptible (s : State) (p cs eflags : ℕ) : Prop where
  running : s.running = some p
  wf : (machine s cs eflags).Wf
  above : s.bottom p + 52 ≤ s.cpu.esp
  below : s.cpu.esp ≤ s.bottom p + STACK_SIZE

variable {G : Gate} {n cs eflags : ℕ}

theorem handlerEntered_spec {m : Machine} (hm : m.Wf) (hn : n < 4294967296)
    (hroom : 52 ≤ m.cpu.esp) :
    Entered [m.eflags, m.cs, m.eip] G.handler G.back n m.cpu (handlerEntered G n m) := by
  unfold handlerEntered
  exact isr_entered hm hn G.back_lt hroom

/-- The stack of the running process is its own. -/
theorem not_protected (h : Inv L s) (hr : s.running = some p) (h1 : s.bottom p ≤ x)
    (h2 : x < s.bottom p + STACK_SIZE) : ¬Protected L s x := by
  have hp := h.running p hr
  have hcurrent := (h.place.current p hp).2
  unfold Apart at hcurrent
  rintro (hx | ⟨q, hq, hx | ⟨hne, hx⟩⟩)
  · omega
  · have hapart := object_apart h hp hq
    unfold Apart sizeofProcess at hapart
    unfold stackTop at hx
    omega
  · have hpq : q ≠ p := fun hqp => hne (hqp ▸ hr)
    have hapart := (h.place.separate q hq p hp hpq).2.2
    unfold Apart at hapart
    omega

/-- Code of the running process that writes to 52 bytes of its stack only. -/
theorem compute_own (h : Inv L s) {c : Cpu} {eip : ℕ} (hr : s.running = some p) (hc : c.Wf)
    (habove : s.bottom p + 52 ≤ s.cpu.esp) (hbelow : s.cpu.esp ≤ s.bottom p + STACK_SIZE)
    (hmem : ∀ x, x < s.cpu.esp - 52 ∨ s.cpu.esp ≤ x → c.mem x = s.cpu.mem x)
    (hs : step L s (.compute c.regs eip c.mem) = some s') :
    s'.running = some p ∧ s'.eip = eip ∧ s'.bottom = s.bottom ∧ s'.cpu.regs = c.regs ∧
      ∀ x, s'.cpu.mem x = c.mem x := by
  cases hs
  refine ⟨hr, rfl, rfl, funext fun r => u32_of_lt (hc r), fun x => ?_⟩
  dsimp only
  split
  · rename_i hx
    -- what the code wrote is not protected
    by_cases hin : s.cpu.esp - 52 ≤ x ∧ x < s.cpu.esp
    · exact absurd hx (not_protected h hr (by omega) (by omega))
    · exact (hmem x (by omega)).symm
  · rfl

/-- What the handler finds. -/
structure HandlerRuns (G : Gate) (n p cs eflags : ℕ) (s s' : State) : Prop where
  running : s'.running = some p
  eip : s'.eip = G.handler
  bottom : s'.bottom = s.bottom
  ecx : s'.cpu.regs .ecx = s.cpu.esp - 48
  words : WordsAt s'.cpu.mem (s.cpu.esp - 48) (interruptedRegisters (machine s cs eflags) n).words
  mem : ∀ x, s.cpu.esp ≤ x → s'.cpu.mem x = s.cpu.mem x

/-- **The interrupt**: the stub writes to the stack of the process only, and its argument points at
    the registers of the process. -/
theorem interrupt_step (h : Inv L s) (hi : Interruptible s p cs eflags) (hn : n < 4294967296)
    (hs : step L s (interruptLabel G n (machine s cs eflags)) = some s') :
    HandlerRuns G n p cs eflags s s' := by
  have habove := hi.above
  have hroom : 52 ≤ (machine s cs eflags).cpu.esp := by
    show 52 ≤ s.cpu.esp
    omega
  have hent := handlerEntered_spec (G := G) hi.wf hn hroom
  have hregs := hent.registers hroom
  have hecx := hent.ecx
  have hsame := hent.mem
  simp only [List.length_cons, List.length_nil, Nat.zero_add, Nat.reduceAdd, Nat.reduceMul]
    at hecx hsame
  obtain ⟨hrunning, heip, hbottom, hcpu, hmem⟩ :=
    compute_own h hi.running hent.wf habove hi.below hsame hs
  refine ⟨hrunning, heip.trans hent.eip, hbottom, ?_, hregs.congr fun x _ _ => hmem x, ?_⟩
  · rw [hcpu]
    exact hecx
  · intro x hx
    exact (hmem x).trans (hsame x (Or.inr hx))

/-- **Preemption is transparent**: in every state of every run, let interrupt `n` arrive while
    process `p` runs.  The handler finds the registers of the process.  Whatever runs, is created,
    is switched to and ends before the handler returns, the process then goes on at the instruction
    it was interrupted at, with all its registers, its flags and its stack. -/
theorem preemption_transparent {regs : Reg → ℕ} {mem : Mem}
    (hreach : Reachable (step L) (init L regs mem) s) (hi : Interruptible s p cs eflags)
    (hn : n < 16) (hs : step L s (interruptLabel G n (machine s cs eflags)) = some s') :
    (s'.eip = G.handler ∧
      readRegisters s'.cpu.mem (s'.cpu.regs .ecx) =
        interruptedRegisters (machine s cs eflags) n) ∧
    ∀ hi' ls t, s.cpu.esp ≤ hi' → hi' ≤ s.bottom p + STACK_SIZE →
      EveryStep (step L) (HandlerKeeps p (s.cpu.esp - 48) hi') s' ls →
      Transition.run (step L) s' ls = some t → t.cpu.esp = s.cpu.esp - 48 →
      ∀ cs' eflags',
        execStubAll (machine t cs' eflags') isrExit =
          { machine s cs eflags with cpu := { s.cpu with mem := t.cpu.mem } } ∧
        ∀ x, s.cpu.esp ≤ x → x < hi' → t.cpu.mem x = s.cpu.mem x := by
  have h := reachable_inv hreach
  have habove := hi.above
  have hruns := interrupt_step h hi (by omega) hs
  refine ⟨⟨hruns.eip, by rw [hruns.ecx]; exact readRegisters_eq hruns.words⟩, ?_⟩
  intro hi' ls t hlo hhi hls hrun hesp cs' eflags'
  have hinv := step_inv h hs
  have hkept := run_kept (b := s.bottom p) (w := s'.cpu.mem) (by omega) hhi
    ⟨hinv, hinv.running p hruns.running, congrFun hruns.bottom p, fun _ _ _ => rfl⟩ hls hrun
  refine ⟨isr_returns (n := n) hi.wf (by show 48 ≤ s.cpu.esp; omega) hesp ?_, fun x h1 h2 => ?_⟩
  · show WordsAt t.cpu.mem t.cpu.esp _
    rw [hesp]
    refine hruns.words.congr fun x h1 h2 => ?_
    simp only [Registers.words, List.length_cons, List.length_nil] at h2
    exact hkept.mem x h1 (by omega)
  · rw [hkept.mem x (by omega) h2, hruns.mem x h1]

/-- The timer interrupts process 65536 at its start; its handler switches to the other process,
    which switches back, and returns. -/
theorem preemption_transparent_example : ∃ (L : Layout) (G : Gate) (s s' t : State) (mem : Mem),
    Transition.run (step L) (init L (fun _ => 0) fun _ => 0) [.createProcess 65536 131072,
      .createProcess 65600 196608, .compute (fun _ => 8192) 7 fun _ => 1,
      .switchToTask 65536 24] = some s ∧
    step L s (interruptLabel G 0 (machine s 8 578)) = some s' ∧
    Transition.run (step L) s' [.switchToTask 65600 32, .switchToTask 65536 40,
      .compute (fun _ => 147408) 0 mem] = some t ∧
    execStubAll (machine t 8 2) isrExit =
      { machine s 8 578 with cpu := { s.cpu with mem := t.cpu.mem } } := by
  let L : Layout := ⟨1024, 2048, 4096, 8192, by omega, by omega, by omega⟩
  let G : Gate := ⟨8, 512, 600, 520, by omega⟩
  obtain ⟨s, hs⟩ := Option.isSome_iff_exists.mp (show (Transition.run (step L)
    (init L (fun _ => 0) fun _ => 0) [.createProcess 65536 131072, .createProcess 65600 196608,
      .compute (fun _ => 8192) 7 fun _ => 1, .switchToTask 65536 24]).isSome = true by
        decide +kernel)
  have hfacts : ∀ s ∈ Transition.run (step L) (init L (fun _ => 0) fun _ => 0)
      [.createProcess 65536 131072, .createProcess 65600 196608,
        .compute (fun _ => 8192) 7 fun _ => 1, .switchToTask 65536 24],
      (s.running = some 65536 ∧ s.cpu.esp = 147456 ∧ s.cpu.zf = true ∧ s.eip = 2048 ∧
        s.bottom 65536 = 131072) ∧
      ∀ s' ∈ step L s (interruptLabel G 0 (machine s 8 578)), s'.cpu.esp = 147404 ∧
        (step L s' (.switchToTask 65600 32)).isSome = true ∧
        ∀ s₂ ∈ step L s' (.switchToTask 65600 32), s₂.running = some 65600 ∧
          (step L s₂ (.switchToTask 65536 40)).isSome = true := by
    decide +kernel
  obtain ⟨⟨hrunning, hesp, hzf, heip, hbottom⟩, hafter⟩ := hfacts s hs
  obtain ⟨s', hs'⟩ : ∃ s', step L s (interruptLabel G 0 (machine s 8 578)) = some s' := ⟨_, rfl⟩
  obtain ⟨hesp', haway, hback⟩ := hafter s' hs'
  obtain ⟨s₂, hs₂⟩ := Option.isSome_iff_exists.mp haway
  obtain ⟨hrunning₂, hback⟩ := hback s₂ hs₂
  obtain ⟨s₃, hs₃⟩ := Option.isSome_iff_exists.mp hback
  obtain ⟨t, ht⟩ : ∃ t, step L s₃ (.compute (fun _ => 147408) 0 s₃.cpu.mem) = some t := ⟨_, rfl⟩
  have hrun : Transition.run (step L) s' [.switchToTask 65600 32, .switchToTask 65536 40,
      .compute (fun _ => 147408) 0 s₃.cpu.mem] = some t :=
    run_cons_some.mpr ⟨s₂, hs₂, run_cons_some.mpr ⟨s₃, hs₃, run_cons_some.mpr ⟨t, ht, rfl⟩⟩⟩
  have hreach : Reachable (step L) (init L (fun _ => 0) fun _ => 0) s := ⟨_, hs⟩
  have hwf : (machine s 8 578).Wf :=
    ⟨(reachable_inv hreach).wf, by rw [show (machine s 8 578).eip = 2048 from heip]; decide,
      show 8 < 65536 by omega, show 578 < 4294967296 by omega,
      hzf.trans (show true = (578 : ℕ).testBit zeroFlag by decide)⟩
  have hi : Interruptible s 65536 8 578 :=
    ⟨hrunning, hwf, by rw [hbottom, hesp]; decide, by rw [hbottom, hesp]; decide⟩
  have hkeeps : EveryStep (step L) (HandlerKeeps 65536 (s.cpu.esp - 48) s.cpu.esp) s'
      [.switchToTask 65600 32, .switchToTask 65536 40,
        .compute (fun _ => 147408) 0 s₃.cpu.mem] := by
    refine everyStep_cons.mpr ⟨fun _ => by rw [hesp', hesp]; decide, fun u hu => ?_⟩
    cases hs₂.symm.trans hu
    refine everyStep_cons.mpr ⟨fun hr => ?_, fun v hv => ?_⟩
    · rw [hrunning₂] at hr
      exact absurd (Option.some.inj hr) (by decide)
    · cases hs₃.symm.trans hv
      exact everyStep_cons.mpr ⟨fun _ _ _ _ => rfl, fun _ _ => everyStep_nil⟩
  have hespt : t.cpu.esp = s.cpu.esp - 48 := by
    cases ht
    rw [hesp]
    rfl
  have h := (preemption_transparent hreach hi (by decide) hs').2 s.cpu.esp _ t (Nat.le_refl _)
    hi.below hkeeps hrun hespt 8 2
  exact ⟨L, G, s, s', t, s₃.cpu.mem, hs, hs', hrun, h.1⟩

end HryOS.Preemption
