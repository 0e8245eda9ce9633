import HryOS.Lib.Transition
import HryOS.Scheduler.TaskSwitch

/-!
# Context switches preserve every process

The machine while processes are created, run, switch and end.  Code that runs may change every
register and every byte outside `Protected`: the pointer `current_process`, the saved stack
pointers and the stacks of the other processes.

* `step` — the system; `saved` and `deleted` are ghost state.
* `Inv` — every process that is not running is suspended in the context it resumes.
* `contexts_preserved` — what a process finds when control comes back to it.
-/

set_option autoImplicit false

namespace HryOS.TaskSwitch

open ByteMemory X86 Transition

/-! ## The system -/

/-- The addresses the linker fixes. -/
structure Layout where
  current_process : ℕ
  process_starter : ℕ
  kernel_stack : ℕ
  kernel_stack_top : ℕ
  starter_lt : process_starter < 4294967296
  top_lt : kernel_stack_top < 4294967296
  apart : current_process + 4 ≤ kernel_stack ∨ kernel_stack_top ≤ current_process

/-- The machine, the processes (with the start of each one's stack) and, as ghost state, the
    context each process left in its last call of `switch_to_task` and the objects and stacks of
    the deleted processes. -/
structure State where
  cpu : Cpu
  eip : ℕ
  running : Option ℕ
  live : List ℕ
  bottom : ℕ → ℕ
  saved : ℕ → Option Context
  deleted : List (ℕ × ℕ)

/-- The steps. -/
inductive Label
  /-- `create_process`, whose two calls of `new` return `p` and `bottom` -/
  | createProcess (p : ℕ) (bottom : ℕ)
  /-- code of the running process, or of the kernel's own stack, up to its next call -/
  | compute (regs : Reg → ℕ) (eip : ℕ) (mem : Mem)
  /-- the call `switch_to_task(q)`, which will return to `ret` -/
  | switchToTask (q : ℕ) (ret : ℕ)
  /-- the end of `process_starter` -/
  | finish

variable (L : Layout)

/-- The object and the stack of a process have no byte in the range. -/
def Clear (p bottom a n : ℕ) : Prop := Apart p sizeofProcess a n ∧ Apart bottom STACK_SIZE a n

/-- The object and stack of a process are apart from those of another. -/
def Separate (p bottom q bottom' : ℕ) : Prop :=
  Clear p bottom q sizeofProcess ∧ Clear p bottom bottom' STACK_SIZE

/-- The byte is one of the object's or the stack's. -/
def Owns (p bottom x : ℕ) : Prop :=
  (p ≤ x ∧ x < p + sizeofProcess) ∨ (bottom ≤ x ∧ x < bottom + STACK_SIZE)

/-- What the code that runs may not change. -/
def Protected (s : State) (x : ℕ) : Prop :=
  (L.current_process ≤ x ∧ x < L.current_process + 4) ∨
  ∃ p ∈ s.live, (p + stackTop ≤ x ∧ x < p + stackTop + 4) ∨
    (s.running ≠ some p ∧ s.bottom p ≤ x ∧ x < s.bottom p + STACK_SIZE)

/-- What `new` provides: an object and a stack in the address space, apart from each other, from
    every other process, from the kernel's stack and from `current_process`. -/
def Fresh (s : State) (p bottom : ℕ) : Prop :=
  p ≠ 0 ∧ p + sizeofProcess < 4294967296 ∧ bottom + STACK_SIZE < 4294967296 ∧
    Apart p sizeofProcess bottom STACK_SIZE ∧ Clear p bottom L.current_process 4 ∧
    Clear p bottom L.kernel_stack (L.kernel_stack_top - L.kernel_stack) ∧
    ∀ q ∈ s.live, Separate p bottom q (s.bottom q)

/-- The stack in use has room for the call of `switch_to_task` and the registers. -/
def Room (s : State) : Prop :=
  match s.running with
  | some r => s.bottom r + 36 ≤ s.cpu.esp ∧ s.cpu.esp ≤ s.bottom r + STACK_SIZE
  | none => L.kernel_stack + 36 ≤ s.cpu.esp ∧ s.cpu.esp ≤ L.kernel_stack_top

instance (p b a n : ℕ) : Decidable (Clear p b a n) := inferInstanceAs (Decidable (_ ∧ _))

instance (p b q b' : ℕ) : Decidable (Separate p b q b') := inferInstanceAs (Decidable (_ ∧ _))

instance (s : State) (x : ℕ) : Decidable (Protected L s x) := by
  unfold Protected; infer_instance

instance (s : State) (p b : ℕ) : Decidable (Fresh L s p b) := by unfold Fresh; infer_instance

instance (s : State) : Decidable (Room L s) := by
  unfold Room
  split <;> infer_instance

/-- The context in which `q` resumes: that of its last call, or its start. -/
def State.resumes (s : State) (q : ℕ) : Context :=
  (s.saved q).getD (startContext (s.bottom q) L.process_starter)

/-- The ghost record of a call of `switch_to_task`. -/
def State.save (s : State) (ret : ℕ) : ℕ → Option Context :=
  match s.running with
  | some r => Function.update s.saved r (some (callContext s.cpu ret))
  | none => s.saved

/-- One step. -/
def step (s : State) : Label → Option State
  | .createProcess p bottom =>
    if Fresh L s p bottom then some
      { s with
        cpu := { s.cpu with mem := createStack s.cpu.mem p bottom L.process_starter }
        live := p :: s.live
        bottom := Function.update s.bottom p bottom
        saved := Function.update s.saved p none }
    else none
  | .compute regs eip mem => some
    { s with
      cpu := ⟨fun r => u32 (regs r), s.cpu.zf,
        fun x => if Protected L s x then s.cpu.mem x else mem x⟩
      eip := eip }
  | .switchToTask q ret =>
    if q ∈ s.live ∧ Room L s then
      (run 23 (switchToTask L.current_process) (called s.cpu q ret)).map fun (eip, cpu) =>
        { s with cpu := cpu, eip := eip, running := some q, saved := s.save ret }
    else none
  | .finish =>
    -- `esp` moves to the kernel's stack, the object is deleted, `current_process` is nulled
    s.running.map fun p =>
      { s with
        cpu := { s.cpu with regs := Function.update s.cpu.regs .esp L.kernel_stack_top
                            mem := store32 s.cpu.mem L.current_process 0 }
        running := none
        live := s.live.filter (· ≠ p)
        deleted := (p, s.bottom p) :: s.deleted }

/-- The kernel has started, and there is no process yet. -/
def init (regs : Reg → ℕ) (mem : Mem) : State where
  cpu := ⟨fun r => u32 (regs r), false, store32 mem L.current_process 0⟩
  eip := 0
  running := none
  live := []
  bottom := fun _ => 0
  saved := fun _ => none
  deleted := []

/-! ## The invariant -/

/-- Where the objects and stacks lie. -/
structure Placement (s : State) : Prop where
  nonnull : ∀ p ∈ s.live, p ≠ 0
  object_lt : ∀ p ∈ s.live, p + sizeofProcess < 4294967296
  stack_lt : ∀ p ∈ s.live, s.bottom p + STACK_SIZE < 4294967296
  own : ∀ p ∈ s.live, Apart p sizeofProcess (s.bottom p) STACK_SIZE
  current : ∀ p ∈ s.live, Clear p (s.bottom p) L.current_process 4
  kernel : ∀ p ∈ s.live,
    Clear p (s.bottom p) L.kernel_stack (L.kernel_stack_top - L.kernel_stack)
  separate : ∀ p ∈ s.live, ∀ q ∈ s.live, p ≠ q → Separate p (s.bottom p) q (s.bottom q)
  deleted : ∀ d ∈ s.deleted, Clear d.1 d.2 L.current_process 4 ∧
    Clear d.1 d.2 L.kernel_stack (L.kernel_stack_top - L.kernel_stack)

/-- What holds of every reachable state. -/
structure Inv (s : State) : Prop where
  wf : s.cpu.Wf
  current : load32 s.cpu.mem L.current_process = s.running.getD 0
  running : ∀ r, s.running = some r → r ∈ s.live
  place : Placement L s
  suspended : ∀ p ∈ s.live, s.running ≠ some p →
    Suspended s.cpu.mem p (s.bottom p) (s.resumes L p)

variable {L} {s s' : State} {p q : ℕ} {b ret : ℕ} {c : Cpu} {m : Mem}

/-- The part of the stack a call of `switch_to_task` writes to, and what it stays clear of. -/
structure CallArea (L : Layout) (s : State) (lo hi : ℕ) : Prop where
  esp_lo : lo + 36 ≤ s.cpu.esp
  esp_hi : s.cpu.esp ≤ hi
  current : L.current_process + 4 ≤ lo ∨ hi ≤ L.current_process
  /-- other processes, and every object, lie outside -/
  other : ∀ p ∈ s.live, s.running ≠ some p → s.bottom p + STACK_SIZE ≤ lo ∨ hi ≤ s.bottom p
  object : ∀ p ∈ s.live, p + sizeofProcess ≤ lo ∨ hi ≤ p

theorem Apart.of_sub {a n lo hi : ℕ} (h : Apart a n lo (hi - lo)) (hle : lo ≤ hi) :
    a + n ≤ lo ∨ hi ≤ a := by
  unfold Apart at h
  omega

theorem Inv.callArea (h : Inv L s) (hroom : Room L s) : ∃ lo hi, CallArea L s lo hi := by
  have hplace := h.place
  unfold Room at hroom
  split at hroom
  · rename_i r hr
    have hrl := h.running r hr
    refine ⟨s.bottom r, s.bottom r + STACK_SIZE, hroom.1, hroom.2, ?_, ?_, ?_⟩
    · exact (hplace.current r hrl).2.symm
    · intro p hp hne
      have hpr : p ≠ r := fun hpr => hne (hpr ▸ hr)
      exact (hplace.separate p hp r hrl hpr).2.2
    · intro p hp
      by_cases hpr : p = r
      · rw [hpr]
        exact hplace.own r hrl
      · exact (hplace.separate p hp r hrl hpr).2.1
  · rename_i hr
    refine ⟨L.kernel_stack, L.kernel_stack_top, hroom.1, hroom.2, L.apart, ?_, ?_⟩
    · intro p hp _
      exact (hplace.kernel p hp).2.of_sub (by omega)
    · intro p hp
      exact (hplace.kernel p hp).1.of_sub (by omega)

/-! ## The switch -/

theorem State.resumes_save (s : State) (hp : s.running ≠ some p) :
    ({ s with saved := s.save ret } : State).resumes L p = s.resumes L p := by
  unfold State.resumes State.save
  split
  · rename_i r hr
    have hpr : p ≠ r := fun hpr => hp (hpr ▸ hr)
    dsimp only
    rw [Function.update_of_ne hpr]
  · rfl

theorem State.resumes_save_self (s : State) (hp : s.running = some p) :
    ({ s with saved := s.save ret } : State).resumes L p = callContext s.cpu ret := by
  unfold State.resumes State.save
  rw [hp]
  dsimp only
  rw [Function.update_self]
  rfl

/-- After the save every live process is suspended, the caller included. -/
theorem Inv.suspended_saved (h : Inv L s) (hroom : Room L s) {lo hi : ℕ}
    (ha : CallArea L s lo hi) (hs : Saved s.cpu q ret (s.running.getD 0) c) (hp : p ∈ s.live) :
    Suspended c.mem p (s.bottom p) (({ s with saved := s.save ret } : State).resumes L p) := by
  have hlo := ha.esp_lo
  have hhi := ha.esp_hi
  by_cases hr : s.running = some p
  · rw [State.resumes_save_self s hr]
    unfold Room at hroom
    rw [hr] at hroom hs
    have htop : load32 c.mem (p + stackTop) = s.cpu.esp - 36 := hs.top (h.place.nonnull p hp)
    have hesp := callContext_esp s.cpu ret
    refine ⟨by rw [htop]; exact hs.words, ?_, ?_, ?_⟩
    · rw [htop, hesp]
      omega
    · rw [htop]
      omega
    · rw [hesp]
      omega
  · rw [State.resumes_save s hr]
    have hother := ha.other p hp hr
    have hobj := ha.object p hp
    unfold sizeofProcess at hobj
    -- the object of the running process, the only other place written
    have hcur : s.running.getD 0 = 0 ∨ ∃ r ∈ s.live, p ≠ r ∧ s.running.getD 0 = r := by
      cases hrun : s.running with
      | none => exact Or.inl rfl
      | some r => exact Or.inr ⟨r, h.running r hrun, fun hpr => hr (hpr ▸ hrun), rfl⟩
    have hfar : ∀ x, (p ≤ x ∧ x < p + 52) ∨ (s.bottom p ≤ x ∧ x < s.bottom p + STACK_SIZE) →
        s.running.getD 0 = 0 ∨ x < s.running.getD 0 + stackTop ∨
          s.running.getD 0 + stackTop + 4 ≤ x := by
      intro x hx
      rcases hcur with h0 | ⟨r, hrl, hpr, heq⟩
      · exact Or.inl h0
      · obtain ⟨h1, h2⟩ := (h.place.separate p hp r hrl hpr).1
        unfold Apart sizeofProcess at h1 h2
        unfold stackTop
        omega
    refine (h.suspended p hp hr).congr ?_ ?_
    · intro x h1 h2
      unfold stackTop at h1 h2
      exact hs.mem x (by omega) (hfar x (Or.inl ⟨by omega, by omega⟩))
    · intro x h1 h2
      exact hs.mem x (by omega) (hfar x (Or.inr ⟨h1, h2⟩))

/-- No byte of a deleted process is written before `load_task`, unless it is in use again. -/
theorem Inv.deleted_saved (h : Inv L s) (hroom : Room L s)
    (hs : Saved s.cpu q ret (s.running.getD 0) c) {d : ℕ × ℕ} (hd : d ∈ s.deleted) {x : ℕ}
    (hx : Owns d.1 d.2 x) (hfree : ∀ p ∈ s.live, ¬Owns p (s.bottom p) x) :
    c.mem x = s.cpu.mem x := by
  unfold Room at hroom
  cases hrun : s.running with
  | none =>
    rw [hrun] at hroom hs
    obtain ⟨h1, h2⟩ := (h.place.deleted d hd).2
    have h3 := h1.of_sub (by omega)
    have h4 := h2.of_sub (by omega)
    unfold Owns at hx
    exact hs.mem x (by omega) (Or.inl rfl)
  | some r =>
    rw [hrun] at hroom hs
    have hr := hfree r (h.running r hrun)
    unfold Owns sizeofProcess at hr
    rw [Option.getD_some] at hs
    dsimp only at hroom
    refine hs.mem x (by omega) (Or.inr ?_)
    unfold stackTop
    omega

/-- **One switch**: the routine returns into the context of `q`; before it names `q` in
    `current_process`, its last store, every live process is suspended. -/
theorem Inv.switch (h : Inv L s) (hq : q ∈ s.live) (hroom : Room L s) (ret : ℕ) :
    ∃ c c' : Cpu, run 23 (switchToTask L.current_process) (called s.cpu q ret) =
        some ((({ s with saved := s.save ret } : State).resumes L q).eip, c') ∧
      c'.regs = (({ s with saved := s.save ret } : State).resumes L q).regs ∧
      c'.mem = store32 c.mem L.current_process q ∧
      (∀ p ∈ s.live, Suspended c.mem p (s.bottom p)
        (({ s with saved := s.save ret } : State).resumes L p)) ∧
      ∀ d ∈ s.deleted, ∀ x, Owns d.1 d.2 x → (∀ p ∈ s.live, ¬Owns p (s.bottom p) x) →
        c.mem x = s.cpu.mem x := by
  obtain ⟨lo, hi, ha⟩ := h.callArea hroom
  have hlo := ha.esp_lo
  have hhi := ha.esp_hi
  have hcp := ha.current
  have hqlt := h.place.object_lt q hq
  have hesp := h.wf.esp_lt
  have hcur : s.running.getD 0 = 0 ∨
      s.running.getD 0 + sizeofProcess ≤ lo ∨ hi ≤ s.running.getD 0 := by
    cases hrun : s.running with
    | none => exact Or.inl rfl
    | some r => exact Or.inr (ha.object r (h.running r hrun))
  have hcurlt : s.running.getD 0 + sizeofProcess < 4294967296 := by
    cases hrun : s.running with
    | none => decide
    | some r => exact h.place.object_lt r (h.running r hrun)
  obtain ⟨c, n, hrun, hs⟩ := run_save h.wf (show q < 4294967296 by omega) ret
    (by omega) h.current (by omega) (by omega) hcurlt
  have hsusp := fun p hp => h.suspended_saved hroom ha hs (p := p) hp
  obtain ⟨c', hload, hregs, hmem⟩ := run_loadTask n L.current_process
    (show c.esp + 32 < 4294967296 by rw [hs.esp]; omega)
    (show load32 c.mem (c.esp + 32) = q by
      rw [hs.esp, show s.cpu.esp - 36 + 32 = s.cpu.esp - 4 by omega]
      exact hs.arg)
    (hsusp q hq) hqlt (h.place.stack_lt q hq) (h.place.current q hq).2
  exact ⟨c, c', hrun.trans hload, hregs, hmem, hsusp, fun d hd x hx hfree =>
    h.deleted_saved hroom hs hd hx hfree⟩

/-! ## Steps keep the invariant -/

theorem Placement.congr (h : Placement L s) (hlive : s'.live = s.live)
    (hbottom : s'.bottom = s.bottom) (hdeleted : s'.deleted = s.deleted) : Placement L s' := by
  obtain ⟨h1, h2, h3, h4, h5, h6, h7, h8⟩ := h
  rw [← hlive] at h1 h2 h3 h4 h5 h6 h7
  rw [← hbottom] at h3 h4 h5 h6 h7
  rw [← hdeleted] at h8
  exact ⟨h1, h2, h3, h4, h5, h6, h7, h8⟩

theorem Placement.create (h : Placement L s) (hf : Fresh L s p b) :
    Placement L { s with
      live := p :: s.live
      bottom := Function.update s.bottom p b } := by
  obtain ⟨h0, h1, h2, h3, h4, h5, h6⟩ := hf
  -- a live process is not at `p`, so its stack is where it was
  have hne : ∀ q ∈ s.live, q ≠ p := by
    rintro q hq rfl
    have := (h6 q hq).1.1
    unfold Apart sizeofProcess at this
    omega
  have hold : ∀ q ∈ s.live, Function.update s.bottom p b q = s.bottom q := fun q hq =>
    Function.update_of_ne (hne q hq) ..
  have hnew : Function.update s.bottom p b p = b := Function.update_self ..
  have hall : ∀ P : ℕ → ℕ → Prop, P p b → (∀ q ∈ s.live, P q (s.bottom q)) →
      ∀ q ∈ p :: s.live, P q (Function.update s.bottom p b q) := by
    intro P hp hlive q hq
    rcases List.mem_cons.mp hq with rfl | hq
    · rw [hnew]
      exact hp
    · rw [hold q hq]
      exact hlive q hq
  have hsymm : ∀ {q b' : ℕ}, Separate p b q b' → Separate q b' p b := by
    intro q b' hsep
    obtain ⟨⟨ha1, ha2⟩, ha3, ha4⟩ := hsep
    unfold Apart at ha1 ha2 ha3 ha4
    unfold Separate Clear Apart
    omega
  refine ⟨hall (fun q _ => q ≠ 0) h0 h.nonnull, hall (fun q _ => q + _ < _) h1 h.object_lt,
    hall (fun _ b => b + _ < _) h2 h.stack_lt, hall (fun q b => Apart q _ b _) h3 h.own,
    hall (fun q b => Clear q b _ _) h4 h.current, hall (fun q b => Clear q b _ _) h5 h.kernel,
    ?_, h.deleted⟩
  intro q hq r hr hqr
  · dsimp only
    rcases List.mem_cons.mp hq with hqp | hq
    · rcases List.mem_cons.mp hr with hrp | hr
      · exact absurd (hqp.trans hrp.symm) hqr
      · rw [hqp, hnew, hold r hr]
        exact h6 r hr
    · rcases List.mem_cons.mp hr with hrp | hr
      · rw [hrp, hnew, hold q hq]
        exact hsymm (h6 q hq)
      · rw [hold q hq, hold r hr]
        exact h.separate q hq r hr hqr

theorem createProcess_inv (h : Inv L s) (hs : step L s (.createProcess p b) = some s') :
    Inv L s' := by
  simp only [step, Option.ite_none_right_eq_some, Option.some.injEq] at hs
  obtain ⟨hf, hs⟩ := hs
  have hplace := h.place.create hf
  obtain ⟨h0, h1, h2, h3, ⟨h4, h4'⟩, h5, h6⟩ := hf
  obtain ⟨hnew, hmem⟩ := createStack_suspended (m := s.cpu.mem) h3 h2 L.starter_lt
  generalize createStack s.cpu.mem p b L.process_starter = m at hs hnew hmem
  subst hs
  refine ⟨h.wf.setMem m, ?_, fun r hr => List.mem_cons_of_mem p (h.running r hr),
    hplace.congr rfl rfl rfl, ?_⟩
  · rw [← h.current]
    unfold Apart at h4 h4'
    exact load32_congr fun x h1 h2 => hmem x (by omega) (by omega)
  · intro q hq hr
    show Suspended m q (Function.update s.bottom p b q) _
    unfold State.resumes
    dsimp only
    rcases List.mem_cons.mp hq with hqp | hq
    · rw [hqp, Function.update_self, Function.update_self]
      exact hnew
    · obtain ⟨⟨ha1, ha2⟩, ha3, ha4⟩ := h6 q hq
      unfold Apart at ha1 ha2 ha3 ha4
      have hqp : q ≠ p := by
        unfold sizeofProcess at ha1
        omega
      rw [Function.update_of_ne hqp, Function.update_of_ne hqp]
      refine (h.suspended q hq hr).congr ?_ ?_
      · intro x hx hx'
        unfold stackTop at hx hx'
        unfold sizeofProcess at hmem ha1 ha2
        exact hmem x (by omega) (by omega)
      · intro x hx hx'
        exact hmem x (by omega) (by omega)

theorem compute_inv (h : Inv L s) {regs : Reg → ℕ} {eip : ℕ}
    (hs : step L s (.compute regs eip m) = some s') : Inv L s' := by
  cases hs
  have hkeep : ∀ x, Protected L s x →
      (if Protected L s x then s.cpu.mem x else m x) = s.cpu.mem x := fun x hx => if_pos hx
  refine ⟨fun r => u32_lt _, ?_, h.running,
    h.place.congr rfl rfl rfl, ?_⟩
  · rw [← h.current]
    exact load32_congr fun x h1 h2 => hkeep x (Or.inl ⟨h1, h2⟩)
  · intro p hp hr
    refine (h.suspended p hp hr).congr ?_ ?_
    · intro x h1 h2
      exact hkeep x (Or.inr ⟨p, hp, Or.inl ⟨h1, h2⟩⟩)
    · intro x h1 h2
      exact hkeep x (Or.inr ⟨p, hp, Or.inr ⟨hr, h1, h2⟩⟩)

theorem finish_inv (h : Inv L s) (hs : step L s .finish = some s') : Inv L s' := by
  obtain ⟨r, hr, rfl⟩ := Option.map_eq_some_iff.mp hs
  have hlive : ∀ p ∈ s.live.filter (· ≠ r), p ∈ s.live ∧ p ≠ r := fun p hp => by
    simpa using hp
  refine ⟨?_, ?_, nofun, ?_, ?_⟩
  · intro q
    by_cases hq : q = .esp
    · rw [hq]
      dsimp only
      rw [Function.update_self]
      exact L.top_lt
    · dsimp only
      rw [Function.update_of_ne hq]
      exact h.wf q
  · exact load32_store32_self (by omega)
  · have hrl := h.running r hr
    refine ⟨fun p hp => h.place.nonnull p (hlive p hp).1,
      fun p hp => h.place.object_lt p (hlive p hp).1, fun p hp => h.place.stack_lt p (hlive p hp).1,
      fun p hp => h.place.own p (hlive p hp).1, fun p hp => h.place.current p (hlive p hp).1,
      fun p hp => h.place.kernel p (hlive p hp).1,
      fun p hp q hq hpq => h.place.separate p (hlive p hp).1 q (hlive q hq).1 hpq, ?_⟩
    intro d hd
    rcases List.mem_cons.mp hd with rfl | hd
    · exact ⟨h.place.current r hrl, h.place.kernel r hrl⟩
    · exact h.place.deleted d hd
  · intro p hp _
    obtain ⟨hpl, hpr⟩ := hlive p hp
    have hrun : s.running ≠ some p := fun hrun => hpr (Option.some.inj (hrun.symm.trans hr))
    have hc := h.place.current p hpl
    exact (h.suspended p hpl hrun).store hc.1 hc.2

/-- A switch in one state. -/
theorem switch_cases (h : Inv L s) (hs : step L s (.switchToTask q ret) = some s') :
    q ∈ s.live ∧ ∃ c c' : Cpu,
      s' = { s with cpu := c', running := some q, saved := s.save ret
                    eip := (({ s with saved := s.save ret } : State).resumes L q).eip } ∧
      c'.regs = (({ s with saved := s.save ret } : State).resumes L q).regs ∧
      c'.mem = store32 c.mem L.current_process q ∧
      (∀ p ∈ s.live, Suspended c.mem p (s.bottom p)
        (({ s with saved := s.save ret } : State).resumes L p)) ∧
      ∀ d ∈ s.deleted, ∀ x, Owns d.1 d.2 x → (∀ p ∈ s.live, ¬Owns p (s.bottom p) x) →
        c.mem x = s.cpu.mem x := by
  simp only [step, Option.ite_none_right_eq_some] at hs
  obtain ⟨⟨hq, hroom⟩, hs⟩ := hs
  obtain ⟨c, c', hrun, hrest⟩ := h.switch hq hroom ret
  rw [hrun] at hs
  cases hs
  exact ⟨hq, c, c', rfl, hrest⟩

theorem switch_inv (h : Inv L s) (hs : step L s (.switchToTask q ret) = some s') : Inv L s' := by
  obtain ⟨hq, c, c', rfl, hregs, hmem, hsusp, -⟩ := switch_cases h hs
  refine ⟨?_, ?_, ?_, h.place.congr rfl rfl rfl, ?_⟩
  · intro r
    rw [hregs]
    exact (hsusp q hq).regs_lt (h.place.stack_lt q hq) r
  · have hqlt := h.place.object_lt q hq
    rw [hmem]
    exact load32_store32_self (by omega)
  · intro r hr
    cases hr
    exact hq
  · intro p hp _
    have hc := h.place.current p hp
    show Suspended c'.mem p (s.bottom p) _
    rw [hmem]
    exact (hsusp p hp).store hc.1 hc.2

theorem step_inv {l : Label} (h : Inv L s) (hs : step L s l = some s') : Inv L s' := by
  cases l with
  | createProcess p b => exact createProcess_inv h hs
  | compute regs eip mem => exact compute_inv h hs
  | switchToTask q ret => exact switch_inv h hs
  | finish => exact finish_inv h hs

theorem init_inv (regs : Reg → ℕ) (mem : Mem) : Inv L (init L regs mem) :=
  ⟨fun r => u32_lt _, load32_store32_self (by omega), nofun,
    ⟨nofun, nofun, nofun, nofun, nofun, nofun, nofun, nofun⟩, nofun⟩

theorem reachable_inv {regs : Reg → ℕ} {mem : Mem}
    (h : Reachable (step L) (init L regs mem) s) : Inv L s :=
  h.invariant (init_inv regs mem) fun _ _ _ => step_inv

/-! ## What a process finds -/

/-- The run ends with the next switch to `p`. -/
def ReturnsTo (L : Layout) (p : ℕ) (s : State) (ls : List Label) (s' : State) : Prop :=
  ∃ (ms : List Label) (ret : ℕ), ls = ms ++ [.switchToTask p ret] ∧
    (∀ l ∈ ms, ∀ ret', l ≠ .switchToTask p ret') ∧ Transition.run (step L) s ls = some s'

/-- A process that does not run, and the context it resumes. -/
structure Away (L : Layout) (p : ℕ) (k : Context) (s : State) : Prop where
  inv : Inv L s
  live : p ∈ s.live
  running : s.running ≠ some p
  resumes : s.resumes L p = k

theorem Fresh.not_live (h : Fresh L s p b) : p ∉ s.live := by
  intro hp
  obtain ⟨-, -, -, -, -, -, h6⟩ := h
  have := (h6 p hp).1.1
  unfold Apart sizeofProcess at this
  omega

/-- No step but a switch to `p` affects it. -/
theorem Away.step {k : Context} {l : Label} (h : Away L p k s) (hl : ∀ ret, l ≠ .switchToTask p ret)
    (hs : step L s l = some s') : Away L p k s' := by
  have hinv := step_inv h.inv hs
  cases l with
  | createProcess q b =>
    simp only [TaskSwitch.step, Option.ite_none_right_eq_some, Option.some.injEq] at hs
    obtain ⟨hf, rfl⟩ := hs
    have hpq : p ≠ q := fun hpq => hf.not_live (hpq ▸ h.live)
    refine ⟨hinv, List.mem_cons_of_mem q h.live, h.running, ?_⟩
    rw [← h.resumes]
    unfold State.resumes
    dsimp only
    rw [Function.update_of_ne hpq, Function.update_of_ne hpq]
  | compute regs eip mem =>
    cases hs
    exact ⟨hinv, h.live, h.running, h.resumes⟩
  | switchToTask q ret =>
    have hqp : q ≠ p := fun hqp => hl ret (by rw [hqp])
    obtain ⟨hq, c, c', rfl, -⟩ := switch_cases h.inv hs
    exact ⟨hinv, h.live, fun hr => hqp (Option.some.inj hr),
      (State.resumes_save s h.running).trans h.resumes⟩
  | finish =>
    obtain ⟨r, hr, rfl⟩ := Option.map_eq_some_iff.mp hs
    have hpr : p ≠ r := fun hpr => h.running (hpr ▸ hr)
    exact ⟨hinv, List.mem_filter.mpr ⟨h.live, decide_eq_true hpr⟩, nofun, h.resumes⟩

theorem Away.run {k : Context} : ∀ {ls : List Label} {s : State}, Away L p k s →
    (∀ l ∈ ls, ∀ ret, l ≠ .switchToTask p ret) → Transition.run (TaskSwitch.step L) s ls = some s' →
    Away L p k s'
  | [], s, h, _, hrun => by cases hrun; exact h
  | l :: ls, s, h, hls, hrun => by
    obtain ⟨t, hs, hrun⟩ := run_cons_some.mp hrun
    exact (h.step (hls l List.mem_cons_self) hs).run
      (fun l hl => hls l (List.mem_cons_of_mem _ hl)) hrun

/-- The next switch to `p` resumes its context. -/
theorem Away.returns {k : Context} {ls : List Label} (h : Away L p k s)
    (hret : ReturnsTo L p s ls s') : s'.cpu.regs = k.regs ∧ s'.eip = k.eip := by
  obtain ⟨ms, ret, rfl, hms, hrun⟩ := hret
  rw [run_append, Option.bind_eq_some_iff] at hrun
  obtain ⟨t, hrun, hlast⟩ := hrun
  obtain ⟨t', hs, hlast⟩ := run_cons_some.mp hlast
  cases hlast
  have ht := h.run hms hrun
  obtain ⟨-, c, c', rfl, hregs, -⟩ := switch_cases ht.inv hs
  rw [State.resumes_save t ht.running, ht.resumes] at hregs
  refine ⟨hregs, ?_⟩
  show (({ t with saved := t.save ret } : State).resumes L p).eip = k.eip
  rw [State.resumes_save t ht.running, ht.resumes]

/-- What every switch, and every run from a switch to the next one back, guarantees. -/
structure ContextsPreserved (L : Layout) (s : State) : Prop where
  /-- the routine returns, whichever live process it is called for -/
  total : Room L s → ∀ q ∈ s.live, ∀ ret, (step L s (.switchToTask q ret)).isSome = true
  /-- `current_process` then names the process that runs, and `esp` lies on its stack -/
  current : ∀ q ret s', step L s (.switchToTask q ret) = some s' → s'.running = some q ∧
    load32 s'.cpu.mem L.current_process = q ∧
    s'.bottom q < s'.cpu.esp ∧ s'.cpu.esp ≤ s'.bottom q + STACK_SIZE
  /-- when control is back, the registers and the return address are those of the call -/
  resumed : ∀ p q ret ls s', s.running = some p →
    ReturnsTo L p s (.switchToTask q ret :: ls) s' →
    s'.cpu.regs = (callContext s.cpu ret).regs ∧ s'.eip = u32 ret
  /-- the first switch to a new process enters `process_starter`, registers zero, stack empty -/
  started : ∀ p b s₁ ls s', step L s (.createProcess p b) = some s₁ → ReturnsTo L p s₁ ls s' →
    s'.cpu.regs = (startContext b L.process_starter).regs ∧ s'.eip = L.process_starter
  /-- a switch changes no byte of a deleted process, unless a live one owns it by now -/
  deleted : ∀ q ret s', step L s (.switchToTask q ret) = some s' → ∀ d ∈ s.deleted, ∀ x,
    Owns d.1 d.2 x → (∀ p ∈ s.live, ¬Owns p (s.bottom p) x) → s'.cpu.mem x = s.cpu.mem x

/-- The call of the running process: it is away, or already back. -/
theorem Inv.away (h : Inv L s) (hr : s.running = some p) (hqp : q ≠ p)
    (hs : step L s (.switchToTask q ret) = some s') : Away L p (callContext s.cpu ret) s' := by
  have hinv := step_inv h hs
  obtain ⟨-, c, c', rfl, -⟩ := switch_cases h hs
  exact ⟨hinv, h.running p hr, fun hq => hqp (Option.some.inj hq), State.resumes_save_self s hr⟩

theorem Inv.resumed (h : Inv L s) {ls : List Label} (hr : s.running = some p)
    (hret : ReturnsTo L p s (.switchToTask q ret :: ls) s') :
    s'.cpu.regs = (callContext s.cpu ret).regs ∧ s'.eip = u32 ret := by
  obtain ⟨ms, ret', heq, hms, hrun⟩ := hret
  obtain ⟨s₁, hs, hrest⟩ := run_cons_some.mp hrun
  cases ms with
  | nil =>
    -- the process switches to itself
    cases heq
    cases hrest
    obtain ⟨-, c, c', rfl, hregs, -⟩ := switch_cases h hs
    have hself : ({ s with saved := s.save ret } : State).resumes L p = callContext s.cpu ret :=
      State.resumes_save_self s hr
    rw [hself] at hregs
    refine ⟨hregs, ?_⟩
    show (({ s with saved := s.save ret } : State).resumes L p).eip = u32 ret
    rw [hself]
    rfl
  | cons l ms =>
    obtain ⟨rfl, rfl⟩ := List.cons.inj heq
    have hqp : q ≠ p := fun hqp => hms _ List.mem_cons_self ret (by rw [hqp])
    exact (h.away hr hqp hs).returns ⟨ms, ret', rfl, fun l hl => hms l (List.mem_cons_of_mem _ hl),
      hrest⟩

theorem Inv.created (h : Inv L s) (hs : step L s (.createProcess p b) = some s') :
    Away L p (startContext b L.process_starter) s' := by
  have hinv := step_inv h hs
  simp only [step, Option.ite_none_right_eq_some, Option.some.injEq] at hs
  obtain ⟨hf, rfl⟩ := hs
  refine ⟨hinv, List.mem_cons_self, fun hr => hf.not_live (h.running p hr), ?_⟩
  unfold State.resumes
  dsimp only
  rw [Function.update_self, Function.update_self]
  rfl

theorem Inv.contextsPreserved (h : Inv L s) : ContextsPreserved L s where
  total hroom q hq ret := by
    obtain ⟨c, c', hrun, -⟩ := h.switch hq hroom ret
    simp only [step]
    rw [if_pos ⟨hq, hroom⟩, hrun]
    rfl
  current q ret s' hs := by
    have hinv := step_inv h hs
    obtain ⟨hq, c, c', rfl, hregs, hmem, hsusp, -⟩ := switch_cases h hs
    have hq' := hsusp q hq
    have hesp : c'.esp = (({ s with saved := s.save ret } : State).resumes L q).regs .esp :=
      congrFun hregs .esp
    refine ⟨rfl, hinv.current, ?_, ?_⟩
    · show s.bottom q < c'.esp
      have h1 := hq'.above
      have h2 := hq'.esp
      omega
    · show c'.esp ≤ s.bottom q + STACK_SIZE
      rw [hesp]
      exact hq'.below
  resumed p q ret ls s' hr hret := h.resumed hr hret
  started p b s₁ ls s' hs hret := (h.created hs).returns hret
  deleted q ret s' hs d hd x hx hfree := by
    obtain ⟨-, c, c', rfl, -, hmem, -, hsame⟩ := switch_cases h hs
    obtain ⟨hc1, hc2⟩ := (h.place.deleted d hd).1
    unfold Owns at hx
    unfold Apart at hc1 hc2
    show c'.mem x = s.cpu.mem x
    rw [hmem, store32_apply_of_outside (by omega), hsame d hd x hx hfree]

/-- **Context switches preserve every process**, in every state of every run. -/
theorem contexts_preserved {regs : Reg → ℕ} {mem : Mem}
    (h : Reachable (step L) (init L regs mem) s) : ContextsPreserved L s :=
  (reachable_inv h).contextsPreserved

/-- Two processes: `65536` calls `switch_to_task` for the other one and is switched back to. -/
theorem contexts_preserved_example : ∃ (L : Layout) (s s' : State),
    Transition.run (step L) (init L (fun _ => 0) fun _ => 0) [.createProcess 65536 131072,
      .createProcess 65600 196608, .compute (fun _ => 8192) 7 fun _ => 1,
      .switchToTask 65536 24] = some s ∧
    Transition.run (step L) s [.switchToTask 65600 32, .switchToTask 65536 40] = some s' ∧
    ContextsPreserved L s ∧ s'.eip = 32 := by
  let L : Layout := ⟨1024, 2048, 4096, 8192, by omega, by omega, by omega⟩
  obtain ⟨s, hs⟩ := Option.isSome_iff_exists.mp (show (Transition.run (step L)
    (init L (fun _ => 0) fun _ => 0) [.createProcess 65536 131072, .createProcess 65600 196608,
      .compute (fun _ => 8192) 7 fun _ => 1, .switchToTask 65536 24]).isSome = true by
        decide +kernel)
  have hs' : ∀ s ∈ Transition.run (step L) (init L (fun _ => 0) fun _ => 0)
      [.createProcess 65536 131072, .createProcess 65600 196608,
        .compute (fun _ => 8192) 7 fun _ => 1, .switchToTask 65536 24],
      s.running = some 65536 ∧ (Transition.run (step L) s
        [.switchToTask 65600 32, .switchToTask 65536 40]).isSome = true := by decide +kernel
  obtain ⟨hrun, hback⟩ := hs' s hs
  obtain ⟨s', hback⟩ := Option.isSome_iff_exists.mp hback
  have h := contexts_preserved ⟨_, hs⟩
  refine ⟨L, s, s', hs, hback, h, ?_⟩
  exact (h.resumed 65536 65600 32 [.switchToTask 65536 40] s' hrun
    ⟨[.switchToTask 65600 32], 40, rfl, by simp, hback⟩).2

end HryOS.TaskSwitch
