import HryOS.Interrupts.IntLock

/-!
# The bookkeeping of interrupts is exact

`Safe` follows code from its bits and its stack as if nothing else ran: an interrupt and a switch
give both back as they were.  An interrupt inside `disable` does not: it leaves the flag set.

* `Safe` — the code, run from here, keeps what `Exact` promises.
* `safe_weak`, `safe_direct` and the lemmas on the kernel's functions — rules for scopes.
* `Inv`, `step_inv` — the running code and every suspended process are safe.
* `bookkeeping_exact` — in every run without an interrupt inside `disable`.
-/

set_option autoImplicit false

namespace HryOS.Interrupts

open Transition

variable {b b' : Bits} {fs : List Frame} {c body : List Op} {op : Op} {t : Thread}
  {s s' : State} {l : Label}

/-! ## Safe code -/

/-- After `late_init`, with interrupts off. -/
def interruptsOff : Bits := ⟨false, false, false⟩

/-- After `late_init`, with interrupts on. -/
def interruptsOn : Bits := ⟨false, true, true⟩

/-- Before `late_init`. -/
def booting : Bits := ⟨true, false, false⟩

/-- An interrupt may arrive: it sets the flag. -/
def Bits.Steady (b : Bits) : Prop := b.on = true → b.flag = true ∧ b.lock = false

/-- The scope to be left, if the code leaves one, is the outermost. -/
def Outermost (fs : List Frame) : List Op → Prop
  | .leave :: _ => ∃ f, fs = [f]
  | _ => True

/-- What `interrupts::enable` makes of the bits. -/
def Bits.enabled (b : Bits) : Bits := if b.lock then b else interruptsOn

/-- What `interrupts::disable` makes of the bits. -/
def Bits.disabled (b : Bits) : Bits := if b.lock then b else interruptsOff

/-- The code keeps the promises, run from the bits on the stack. -/
def Safe : List Op → Bits → List Frame → Prop
  | [], b, _ => b.Steady
  | .cli :: c, b, fs => (b.on = true → b.lock = false) ∧ Safe c { b with on := false } fs
  | .sti :: c, b, fs =>
    b.Steady ∧ Outermost fs c ∧ b.lock = false ∧ Safe c { b with on := true } fs
  | .setFlag value :: c, b, fs => b.Steady ∧ Safe c { b with flag := value } fs
  | .enable :: c, b, fs =>
    b.Steady ∧ (b.lock = false → Outermost fs c) ∧ Safe c b.enabled fs
  | .disable :: c, b, fs => b.Steady ∧ Safe c b.disabled fs
  | .weakCtor :: c, b, fs => b.Steady ∧ b.flag = b.on ∧ Safe c b (.weak b.flag b.on :: fs)
  | .weakDtor :: c, b, fs => b.Steady ∧ ∃ was entry gs, fs = .weak was entry :: gs ∧
    (was = true → b.lock = false → Outermost fs c) ∧ Safe c (if was then b.enabled else b) fs
  | .directCtor :: c, b, fs => b.Steady ∧ Safe c b (.direct b.on :: fs)
  | .leave :: c, b, fs =>
    b.Steady ∧ ∃ f gs, fs = f :: gs ∧ f.entry = some b.on ∧ Safe c b gs
  | .iret :: c, b, fs =>
    b.Steady ∧ ∃ saved gs, fs = .handler saved :: gs ∧ Safe c { b with on := saved } gs
  | .mayAllocate :: c, b, fs =>
    b.Steady ∧ b.flag = b.on ∧ (b.on = true → fs = []) ∧ Safe c b fs
  | .switch :: c, b, fs => b = interruptsOff ∧ Safe c interruptsOff fs
  | .task :: c, b, fs => b = interruptsOn ∧ fs = [] ∧ Safe c interruptsOn []
  | .lateInit :: c, b, fs => b = booting ∧ Safe c interruptsOff fs
  | .kernelStack :: c, b, _ => b.Steady ∧ Safe c b []
  | .spawn :: c, b, fs | .clearCurrent :: c, b, fs => b.Steady ∧ Safe c b fs

theorem Bits.eq_on (hlock : b.lock = false) (hon : b.on = true) (hflag : b.flag = true) :
    b = interruptsOn := by
  cases b
  cases hlock
  cases hon
  cases hflag
  rfl

/-- `disable` changes nothing while interrupts are off. -/
theorem Bits.disabled_of_off (hon : b.on = false) (hflag : b.flag = false) : b.disabled = b := by
  obtain ⟨lock, on, flag⟩ := b
  cases hon
  cases hflag
  cases lock <;> rfl

theorem steady_of_off (h : b.on = false) : b.Steady := fun hon => by
  rw [h] at hon
  cases hon

/-- Everywhere but at a `cli`. -/
theorem Safe.steady (h : Safe c b fs) (hc : c.head? ≠ some .cli) : b.Steady := by
  cases c with
  | nil => exact h
  | cons op c =>
    cases op with
    | cli => exact absurd rfl hc
    | switch => exact h.1 ▸ steady_of_off rfl
    | task => exact h.1 ▸ fun _ => ⟨rfl, rfl⟩
    | lateInit => exact h.1 ▸ steady_of_off rfl
    | _ => exact h.1

/-- Safe code keeps the promises at its next step. -/
theorem Safe.exact (h : Safe s.running.code s.bits s.running.frames) : Exact s := by
  refine ⟨?_, ?_, ?_⟩
  · intro hc
    obtain ⟨c, hcode⟩ := List.head?_eq_some_iff.mp hc
    rw [hcode] at h
    exact h.2.1
  · intro hc
    obtain ⟨c, hcode⟩ := List.head?_eq_some_iff.mp hc
    rw [hcode] at h
    obtain ⟨-, f, gs, hfs, hentry, -⟩ := h
    exact ⟨f, gs, hfs, hentry⟩
  · intro hc
    obtain ⟨c, hcode⟩ := hc
    rw [← hcode] at h
    exact h.2.1

/-- **One step** of safe code leaves safe code. -/
theorem Safe.exec (h : Safe (op :: c) b fs) (hs : exec b fs c op = some (b', t)) :
    Safe t.code b' t.frames := by
  cases op with
  | enable =>
    cases hs
    obtain ⟨hb, hout, hc⟩ := h
    unfold Bits.enabled at hc
    cases hl : b.lock with
    | true =>
      rw [if_pos hl] at hc
      exact hc
    | false =>
      rw [if_neg (by rw [hl]; decide)] at hc
      refine ⟨hb, fun _ => ⟨rfl, hl⟩, hout hl, hl, ?_⟩
      show Safe c ⟨b.lock, true, true⟩ fs
      rw [hl]
      exact hc
  | disable =>
    cases hs
    obtain ⟨hb, hc⟩ := h
    unfold Bits.disabled at hc
    cases hl : b.lock with
    | true =>
      rw [if_pos hl] at hc
      exact hc
    | false =>
      rw [if_neg (by rw [hl]; decide)] at hc
      refine ⟨hb, fun _ => hl, ?_⟩
      show Safe c ⟨b.lock, false, false⟩ fs
      rw [hl]
      exact hc
  | weakDtor =>
    obtain ⟨hb, was, entry, gs, rfl, hout, hc⟩ := h
    cases hs
    cases was with
    | true => exact ⟨hb, hout rfl, hc⟩
    | false => exact hc
  | leave =>
    obtain ⟨hb, f, gs, rfl, hentry, hc⟩ := h
    cases f with
    | handler saved => cases hentry
    | weak _ _ => cases hs; exact hc
    | direct _ => cases hs; exact hc
  | iret =>
    obtain ⟨hb, saved, gs, rfl, hc⟩ := h
    cases hs
    exact hc
  | cli => cases hs; exact h.2
  | setFlag value => cases hs; exact h.2
  | sti => cases hs; exact h.2.2.2
  | weakCtor => cases hs; exact h.2.2
  | directCtor => cases hs; exact h.2
  | mayAllocate => cases hs; exact h.2.2.2
  | switch => cases hs; obtain ⟨rfl, hc⟩ := h; exact hc
  | task => cases hs; obtain ⟨rfl, rfl, hc⟩ := h; exact hc
  | lateInit => cases hs; obtain ⟨rfl, hc⟩ := h; exact hc
  | kernelStack => cases hs; exact h.2
  | clearCurrent => cases hs; exact h.2
  | spawn => cases hs

/-- Safe code does not get stuck; only `spawn` needs a choice. -/
theorem Safe.exec_isSome (h : Safe (op :: c) b fs) (hop : op ≠ .spawn) :
    (Interrupts.exec b fs c op).isSome = true := by
  cases op with
  | spawn => exact absurd rfl hop
  | weakDtor =>
    obtain ⟨-, was, entry, gs, rfl, -⟩ := h
    rfl
  | leave =>
    obtain ⟨-, f, gs, rfl, hentry, -⟩ := h
    cases f with
    | handler saved => cases hentry
    | weak _ _ => rfl
    | direct _ => rfl
  | iret =>
    obtain ⟨-, saved, gs, rfl, -⟩ := h
    rfl
  | _ => rfl

/-! ## Scopes -/

/-- Code that, with interrupts off, may be put before any safe code. -/
def Keeps (b : Bits) (body : List Op) : Prop :=
  ∀ fs c, Safe c b fs → Safe (body ++ c) b fs

theorem Keeps.nil : Keeps b [] := fun _ _ h => h

theorem Keeps.append {body' : List Op} (h : Keeps b body) (h' : Keeps b body') :
    Keeps b (body ++ body') := by
  intro fs c hc
  rw [List.append_assoc]
  exact h fs _ (h' fs c hc)

theorem keeps_mayAllocate (hoff : b.on = false) (hflag : b.flag = false) :
    Keeps b [.mayAllocate] := by
  intro fs c hc
  refine ⟨steady_of_off hoff, hflag.trans hoff.symm, ?_, hc⟩
  intro h
  rw [hoff] at h
  cases h

/-- A `weak_int_lock` taken while interrupts are off leaves them off. -/
theorem keeps_weak (hoff : b.on = false) (hflag : b.flag = false)
    (hbody : Keeps b body) : Keeps b (weak body) := by
  intro fs c hc
  have hb := steady_of_off hoff
  refine ⟨hb, hflag.trans hoff.symm, hb, ?_⟩
  show Safe (body ++ [.weakDtor, .leave] ++ c) b.disabled _
  rw [List.append_assoc, Bits.disabled_of_off hoff hflag, hflag]
  exact hbody _ _ ⟨hb, false, b.on, fs, rfl, nofun, hb, _, fs, rfl, rfl, hc⟩

/-- Before `late_init` a `direct_int_lock` does nothing. -/
theorem keeps_direct (hbody : Keeps booting body) : Keeps booting (direct body) := by
  intro fs c hc
  have hb : booting.Steady := steady_of_off rfl
  refine ⟨hb, hb, ?_⟩
  show Safe (body ++ [.enable, .leave] ++ c) booting (.direct false :: fs)
  rw [List.append_assoc]
  exact hbody _ _ ⟨hb, nofun, hb, _, fs, rfl, rfl, hc⟩

/-- A `weak_int_lock` taken while interrupts are on: they are off inside, and on again. -/
theorem safe_weak (hbody : Keeps interruptsOff body) (hc : Safe c interruptsOn []) :
    Safe (weak body ++ c) interruptsOn [] := by
  refine ⟨fun _ => ⟨rfl, rfl⟩, rfl, fun _ => ⟨rfl, rfl⟩, ?_⟩
  show Safe (body ++ [.weakDtor, .leave] ++ c) interruptsOff [.weak true true]
  rw [List.append_assoc]
  refine hbody _ _ ⟨steady_of_off rfl, true, true, [], rfl, fun _ _ => ⟨_, rfl⟩, ?_⟩
  exact ⟨fun _ => ⟨rfl, rfl⟩, _, [], rfl, rfl, hc⟩

/-- A `direct_int_lock` taken while interrupts are on. -/
theorem safe_direct (hbody : Keeps interruptsOff body) (hc : Safe c interruptsOn []) :
    Safe (direct body ++ c) interruptsOn [] := by
  refine ⟨fun _ => ⟨rfl, rfl⟩, fun _ => ⟨rfl, rfl⟩, ?_⟩
  show Safe (body ++ [.enable, .leave] ++ c) interruptsOff [.direct true]
  rw [List.append_assoc]
  refine hbody _ _ ⟨steady_of_off rfl, fun _ => ⟨_, rfl⟩, ?_⟩
  exact ⟨fun _ => ⟨rfl, rfl⟩, _, [], rfl, rfl, hc⟩

/-! ## The kernel's functions -/

theorem keeps_allocate (hoff : b.on = false) (hflag : b.flag = false) : Keeps b allocate :=
  keeps_weak hoff hflag Keeps.nil

theorem keeps_spawn (hoff : b.on = false) : Keeps b [.spawn] :=
  fun _ _ hc => ⟨steady_of_off hoff, hc⟩

theorem keeps_switch : Keeps interruptsOff [.switch] := fun _ _ hc => ⟨rfl, hc⟩

theorem keeps_reschedule : Keeps interruptsOff reschedule :=
  keeps_weak rfl rfl ((keeps_mayAllocate rfl rfl).append keeps_switch)

theorem keeps_create_process_body (hoff : b.on = false) (hflag : b.flag = false) :
    Keeps b (allocate ++ allocate ++ allocate ++ [.mayAllocate, .spawn]) :=
  have ha : Keeps b allocate := keeps_allocate hoff hflag
  ((ha.append ha).append ha).append ((keeps_mayAllocate hoff hflag).append (keeps_spawn hoff))

theorem safe_reschedule (hc : Safe c interruptsOn []) : Safe (reschedule ++ c) interruptsOn [] :=
  safe_weak ((keeps_mayAllocate rfl rfl).append keeps_switch) hc

theorem safe_enqueueCurrent (hc : Safe c interruptsOn []) :
    Safe (enqueueCurrent ++ c) interruptsOn [] := by
  unfold enqueueCurrent
  rw [List.append_assoc]
  exact safe_direct (keeps_mayAllocate rfl rfl) (safe_reschedule hc)

theorem safe_call (k : Call) (hc : Safe c interruptsOn []) :
    Safe (k.code ++ c) interruptsOn [] := by
  cases k with
  | create_process => exact safe_direct (keeps_create_process_body rfl rfl) hc
  | sleep_ms => exact safe_enqueueCurrent hc
  | block_current_process => exact safe_enqueueCurrent hc
  | wait_for => exact safe_enqueueCurrent hc
  | allocate => exact safe_weak Keeps.nil hc
  | free => exact safe_weak Keeps.nil hc
  | list_process => exact safe_direct Keeps.nil hc
  | print => exact safe_direct Keeps.nil hc

/-- A handler keeps the flag clear while it runs, and returns to interrupts on. -/
theorem safe_pic_handler (i : Irq) (hc : Safe c interruptsOn fs) :
    Safe (pic_handler i ++ c) ⟨false, false, true⟩ (.handler true :: fs) := by
  have hcb : Keeps interruptsOff (callback i) := by
    cases i with
    | timer => exact keeps_reschedule
    | keyboard => exact keeps_mayAllocate rfl rfl
    | other => exact Keeps.nil
  refine ⟨steady_of_off rfl, ?_⟩
  show Safe (callback i ++ [.setFlag true, .iret] ++ c) interruptsOff (.handler true :: fs)
  rw [List.append_assoc]
  exact hcb _ _ ⟨steady_of_off rfl, steady_of_off rfl, true, fs, rfl, hc⟩

/-- A new process is safe where `switch_to_task` leaves it. -/
theorem safe_process_starter : Safe process_starter interruptsOff [] := by
  have hoff : interruptsOff.Steady := steady_of_off rfl
  have hfree : Keeps interruptsOff free := keeps_allocate rfl rfl
  have hend : Safe (reschedule ++ []) interruptsOff [] := keeps_reschedule _ _ hoff
  rw [List.append_nil] at hend
  refine ⟨hoff, fun _ => trivial, rfl, rfl, fun _ => ⟨rfl, rfl⟩, hoff, rfl, nofun, hoff, ?_⟩
  exact ((hfree.append hfree).append hfree) _ _ ⟨hoff, hend⟩

theorem safe_kernel_main : Safe kernel_main booting [] := by
  have hcreate : Keeps booting create_process :=
    keeps_direct (keeps_create_process_body rfl rfl)
  have hend : Safe (reschedule ++ []) interruptsOff [] := keeps_reschedule _ _ (steady_of_off rfl)
  rw [List.append_nil] at hend
  refine keeps_mayAllocate rfl rfl _ _ ?_
  exact (hcreate.append hcreate) _ _ ⟨rfl, hend⟩

/-! ## The invariant -/

/-- Every suspended process is safe with interrupts off, as it will find them. -/
def Asleep (suspended : ℕ → Option Thread) : Prop :=
  ∀ q t, suspended q = some t → Safe t.code interruptsOff t.frames

theorem Asleep.update {suspended : ℕ → Option Thread} {q : ℕ} {o : Option Thread}
    (h : Asleep suspended) (ho : ∀ t, o = some t → Safe t.code interruptsOff t.frames) :
    Asleep (Function.update suspended q o) := by
  intro r u hu
  by_cases hr : r = q
  · rw [hr, Function.update_self] at hu
    exact ho u hu
  · rw [Function.update_of_ne hr] at hu
    exact h r u hu

/-- The running code is safe, and so is what is suspended. -/
structure Inv (s : State) : Prop where
  running : Safe s.running.code s.bits s.running.frames
  suspended : Asleep s.suspended

/-- An interrupt outside `disable`. -/
theorem irq_inv {i : Irq} (h : Inv s) (hok : OutsideDisable s (.irq i))
    (hs : step s (.irq i) = some s') : Inv s' := by
  simp only [step, Option.ite_none_right_eq_some, Option.some.injEq] at hs
  obtain ⟨hon, rfl⟩ := hs
  refine ⟨?_, h.suspended⟩
  obtain ⟨hflag, hlock⟩ := h.running.steady hok hon
  have hbits : s.bits = interruptsOn := Bits.eq_on hlock hon hflag
  have hrun := h.running
  rw [hbits] at hrun
  show Safe (pic_handler i ++ s.running.code) { s.bits with on := false }
    (.handler s.bits.on :: s.running.frames)
  rw [hbits]
  exact safe_pic_handler i hrun

/-- A switch: the caller is suspended, and the process that runs was. -/
theorem switchTo_inv {q : ℕ} (h : Inv s) (hs : step s (.switchTo q) = some s') : Inv s' := by
  simp only [step] at hs
  split at hs
  case h_2 => cases hs
  rename_i c t hcode hq
  cases hs
  have hrun := h.running
  rw [hcode] at hrun
  obtain ⟨hbits, hc⟩ := hrun
  have hothers : Asleep (Function.update s.suspended q none) := h.suspended.update nofun
  constructor
  · show Safe t.code s.bits t.frames
    rw [hbits]
    exact h.suspended q t hq
  · dsimp only
    split
    · apply hothers.update
      rintro u ⟨⟩
      exact hc
    · exact hothers

theorem spawn_inv {p : ℕ} (h : Inv s) (hs : step s (.spawn p) = some s') : Inv s' := by
  simp only [step] at hs
  split at hs
  case h_2 => cases hs
  rename_i c hcode
  obtain ⟨-, hs⟩ := Option.ite_none_right_eq_some.mp hs
  cases hs
  have hrun := h.running
  rw [hcode] at hrun
  constructor
  · exact hrun.2
  · apply h.suspended.update
    rintro u ⟨⟩
    exact safe_process_starter

theorem call_inv {k : Call} (h : Inv s) (hs : step s (.call k) = some s') : Inv s' := by
  simp only [step] at hs
  split at hs
  case h_2 => cases hs
  rename_i c hcode
  cases hs
  have hrun := h.running
  rw [hcode] at hrun
  obtain ⟨hbits, hfs, hc⟩ := hrun
  refine ⟨?_, h.suspended⟩
  show Safe (k.code ++ .task :: c) s.bits s.running.frames
  rw [hbits, hfs]
  exact safe_call k ⟨rfl, rfl, hc⟩

theorem allocate_inv (h : Inv s) (hs : step s .allocate = some s') : Inv s' := by
  simp only [step] at hs
  split at hs
  case h_2 => cases hs
  rename_i c hcode
  cases hs
  have hrun := h.running
  rw [hcode] at hrun
  refine ⟨?_, h.suspended⟩
  show Safe (allocate ++ .mayAllocate :: c) s.bits s.running.frames
  obtain ⟨hb, hflag, hfs, -⟩ := id hrun
  cases hon : s.bits.on with
  | true =>
    obtain ⟨hset, hlock⟩ := hb hon
    rw [Bits.eq_on hlock hon hset, hfs hon] at hrun ⊢
    exact safe_weak Keeps.nil hrun
  | false => exact keeps_allocate hon (hflag.trans hon) _ _ hrun

theorem go_inv (h : Inv s) (hs : step s .go = some s') : Inv s' := by
  simp only [step] at hs
  split at hs
  case h_2 => cases hs
  rename_i op c hcode
  obtain ⟨⟨b, t⟩, hexec, rfl⟩ := Option.map_eq_some_iff.mp hs
  have hrun := h.running
  rw [hcode] at hrun
  exact ⟨hrun.exec hexec, h.suspended⟩

theorem step_inv (h : Inv s) (hok : OutsideDisable s l) (hs : step s l = some s') : Inv s' := by
  cases l with
  | go => exact go_inv h hs
  | allocate => exact allocate_inv h hs
  | switchTo q => exact switchTo_inv h hs
  | call k => exact call_inv h hs
  | spawn p => exact spawn_inv h hs
  | irq i => exact irq_inv h hok hs

theorem init_inv : Inv init := ⟨safe_kernel_main, nofun⟩

/-! ## Whole runs -/

/-- **The bookkeeping is exact** in every state of every run in which no interrupt arrives inside
    `interrupts::disable`, between the assignment and the `cli`. -/
theorem bookkeeping_exact {ls : List Label} (hok : EveryStep step OutsideDisable init ls) :
    Along step Exact init ls := by
  have hinv : Along step Inv init ls :=
    along_of_everyStep (fun s l s' h hl hs => step_inv h hl hs) init_inv hok
  exact fun pre hpre t ht => (hinv pre hpre t ht).running.exact

/-- From `boot.asm` to the task of process `0`; process `1` is ready. -/
def started : List Label :=
  List.replicate 16 .go ++ .spawn 0 :: (List.replicate 17 .go ++ .spawn 1 ::
    (List.replicate 8 .go ++ .switchTo 0 :: List.replicate 3 .go))

/-- The timer suspends the first process; the second one sleeps, which resumes the first one
    inside the handler. -/
theorem bookkeeping_exact_example : ∃ s, run step init (started ++ .irq .timer ::
    (List.replicate 6 .go ++ .switchTo 1 :: (List.replicate 3 .go ++ .call .sleep_ms ::
      (List.replicate 14 .go ++ .switchTo 0 :: List.replicate 4 .go)))) = some s ∧
    s.running.code.head? = some .task ∧ Exact s := by
  suffices h : ∀ ls, EveryStep step OutsideDisable init ls →
      (∃ s ∈ run step init ls, s.running.code.head? = some .task) →
      ∃ s, run step init ls = some s ∧ s.running.code.head? = some .task ∧ Exact s from
    h _ (by decide +kernel) (by decide +kernel)
  intro ls hok hrun
  obtain ⟨s, hs, htask⟩ := hrun
  exact ⟨s, hs, htask, bookkeeping_exact hok _ (List.prefix_refl _) s hs⟩

/-- An interrupt in `create_process`, between the assignment and the `cli` of its lock: the flag
    is set when the lock of the first allocation reads it, and IF is clear. -/
theorem flag_stale : ¬∀ ls, Along step Exact init ls := by
  intro h
  obtain ⟨s, hs, hcode, hflag⟩ : ∃ s ∈ run step init (started ++
      [.call .create_process, .go, .go, .go, .irq .keyboard, .go, .go, .go, .go, .go]),
      s.running.code.head? = some .weakCtor ∧ s.bits.flag ≠ s.bits.on := by decide +kernel
  exact hflag ((h _ _ (List.prefix_refl _) s hs).read hcode)

end HryOS.Interrupts
