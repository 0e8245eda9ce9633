import Mathlib.Data.List.Forall2
import HryOS.Lib.X86

/-!
# `switch_to_task` and the stacks it switches between

* `switchToTask` — the routine of `task_switch.asm`.
* `createStack` — what `create_process` leaves in a new stack (`hlib::stack`).
* `Suspended` — a process whose registers and return address lie on its own stack, under the
  `stack_top` its object records.
* `run_save`, `run_loadTask` — the two halves of the routine: it suspends the caller, then resumes
  a suspended process.
* `createStack_suspended` — a new process is suspended at `process_starter`, registers zero.
-/

set_option autoImplicit false

namespace HryOS.TaskSwitch

open ByteMemory X86

/-- `scheduler::STACK_SIZE`. -/
def STACK_SIZE : ℕ := 16384

/-- `sizeof(process)`. -/
def sizeofProcess : ℕ := 52

/-- The offset of `process::stack`: behind `pid` and `name`. -/
def stackOffset : ℕ := 20

/-- `process.stack_top` of `task_switch.asm`: `stack.top_`. -/
def stackTop : ℕ := 24

/-! ## The routine -/

/-- `switch_to_task`, with the address of `current_process`. -/
def switchToTask (current_process : ℕ) : List Instr := [
  -- push all registers
  .push .eax, .push .ecx, .push .edx, .push .ebx, .push .ebp, .push .esi, .push .edi,
  -- `jz load_task` when `current_process` is null
  .movLoadAbs .esi current_process, .and .esi .esi, .jz 2,
  -- save the stack pointer
  .movLoadAbs .esi current_process, .movStore .esi stackTop .esp,
  -- `load_task`: the argument lies above the registers and the return address
  .movLoad .esi .esp (4 * 7 + 4), .movLoad .esp .esi stackTop,
  .movStoreAbs current_process .esi,
  -- restore all registers
  .pop .edi, .pop .esi, .pop .ebp, .pop .ebx, .pop .edx, .pop .ecx, .pop .eax,
  .ret]

/-- The registers in the order they are popped. -/
def restored : List Reg := [.edi, .esi, .ebp, .ebx, .edx, .ecx, .eax]

/-- The routine from `load_task` on. -/
def loadTask (current_process : ℕ) : List Instr :=
  .movLoad .esi .esp 32 :: .movLoad .esp .esi stackTop :: .movStoreAbs current_process .esi ::
    (restored.map Instr.pop ++ [.ret])

theorem switchToTask_eq (cp : ℕ) : switchToTask cp = restored.reverse.map Instr.push ++
    (.movLoadAbs .esi cp :: .and .esi .esi :: .jz 2 :: .movLoadAbs .esi cp ::
      .movStore .esi stackTop .esp :: loadTask cp) := rfl

/-! ## Stacks -/

/-- `stack::stack(size)`, where `new` returns `bottom`. -/
def constructStack (m : Mem) (stack size bottom : ℕ) : Mem :=
  let m := store8 m (stack + 8) size
  let m := store32 m stack bottom
  store32 m (stack + 4) (u32 (bottom + size))

/-- `stack::push<uint32_t>`. -/
def push (m : Mem) (stack value : ℕ) : Mem :=
  let new_top := u32 (load32 m (stack + 4) + 4294967292)
  if load32 m stack ≤ new_top then store32 (store32 m (stack + 4) new_top) new_top value else m

/-- The stack of a new process: `process_starter`, then `eax`, `ecx`, `edx`, `ebx`, `ebp`, `esi`
    and `edi`, as `create_process` pushes them. -/
def createStack (m : Mem) (p bottom process_starter : ℕ) : Mem :=
  [process_starter, 0, 0, 0, 0, 0, 0, 0].foldl (fun m v => push m (p + stackOffset) v)
    (constructStack m (p + stackOffset) STACK_SIZE bottom)

/-! ## Suspended processes -/

/-- Where a routine continues: the registers, `esp` included, and the next instruction. -/
structure Context where
  regs : Reg → ℕ
  eip : ℕ

/-- The words that hold a context on the stack. -/
def Context.frame (k : Context) : List ℕ := restored.map k.regs ++ [k.eip]

/-- Process `p`, with its stack at `bottom`, waits in `switch_to_task` for the context `k`. -/
structure Suspended (m : Mem) (p bottom : ℕ) (k : Context) : Prop where
  words : WordsAt m (load32 m (p + stackTop)) k.frame
  esp : load32 m (p + stackTop) + 32 = k.regs .esp
  above : bottom ≤ load32 m (p + stackTop)
  below : k.regs .esp ≤ bottom + STACK_SIZE

variable {m m' : Mem} {p b cp q a v x : ℕ} {k : Context} {c : Cpu}

theorem frame_length (k : Context) : k.frame.length = 8 := rfl

/-- Two byte ranges, given by start and length, have no byte in common. -/
def Apart (a n b l : ℕ) : Prop := a + n ≤ b ∨ b + l ≤ a

instance (a n b l : ℕ) : Decidable (Apart a n b l) := inferInstanceAs (Decidable (_ ∨ _))

/-- A suspended process only depends on its `stack_top` and its stack. -/
theorem Suspended.congr (h : Suspended m p b k)
    (htop : ∀ x, p + stackTop ≤ x → x < p + stackTop + 4 → m' x = m x)
    (hstack : ∀ x, b ≤ x → x < b + STACK_SIZE → m' x = m x) : Suspended m' p b k := by
  have heq : load32 m' (p + stackTop) = load32 m (p + stackTop) := load32_congr htop
  have habove := h.above
  have hbelow := h.below
  have hesp := h.esp
  refine ⟨?_, by rw [heq]; exact hesp, by rw [heq]; exact habove, hbelow⟩
  rw [heq]
  refine h.words.congr fun x h1 h2 => hstack x (by omega) ?_
  rw [frame_length] at h2
  omega

/-- A store outside both leaves a process suspended. -/
theorem Suspended.store (h : Suspended m p b k) (hobj : Apart p sizeofProcess a 4)
    (hstack : Apart b STACK_SIZE a 4) : Suspended (store32 m a v) p b k := by
  unfold Apart sizeofProcess at hobj
  unfold Apart at hstack
  refine h.congr ?_ ?_
  · intro x h1 h2
    unfold stackTop at h1 h2
    exact store32_apply_of_outside (by omega)
  · intro x h1 h2
    exact store32_apply_of_outside (by omega)

theorem mem_restored {r : Reg} (h : r ≠ .esp) : r ∈ restored := by
  cases r <;> first | exact absurd rfl h | decide

/-- A suspended context holds 32-bit values. -/
theorem Suspended.regs_lt (h : Suspended m p b k) (hb : b + STACK_SIZE < 4294967296) (r : Reg) :
    k.regs r < 4294967296 := by
  have hbelow := h.below
  by_cases hr : r = .esp
  · rw [hr]
    omega
  · apply h.words.lt
    exact List.mem_append_left _ (List.mem_map_of_mem (mem_restored hr))

/-! ## The second half: `load_task` -/

theorem regs_ext {f g : Reg → ℕ} (hr : ∀ r ∈ restored, f r = g r) (hesp : f .esp = g .esp) :
    f = g := by
  funext r
  by_cases h : r = .esp
  · rw [h, hesp]
  · exact hr r (mem_restored h)

/-- The machine when the registers of `q` are about to be popped. -/
def loaded (c : Cpu) (cp q top : ℕ) : Cpu :=
  { c with regs := Function.update (Function.update c.regs .esi q) .esp top
           mem := store32 c.mem cp q }

theorem loaded_esp (top : ℕ) : (loaded c cp q top).esp = top := by
  show Function.update (Function.update c.regs .esi q) .esp top .esp = top
  rw [Function.update_self]

theorem execAll_load {top : ℕ} (harg : load32 c.mem (u32 (c.esp + 32)) = q)
    (htop : load32 c.mem (u32 (q + stackTop)) = top) :
    execAll c [.movLoad .esi .esp 32, .movLoad .esp .esi stackTop, .movStoreAbs cp .esi] =
      loaded c cp q top := by
  have harg' : load32 c.mem (u32 (c.regs .esp + 32)) = q := harg
  simp only [execAll, List.foldl_cons, List.foldl_nil, exec, harg', Function.update_self, htop,
    Function.update_of_ne (show Reg.esi ≠ .esp by decide), loaded]

/-- The pops and the `ret`, when the words of `k` are on top of the stack. -/
theorem run_pops (fuel : ℕ) (hwords : WordsAt c.mem c.esp k.frame) (hesp : c.esp + 32 = k.regs .esp)
    (hlt : c.esp + 32 < 4294967296) :
    ∃ c', run (fuel + 8) (restored.map Instr.pop ++ [.ret]) c = some (k.eip, c') ∧
      c'.regs = k.regs ∧ c'.mem = c.mem := by
  obtain ⟨hregs, heip⟩ := WordsAt.append.mp hwords
  have hpop := execAll_pop restored (c := c) (by decide) (by decide) rfl hregs
    (by show c.esp + 28 < _; omega)
  have hpops : ∀ i ∈ restored.map Instr.pop, i.Straight := by decide
  have hlen : fuel + 8 = (restored.map Instr.pop).length + (fuel + 1) :=
    Nat.add_comm 7 (fuel + 1) ▸ rfl
  generalize hc' : execAll c (restored.map Instr.pop) = c' at hpop
  refine ⟨{ c' with regs := Function.update c'.regs .esp (u32 (c'.esp + 4)) }, ?_, ?_, hpop.mem⟩
  · have hret : load32 c'.mem c'.esp = k.eip := by
      rw [hpop.mem, hpop.esp]
      exact heip.1
    rw [hlen, run_straight _ _ _ hpops, hc', run_ret, hret]
  · have hloaded := hpop.loaded
    rw [List.forall₂_map_right_iff, List.forall₂_same] at hloaded
    refine regs_ext ?_ ?_
    · intro r hr
      have hne : r ≠ .esp := fun h => by rw [h] at hr; exact absurd hr (by decide)
      show Function.update c'.regs .esp _ r = k.regs r
      rw [Function.update_of_ne hne]
      exact hloaded r hr
    · have hend : u32 (c'.esp + 4) = k.regs .esp := by
        rw [hpop.esp, show 4 * restored.length = 28 from rfl, u32_of_lt (by omega)]
        omega
      show Function.update c'.regs .esp (u32 (c'.esp + 4)) .esp = k.regs .esp
      rw [Function.update_self, hend]

/-- **`load_task`** resumes the suspended process its argument names. -/
theorem run_loadTask (fuel cp : ℕ) (hroom : c.esp + 32 < 4294967296)
    (harg : load32 c.mem (c.esp + 32) = q) (hs : Suspended c.mem q b k)
    (hq : q + sizeofProcess < 4294967296) (hb : b + STACK_SIZE < 4294967296)
    (hcp : Apart b STACK_SIZE cp 4) :
    ∃ c', run (fuel + 11) (loadTask cp) c = some (k.eip, c') ∧ c'.regs = k.regs ∧
      c'.mem = store32 c.mem cp q := by
  obtain ⟨hwords, hesp, habove, hbelow⟩ := hs
  unfold sizeofProcess at hq
  unfold Apart at hcp
  generalize htop : load32 c.mem (q + stackTop) = top at hwords hesp habove
  have hload : execAll c [.movLoad .esi .esp 32, .movLoad .esp .esi stackTop,
      .movStoreAbs cp .esi] = loaded c cp q top := by
    apply execAll_load
    · rw [u32_of_lt hroom]
      exact harg
    · rw [u32_of_lt (by unfold stackTop; omega), htop]
  -- the store to `current_process` is outside the stack of `q`
  have hwords' : WordsAt (loaded c cp q top).mem top k.frame := by
    refine hwords.congr fun x h1 h2 => store32_apply_of_outside ?_
    rw [frame_length] at h2
    omega
  obtain ⟨c', hrun, hregs, hmem⟩ := run_pops (c := loaded c cp q top) (k := k) fuel
    (by rw [loaded_esp]; exact hwords') (by rw [loaded_esp]; exact hesp)
    (by rw [loaded_esp]; omega)
  have hcode : loadTask cp = [.movLoad .esi .esp 32, .movLoad .esp .esi stackTop,
      .movStoreAbs cp .esi] ++ (restored.map Instr.pop ++ [.ret]) := rfl
  have hlen : fuel + 11 = [Instr.movLoad .esi .esp 32, .movLoad .esp .esi stackTop,
      .movStoreAbs cp .esi].length + (fuel + 8) := Nat.add_comm 3 (fuel + 8) ▸ rfl
  refine ⟨c', ?_, hregs, hmem⟩
  rw [hcode, hlen, run_straight _ _ _ (by simp [Instr.Straight]), hload, hrun]

/-! ## The first half -/

/-- The machine inside `switch_to_task(q)`, called with the return address `ret`. -/
def called (c : Cpu) (q ret : ℕ) : Cpu := pushWord (pushWord c q) (u32 ret)

/-- The context that the call of `switch_to_task` will return to. -/
def callContext (c : Cpu) (ret : ℕ) : Context :=
  ⟨Function.update c.regs .esp (c.esp - 4), u32 ret⟩

theorem callContext_regs {r : Reg} (hr : r ≠ .esp) (c : Cpu) (ret : ℕ) :
    (callContext c ret).regs r = c.regs r := Function.update_of_ne hr ..

theorem callContext_esp (c : Cpu) (ret : ℕ) :
    (callContext c ret).regs .esp = c.esp - 4 := by
  unfold callContext
  dsimp only
  rw [Function.update_self]

/-- The stack after the call and the seven pushes. -/
structure Entered (c : Cpu) (q ret : ℕ) (c' : Cpu) : Prop where
  wf : c'.Wf
  esp : c'.esp = c.esp - 36
  words : WordsAt c'.mem (c.esp - 36) ((callContext c ret).frame ++ [q])
  mem : ∀ x, x < c.esp - 36 ∨ c.esp ≤ x → c'.mem x = c.mem x

theorem called_esp (hc : c.Wf) {ret : ℕ} (hroom : 8 ≤ c.esp) :
    (called c q ret).esp = c.esp - 8 := by
  have hesp := hc.esp_lt
  have he1 : (pushWord c q).esp = c.esp - 4 := pushWord_esp (by omega) hesp
  have hwf1 : (pushWord c q).Wf := pushWord_wf hc
  unfold called
  rw [pushWord_esp (by omega) hwf1.esp_lt, he1]
  omega

theorem called_words (hc : c.Wf) (hq : q < 4294967296) {ret : ℕ} (hroom : 8 ≤ c.esp) :
    WordsAt (called c q ret).mem (c.esp - 8) [u32 ret, q] := by
  have hesp := hc.esp_lt
  have he1 : (pushWord c q).esp = c.esp - 4 := pushWord_esp (by omega) hesp
  have hwf1 : (pushWord c q).Wf := pushWord_wf hc
  have hw1 : WordsAt (pushWord c q).mem (pushWord c q).esp [q] := by
    rw [he1]
    exact pushWord_wordsAt (by omega) hesp hq trivial
  have h := pushWord_wordsAt (by omega) hwf1.esp_lt (u32_lt ret) hw1
  rw [he1, show c.esp - 4 - 4 = c.esp - 8 by omega] at h
  exact h

theorem called_regs {r : Reg} (hr : r ≠ .esp) {ret : ℕ} : (called c q ret).regs r = c.regs r := by
  unfold called
  rw [pushWord_regs hr, pushWord_regs hr]

theorem called_mem (hc : c.Wf) {ret : ℕ} (hroom : 8 ≤ c.esp) (hx : x < c.esp - 8 ∨ c.esp ≤ x) :
    (called c q ret).mem x = c.mem x := by
  have hesp := hc.esp_lt
  have he1 : (pushWord c q).esp = c.esp - 4 := pushWord_esp (by omega) hesp
  have hwf1 : (pushWord c q).Wf := pushWord_wf hc
  unfold called
  rw [pushWord_mem (by omega) hwf1.esp_lt (by omega), pushWord_mem (by omega) hesp (by omega)]

theorem called_wf (hc : c.Wf) {ret : ℕ} : (called c q ret).Wf := by
  unfold called
  exact pushWord_wf (pushWord_wf hc)

/-- The pushes lay the caller's context out on its stack. -/
theorem execAll_pushes (hc : c.Wf) (hq : q < 4294967296) (ret : ℕ) (hroom : 36 ≤ c.esp) :
    Entered c q ret (execAll (called c q ret) (restored.reverse.map Instr.push)) := by
  have he2 : (called c q ret).esp = c.esp - 8 := called_esp hc (by omega)
  have hw2 : WordsAt (called c q ret).mem (called c q ret).esp [u32 ret, q] := by
    rw [he2]
    exact called_words hc hq (by omega)
  have hlen : 4 * restored.reverse.length = 28 := rfl
  have hpush := execAll_push restored.reverse (c := called c q ret) (by decide) (called_wf hc)
    (by rw [hlen, he2]; omega)
  have he3 := hpush.esp
  rw [hlen, he2, show c.esp - 8 - 28 = c.esp - 36 by omega] at he3
  refine ⟨hpush.wf, he3, ?_, ?_⟩
  · have h := hpush.words _ hw2
    rw [he3, ← List.map_reverse, List.reverse_reverse] at h
    have hmap : restored.map (called c q ret).regs = restored.map (callContext c ret).regs :=
      List.map_congr_left fun r hr => by
        have hne : r ≠ .esp := fun h => by rw [h] at hr; exact absurd hr (by decide)
        rw [called_regs hne, callContext_regs hne]
    rw [hmap] at h
    unfold Context.frame
    rw [List.append_assoc]
    exact h
  · intro x hx
    rw [hpush.mem x (by rw [hlen, he2]; omega), called_mem hc (by omega) (by omega)]

/-- The machine after `mov esi, [current_process]` and `and esi, esi`. -/
def tested (c : Cpu) (cur : ℕ) : Cpu :=
  { c with regs := Function.update c.regs .esi cur, zf := cur == 0 }

theorem tested_mem (c : Cpu) (cur : ℕ) : (tested c cur).mem = c.mem := rfl

theorem tested_esp (c : Cpu) (cur : ℕ) : (tested c cur).esp = c.esp := by
  show Function.update c.regs .esi cur .esp = c.regs .esp
  rw [Function.update_of_ne (by simp)]

theorem esp_setMem (c : Cpu) (m : Mem) : ({ c with mem := m } : Cpu).esp = c.esp := rfl

theorem execAll_test (hcur : load32 c.mem cp = v) :
    execAll c [.movLoadAbs .esi cp, .and .esi .esi] = tested c v := by
  simp only [execAll, List.foldl_cons, List.foldl_nil, exec, hcur, Function.update_self,
    Nat.and_self, Function.update_idem, tested]

theorem execAll_store (hcur : load32 c.mem cp = v) (hv : v + sizeofProcess < 4294967296) :
    execAll (tested c v) [.movLoadAbs .esi cp, .movStore .esi stackTop .esp] =
      { tested c v with mem := store32 c.mem (v + stackTop) c.esp } := by
  unfold sizeofProcess at hv
  have haddr : u32 (v + stackTop) = v + stackTop := u32_of_lt (by unfold stackTop; omega)
  have hesp : Function.update c.regs .esi v .esp = c.esp := Function.update_of_ne (by simp) ..
  simp only [execAll, List.foldl_cons, List.foldl_nil, exec, tested, hcur, Function.update_idem,
    Function.update_self, haddr, hesp]

/-- The instructions before `load_task`, once the registers are pushed. -/
theorem run_test (hcur : load32 c.mem cp = v) (hv : v + sizeofProcess < 4294967296) :
    ∃ n, run 16 (.movLoadAbs .esi cp :: .and .esi .esi :: .jz 2 :: .movLoadAbs .esi cp ::
        .movStore .esi stackTop .esp :: loadTask cp) c = run (n + 11) (loadTask cp)
      (if v = 0 then tested c v
        else { tested c v with mem := store32 c.mem (v + stackTop) c.esp }) := by
  have h1 := run_straight 14 (.jz 2 :: .movLoadAbs .esi cp :: .movStore .esi stackTop .esp ::
    loadTask cp) [.movLoadAbs .esi cp, .and .esi .esi] (c := c) (by simp [Instr.Straight])
  rw [execAll_test hcur] at h1
  have h2 := run_straight 11 (loadTask cp) [.movLoadAbs .esi cp, .movStore .esi stackTop .esp]
    (c := tested c v) (by simp [Instr.Straight])
  rw [execAll_store hcur hv] at h2
  by_cases hz : v = 0
  · have hzf : (tested c v).zf = true := beq_iff_eq.mpr hz
    refine ⟨2, h1.trans ?_⟩
    rw [run_jz, if_pos hzf, if_pos hz]
    rfl
  · have hzf : ¬(tested c v).zf = true := fun h => hz (beq_iff_eq.mp h)
    refine ⟨0, h1.trans ?_⟩
    rw [run_jz, if_neg hzf, if_neg hz]
    exact h2

/-- The machine when `load_task` begins: the context of the call lies on the caller's stack, and
    the object of the current process, at `cur`, records where. -/
structure Saved (c : Cpu) (q ret cur : ℕ) (c' : Cpu) : Prop where
  esp : c'.esp = c.esp - 36
  arg : load32 c'.mem (c.esp - 4) = q
  words : WordsAt c'.mem (c.esp - 36) (callContext c ret).frame
  top : cur ≠ 0 → load32 c'.mem (cur + stackTop) = c.esp - 36
  mem : ∀ x, x < c.esp - 36 ∨ c.esp ≤ x →
    cur = 0 ∨ x < cur + stackTop ∨ cur + stackTop + 4 ≤ x → c'.mem x = c.mem x

/-- **The save**: up to `load_task` the routine stores the registers on the caller's stack, and
    `esp` in the object of the current process, if there is one. -/
theorem run_save (hc : c.Wf) (hq : q < 4294967296) (ret : ℕ) {cur : ℕ} (hroom : 36 ≤ c.esp)
    (hcur : load32 c.mem cp = cur) (hcp : cp + 4 ≤ c.esp - 36 ∨ c.esp ≤ cp)
    (hobj : cur = 0 ∨ cur + sizeofProcess ≤ c.esp - 36 ∨ c.esp ≤ cur)
    (hlt : cur + sizeofProcess < 4294967296) :
    ∃ c' n, run 23 (switchToTask cp) (called c q ret) = run (n + 11) (loadTask cp) c' ∧
      Saved c q ret cur c' := by
  have hesp : c.esp < 4294967296 := hc.esp_lt
  have he := execAll_pushes hc hq ret hroom
  have hpushes : ∀ i ∈ restored.reverse.map Instr.push, i.Straight := by decide
  have hrun := run_straight 16 (.movLoadAbs .esi cp :: .and .esi .esi :: .jz 2 ::
    .movLoadAbs .esi cp :: .movStore .esi stackTop .esp :: loadTask cp) _ (c := called c q ret)
    hpushes
  generalize execAll (called c q ret) (restored.reverse.map Instr.push) = c1 at he hrun
  have hcur1 : load32 c1.mem cp = cur := by
    rw [← hcur]
    exact load32_congr fun x h1 h2 => he.mem x (by omega)
  obtain ⟨n, hn⟩ := run_test hcur1 hlt
  obtain ⟨hframe, hargw⟩ := WordsAt.append.mp he.words
  rw [frame_length, show c.esp - 36 + 4 * 8 = c.esp - 4 by omega] at hargw
  rw [switchToTask_eq]
  refine ⟨_, n, hrun.trans hn, ?_⟩
  by_cases hz : cur = 0
  · rw [if_pos hz]
    refine ⟨(tested_esp c1 cur).trans he.esp, ?_, ?_, fun h => absurd hz h, ?_⟩
    · rw [tested_mem]
      exact hargw.1
    · rw [tested_mem]
      exact hframe
    · intro x hx _
      rw [tested_mem]
      exact he.mem x hx
  · rw [if_neg hz]
    unfold sizeofProcess at hobj hlt
    -- the store of `esp` is into the object, away from the stack
    have hmem : ∀ x, x < cur + 24 ∨ cur + 24 + 4 ≤ x →
        store32 c1.mem (cur + stackTop) c1.esp x = c1.mem x := fun x hx =>
      store32_apply_of_outside hx
    refine ⟨?_, ?_, ?_, fun _ => ?_, ?_⟩
    · rw [esp_setMem, tested_esp, he.esp]
    · rw [← hargw.1]
      exact load32_congr fun x h1 h2 => hmem x (by omega)
    · refine hframe.congr fun x h1 h2 => hmem x ?_
      rw [frame_length] at h2
      omega
    · rw [← he.esp]
      exact load32_store32_self he.wf.esp_lt
    · intro x hx hx'
      rw [← he.mem x hx]
      unfold stackTop at hx'
      exact hmem x (by omega)

/-! ## New stacks -/

/-- A stack object over `STACK_SIZE` bytes, and the words `ws` between its top and its end. -/
structure StackAt (m : Mem) (stack bottom top : ℕ) (ws : List ℕ) : Prop where
  bottom_eq : load32 m stack = bottom
  top_eq : load32 m (stack + 4) = top
  words : WordsAt m top ws
  full : top + 4 * ws.length = bottom + STACK_SIZE

variable {s t : ℕ} {ws : List ℕ}

theorem constructStack_spec (hb : b + STACK_SIZE < 4294967296) :
    StackAt (constructStack m s STACK_SIZE b) s b (b + STACK_SIZE) [] ∧
      ∀ x, x < s ∨ s + 12 ≤ x → constructStack m s STACK_SIZE b x = m x := by
  unfold constructStack
  refine ⟨⟨?_, ?_, trivial, rfl⟩, ?_⟩
  · rw [load32_store32_of_apart (Or.inl (Nat.le_refl _)), load32_store32_self (by omega)]
  · rw [load32_store32, u32_of_lt (u32_lt _), u32_of_lt hb]
  · intro x hx
    rw [store32_apply_of_outside (by omega), store32_apply_of_outside (by omega),
      store8_apply_of_ne (by omega)]

/-- With room for a word, `push` moves `top_` down and stores the value there. -/
theorem push_eq (hbottom : load32 m s = b) (htop : load32 m (s + 4) = t) (hroom : b + 4 ≤ t) :
    push m s v = store32 (store32 m (s + 4) (t - 4)) (t - 4) v := by
  have hlt := load32_lt m (s + 4)
  have hnew : u32 (load32 m (s + 4) + 4294967292) = t - 4 := by
    unfold u32
    omega
  unfold push
  dsimp only
  rw [hnew, hbottom, if_pos (by omega)]

/-- One push, with room on a stack that does not overlap its object. -/
theorem push_spec (h : StackAt m s b t ws) (hroom : b + 4 ≤ t) (hb : b + STACK_SIZE < 4294967296)
    (hv : v < 4294967296) (hs : Apart s 8 b STACK_SIZE) :
    StackAt (push m s v) s b (t - 4) (v :: ws) ∧
      ∀ x, x < s + 4 ∨ s + 8 ≤ x → x < b ∨ b + STACK_SIZE ≤ x → push m s v x = m x := by
  unfold Apart at hs
  have hfull := h.full
  rw [push_eq h.bottom_eq h.top_eq hroom]
  refine ⟨⟨?_, ?_, ⟨load32_store32_self hv, ?_⟩, ?_⟩, ?_⟩
  · rw [load32_store32_of_apart (by omega), load32_store32_of_apart (by omega), h.bottom_eq]
  · rw [load32_store32_of_apart (by omega), load32_store32_self (by omega)]
  · rw [show t - 4 + 4 = t by omega]
    refine h.words.congr ?_
    intro x h1 h2
    rw [store32_apply_of_outside (by omega), store32_apply_of_outside (by omega)]
  · rw [List.length_cons]
    omega
  · intro x h1 h2
    rw [store32_apply_of_outside (by omega), store32_apply_of_outside (by omega)]

theorem pushes_spec (hb : b + STACK_SIZE < 4294967296) (hs : Apart s 8 b STACK_SIZE) :
    ∀ (vs : List ℕ) {m : Mem} {t : ℕ} {ws : List ℕ}, StackAt m s b t ws →
      b + 4 * vs.length ≤ t → (∀ v ∈ vs, v < 4294967296) →
      StackAt (vs.foldl (fun m v => push m s v) m) s b (t - 4 * vs.length) (vs.reverse ++ ws) ∧
        ∀ x, x < s + 4 ∨ s + 8 ≤ x → x < b ∨ b + STACK_SIZE ≤ x →
          vs.foldl (fun m v => push m s v) m x = m x
  | [], m, t, ws, h, _, _ => ⟨h, fun _ _ _ => rfl⟩
  | v :: vs, m, t, ws, h, hroom, hvs => by
    rw [List.length_cons] at hroom ⊢
    obtain ⟨h1, hm1⟩ := push_spec h (by omega) hb (hvs v List.mem_cons_self) hs
    obtain ⟨h2, hm2⟩ := pushes_spec hb hs vs h1 (by omega)
      fun w hw => hvs w (List.mem_cons_of_mem v hw)
    rw [show t - 4 - 4 * vs.length = t - 4 * (vs.length + 1) by omega] at h2
    rw [List.foldl_cons, List.reverse_cons, List.append_assoc]
    exact ⟨h2, fun x hx hx' => (hm2 x hx hx').trans (hm1 x hx hx')⟩

/-- Where a new process starts: `process_starter`, every register zero, the stack empty. -/
def startContext (bottom process_starter : ℕ) : Context :=
  ⟨fun r => if r = .esp then bottom + STACK_SIZE else 0, process_starter⟩

/-- **`create_process`** leaves the new process suspended at its start, and writes to its object
    and its stack only. -/
theorem createStack_suspended {starter : ℕ} (hp : Apart p sizeofProcess b STACK_SIZE)
    (hb : b + STACK_SIZE < 4294967296) (hstarter : starter < 4294967296) :
    Suspended (createStack m p b starter) p b (startContext b starter) ∧
      ∀ x, x < p ∨ p + sizeofProcess ≤ x → x < b ∨ b + STACK_SIZE ≤ x →
        createStack m p b starter x = m x := by
  unfold Apart sizeofProcess at hp
  have hs : Apart (p + stackOffset) 8 b STACK_SIZE := by
    unfold Apart stackOffset
    omega
  have hsmall : ∀ v ∈ [starter, 0, 0, 0, 0, 0, 0, 0], v < 4294967296 := by
    intro v hv
    simp only [List.mem_cons, List.not_mem_nil, or_false] at hv
    omega
  obtain ⟨h0, hm0⟩ := constructStack_spec (m := m) (s := p + stackOffset) hb
  obtain ⟨h1, hm1⟩ := pushes_spec hb hs [starter, 0, 0, 0, 0, 0, 0, 0] h0
    (show b + 32 ≤ b + 16384 by omega) hsmall
  have htop : load32 (createStack m p b starter) (p + stackTop) = b + STACK_SIZE - 32 := h1.top_eq
  have hle : 32 ≤ STACK_SIZE := by decide
  refine ⟨⟨?_, ?_, ?_, Nat.le_refl _⟩, ?_⟩
  · rw [htop]
    exact h1.words
  · rw [htop]
    show b + STACK_SIZE - 32 + 32 = b + STACK_SIZE
    omega
  · rw [htop]
    omega
  · intro x hx hx'
    unfold sizeofProcess at hx
    unfold stackOffset at hm0 hm1
    exact (hm1 x (by omega) hx').trans (hm0 x (by omega))

end HryOS.TaskSwitch
