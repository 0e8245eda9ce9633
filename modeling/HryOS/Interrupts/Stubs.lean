import HryOS.Lib.Trap

/-!
# The entry stubs

`isr.asm` and `fault.asm`: from the interrupt to the handler in C++, and back.

* `Registers` — `interrupts::registers`, as it lies in memory.
* `isrEntry`, `isrExit`, `faultEntry` — the stubs, split at the call of the handler.
* `isr_entered`, `isr_returns` — the handler finds the interrupted registers under its argument, and
  the machine goes on where it was interrupted.
* `fault_registers` — what a fault handler finds, with and without an error code.
-/

set_option autoImplicit false

namespace HryOS.Stubs

open ByteMemory X86

/-! ## The registers of a handler -/

/-- `interrupts::registers`. -/
structure Registers where
  edi : ℕ
  esi : ℕ
  ebp : ℕ
  esp : ℕ
  ebx : ℕ
  edx : ℕ
  ecx : ℕ
  eax : ℕ
  irq_id : ℕ
  eip : ℕ
  cs : ℕ
  eflags : ℕ
  deriving DecidableEq, Repr

/-- The members in the order of their addresses. -/
def Registers.words (r : Registers) : List ℕ :=
  [r.edi, r.esi, r.ebp, r.esp, r.ebx, r.edx, r.ecx, r.eax, r.irq_id, r.eip, r.cs, r.eflags]

/-- `*regs`. -/
def readRegisters (m : Mem) (regs : ℕ) : Registers where
  edi := load32 m regs
  esi := load32 m (regs + 4)
  ebp := load32 m (regs + 8)
  esp := load32 m (regs + 12)
  ebx := load32 m (regs + 16)
  edx := load32 m (regs + 20)
  ecx := load32 m (regs + 24)
  eax := load32 m (regs + 28)
  irq_id := load32 m (regs + 32)
  eip := load32 m (regs + 36)
  cs := load32 m (regs + 40)
  eflags := load32 m (regs + 44)

theorem readRegisters_eq {m : Mem} {regs : ℕ} {r : Registers} (h : WordsAt m regs r.words) :
    readRegisters m regs = r := by
  obtain ⟨h1, h2, h3, h4, h5, h6, h7, h8, h9, h10, h11, h12, -⟩ := h
  obtain ⟨edi, esi, ebp, esp, ebx, edx, ecx, eax, irq_id, eip, cs, eflags⟩ := r
  simp only [Nat.add_assoc, Nat.reduceAdd] at h1 h2 h3 h4 h5 h6 h7 h8 h9 h10 h11 h12
  unfold readRegisters
  rw [h1, h2, h3, h4, h5, h6, h7, h8, h9, h10, h11, h12]

/-! ## The stubs -/

/-- `create_isr`, `create_fault` and the common part behind it, up to the call. -/
def entry (handler back n : ℕ) : List StubInstr :=
  [.push n, .pushad, .movEsp .ecx, .call handler back]

/-- `isr0` to `isr15`, up to the call of `pic_handler`; `back` is the address behind it. -/
def isrEntry (pic_handler back n : ℕ) : List StubInstr := entry pic_handler back n

/-- `isr_common` behind the call. -/
def isrExit : List StubInstr := [.popad, .addEsp 4, .iret]

/-- `fault0` to `fault14` and `fault16` to `fault20`; behind the call there is no `iret`. -/
def faultEntry (fault_handler back n : ℕ) : List StubInstr := entry fault_handler back n

/-- The registers of an interrupted machine, as the stub lays them out: `esp` is the one that
    `pushad` finds. -/
def interruptedRegisters (m : Machine) (n : ℕ) : Registers where
  edi := m.cpu.regs .edi
  esi := m.cpu.regs .esi
  ebp := m.cpu.regs .ebp
  esp := m.cpu.esp - 16
  ebx := m.cpu.regs .ebx
  edx := m.cpu.regs .edx
  ecx := m.cpu.regs .ecx
  eax := m.cpu.regs .eax
  irq_id := n
  eip := m.eip
  cs := m.cs
  eflags := m.eflags

/-! ## Up to the call -/

variable {m m' : Machine} {c c' : Cpu} {ws : List ℕ} {handler back n selector offset code : ℕ}

/-- `mov ecx, esp` -/
def argument (c : Cpu) : Cpu := { c with regs := Function.update c.regs .ecx c.esp }

theorem argument_esp (c : Cpu) : (argument c).esp = c.esp := by
  show Function.update c.regs .ecx c.esp .esp = c.regs .esp
  rw [Function.update_of_ne (by decide)]

theorem argument_mem (c : Cpu) : (argument c).mem = c.mem := rfl

theorem argument_ecx (c : Cpu) : (argument c).regs .ecx = c.esp := by
  show Function.update c.regs .ecx c.esp .ecx = c.esp
  rw [Function.update_self]

theorem argument_wf (hc : c.Wf) : (argument c).Wf := by
  intro r
  by_cases hr : r = .ecx
  · rw [hr, argument_ecx]
    exact hc.esp_lt
  · show Function.update c.regs .ecx c.esp r < 4294967296
    rw [Function.update_of_ne hr]
    exact hc r

/-- A stub leaves the flags as the interrupt set them. -/
theorem enabled_entry (m : Machine) (handler back n : ℕ) :
    (execStubAll m (entry handler back n)).enabled = m.enabled := rfl

/-- What a stub leaves, entered after the words `ws` were pushed onto the stack of `c`. -/
structure Entered (ws : List ℕ) (handler back n : ℕ) (c : Cpu) (m' : Machine) : Prop where
  wf : m'.cpu.Wf
  eip : m'.eip = handler
  esp : m'.cpu.esp = c.esp - (4 * ws.length + 40)
  /-- the first argument of a `fastcall` -/
  ecx : m'.cpu.regs .ecx = c.esp - (4 * ws.length + 36)
  words : WordsAt m'.cpu.mem (c.esp - (4 * ws.length + 40))
    (back :: c.regs .edi :: c.regs .esi :: c.regs .ebp :: (c.esp - (4 * ws.length + 4)) ::
      c.regs .ebx :: c.regs .edx :: c.regs .ecx :: c.regs .eax :: n :: ws.reverse)
  mem : ∀ x, x < c.esp - (4 * ws.length + 40) ∨ c.esp ≤ x → m'.cpu.mem x = c.mem x

/-- **The stub**, for an interrupt that pushed any words. -/
theorem entry_spec (h : PushedWords ws c m.cpu) (hn : n < 4294967296)
    (hback : back < 4294967296) (hroom : 4 * ws.length + 40 ≤ c.esp) :
    Entered ws handler back n c (execStubAll m (entry handler back n)) := by
  have hesp := h.esp
  -- the number, then the eight registers
  have h1 : PushedWords [n] m.cpu (pushWord m.cpu n) := pushWord_spec h.wf hn (by omega)
  have he1 : (pushWord m.cpu n).esp = c.esp - (4 * ws.length + 4) := by
    have := h1.esp
    simp only [List.length_cons, List.length_nil] at this
    omega
  have h2 := pushad_spec (c := pushWord m.cpu n) h1.wf (by rw [he1]; omega)
  have hs : (pushWord m.cpu n).regs .esp = c.esp - (4 * ws.length + 4) :=
    (Cpu.regs_esp _).trans he1
  have hregs : pushadOrder.map (pushWord m.cpu n).regs = [c.regs .eax, c.regs .ecx, c.regs .edx,
      c.regs .ebx, c.esp - (4 * ws.length + 4), c.regs .ebp, c.regs .esi, c.regs .edi] := by
    have hr : ∀ r, r ≠ .esp → (pushWord m.cpu n).regs r = c.regs r := fun r hr =>
      (pushWord_regs hr).trans (h.regs r hr)
    simp only [pushadOrder, List.map_cons, List.map_nil, hs, hr .eax (by decide),
      hr .ecx (by decide), hr .edx (by decide), hr .ebx (by decide), hr .ebp (by decide),
      hr .esi (by decide), hr .edi (by decide)]
  rw [hregs] at h2
  have hall := (h.trans h1).trans h2
  have hesp₂ : (pushad (pushWord m.cpu n)).esp = c.esp - (4 * ws.length + 36) := by
    rw [h2.esp, he1]
    simp only [List.length_cons, List.length_nil]
    omega
  have hwords := hall.words [] trivial
  simp only [List.reverse_append, List.reverse_cons, List.reverse_nil, List.nil_append,
    List.cons_append, List.append_nil] at hwords
  have hmem := hall.mem
  simp only [List.length_append, List.length_cons, List.length_nil] at hmem
  have hwf := hall.wf
  have hcpu : (execStubAll m (entry handler back n)).cpu =
      pushWord (argument (pushad (pushWord m.cpu n))) back := rfl
  have heip : (execStubAll m (entry handler back n)).eip = handler := rfl
  generalize execStubAll m (entry handler back n) = m' at hcpu heip ⊢
  generalize pushad (pushWord m.cpu n) = c₂ at hesp₂ hwords hmem hwf hcpu
  have hwf₃ : (argument c₂).Wf := argument_wf hwf
  have hend : (argument c₂).esp - 4 = c.esp - (4 * ws.length + 40) := by
    rw [argument_esp]
    omega
  have h4 : 4 ≤ (argument c₂).esp := by
    rw [argument_esp]
    omega
  rw [← argument_esp, ← argument_mem] at hwords
  refine ⟨by rw [hcpu]; exact pushWord_wf hwf₃, heip, ?_, ?_, ?_, ?_⟩
  · rw [hcpu, pushWord_esp h4 hwf₃.esp_lt, hend]
  · rw [hcpu, pushWord_regs (by decide), argument_ecx, hesp₂]
  · rw [hcpu, ← hend]
    exact pushWord_wordsAt h4 hwf₃.esp_lt hback hwords
  · intro x hx
    rw [hcpu, pushWord_mem h4 hwf₃.esp_lt (by omega), argument_mem]
    exact hmem x (by omega)

/-! ## Interrupts of the controller -/

/-- **Up to the handler**: its argument points at the interrupted registers and the number of the
    interrupt, its return address lies below them, and nothing above the stack pointer of the
    interrupted code has changed. -/
theorem isr_entered (hm : m.Wf) (hn : n < 4294967296) (hback : back < 4294967296)
    (hroom : 52 ≤ m.cpu.esp) :
    Entered [m.eflags, m.cs, m.eip] handler back n m.cpu
      (execStubAll (interrupt m selector offset) (isrEntry handler back n)) :=
  entry_spec (interrupt_spec hm (by omega) selector offset) hn hback hroom

theorem Entered.registers (h : Entered [m.eflags, m.cs, m.eip] handler back n m.cpu m')
    (hroom : 52 ≤ m.cpu.esp) :
    WordsAt m'.cpu.mem (m.cpu.esp - 48) (interruptedRegisters m n).words := by
  have hwords := h.words.2
  simp only [List.length_cons, List.length_nil, Nat.zero_add, Nat.reduceAdd, Nat.reduceMul,
    List.reverse_cons, List.reverse_nil, List.nil_append, List.cons_append] at hwords
  rw [show m.cpu.esp - 52 + 4 = m.cpu.esp - 48 by omega] at hwords
  exact hwords

/-- **Behind the handler**: where its return finds the interrupted registers on top of the stack,
    every register, the flags and the stack pointer are those of the interrupted code, which goes
    on. -/
theorem isr_returns {m₂ : Machine} (hm : m.Wf) (hroom : 48 ≤ m.cpu.esp)
    (hesp : m₂.cpu.esp = m.cpu.esp - 48)
    (hwords : WordsAt m₂.cpu.mem m₂.cpu.esp (interruptedRegisters m n).words) :
    execStubAll m₂ isrExit = { m with cpu := { m.cpu with mem := m₂.cpu.mem } } := by
  have hlt := hm.cpu.esp_lt
  have hcs := hm.cs
  have hsplit : (interruptedRegisters m n).words =
      [m.cpu.regs .edi, m.cpu.regs .esi, m.cpu.regs .ebp, m.cpu.esp - 16, m.cpu.regs .ebx,
        m.cpu.regs .edx, m.cpu.regs .ecx, m.cpu.regs .eax] ++ ([n] ++ [m.eip, m.cs, m.eflags]) :=
    rfl
  rw [hsplit] at hwords
  obtain ⟨hgeneral, hrest⟩ := WordsAt.append.mp hwords
  obtain ⟨-, hsaved⟩ := WordsAt.append.mp hrest
  simp only [List.length_cons, List.length_nil, Nat.zero_add, Nat.reduceAdd, Nat.reduceMul,
    Nat.mul_one] at hsaved
  obtain ⟨hmem, hesp', hedi, hesi, hebp, hebx, hedx, hecx, heax⟩ :=
    popad_spec hgeneral (by omega)
  have hexit : execStubAll m₂ isrExit =
      iret { m₂ with cpu := addEsp (popad m₂.cpu) 4 } := rfl
  rw [hexit]
  generalize popad m₂.cpu = c₁ at hmem hesp' hedi hesi hebp hebx hedx hecx heax
  have hesp₁ : (addEsp c₁ 4).esp = m.cpu.esp - 12 := by
    rw [addEsp_esp (by omega)]
    omega
  have hsaved' : WordsAt (addEsp c₁ 4).mem (addEsp c₁ 4).esp [m.eip, m.cs, m.eflags] := by
    rw [hesp₁, addEsp_mem, hmem, show m.cpu.esp - 12 = m₂.cpu.esp + 32 + 4 by omega]
    exact hsaved
  rw [iret_spec hsaved' (by rw [hesp₁]; omega) hm.cs, ← hm.zf]
  have hregs : (addEsp (addEsp c₁ 4) 12).regs = m.cpu.regs := by
    funext r
    by_cases hr : r = .esp
    · rw [hr, Cpu.regs_esp, addEsp_esp (by rw [hesp₁]; omega), hesp₁, Cpu.regs_esp]
      omega
    · rw [addEsp_regs hr, addEsp_regs hr]
      cases r with
      | eax => exact heax
      | ecx => exact hecx
      | edx => exact hedx
      | ebx => exact hebx
      | esp => exact absurd rfl hr
      | ebp => exact hebp
      | esi => exact hesi
      | edi => exact hedi
  have hcpu : ({ addEsp (addEsp c₁ 4) 12 with zf := m.cpu.zf } : Cpu) =
      { m.cpu with mem := m₂.cpu.mem } := by
    dsimp only
    rw [hregs, addEsp_mem, addEsp_mem, hmem]
  rw [hcpu]

/-! ## Faults -/

/-- The exceptions for which the processor pushes an error code. -/
def pushesErrorCode (n : ℕ) : Bool := n ∈ [8, 10, 11, 12, 13, 14, 17]

/-- The exception `n` through its gate; `code` is its error code, if it has one. -/
def fault (m : Machine) (n code selector offset : ℕ) : Machine :=
  if pushesErrorCode n then interruptWithCode m selector offset code
  else interrupt m selector offset

/-- The registers of a fault with an error code, as the stub lays them out: the stub has no place
    for the code. -/
def shiftedRegisters (m : Machine) (n code : ℕ) : Registers :=
  { interruptedRegisters m n with esp := m.cpu.esp - 20, eip := code, cs := m.eip, eflags := m.cs }

theorem interruptWithCode_spec (hm : m.Wf) (hroom : 16 ≤ m.cpu.esp) (hcode : code < 4294967296) :
    PushedWords [m.eflags, m.cs, m.eip, code] m.cpu
      (interruptWithCode m selector offset code).cpu := by
  have h := interrupt_spec hm (by omega) selector offset
  have hesp := h.esp
  simp only [List.length_cons, List.length_nil] at hesp
  exact h.trans (pushWord_spec h.wf hcode (by omega))

/-- The words of a stub are the registers its argument points to. -/
theorem Entered.readRegisters (h : Entered ws handler back n c m') {r : Registers}
    (vs : List ℕ) (hroom : 4 * ws.length + 40 ≤ c.esp)
    (hwords : c.regs .edi :: c.regs .esi :: c.regs .ebp :: (c.esp - (4 * ws.length + 4)) ::
      c.regs .ebx :: c.regs .edx :: c.regs .ecx :: c.regs .eax :: n :: ws.reverse = r.words ++ vs) :
    Stubs.readRegisters m'.cpu.mem (m'.cpu.regs .ecx) = r := by
  have htail := h.words.2
  rw [hwords, show c.esp - (4 * ws.length + 40) + 4 = c.esp - (4 * ws.length + 36) by omega,
    ← h.ecx] at htail
  exact readRegisters_eq (WordsAt.append.mp htail).1

/-- **What a fault handler finds**: the general registers and the number of every fault; `eip`, `cs`
    and `eflags` of a fault without an error code, and for the others the code in the place of
    `eip`, and `eip` and `cs` in the places behind it. -/
theorem fault_registers (m : Machine) (hm : m.Wf) (n code handler back selector offset : ℕ)
    (hn : n ≤ 20) (hcode : code < 4294967296) (hback : back < 4294967296)
    (hroom : 56 ≤ m.cpu.esp) :
    let m' := execStubAll (fault m n code selector offset) (faultEntry handler back n)
    readRegisters m'.cpu.mem (m'.cpu.regs .ecx) =
      (if pushesErrorCode n then shiftedRegisters m n code else interruptedRegisters m n) ∧
    m'.eip = handler ∧ m'.enabled = false ∧
    ∀ x, m.cpu.esp ≤ x → m'.cpu.mem x = m.cpu.mem x := by
  intro m'
  have hoff : m'.enabled = false := by
    have hfault : (fault m n code selector offset).enabled = false := by
      unfold fault
      split
      · rw [enabled_interruptWithCode, enabled_interrupt]
      · rw [enabled_interrupt]
    exact (enabled_entry _ handler back n).trans hfault
  cases hp : pushesErrorCode n with
  | true =>
    have h : Entered [m.eflags, m.cs, m.eip, code] handler back n m.cpu m' := by
      refine entry_spec ?_ (by omega) hback hroom
      unfold fault
      rw [if_pos hp]
      exact interruptWithCode_spec hm (by omega) hcode
    rw [if_pos rfl]
    refine ⟨h.readRegisters [m.eflags] hroom ?_, h.eip, hoff, fun x hx => h.mem x (Or.inr hx)⟩
    simp [Registers.words, shiftedRegisters, interruptedRegisters]
  | false =>
    have h : Entered [m.eflags, m.cs, m.eip] handler back n m.cpu m' := by
      refine entry_spec ?_ (by omega) hback
        (by simp only [List.length_cons, List.length_nil]; omega)
      unfold fault
      rw [if_neg (by simp [hp])]
      exact interrupt_spec hm (by omega) selector offset
    have hroom' : 4 * [m.eflags, m.cs, m.eip].length + 40 ≤ m.cpu.esp := by
      simp only [List.length_cons, List.length_nil]
      omega
    rw [if_neg (by simp)]
    refine ⟨h.readRegisters [] hroom' ?_, h.eip, hoff, fun x hx => h.mem x (Or.inr hx)⟩
    simp [Registers.words, interruptedRegisters]

/-- A page fault: the handler finds its code in the place of `eip`. -/
theorem fault_registers_example :
    let m : Machine := ⟨⟨fun r => if r = .esp then 4096 else 7, false, fun _ => 0⟩, 5, 8, 514⟩
    let m' := execStubAll (fault m 14 2 8 1024) (faultEntry 512 1040 14)
    (readRegisters m'.cpu.mem (m'.cpu.regs .ecx)).eip = 2 ∧
      (readRegisters m'.cpu.mem (m'.cpu.regs .ecx)).cs = 5 := by
  intro m m'
  have hm : m.Wf := by
    refine ⟨fun r => ?_, show 5 < 4294967296 by omega, show 8 < 65536 by omega,
      show 514 < 4294967296 by omega, show false = (514 : ℕ).testBit zeroFlag by decide⟩
    show (if r = .esp then 4096 else 7) < 4294967296
    split <;> omega
  have h := (fault_registers m hm 14 2 512 1040 8 1024 (by omega) (by omega) (by omega)
    (show 56 ≤ 4096 by omega)).1
  exact ⟨congrArg Registers.eip h, congrArg Registers.cs h⟩

end HryOS.Stubs
