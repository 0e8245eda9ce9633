import Mathlib.Data.Nat.Bitwise
import HryOS.Lib.X86

/-!
# Interrupts of 32-bit x86

What an interrupt through a gate of the same privilege does, and the instructions of an entry
stub: `push` of a constant, `pushad`, `popad`, `call`, `add esp` and `iret`.

* `Machine` — a `Cpu` with `eip`, `cs` and `eflags`.
* `pushWords_spec` — a block of pushed words lies on the stack, the last one lowest.
* `popad_spec`, `iret_spec` — what they load from the words on top of the stack.
-/

set_option autoImplicit false

namespace X86

open ByteMemory

/-- A processor with the registers that an interrupt saves. -/
structure Machine where
  cpu : Cpu
  eip : ℕ
  cs : ℕ
  eflags : ℕ

/-- The bit of ZF in `eflags`. -/
def zeroFlag : ℕ := 6

/-- The bit of IF in `eflags`. -/
def interruptFlag : ℕ := 9

/-- The sizes of the registers; ZF is one of the flags. -/
structure Machine.Wf (m : Machine) : Prop where
  cpu : m.cpu.Wf
  eip : m.eip < 4294967296
  cs : m.cs < 65536
  eflags : m.eflags < 4294967296
  zf : m.cpu.zf = m.eflags.testBit zeroFlag

/-- Interrupts are on. -/
def Machine.enabled (m : Machine) : Bool := m.eflags.testBit interruptFlag

/-- Push words one after the other. -/
def pushWords (c : Cpu) (ws : List ℕ) : Cpu := ws.foldl pushWord c

/-- An interrupt through an interrupt gate: it turns interrupts off. -/
def interrupt (m : Machine) (selector offset : ℕ) : Machine :=
  { cpu := pushWords m.cpu [m.eflags, m.cs, m.eip]
    eip := offset
    cs := selector
    eflags := if m.enabled then m.eflags - 2 ^ interruptFlag else m.eflags }

/-- An interrupt that also pushes an error code. -/
def interruptWithCode (m : Machine) (selector offset code : ℕ) : Machine :=
  let m := interrupt m selector offset
  { m with cpu := pushWord m.cpu code }

/-- The registers in the order `pushad` stores them. -/
def pushadOrder : List Reg := [.eax, .ecx, .edx, .ebx, .esp, .ebp, .esi, .edi]

/-- `pushad`: the value of `esp` is the one before. -/
def pushad (c : Cpu) : Cpu := pushWords c (pushadOrder.map c.regs)

/-- `add esp, n` -/
def addEsp (c : Cpu) (n : ℕ) : Cpu :=
  { c with regs := Function.update c.regs .esp (u32 (c.esp + n)) }

/-- `popad`: the stored value of `esp` is skipped. -/
def popad (c : Cpu) : Cpu :=
  execAll (addEsp (execAll c ([.edi, .esi, .ebp].map Instr.pop)) 4)
    ([.ebx, .edx, .ecx, .eax].map Instr.pop)

/-- `iret`, to the same privilege. -/
def iret (m : Machine) : Machine :=
  let c := m.cpu
  let eflags := load32 c.mem (u32 (c.esp + 8))
  { cpu := { addEsp c 12 with zf := eflags.testBit zeroFlag }
    eip := load32 c.mem c.esp
    cs := load32 c.mem (u32 (c.esp + 4)) % 65536
    eflags := eflags }

/-- The instructions of a stub. -/
inductive StubInstr
  | push (value : ℕ)
  | pushad
  /-- `mov dst, esp` -/
  | movEsp (dst : Reg)
  /-- `call target`, with the address of the next instruction -/
  | call (target ret : ℕ)
  | popad
  | addEsp (n : ℕ)
  | iret
  deriving DecidableEq, Repr

/-- The effect of an instruction; `eip` is kept by calls and `iret` only. -/
def execStub (m : Machine) : StubInstr → Machine
  | .push value => { m with cpu := pushWord m.cpu value }
  | .pushad => { m with cpu := X86.pushad m.cpu }
  | .movEsp dst =>
    { m with cpu := { m.cpu with regs := Function.update m.cpu.regs dst m.cpu.esp } }
  | .call target ret => { m with cpu := pushWord m.cpu ret, eip := target }
  | .popad => { m with cpu := X86.popad m.cpu }
  | .addEsp n => { m with cpu := X86.addEsp m.cpu n }
  | .iret => X86.iret m

/-- Execute a part of a stub. -/
def execStubAll (m : Machine) (is : List StubInstr) : Machine := is.foldl execStub m

/-! ## Pushed words -/

variable {c c' : Cpu} {m : Machine} {ws : List ℕ} {r : Reg}

theorem Cpu.regs_esp (c : Cpu) : c.regs .esp = c.esp := rfl

/-- What a block of pushed words leaves. -/
structure PushedWords (ws : List ℕ) (c c' : Cpu) : Prop where
  wf : c'.Wf
  zf : c'.zf = c.zf
  esp : c'.esp = c.esp - 4 * ws.length
  regs : ∀ r, r ≠ .esp → c'.regs r = c.regs r
  words : ∀ vs, WordsAt c.mem c.esp vs → WordsAt c'.mem c'.esp (ws.reverse ++ vs)
  mem : ∀ x, x < c.esp - 4 * ws.length ∨ c.esp ≤ x → c'.mem x = c.mem x

theorem pushWords_spec : ∀ (ws : List ℕ) {c : Cpu}, c.Wf → (∀ w ∈ ws, w < 4294967296) →
    4 * ws.length ≤ c.esp → PushedWords ws c (pushWords c ws)
  | [], c, hc, _, _ => ⟨hc, rfl, rfl, fun _ _ => rfl, fun _ h => h, fun _ _ => rfl⟩
  | w :: ws, c, hc, hws, hroom => by
    rw [List.length_cons] at hroom
    have h4 : 4 ≤ c.esp := by omega
    have hesp : (pushWord c w).esp = c.esp - 4 := pushWord_esp h4 hc.esp_lt
    have ih := pushWords_spec ws (c := pushWord c w) (pushWord_wf hc)
      (fun v hv => hws v (List.mem_cons_of_mem w hv)) (by rw [hesp]; omega)
    refine ⟨ih.wf, ih.zf, ?_, fun q hq => (ih.regs q hq).trans (pushWord_regs hq), ?_, ?_⟩
    · show (pushWords (pushWord c w) ws).esp = _
      rw [ih.esp, hesp, List.length_cons]
      omega
    · intro vs hvs
      have h1 : WordsAt (pushWord c w).mem (pushWord c w).esp (w :: vs) := by
        rw [hesp]
        exact pushWord_wordsAt h4 hc.esp_lt (hws w List.mem_cons_self) hvs
      have h2 := ih.words _ h1
      rw [List.reverse_cons, List.append_assoc]
      exact h2
    · intro x hx
      rw [List.length_cons] at hx
      have hx' : x < c.esp - 4 ∨ c.esp ≤ x := by omega
      rw [← pushWord_mem (v := w) h4 hc.esp_lt hx']
      exact ih.mem x (by rw [hesp]; omega)

theorem pushWord_spec {w : ℕ} (hc : c.Wf) (hw : w < 4294967296) (hroom : 4 ≤ c.esp) :
    PushedWords [w] c (pushWord c w) := by
  have hone : ∀ v ∈ [w], v < 4294967296 := by simpa using hw
  have h := pushWords_spec [w] hc hone hroom
  rw [pushWords, List.foldl_cons, List.foldl_nil] at h
  exact h

/-- Blocks one after the other. -/
theorem PushedWords.trans {vs : List ℕ} {c'' : Cpu} (h : PushedWords ws c c')
    (h' : PushedWords vs c' c'') : PushedWords (ws ++ vs) c c'' := by
  have hesp := h.esp
  have hlen : 4 * (ws ++ vs).length = 4 * ws.length + 4 * vs.length := by
    rw [List.length_append, Nat.mul_add]
  refine ⟨h'.wf, h'.zf.trans h.zf, ?_, fun r hr => (h'.regs r hr).trans (h.regs r hr), ?_, ?_⟩
  · rw [h'.esp, hesp, hlen]
    omega
  · intro us hus
    rw [List.reverse_append, List.append_assoc]
    exact h'.words _ (h.words us hus)
  · intro x hx
    rw [hlen] at hx
    rw [h'.mem x (by rw [hesp]; omega), h.mem x (by omega)]

theorem pushad_spec (hc : c.Wf) (hroom : 32 ≤ c.esp) :
    PushedWords (pushadOrder.map c.regs) c (pushad c) := by
  refine pushWords_spec _ hc ?_ hroom
  intro w hw
  obtain ⟨r, -, rfl⟩ := List.mem_map.mp hw
  exact hc r

/-! ## Loaded words -/

theorem addEsp_esp {n : ℕ} (h : c.esp + n < 4294967296) : (addEsp c n).esp = c.esp + n := by
  show Function.update c.regs .esp (u32 (c.esp + n)) .esp = c.esp + n
  rw [Function.update_self, u32_of_lt h]

theorem addEsp_mem (c : Cpu) (n : ℕ) : (addEsp c n).mem = c.mem := rfl

theorem addEsp_regs {n : ℕ} (hr : r ≠ .esp) : (addEsp c n).regs r = c.regs r := by
  show Function.update c.regs .esp (u32 (c.esp + n)) r = c.regs r
  rw [Function.update_of_ne hr]

/-- `popad`, with the words of the eight registers on top of the stack. -/
theorem popad_spec {edi esi ebp esp ebx edx ecx eax : ℕ}
    (hwords : WordsAt c.mem c.esp [edi, esi, ebp, esp, ebx, edx, ecx, eax])
    (hlt : c.esp + 32 < 4294967296) :
    (popad c).mem = c.mem ∧ (popad c).esp = c.esp + 32 ∧
      (popad c).regs .edi = edi ∧ (popad c).regs .esi = esi ∧ (popad c).regs .ebp = ebp ∧
      (popad c).regs .ebx = ebx ∧ (popad c).regs .edx = edx ∧ (popad c).regs .ecx = ecx ∧
      (popad c).regs .eax = eax := by
  have hsplit : [edi, esi, ebp, esp, ebx, edx, ecx, eax] =
      [edi, esi, ebp] ++ ([esp] ++ [ebx, edx, ecx, eax]) := rfl
  rw [hsplit] at hwords
  obtain ⟨hlow, hrest⟩ := WordsAt.append.mp hwords
  obtain ⟨-, hhigh⟩ := WordsAt.append.mp hrest
  have hpop := execAll_pop [.edi, .esi, .ebp] (c := c) (by decide) (by decide) rfl hlow
    (by simp only [List.length_cons, List.length_nil]; omega)
  unfold popad
  generalize execAll c ([.edi, .esi, .ebp].map Instr.pop) = c₁ at hpop ⊢
  have hesp₁ : c₁.esp = c.esp + 12 := hpop.esp
  have hesp₂ : (addEsp c₁ 4).esp = c.esp + 16 := by
    rw [addEsp_esp (by omega), hesp₁]
  have hhigh₂ : WordsAt (addEsp c₁ 4).mem (addEsp c₁ 4).esp [ebx, edx, ecx, eax] := by
    rw [hesp₂, show (addEsp c₁ 4).mem = c.mem from hpop.mem]
    exact hhigh
  have hpop₂ := execAll_pop [.ebx, .edx, .ecx, .eax] (c := addEsp c₁ 4) (by decide) (by decide) rfl
    hhigh₂ (by rw [hesp₂]; simp only [List.length_cons, List.length_nil]; omega)
  generalize execAll (addEsp c₁ 4) ([.ebx, .edx, .ecx, .eax].map Instr.pop) = c₂ at hpop₂ ⊢
  have hesp₃ : c₂.esp = (addEsp c₁ 4).esp + 16 := hpop₂.esp
  have hkept : ∀ r, r ≠ .esp → r ∉ [Reg.ebx, .edx, .ecx, .eax] → c₂.regs r = c₁.regs r :=
    fun r hr hnot => (hpop₂.regs r hr hnot).trans (addEsp_regs hr)
  have hl := hpop.loaded
  have hh := hpop₂.loaded
  simp only [List.forall₂_cons] at hl hh
  obtain ⟨hedi, hesi, hebp, -⟩ := hl
  obtain ⟨hebx, hedx, hecx, heax, -⟩ := hh
  refine ⟨hpop₂.mem.trans hpop.mem, by rw [hesp₃, hesp₂], ?_, ?_, ?_, hebx, hedx, hecx, heax⟩
  · exact (hkept .edi (by decide) (by decide)).trans hedi
  · exact (hkept .esi (by decide) (by decide)).trans hesi
  · exact (hkept .ebp (by decide) (by decide)).trans hebp

/-- `iret`, with the three words of an interrupt on top of the stack. -/
theorem iret_spec {eip cs eflags : ℕ} (hwords : WordsAt m.cpu.mem m.cpu.esp [eip, cs, eflags])
    (hlt : m.cpu.esp + 12 < 4294967296) (hcs : cs < 65536) :
    iret m = { cpu := { addEsp m.cpu 12 with zf := eflags.testBit zeroFlag }
               eip := eip, cs := cs, eflags := eflags } := by
  obtain ⟨heip, hcs', heflags, -⟩ := hwords
  unfold iret
  dsimp only
  rw [heip, u32_of_lt (show m.cpu.esp + 4 < 4294967296 by omega), hcs', Nat.mod_eq_of_lt hcs,
    u32_of_lt (show m.cpu.esp + 8 < 4294967296 by omega), heflags]

/-! ## Interrupts -/

theorem interrupt_spec (hm : m.Wf) (hroom : 12 ≤ m.cpu.esp) (selector offset : ℕ) :
    PushedWords [m.eflags, m.cs, m.eip] m.cpu (interrupt m selector offset).cpu := by
  refine pushWords_spec _ hm.cpu ?_ hroom
  intro w hw
  have hcs := hm.cs
  simp only [List.mem_cons, List.not_mem_nil, or_false] at hw
  rcases hw with rfl | rfl | rfl
  · exact hm.eflags
  · omega
  · exact hm.eip

theorem enabled_setCpu (m : Machine) (c : Cpu) :
    ({ m with cpu := c } : Machine).enabled = m.enabled := rfl

theorem enabled_interruptWithCode (m : Machine) (selector offset code : ℕ) :
    (interruptWithCode m selector offset code).enabled =
      (interrupt m selector offset).enabled := by
  unfold interruptWithCode
  exact enabled_setCpu _ _

theorem enabled_interrupt (m : Machine) (selector offset : ℕ) :
    (interrupt m selector offset).enabled = false := by
  unfold interrupt Machine.enabled
  dsimp only
  cases hm : m.eflags.testBit interruptFlag with
  | false => rw [if_neg (by simp), hm]
  | true =>
    rw [if_pos rfl]
    obtain ⟨k, hk⟩ : ∃ k, m.eflags = k + 2 ^ interruptFlag :=
      ⟨m.eflags - 2 ^ interruptFlag, (Nat.sub_add_cancel (Nat.ge_two_pow_of_testBit hm)).symm⟩
    rw [hk, Nat.add_sub_cancel]
    rw [hk, Nat.add_comm, Nat.testBit_two_pow_add_eq] at hm
    simpa using hm

end X86
