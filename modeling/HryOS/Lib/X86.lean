import Mathlib.Logic.Function.Basic
import HryOS.Lib.ByteMemory

/-!
# A fragment of 32-bit x86

Registers, memory and the instructions a context switch needs: stack operations, moves to and
from memory, `and`, a forward `jz` and `ret`.

* `run` — execute a routine up to its `ret`; `run_straight`, `run_jz` — its rules.
* `WordsAt` — consecutive words in memory.
* `execAll_push`, `execAll_pop` — a block of pushes lays the registers out on the stack, a block
  of pops loads them from it.
-/

set_option autoImplicit false

namespace X86

open ByteMemory

/-- The general registers. -/
inductive Reg
  | eax | ecx | edx | ebx | esp | ebp | esi | edi
  deriving DecidableEq, Repr

/-- Registers, the zero flag and memory. -/
structure Cpu where
  regs : Reg → ℕ
  zf : Bool
  mem : Mem

/-- The value of the stack pointer. -/
def Cpu.esp (c : Cpu) : ℕ := c.regs .esp

/-- Every register holds 32 bits. -/
def Cpu.Wf (c : Cpu) : Prop := ∀ r, c.regs r < 4294967296

theorem Cpu.Wf.esp_lt {c : Cpu} (h : c.Wf) : c.esp < 4294967296 := h .esp

theorem Cpu.Wf.setMem {c : Cpu} (h : c.Wf) (m : Mem) : ({ c with mem := m } : Cpu).Wf := h

/-- The instructions. -/
inductive Instr
  | push (r : Reg)
  | pop (r : Reg)
  /-- `mov dst, [addr]` -/
  | movLoadAbs (dst : Reg) (addr : ℕ)
  /-- `mov [addr], src` -/
  | movStoreAbs (addr : ℕ) (src : Reg)
  /-- `mov dst, [base + offset]` -/
  | movLoad (dst base : Reg) (offset : ℕ)
  /-- `mov [base + offset], src` -/
  | movStore (base : Reg) (offset : ℕ) (src : Reg)
  /-- `and dst, src` -/
  | and (dst src : Reg)
  /-- `jz`, over the next `skip` instructions -/
  | jz (skip : ℕ)
  | ret
  deriving DecidableEq, Repr

/-- `sub esp, 4` and a store, as `push` and `call` do. -/
def pushWord (c : Cpu) (v : ℕ) : Cpu :=
  let esp := u32 (c.esp + 4294967292)
  { c with regs := Function.update c.regs .esp esp, mem := store32 c.mem esp v }

/-- The effect of an instruction other than `jz` and `ret`. -/
def exec (c : Cpu) : Instr → Cpu
  | .push r => pushWord c (c.regs r)
  | .pop r =>
    let v := load32 c.mem c.esp
    { c with regs := Function.update (Function.update c.regs .esp (u32 (c.esp + 4))) r v }
  | .movLoadAbs dst addr => { c with regs := Function.update c.regs dst (load32 c.mem addr) }
  | .movStoreAbs addr src => { c with mem := store32 c.mem addr (c.regs src) }
  | .movLoad dst base offset =>
    { c with regs := Function.update c.regs dst (load32 c.mem (u32 (c.regs base + offset))) }
  | .movStore base offset src =>
    { c with mem := store32 c.mem (u32 (c.regs base + offset)) (c.regs src) }
  | .and dst src =>
    let v := c.regs dst &&& c.regs src
    { c with regs := Function.update c.regs dst v, zf := v == 0 }
  | .jz _ => c
  | .ret => c

/-- Execute a routine; the result is the address it returns to, and `none` that it ran out of
    fuel or off its end. -/
def run : ℕ → List Instr → Cpu → Option (ℕ × Cpu)
  | 0, _, _ => none
  | _, [], _ => none
  | fuel + 1, .jz skip :: is, c => run fuel (if c.zf then is.drop skip else is) c
  | _ + 1, .ret :: _, c =>
    some (load32 c.mem c.esp, { c with regs := Function.update c.regs .esp (u32 (c.esp + 4)) })
  | fuel + 1, i :: is, c => run fuel is (exec c i)

/-- The effect of a block of instructions without `jz` and `ret`. -/
def execAll (c : Cpu) (is : List Instr) : Cpu := is.foldl exec c

/-- Neither `jz` nor `ret`. -/
def Instr.Straight : Instr → Prop
  | .jz _ | .ret => False
  | _ => True

instance : ∀ i : Instr, Decidable i.Straight
  | .jz _ | .ret => isFalse id
  | .push _ | .pop _ | .movLoadAbs .. | .movStoreAbs .. | .movLoad .. | .movStore .. | .and .. =>
    isTrue trivial

variable {c : Cpu} {is : List Instr} {fuel : ℕ} {r : Reg} {m m' : Mem} {a v : ℕ}

@[simp] theorem execAll_nil : execAll c [] = c := rfl

theorem execAll_cons (i : Instr) : execAll c (i :: is) = execAll (exec c i) is := rfl

theorem run_cons {i : Instr} (hi : i.Straight) :
    run (fuel + 1) (i :: is) c = run fuel is (exec c i) := by
  cases i with
  | jz _ => exact hi.elim
  | ret => exact hi.elim
  | _ => rfl

theorem run_straight (fuel : ℕ) (is : List Instr) : ∀ (block : List Instr) {c : Cpu},
    (∀ i ∈ block, i.Straight) →
      run (block.length + fuel) (block ++ is) c = run fuel is (execAll c block)
  | [], c, _ => by rw [List.length_nil, Nat.zero_add]; rfl
  | i :: block, c, h => by
    rw [List.length_cons, Nat.add_right_comm, List.cons_append, run_cons (h i List.mem_cons_self),
      run_straight fuel is block fun j hj => h j (List.mem_cons_of_mem i hj), execAll_cons]

theorem run_jz (skip : ℕ) : run (fuel + 1) (.jz skip :: is) c =
    run fuel (if c.zf then is.drop skip else is) c := rfl

theorem run_ret : run (fuel + 1) (.ret :: is) c = some (load32 c.mem c.esp,
    { c with regs := Function.update c.regs .esp (u32 (c.esp + 4)) }) := rfl

/-! ## Consecutive words -/

/-- The words `ws` lie in memory from `a` on. -/
def WordsAt (m : Mem) : ℕ → List ℕ → Prop
  | _, [] => True
  | a, w :: ws => load32 m a = w ∧ WordsAt m (a + 4) ws

theorem WordsAt.congr : ∀ {ws : List ℕ} {a : ℕ}, WordsAt m a ws →
    (∀ x, a ≤ x → x < a + 4 * ws.length → m' x = m x) → WordsAt m' a ws
  | [], _, _, _ => trivial
  | w :: ws, a, ⟨hw, hws⟩, h => by
    simp only [List.length_cons] at h
    refine ⟨?_, hws.congr fun x h1 h2 => h x (by omega) (by omega)⟩
    rw [← hw]
    exact load32_congr fun x h1 h2 => h x h1 (by omega)

theorem WordsAt.append {ws vs : List ℕ} :
    WordsAt m a (ws ++ vs) ↔ WordsAt m a ws ∧ WordsAt m (a + 4 * ws.length) vs := by
  induction ws generalizing a with
  | nil => simp [WordsAt]
  | cons w ws ih =>
    rw [List.cons_append, WordsAt, WordsAt, ih, and_assoc, List.length_cons,
      show a + 4 + 4 * ws.length = a + 4 * (ws.length + 1) by omega]

theorem WordsAt.lt : ∀ {ws : List ℕ} {a : ℕ}, WordsAt m a ws → ∀ w ∈ ws, w < 4294967296
  | [], _, _, w, hw => absurd hw List.not_mem_nil
  | v :: ws, a, ⟨hv, hws⟩, w, hw => by
    rcases List.mem_cons.mp hw with rfl | hw
    · rw [← hv]
      exact load32_lt m a
    · exact hws.lt w hw

/-! ## Blocks of pushes and pops -/

theorem pushWord_eq (h4 : 4 ≤ c.esp) (hlt : c.esp < 4294967296) :
    pushWord c v = { c with regs := Function.update c.regs .esp (c.esp - 4)
                            mem := store32 c.mem (c.esp - 4) v } := by
  have hesp : u32 (c.esp + 4294967292) = c.esp - 4 := by unfold u32; omega
  unfold pushWord
  rw [hesp]

theorem pushWord_esp (h4 : 4 ≤ c.esp) (hlt : c.esp < 4294967296) :
    (pushWord c v).esp = c.esp - 4 := by
  rw [pushWord_eq h4 hlt]
  show Function.update c.regs .esp (c.esp - 4) .esp = c.esp - 4
  rw [Function.update_self]

theorem pushWord_regs (hr : r ≠ .esp) : (pushWord c v).regs r = c.regs r := by
  unfold pushWord
  dsimp only
  rw [Function.update_of_ne hr]

theorem pushWord_wf (hc : c.Wf) : (pushWord c v).Wf := fun r => by
  by_cases hr : r = .esp
  · rw [hr]
    unfold pushWord
    dsimp only
    rw [Function.update_self]
    exact u32_lt _
  · rw [pushWord_regs hr]
    exact hc r

theorem pushWord_wordsAt {ws : List ℕ} (h4 : 4 ≤ c.esp) (hlt : c.esp < 4294967296)
    (hv : v < 4294967296) (hws : WordsAt c.mem c.esp ws) :
    WordsAt (pushWord c v).mem (c.esp - 4) (v :: ws) := by
  rw [pushWord_eq h4 hlt]
  refine ⟨load32_store32_self hv, ?_⟩
  rw [Nat.sub_add_cancel h4]
  exact hws.congr fun x h1 _ => store32_apply_of_outside (by omega)

theorem pushWord_mem (h4 : 4 ≤ c.esp) (hlt : c.esp < 4294967296) {x : ℕ}
    (hx : x < c.esp - 4 ∨ c.esp ≤ x) : (pushWord c v).mem x = c.mem x := by
  rw [pushWord_eq h4 hlt]
  exact store32_apply_of_outside (by omega)

/-- What a block of pushes leaves. -/
structure Pushed (rs : List Reg) (c c' : Cpu) : Prop where
  wf : c'.Wf
  esp : c'.esp = c.esp - 4 * rs.length
  regs : ∀ r, r ≠ .esp → c'.regs r = c.regs r
  words : ∀ ws, WordsAt c.mem c.esp ws → WordsAt c'.mem c'.esp ((rs.map c.regs).reverse ++ ws)
  mem : ∀ x, x < c.esp - 4 * rs.length ∨ c.esp ≤ x → c'.mem x = c.mem x

theorem execAll_push : ∀ (rs : List Reg) {c : Cpu}, .esp ∉ rs → c.Wf →
    4 * rs.length ≤ c.esp → Pushed rs c (execAll c (rs.map Instr.push))
  | [], c, _, hc, _ => ⟨hc, rfl, fun _ _ => rfl, fun _ h => h, fun _ _ => rfl⟩
  | r :: rs, c, hrs, hc, hroom => by
    obtain ⟨hr, hrs'⟩ := not_or.mp (List.mem_cons.not.mp hrs)
    rw [List.length_cons] at hroom
    have h4 : 4 ≤ c.esp := by omega
    have hesp : (pushWord c (c.regs r)).esp = c.esp - 4 := pushWord_esp h4 hc.esp_lt
    have ih := execAll_push rs (c := pushWord c (c.regs r)) hrs' (pushWord_wf hc)
      (by rw [hesp]; omega)
    rw [List.map_cons, execAll_cons]
    refine ⟨ih.wf, ?_, fun q hq => (ih.regs q hq).trans (pushWord_regs hq), ?_, ?_⟩
    · show (execAll (pushWord c (c.regs r)) _).esp = _
      rw [ih.esp, hesp, List.length_cons]
      omega
    · intro ws hws
      have hmap : rs.map (pushWord c (c.regs r)).regs = rs.map c.regs :=
        List.map_congr_left fun q hq => pushWord_regs fun hqe => hrs' (hqe ▸ hq)
      have h1 : WordsAt (pushWord c (c.regs r)).mem (pushWord c (c.regs r)).esp
          (c.regs r :: ws) := by
        rw [hesp]
        exact pushWord_wordsAt h4 hc.esp_lt (hc r) hws
      have h2 := ih.words _ h1
      rw [hmap] at h2
      rw [List.map_cons, List.reverse_cons, List.append_assoc]
      exact h2
    · intro x hx
      rw [List.length_cons] at hx
      have hx' : x < c.esp - 4 ∨ c.esp ≤ x := by omega
      rw [← pushWord_mem (v := c.regs r) h4 hc.esp_lt hx']
      exact ih.mem x (by rw [hesp]; omega)

/-- What a block of pops leaves, when the words `ws` are on top of the stack. -/
structure Popped (rs : List Reg) (ws : List ℕ) (c c' : Cpu) : Prop where
  mem : c'.mem = c.mem
  esp : c'.esp = c.esp + 4 * rs.length
  loaded : List.Forall₂ (fun r w => c'.regs r = w) rs ws
  regs : ∀ r, r ≠ .esp → r ∉ rs → c'.regs r = c.regs r

theorem execAll_pop : ∀ (rs : List Reg) {ws : List ℕ} {c : Cpu}, .esp ∉ rs → rs.Nodup →
    rs.length = ws.length → WordsAt c.mem c.esp ws → c.esp + 4 * rs.length < 4294967296 →
    Popped rs ws c (execAll c (rs.map Instr.pop))
  | [], [], c, _, _, _, _, _ => ⟨rfl, rfl, List.Forall₂.nil, fun _ _ _ => rfl⟩
  | r :: rs, w :: ws, c, hrs, hnd, hlen, ⟨hw, hws⟩, hlt => by
    obtain ⟨hr, hrs'⟩ := not_or.mp (List.mem_cons.not.mp hrs)
    obtain ⟨hrn, hnd'⟩ := List.nodup_cons.mp hnd
    rw [List.length_cons] at hlt
    have hesp : (exec c (.pop r)).esp = c.esp + 4 := by
      show Function.update (Function.update c.regs .esp _) r _ .esp = _
      rw [Function.update_of_ne hr, Function.update_self, u32_of_lt (by omega)]
    have ih := execAll_pop rs (c := exec c (.pop r)) hrs' hnd' (Nat.succ.inj hlen)
      (by rw [hesp]; exact hws) (by rw [hesp]; omega)
    rw [List.map_cons, execAll_cons]
    refine ⟨ih.mem, ?_, List.Forall₂.cons ?_ ih.loaded, ?_⟩
    · rw [ih.esp, hesp, List.length_cons]
      omega
    · rw [ih.regs r (Ne.symm hr) hrn]
      show Function.update (Function.update c.regs .esp _) r _ r = _
      rw [Function.update_self]
      exact hw
    · intro q hq hqr
      obtain ⟨hqr', hqrs⟩ := not_or.mp (List.mem_cons.not.mp hqr)
      rw [ih.regs q hq hqrs]
      show Function.update (Function.update c.regs .esp _) r _ q = _
      rw [Function.update_of_ne hqr', Function.update_of_ne hq]

end X86
