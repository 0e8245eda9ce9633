import HryOS.Lib.BitFields

/-!
# The interrupt descriptor table

`interrupts.cpp`: the entries, and what `interrupts::init` stores in the 256 of them.

* `IdtEntry` — the bit fields; `decodeGate` — what the processor reads from them.
* `setIdtEntry`, `setupFault`, `setupPicInterrupts` — as in the source, over the addresses of the
  stubs.
* `decodeGate_setIdtEntry` — an entry is read as it was set.
* `gate_init` — which vector leads to which stub, and which to none.
-/

set_option autoImplicit false

namespace HryOS.Idt

open BitFields

/-! ## Entries -/

/-- `gate_type`. -/
inductive GateType
  | task
  | interrupt16
  | interrupt32
  | trap16
  | trap32
  deriving DecidableEq, Repr

/-- The values of `gate_type`. -/
def GateType.value : GateType → ℕ
  | .task => 0b00101
  | .interrupt16 => 0b00110
  | .interrupt32 => 0b01110
  | .trap16 => 0b00111
  | .trap32 => 0b01111

/-- `idt_entry`. -/
structure IdtEntry where
  offset_lowerbits : ℕ := 0
  selector : ℕ := 0
  zero : ℕ := 0
  type : ℕ := 0
  dpl : ℕ := 0
  present : ℕ := 0
  offset_higherbits : ℕ := 0
  deriving DecidableEq, Repr

/-- The members with their widths, in the order of their bits. -/
def IdtEntry.fields (e : IdtEntry) : List (ℕ × ℕ) :=
  [(16, e.offset_lowerbits), (16, e.selector), (8, e.zero), (5, e.type), (2, e.dpl),
    (1, e.present), (16, e.offset_higherbits)]

/-- What the processor reads from an entry. -/
structure Gate where
  offset : ℕ
  selector : ℕ
  type : ℕ
  dpl : ℕ
  deriving DecidableEq, Repr

/-- The processor's reading; `none` where the entry is not present. -/
def decodeGate (bits : ℕ) : Option Gate :=
  if field 47 1 bits = 1 then
    some { offset := field 0 16 bits + 2 ^ 16 * field 48 16 bits
           selector := field 16 16 bits
           type := field 40 5 bits
           dpl := field 45 2 bits }
  else none

/-- `set_idt_entry`. -/
def setIdtEntry (IDT : ℕ → IdtEntry) (offset address selector : ℕ) (type : GateType) (dpl : ℕ) :
    ℕ → IdtEntry :=
  Function.update IDT offset
    { offset_lowerbits := address &&& 0xFFFF
      selector
      zero := 0
      type := type.value
      dpl
      present := 1
      offset_higherbits := address >>> 16 }

/-! ## The table -/

/-- `gdt::KERNEL_CODE_SELECTOR`. -/
def KERNEL_CODE_SELECTOR : ℕ := 0x08

/-- `PIC1_OFFSET`. -/
def PIC1_OFFSET : ℕ := 32

/-- `PIC2_OFFSET`. -/
def PIC2_OFFSET : ℕ := 40

/-- The addresses of the stubs; no two interrupts share one. -/
structure Addresses where
  isr : ℕ → ℕ
  fault : ℕ → ℕ
  isr_lt : ∀ n, isr n < 4294967296
  fault_lt : ∀ n, fault n < 4294967296
  isr_inj : ∀ m n, m < 16 → n < 16 → isr m = isr n → m = n

variable (A : Addresses)

/-- The vectors of `setup_fault`; 15 is reserved. -/
def faults : List ℕ := [0, 1, 2, 3, 4, 5, 6, 7, 8, 9, 10, 11, 12, 13, 14, 16, 17, 18, 19, 20]

/-- `setup_fault`. -/
def setupFault (IDT : ℕ → IdtEntry) : ℕ → IdtEntry :=
  faults.foldl (fun IDT n =>
    setIdtEntry IDT n (A.fault n) KERNEL_CODE_SELECTOR .interrupt32 0) IDT

/-- `setup_pic_interrupts`: `isr0` to `isr7`, then `isr8` to `isr15`. -/
def setupPicInterrupts (IDT : ℕ → IdtEntry) : ℕ → IdtEntry :=
  let IDT := (List.range 8).foldl (fun IDT k =>
    setIdtEntry IDT (PIC1_OFFSET + k) (A.isr k) KERNEL_CODE_SELECTOR .interrupt32 0) IDT
  (List.range 8).foldl (fun IDT k =>
    setIdtEntry IDT (PIC2_OFFSET + k) (A.isr (8 + k)) KERNEL_CODE_SELECTOR .interrupt32 0) IDT

/-- The table that `interrupts::init` loads. -/
def idtInit : ℕ → IdtEntry := setupPicInterrupts A (setupFault A fun _ => {})

/-- `load_idtp`: the limit is the size of the table. -/
def idtLimit : ℕ := 256 * 8

/-- The processor looks up a vector. -/
def lookup (IDT : ℕ → IdtEntry) (v : ℕ) : Option Gate :=
  if v * 8 + 7 ≤ idtLimit then decodeGate (pack (IDT v).fields) else none

/-! ## What the processor reads -/

variable {A} {IDT : ℕ → IdtEntry} {n v address selector dpl : ℕ}

/-- The fields of an entry, one by one. -/
theorem field_entry (e : IdtEntry) :
    field 0 16 (pack e.fields) = e.offset_lowerbits % 2 ^ 16 ∧
      field 16 16 (pack e.fields) = e.selector % 2 ^ 16 ∧
      field 40 5 (pack e.fields) = e.type % 2 ^ 5 ∧
      field 45 2 (pack e.fields) = e.dpl % 2 ^ 2 ∧
      field 47 1 (pack e.fields) = e.present % 2 ^ 1 ∧
      field 48 16 (pack e.fields) = e.offset_higherbits % 2 ^ 16 := by
  have h := fun k pos (hpos : width (e.fields.take k) = pos) =>
    field_pack hpos (e.fields.drop (k + 1))
  refine ⟨h 0 0 ?_ 16 _, h 1 16 ?_ 16 _, h 3 40 ?_ 5 _, h 4 45 ?_ 2 _, h 5 47 ?_ 1 _,
    h 6 48 ?_ 16 _⟩
  all_goals simp [width, IdtEntry.fields]

/-- **An entry is read as it was set.** -/
theorem decodeGate_setIdtEntry (IDT : ℕ → IdtEntry) (n : ℕ) (type : GateType)
    (ha : address < 2 ^ 32) (hs : selector < 2 ^ 16) (hd : dpl < 2 ^ 2) :
    decodeGate (pack (setIdtEntry IDT n address selector type dpl n).fields) =
      some ⟨address, selector, type.value, dpl⟩ := by
  have htype : type.value < 2 ^ 5 := by cases type <;> simp [GateType.value]
  unfold setIdtEntry
  rw [Function.update_self]
  obtain ⟨hlow, hselector, htype', hdpl, hpresent, hhigh⟩ := field_entry
    ⟨address &&& 0xFFFF, selector, 0, type.value, dpl, 1, address >>> 16⟩
  have hmask : address &&& 0xFFFF = address % 2 ^ 16 := Nat.and_two_pow_sub_one_eq_mod address 16
  have hshift : address >>> 16 = address / 2 ^ 16 := Nat.shiftRight_eq_div_pow address 16
  dsimp only at hlow hselector htype' hdpl hpresent hhigh
  unfold decodeGate
  rw [hpresent, if_pos (show 1 % 2 ^ 1 = 1 by rfl), hlow, hselector, htype', hdpl, hhigh,
    Nat.mod_eq_of_lt hs, Nat.mod_eq_of_lt hd, Nat.mod_eq_of_lt htype, hmask, hshift]
  congr 2
  omega

/-- What `set_idt_entry` stores for a stub. -/
def stubEntry (address : ℕ) : IdtEntry :=
  { offset_lowerbits := address &&& 0xFFFF
    selector := KERNEL_CODE_SELECTOR
    type := GateType.interrupt32.value
    present := 1
    offset_higherbits := address >>> 16 }

/-- A loop of `set_idt_entry` over consecutive vectors. -/
theorem foldl_setIdtEntry (base : ℕ) (address : ℕ → ℕ) (ks : List ℕ) (IDT : ℕ → IdtEntry) (v : ℕ) :
    ks.foldl (fun IDT k => setIdtEntry IDT (base + k) (address k) KERNEL_CODE_SELECTOR .interrupt32
      0) IDT v = if base ≤ v ∧ v - base ∈ ks then stubEntry (address (v - base)) else IDT v := by
  induction ks generalizing IDT with
  | nil =>
    rw [List.foldl_nil, if_neg]
    exact fun h => List.not_mem_nil h.2
  | cons k ks ih =>
    have hone : setIdtEntry IDT (base + k) (address k) KERNEL_CODE_SELECTOR .interrupt32 0 v =
        if v = base + k then stubEntry (address k) else IDT v := Function.update_apply ..
    rw [List.foldl_cons, ih, hone]
    by_cases hin : base ≤ v ∧ v - base ∈ ks
    · rw [if_pos hin, if_pos ⟨hin.1, List.mem_cons_of_mem k hin.2⟩]
    · rw [if_neg hin]
      by_cases hv : v = base + k
      · have hk : v - base = k := by omega
        rw [if_pos hv, if_pos ⟨by omega, by rw [hk]; exact List.mem_cons_self⟩, hk]
      · have hnot : ¬(base ≤ v ∧ v - base ∈ k :: ks) := by
          rintro ⟨hle, hmem⟩
          rcases List.mem_cons.mp hmem with h | h
          · omega
          · exact hin ⟨hle, h⟩
        rw [if_neg hv, if_neg hnot]

/-- The gate of a stub: kernel code, entered with interrupts off. -/
def stubGate (address : ℕ) : Gate := ⟨address, KERNEL_CODE_SELECTOR, GateType.interrupt32.value, 0⟩

theorem decodeGate_stubEntry (ha : address < 4294967296) :
    decodeGate (pack (stubEntry address).fields) = some (stubGate address) := by
  have h := decodeGate_setIdtEntry (fun _ => {}) 0 .interrupt32 ha
    (show KERNEL_CODE_SELECTOR < 2 ^ 16 by decide) (show 0 < 2 ^ 2 by decide)
  unfold setIdtEntry at h
  rw [Function.update_self] at h
  exact h

/-- **The table after `interrupts::init`**: the fault vectors lead to their stubs, vectors 32 to 47
    to those of the sixteen interrupts, and no other one to any. -/
theorem gate_init (A : Addresses) (v : ℕ) :
    lookup (idtInit A) v =
      if v ≤ 20 ∧ v ≠ 15 then some (stubGate (A.fault v))
      else if 32 ≤ v ∧ v < 48 then some (stubGate (A.isr (v - 32)))
      else none := by
  have hfaults : v ∈ faults ↔ v ≤ 20 ∧ v ≠ 15 := by
    simp only [faults, List.mem_cons, List.not_mem_nil, or_false]
    omega
  have hfault : setupFault A (fun _ => {}) v =
      if v ≤ 20 ∧ v ≠ 15 then stubEntry (A.fault v) else {} := by
    have h := foldl_setIdtEntry 0 A.fault faults (fun _ => {}) v
    simp only [Nat.zero_add, Nat.zero_le, true_and, Nat.sub_zero, hfaults] at h
    exact h
  have hentry : idtInit A v =
      if v ≤ 20 ∧ v ≠ 15 then stubEntry (A.fault v)
      else if 32 ≤ v ∧ v < 48 then stubEntry (A.isr (v - 32)) else {} := by
    unfold idtInit setupPicInterrupts
    rw [foldl_setIdtEntry, foldl_setIdtEntry, hfault]
    simp only [PIC1_OFFSET, PIC2_OFFSET, List.mem_range]
    by_cases hsecond : 40 ≤ v ∧ v - 40 < 8
    · rw [if_pos hsecond, if_neg (by omega), if_pos (by omega), show 8 + (v - 40) = v - 32 by omega]
    · rw [if_neg hsecond]
      by_cases hfirst : 32 ≤ v ∧ v - 32 < 8
      · rw [if_pos hfirst, if_neg (by omega), if_pos (by omega)]
      · rw [if_neg hfirst, if_neg (show ¬(32 ≤ v ∧ v < 48) by omega)]
  unfold lookup
  by_cases hlimit : v * 8 + 7 ≤ idtLimit
  · rw [if_pos hlimit, hentry]
    split
    · exact decodeGate_stubEntry (A.fault_lt v)
    · split
      · exact decodeGate_stubEntry (A.isr_lt (v - 32))
      · decide
  · have hv : 256 ≤ v := by
      unfold idtLimit at hlimit
      omega
    rw [if_neg hlimit, if_neg (by omega), if_neg (by omega)]

end HryOS.Idt
