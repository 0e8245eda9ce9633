import HryOS.Lib.BitFields
import Mathlib.Tactic.IntervalCases

/-!
# Segments

`gdt.cpp` and `gdt.asm`: the descriptors, and what the processor does with an address in each of the
segments.

* `GdtDescriptor` — the bit fields, with `setBase` and `setLimit`.
* `segment_fields` — what the processor reads from a descriptor; `segment_setBase_setLimit` — base
  and limit are read as they were set.
* `translate` — an access through a selector; `loadGdt` — the segment registers after `load_gdt`.
* `gdt_flat` — every access that is allowed leaves the address as it is.
-/

set_option autoImplicit false

namespace HryOS.Gdt

open BitFields

/-! ## Descriptors -/

/-- `gdt_descriptor`. -/
structure GdtDescriptor where
  limit_low : ℕ := 0
  base_low : ℕ := 0
  accessed : ℕ := 0
  read_write : ℕ := 0
  dc : ℕ := 0
  exectuable : ℕ := 0
  descriptor_type : ℕ := 0
  privilege : ℕ := 0
  present : ℕ := 0
  limit_high : ℕ := 0
  zero : ℕ := 0
  big : ℕ := 0
  granularity : ℕ := 0
  base_high : ℕ := 0
  deriving DecidableEq, Repr

namespace GdtDescriptor

/-- The members with their widths, in the order of their bits. -/
def fields (d : GdtDescriptor) : List (ℕ × ℕ) :=
  [(16, d.limit_low), (24, d.base_low), (1, d.accessed), (1, d.read_write), (1, d.dc),
    (1, d.exectuable), (1, d.descriptor_type), (2, d.privilege), (1, d.present),
    (4, d.limit_high), (2, d.zero), (1, d.big), (1, d.granularity), (8, d.base_high)]

/-- `set_base`. -/
def setBase (d : GdtDescriptor) (base : ℕ) : GdtDescriptor :=
  { d with base_low := base, base_high := (base &&& 0xFF000000) >>> (4 * 6) }

/-- `set_limit`. -/
def setLimit (d : GdtDescriptor) (limit : ℕ) : GdtDescriptor :=
  { d with limit_low := limit, limit_high := (limit &&& 0x000F0000) >>> (4 * 4) }

end GdtDescriptor

/-- The five functions `create_..._descriptor`, but for the null descriptor. -/
def createDescriptor (exectuable privilege : ℕ) : GdtDescriptor :=
  let desc := (({} : GdtDescriptor).setBase 0x0).setLimit 0xFFFFFFFF
  { desc with
    read_write := 1, exectuable, descriptor_type := 1, privilege, present := 1
    granularity := 1, big := 1 }

/-- `create_null_descriptor`. -/
def createNullDescriptor : GdtDescriptor := {}

/-- `create_kernel_code_descriptor`. -/
def createKernelCodeDescriptor : GdtDescriptor := createDescriptor 1 0

/-- `create_kernel_data_descriptor`. -/
def createKernelDataDescriptor : GdtDescriptor := createDescriptor 0 0

/-- `create_user_code_descriptor`. -/
def createUserCodeDescriptor : GdtDescriptor := createDescriptor 1 3

/-- `create_user_data_descriptor`. -/
def createUserDataDescriptor : GdtDescriptor := createDescriptor 0 3

/-- `GDT`, as `gdt::init` fills it. -/
def GDT : List GdtDescriptor :=
  [createNullDescriptor, createKernelCodeDescriptor, createKernelDataDescriptor,
    createUserCodeDescriptor, createUserDataDescriptor]

/-- `GDTP.size`: the size of the table. -/
def gdtLimit : ℕ := 5 * 8

/-! ## The processor's reading -/

/-- What the processor reads from a descriptor. Of code `dc` says that it is conforming, of data
that it expands down; `zero` are the two bits that a 32-bit processor leaves to the system. -/
structure Segment where
  base : ℕ
  limit : ℕ
  accessed : Bool
  writable : Bool
  dc : Bool
  exectuable : Bool
  isMemory : Bool
  privilege : ℕ
  present : Bool
  zero : ℕ
  big : Bool
  pages : Bool
  deriving DecidableEq, Repr

/-- The fields of a descriptor; the limit and the base are in two parts. -/
def readSegment (bits : ℕ) : Segment where
  base := field 16 24 bits + 2 ^ 24 * field 56 8 bits
  limit := field 0 16 bits + 2 ^ 16 * field 48 4 bits
  accessed := field 40 1 bits == 1
  writable := field 41 1 bits == 1
  dc := field 42 1 bits == 1
  exectuable := field 43 1 bits == 1
  isMemory := field 44 1 bits == 1
  privilege := field 45 2 bits
  present := field 47 1 bits == 1
  zero := field 52 2 bits
  big := field 54 1 bits == 1
  pages := field 55 1 bits == 1

variable {d : GdtDescriptor} {base limit : ℕ}

open GdtDescriptor in
theorem segment_fields (d : GdtDescriptor) : readSegment (pack d.fields) =
    { base := d.base_low % 2 ^ 24 + 2 ^ 24 * (d.base_high % 2 ^ 8)
      limit := d.limit_low % 2 ^ 16 + 2 ^ 16 * (d.limit_high % 2 ^ 4)
      accessed := d.accessed % 2 ^ 1 == 1
      writable := d.read_write % 2 ^ 1 == 1
      dc := d.dc % 2 ^ 1 == 1
      exectuable := d.exectuable % 2 ^ 1 == 1
      isMemory := d.descriptor_type % 2 ^ 1 == 1
      privilege := d.privilege % 2 ^ 2
      present := d.present % 2 ^ 1 == 1
      zero := d.zero % 2 ^ 2
      big := d.big % 2 ^ 1 == 1
      pages := d.granularity % 2 ^ 1 == 1 } := by
  have h := fun k pos (hpos : width (d.fields.take k) = pos) =>
    field_pack hpos (d.fields.drop (k + 1))
  have h0 : field 0 16 (pack d.fields) = _ := h 0 0 (by simp [width, fields]) 16 d.limit_low
  have h1 : field 16 24 (pack d.fields) = _ := h 1 16 (by simp [width, fields]) 24 d.base_low
  have h2 : field 40 1 (pack d.fields) = _ := h 2 40 (by simp [width, fields]) 1 d.accessed
  have h3 : field 41 1 (pack d.fields) = _ := h 3 41 (by simp [width, fields]) 1 d.read_write
  have h4 : field 42 1 (pack d.fields) = _ := h 4 42 (by simp [width, fields]) 1 d.dc
  have h5 : field 43 1 (pack d.fields) = _ := h 5 43 (by simp [width, fields]) 1 d.exectuable
  have h6 : field 44 1 (pack d.fields) = _ := h 6 44 (by simp [width, fields]) 1 d.descriptor_type
  have h7 : field 45 2 (pack d.fields) = _ := h 7 45 (by simp [width, fields]) 2 d.privilege
  have h8 : field 47 1 (pack d.fields) = _ := h 8 47 (by simp [width, fields]) 1 d.present
  have h9 : field 48 4 (pack d.fields) = _ := h 9 48 (by simp [width, fields]) 4 d.limit_high
  have h10 : field 52 2 (pack d.fields) = _ := h 10 52 (by simp [width, fields]) 2 d.zero
  have h11 : field 54 1 (pack d.fields) = _ := h 11 54 (by simp [width, fields]) 1 d.big
  have h12 : field 55 1 (pack d.fields) = _ := h 12 55 (by simp [width, fields]) 1 d.granularity
  have h13 : field 56 8 (pack d.fields) = _ := h 13 56 (by simp [width, fields]) 8 d.base_high
  unfold readSegment
  rw [h0, h1, h2, h3, h4, h5, h6, h7, h8, h9, h10, h11, h12, h13]

theorem and_shiftRight (value m : ℕ) (k w : ℕ) (hm : m >>> k = 2 ^ w - 1) :
    (value &&& m) >>> k = value / 2 ^ k % 2 ^ w := by
  rw [Nat.shiftRight_and_distrib, hm, Nat.and_two_pow_sub_one_eq_mod, Nat.shiftRight_eq_div_pow]

/-- **Base and limit are read as they were set**, in 32 and in 20 bits; the other fields stay. -/
theorem segment_setBase_setLimit (d : GdtDescriptor) (base limit : ℕ) :
    readSegment (pack ((d.setBase base).setLimit limit).fields) =
      { readSegment (pack d.fields) with base := base % 2 ^ 32, limit := limit % 2 ^ 20 } := by
  have hbase : (base &&& 0xFF000000) >>> (4 * 6) = base / 2 ^ 24 % 2 ^ 8 :=
    and_shiftRight base 0xFF000000 24 8 rfl
  have hlimit : (limit &&& 0x000F0000) >>> (4 * 4) = limit / 2 ^ 16 % 2 ^ 4 :=
    and_shiftRight limit 0x000F0000 16 4 rfl
  rw [segment_fields, segment_fields]
  unfold GdtDescriptor.setLimit GdtDescriptor.setBase
  dsimp only
  rw [hbase, hlimit]
  congr 1 <;> omega

/-! ## Accesses -/

/-- What an instruction does with an address. -/
inductive Kind
  | fetch
  | read
  | write
  deriving DecidableEq, Repr

/-- The limit in bytes. -/
def Segment.effectiveLimit (s : Segment) : ℕ := if s.pages then s.limit * 4096 + 4095 else s.limit

/-- The offsets that lie in the segment: up to the limit, or above it where data expands down. -/
def Segment.inside (s : Segment) (offset : ℕ) : Bool :=
  if s.dc && !s.exectuable then
    s.effectiveLimit < offset && offset ≤ if s.big then 0xFFFFFFFF else 0xFFFF
  else offset ≤ s.effectiveLimit

/-- The offset that the processor takes: code that is not `big` has 16 bits of it. -/
def Segment.offset (s : Segment) (kind : Kind) (offset : ℕ) : ℕ :=
  if kind = .fetch ∧ s.big = false then offset % 2 ^ 16 else offset

/-- An access at a privilege level, through a selector that asks for the level `rpl`. Conforming
code runs at every level that is not above its own, and is read from all of them. -/
def Segment.permits (s : Segment) (cpl rpl : ℕ) : Kind → Bool
  | .fetch =>
    s.exectuable && if s.dc then s.privilege ≤ cpl else s.privilege == cpl && rpl ≤ cpl
  | .read =>
    (s.writable || !s.exectuable) && (s.dc && s.exectuable || max cpl rpl ≤ s.privilege)
  | .write => s.writable && !s.exectuable && max cpl rpl ≤ s.privilege

/-- An access to a segment: the address it goes to, or none where the processor faults. -/
def Segment.access (s : Segment) (cpl rpl : ℕ) (kind : Kind) (offset : ℕ) : Option ℕ :=
  if s.isMemory ∧ s.present ∧ s.permits cpl rpl kind ∧ s.inside (s.offset kind offset) then
    some ((s.base + s.offset kind offset) % 2 ^ 32)
  else none

/-- An access through a selector of the table. -/
def translate (GDT : List GdtDescriptor) (selector cpl : ℕ) (kind : Kind) (offset : ℕ) :
    Option ℕ :=
  if selector / 8 = 0 ∨ selector.testBit 2 ∨ gdtLimit < selector / 8 * 8 + 7 then none
  else GDT[selector / 8]?.bind fun d =>
    (readSegment (pack d.fields)).access cpl (selector % 4) kind offset

/-- The segment registers. -/
structure SegmentRegisters where
  cs : ℕ
  ds : ℕ
  es : ℕ
  fs : ℕ
  gs : ℕ
  ss : ℕ
  deriving DecidableEq, Repr

/-- `load_gdt`, behind `lgdt`: the jump loads `cs`, the moves of `ax` the others. -/
def loadGdt : SegmentRegisters :=
  { cs := 0x08, ds := 0x10, es := 0x10, fs := 0x10, gs := 0x10, ss := 0x10 }

/-- The accesses that the table is for: kernel and user code, kernel and user data. -/
def allowed (index rpl cpl : ℕ) : Kind → Bool
  | .fetch => (index == 1 && cpl == 0 && rpl == 0) || (index == 3 && cpl == 3)
  | .read =>
    ((index == 1 || index == 2) && cpl == 0 && rpl == 0) || index == 3 || index == 4
  | .write => (index == 2 && cpl == 0 && rpl == 0) || index == 4

/-- The segment of a descriptor of the table. -/
def flatSegment (exectuable privilege : ℕ) : Segment :=
  { base := 0, limit := 0xFFFFF, accessed := false, writable := true, dc := false,
    exectuable := exectuable == 1, isMemory := true, privilege := privilege, present := true,
    zero := 0, big := true, pages := true }

theorem readSegment_createDescriptor {exectuable privilege : ℕ} (he : exectuable < 2 ^ 1)
    (hp : privilege < 2 ^ 2) : readSegment (pack (createDescriptor exectuable privilege).fields) =
      flatSegment exectuable privilege := by
  rw [segment_fields]
  unfold createDescriptor GdtDescriptor.setLimit GdtDescriptor.setBase
  dsimp only
  rw [Nat.mod_eq_of_lt he, Nat.mod_eq_of_lt hp]
  rfl

variable {index rpl cpl offset exectuable privilege : ℕ} {kind : Kind}

/-- All 32 bits of an offset are taken, for code too. -/
theorem offset_flatSegment :
    (flatSegment exectuable privilege).offset kind offset = offset := by
  unfold Segment.offset flatSegment
  rw [if_neg fun h => Bool.noConfusion h.2]

/-- Every offset lies in the segment, which does not expand down. -/
theorem inside_flatSegment (ho : offset < 2 ^ 32) :
    (flatSegment exectuable privilege).inside offset = true := by
  have hlimit : (flatSegment exectuable privilege).effectiveLimit = 0xFFFFF * 4096 + 4095 := rfl
  have hdown : ¬((flatSegment exectuable privilege).dc &&
      !(flatSegment exectuable privilege).exectuable) = true := Bool.noConfusion
  unfold Segment.inside
  rw [if_neg hdown, hlimit]
  exact decide_eq_true (by omega)

theorem access_flatSegment (ho : offset < 2 ^ 32) :
    (flatSegment exectuable privilege).access cpl rpl kind offset =
      if (flatSegment exectuable privilege).permits cpl rpl kind then some offset else none := by
  have hbase : ((flatSegment exectuable privilege).base + offset) % 2 ^ 32 = offset := by
    unfold flatSegment
    dsimp only
    rw [Nat.zero_add, Nat.mod_eq_of_lt ho]
  unfold Segment.access
  rw [offset_flatSegment, hbase]
  by_cases hpermits : (flatSegment exectuable privilege).permits cpl rpl kind = true
  · rw [if_pos hpermits, if_pos ⟨rfl, rfl, hpermits, inside_flatSegment ho⟩]
  · rw [if_neg hpermits, if_neg fun h => hpermits h.2.2.1]

theorem translate_createDescriptor (hindex : 0 < index) (hlimit : index < 5) (hr : rpl < 4)
    (hget : GDT[index]? = some (createDescriptor exectuable privilege)) (he : exectuable < 2 ^ 1)
    (hp : privilege < 2 ^ 2) (ho : offset < 2 ^ 32) :
    translate GDT (8 * index + rpl) cpl kind offset =
      if (flatSegment exectuable privilege).permits cpl rpl kind then some offset else none := by
  have hdiv : (8 * index + rpl) / 8 = index := by omega
  have hmod : (8 * index + rpl) % 4 = rpl := by omega
  have hbit : (8 * index + rpl).testBit 2 = false := by
    rw [Nat.testBit_eq_decide_div_mod_eq]
    exact decide_eq_false (by omega)
  have hguard : ¬(index = 0 ∨ false = true ∨ gdtLimit < index * 8 + 7) := by
    unfold gdtLimit
    rintro (h | h | h)
    · omega
    · cases h
    · omega
  unfold translate
  rw [hdiv, hmod, hbit, if_neg hguard, hget, Option.bind_some, readSegment_createDescriptor he hp,
    access_flatSegment ho]

/-- What the four descriptors permit. -/
theorem allowed_eq (hr : rpl < 4) (hc : cpl < 4) (kind : Kind) :
    allowed 1 rpl cpl kind = (flatSegment 1 0).permits cpl rpl kind ∧
      allowed 2 rpl cpl kind = (flatSegment 0 0).permits cpl rpl kind ∧
      allowed 3 rpl cpl kind = (flatSegment 1 3).permits cpl rpl kind ∧
      allowed 4 rpl cpl kind = (flatSegment 0 3).permits cpl rpl kind := by
  interval_cases rpl <;> interval_cases cpl <;> cases kind <;> decide

/-- **Segments are flat**: an access through any selector of the table, at any privilege level, goes
    to the address it names where it is allowed, for all 32 bits of it, and faults elsewhere. -/
theorem gdt_flat (index rpl cpl : ℕ) (kind : Kind) (offset : ℕ) (hr : rpl < 4) (hc : cpl < 4)
    (ho : offset < 2 ^ 32) :
    translate GDT (8 * index + rpl) cpl kind offset =
      if allowed index rpl cpl kind then some offset else none := by
  by_cases hout : index = 0 ∨ 5 ≤ index
  · have hdiv : (8 * index + rpl) / 8 = index := by omega
    have hnot : allowed index rpl cpl kind = false := by
      cases kind <;> simp [allowed] <;> omega
    unfold translate
    rw [hdiv, hnot, if_pos]
    · rfl
    · unfold gdtLimit
      omega
  · have hpermits : ∀ e p, GDT[index]? = some (createDescriptor e p) → e < 2 ^ 1 → p < 2 ^ 2 →
        allowed index rpl cpl kind = (flatSegment e p).permits cpl rpl kind →
        translate GDT (8 * index + rpl) cpl kind offset =
          if allowed index rpl cpl kind then some offset else none := by
      intro e p hget he hp heq
      rw [heq]
      exact translate_createDescriptor (by omega) (by omega) hr hget he hp ho
    obtain rfl | rfl | rfl | rfl : index = 1 ∨ index = 2 ∨ index = 3 ∨ index = 4 := by omega
    · exact hpermits 1 0 rfl (by decide) (by decide) (allowed_eq hr hc kind).1
    · exact hpermits 0 0 rfl (by decide) (by decide) (allowed_eq hr hc kind).2.1
    · exact hpermits 1 3 rfl (by decide) (by decide) (allowed_eq hr hc kind).2.2.1
    · exact hpermits 0 3 rfl (by decide) (by decide) (allowed_eq hr hc kind).2.2.2

/-- A jump through `cs` and a store through `ds`, as `load_gdt` leaves them. -/
theorem gdt_flat_example : translate GDT loadGdt.cs 0 .fetch 0xFFFFFFFF = some 0xFFFFFFFF ∧
    translate GDT loadGdt.ds 0 .write 0xB8000 = some 0xB8000 ∧
    translate GDT loadGdt.cs 0 .write 0xB8000 = none :=
  ⟨gdt_flat 1 0 0 .fetch 0xFFFFFFFF (by omega) (by omega) (by omega),
    gdt_flat 2 0 0 .write 0xB8000 (by omega) (by omega) (by omega),
    gdt_flat 1 0 0 .write 0xB8000 (by omega) (by omega) (by omega)⟩

end HryOS.Gdt
