import Mathlib.Data.List.TakeWhile
import HryOS.Hlib.FloatParts

/-!
# `format_to`

`format.hpp`: the format string is scanned once, by one pointer.  A pointer into it is the list of
the bytes from there to the terminating NUL, the NUL included; `[]` is a pointer past the NUL, and
reading there is a fault.

* `formatTo` — the recursion over the argument pack, with the scanning loops `printToFormatSign`
  and `skipInside`, and `parse` and `format` of the formatters.
* `Stays` — the call ends, and reads no character past the NUL.
* `format_to_stays_iff` — it does exactly when the string has a `{` and a later `}` for each
  argument, one after the other, and the text of each argument stays in the buffer of its
  formatter.
-/

set_option autoImplicit false

namespace HryOS.Format

open ByteMemory FloatText

/-- What ends a call early: a character past the NUL is read, a byte outside of a formatter's
    buffer is accessed, or the fuel of a loop runs out. -/
inductive Fault
  | outside
  | buffer
  | fuel
  deriving DecidableEq, Repr

/-- `fmt`: the bytes from the pointer to the NUL. -/
abbrev Fmt := List UInt8

/-- `*fmt`. -/
def deref : Fmt → Except Fault UInt8
  | [] => .error .outside
  | c :: _ => .ok c

/-- The contents of a NUL-terminated string. -/
structure CString where
  bytes : List UInt8
  noNul : 0 ∉ bytes

/-- A pointer to its first character. -/
def CString.data (s : CString) : Fmt := s.bytes ++ [0]

/-! ## Arguments and their formatters -/

/-- A `float`, as what the floating-point operations of `to_chars` make of it: `value < 0`, the
    integer part, `float_part > 0`, and `float_part * pow10(precision)`.  Infinities and NaNs have
    such results too. -/
structure FloatValue where
  minus : Bool
  intPart : UInt32
  hasFraction : Bool
  scaled : ℕ → UInt32

/-- The parts at a precision. -/
def FloatValue.parts (num : FloatValue) (precision : ℕ) : FloatParts where
  minus := num.minus
  intPart := num.intPart
  afterDot := num.hasFraction && decide (0 < precision)
  floatPrecision := num.scaled precision

/-- The supported types.  A text is the bytes of an array, or of a string before its NUL. -/
inductive Arg
  | integral (T : Integral) (value : T.Value)
  | bool (value : Bool)
  | uint64 (value : UInt64)
  | float (num : FloatValue)
  | text (txt : List UInt8)
  | stringView (str : List UInt8)
  | pointer (addr : UInt32)

/-- The members of the formatters, with their defaults. -/
structure Formatter where
  base : NumBase := .dec
  leadingZero : Bool := false
  asString : Bool := false
  precision : ℕ := 3
  deriving DecidableEq, Repr

/-- `switch (*fmt)` of `formatter_integral::parse` and `formatter<uint64_t>::parse`. -/
def parseBase (c : UInt8) : NumBase :=
  if c = 120 then .hex -- 'x'
  else if c = 98 then .bin -- 'b'
  else if c = 111 then .oct -- 'o'
  else .dec

/-- `is_digit`. -/
def isDigit (c : UInt8) : Bool := 48 ≤ c && c ≤ 57

/-- `f.parse(fmt)`. -/
def parse (arg : Arg) (fmt : Fmt) : Except Fault Formatter :=
  match arg with
  | .integral _ _ => do
    let c ← deref fmt
    return { base := parseBase c }
  | .bool _ => do
    let c ← deref fmt
    return { asString := c == 115 } -- 's'
  | .uint64 _ => do
    let c ← deref fmt
    let c' ← deref fmt.tail
    return { base := parseBase c, leadingZero := c' == 48 } -- '0'
  | .float _ => do
    let c ← deref fmt
    return if isDigit c then { precision := c.toNat - 48 } else {}
  | .text _ => return {}
  | .stringView _ => return {}
  | .pointer _ => return {}

/-- The stack frame of `format`: the address of its buffer, not at the very start of memory. -/
structure Frame where
  buffer : ℕ
  low : 32 ≤ buffer
  high : buffer + 33 ≤ 4294967296

/-- `while (*it) { output(*it); it++; }` over a buffer, of which `left` bytes follow. -/
def printFrom (m : Mem) : ℕ → ℕ → Except Fault (List UInt8)
  | 0, _ => .error .buffer
  | left + 1, it =>
    if m it = 0 then .ok []
    else do
      let rest ← printFrom m left (it + 1)
      return m it :: rest

/-- A buffer of `size` bytes, zeroed before `to_chars` wrote to it, is printed.  Texts are written
    without a gap, so one that leaves the buffer has a byte right beside it. -/
def printBuffer (m : Mem) (buffer size : ℕ) : Except Fault (List UInt8) :=
  if m (buffer - 1) ≠ 0 ∨ m (buffer + size) ≠ 0 then .error .buffer
  else printFrom m size buffer

/-- `to_chars(buffer, buffer + 32, value, base)` in `char buffer[33]{}`, and the loop that prints
    it. -/
def printValue (f : Frame) (fuel : ℕ) (T : Integral) (value : ℤ) (base : NumBase) :
    Except Fault (ℕ × List UInt8) :=
  match toCharsIntegralImpl T fuel (fun _ => 0) f.buffer (f.buffer + 32) value base with
  | none => .error .fuel
  | some (count, m) => do
    let out ← printBuffer m f.buffer 33
    return (count, out)

/-- `formatter<float>::format`, where the buffer is `char buffer[12]{}`. -/
def printFloat (f : Frame) (fuel : ℕ) (num : FloatValue) (precision : ℕ) :
    Except Fault (List UInt8) :=
  match toCharsParts fuel (fun _ => 0) f.buffer (f.buffer + 11) (num.parts precision) with
  | none => .error .fuel
  | some m => printBuffer m f.buffer 12

/-- `formatter<uint64_t>::print_value`. -/
def printValue64 (f : Frame) (fuel : ℕ) (self : Formatter) (value : ℕ) :
    Except Fault (List UInt8) := do
  let (count, out) ← printValue f fuel .uint32_t value self.base
  let fill :=
    if self.leadingZero && self.base == .hex then u32 (8 + (4294967296 - u32 count)) else 0
  return List.replicate fill 48 ++ out

/-- `f.format(output, arg)`: what it puts out. -/
def format (f : Frame) (fuel : ℕ) (self : Formatter) : Arg → Except Fault (List UInt8)
  | .integral T value => do
    -- the parameter `num` is an `int`, and is converted to `T` again
    let num := Integral.int32_t.cast value.val
    let (_, out) ← printValue f fuel T (T.cast num) self.base
    return out
  | .bool value =>
    if self.asString then return if value then [116, 114, 117, 101] else [102, 97, 108, 115, 101]
    else return [if value then 49 else 48]
  | .uint64 value => do
    let high := value.toNat / 4294967296
    let first ← if high ≠ 0 ∨ self.leadingZero then printValue64 f fuel self high else pure []
    let second ← printValue64 f fuel self (u32 value.toNat)
    return first ++ second
  | .float num => printFloat f fuel num self.precision
  | .text txt => return txt.takeWhile (· ≠ 0)
  | .stringView str => return str
  | .pointer addr => do
    let (_, out) ← printValue f fuel .uint32_t addr.toNat .hex
    return out

/-! ## `format_to` -/

/-- `is_start_formatting`. -/
def isStartFormatting (c : UInt8) : Bool := c == 123 -- '{'

/-- `is_end_formatting`. -/
def isEndFormatting (c : UInt8) : Bool := c == 125 -- '}'

/-- `print_to_format_sign`: what it puts out, and where `fmt` is left. -/
def printToFormatSign : Fmt → Except Fault (List UInt8 × Fmt)
  | [] => .error .outside
  | c :: fmt =>
    if !isStartFormatting c && c != 0 then do
      let (out, fmt) ← printToFormatSign fmt
      return (c :: out, fmt)
    else return ([], c :: fmt)

/-- `while (!is_end_formatting(*fmt))`. -/
def skipInside : Fmt → Except Fault Fmt
  | [] => .error .outside
  | c :: fmt => if !isEndFormatting c then skipInside fmt else return c :: fmt

/-- `format_to(output, fmt)`. -/
def formatToEnd : Fmt → Except Fault (List UInt8)
  | [] => .error .outside
  | c :: fmt =>
    if c ≠ 0 then do
      let out ← formatToEnd fmt
      return c :: out
    else return []

/-- `format_to(output, fmt, args...)`: what it puts out. -/
def formatTo (f : Frame) (fuel : ℕ) : List Arg → Fmt → Except Fault (List UInt8)
  | [], fmt => formatToEnd fmt
  | arg :: args, fmt => do
    let (text, fmt) ← printToFormatSign fmt
    let fmt := fmt.tail
    let self ← parse arg fmt
    let out ← format f fuel self arg
    let fmt ← skipInside fmt
    let rest ← formatTo f fuel args fmt.tail
    return text ++ out ++ rest

/-- The call ends, and reads no character of the format string past its NUL. -/
def Stays (f : Frame) (s : CString) (args : List Arg) : Prop :=
  ∃ fuel out, formatTo f fuel args s.data = .ok out

/-- `to_chars` ends and stays in the buffer of the formatter, and leaves a NUL there: not for the
    minimum of a signed type, and not for a negative `float` that has a text of eleven characters
    behind its sign. -/
def Arg.Fits (self : Formatter) : Arg → Prop
  | .integral T value => T.isUnsigned = true ∨ value.val ≠ T.min
  | .float num => ¬(num.minus = true ∧ (num.parts self.precision).checkedLength = 11)
  | _ => True

/-! ## The scanning loops -/

@[simp] theorem ok_bind {α β : Type} (a : α) (g : α → Except Fault β) :
    (Except.ok a >>= g) = g a := rfl

@[simp] theorem error_bind {α β : Type} (e : Fault) (g : α → Except Fault β) :
    ((Except.error e : Except Fault α) >>= g) = .error e := rfl

@[simp] theorem pure_eq_ok {α : Type} (a : α) : (pure a : Except Fault α) = .ok a := rfl

theorem bind_eq_ok {α β : Type} {x : Except Fault α} {g : α → Except Fault β} {b : β} :
    (x >>= g) = .ok b ↔ ∃ a, x = .ok a ∧ g a = .ok b := by
  cases x with
  | error e => simp
  | ok a => simp

/-- The text before the next `{`. -/
def beforeStart (s : List UInt8) : List UInt8 := s.takeWhile fun c => !isStartFormatting c

/-- The text from the next `{` on. -/
def fromStart (s : List UInt8) : List UInt8 := s.dropWhile fun c => !isStartFormatting c

/-- The text from the next `}` on. -/
def fromEnd (s : List UInt8) : List UInt8 := s.dropWhile fun c => !isEndFormatting c

variable {s : List UInt8}

/-- `print_to_format_sign` stops at the next `{`, or at the NUL. -/
theorem printToFormatSign_eq (hs : 0 ∉ s) :
    printToFormatSign (s ++ [0]) = .ok (beforeStart s, fromStart s ++ [0]) := by
  induction s with
  | nil => rfl
  | cons c s ih =>
    rw [List.mem_cons, not_or] at hs
    have hc : (c != 0) = true := bne_iff_ne.mpr (Ne.symm hs.1)
    rw [List.cons_append, printToFormatSign, hc, ih hs.2]
    unfold beforeStart fromStart
    by_cases h : isStartFormatting c = true
    · simp [h]
    · simp [h]

/-- The loop to the next `}` runs past the NUL where there is none. -/
theorem skipInside_eq : skipInside (s ++ [0]) =
    if 125 ∈ s then .ok (fromEnd s ++ [0]) else .error .outside := by
  induction s with
  | nil => rfl
  | cons c s ih =>
    rw [List.cons_append, skipInside, ih]
    unfold fromEnd
    by_cases h : c = 125
    · subst h
      simp [isEndFormatting]
    · have hc : isEndFormatting c = false := beq_eq_false_iff_ne.mpr h
      simp [hc, Ne.symm h]

theorem formatToEnd_eq (hs : 0 ∉ s) : formatToEnd (s ++ [0]) = .ok s := by
  induction s with
  | nil => rfl
  | cons c s ih =>
    rw [List.mem_cons, not_or] at hs
    rw [List.cons_append, formatToEnd, if_pos (Ne.symm hs.1), ih hs.2]
    rfl

theorem fromStart_eq_nil (h : 123 ∉ s) : fromStart s = [] := by
  apply List.dropWhile_eq_nil_iff.mpr
  intro c hc
  have hne : c ≠ 123 := fun he => h (he ▸ hc)
  simpa [isStartFormatting] using hne

/-- Dropping up to the first occurrence of a character leaves it in front. -/
theorem dropWhile_eq_cons {a : UInt8} {p : UInt8 → Bool} (hp : ∀ c, p c = !(c == a))
    (h : a ∈ s) : s.dropWhile p = a :: (s.dropWhile p).tail := by
  induction s with
  | nil => cases h
  | cons c s ih =>
    by_cases hc : c = a
    · subst hc
      simp [hp]
    · have ha : a ∈ s := (List.mem_cons.mp h).resolve_left (Ne.symm hc)
      simpa [hp, hc] using ih ha

/-- Looking for the first character of a subsequence, the first occurrence will do. -/
theorem cons_sublist_iff_dropWhile {a : UInt8} {p : UInt8 → Bool} (hp : ∀ c, p c = !(c == a))
    {w : List UInt8} : List.Sublist (a :: w) s ↔ a ∈ s ∧ List.Sublist w (s.dropWhile p).tail := by
  induction s with
  | nil => simp
  | cons c s ih =>
    by_cases hc : c = a
    · subst hc
      simp [hp]
    · rw [List.cons_sublist_cons', ih]
      simp [hp, hc, Ne.symm hc]

/-! ## The formatters -/

/-- `parse` looks at most at the two characters from `fmt` on. -/
theorem parse_ok (arg : Arg) (c c' : UInt8) (fmt : Fmt) :
    ∃ self, parse arg (c :: c' :: fmt) = .ok self := by
  cases arg <;> exact ⟨_, rfl⟩

/-- The print loop puts out the string up to its NUL. -/
theorem printFrom_eq {m : Mem} {bytes : List UInt8} {left it : ℕ} (hnul : m (it + bytes.length) = 0)
    (hbytes : ∀ i (h : i < bytes.length), m (it + i) = bytes[i]) (h0 : 0 ∉ bytes)
    (hleft : bytes.length < left) : printFrom m left it = .ok bytes := by
  induction bytes generalizing left it with
  | nil =>
    obtain ⟨left, rfl⟩ : ∃ k, left = k + 1 := ⟨left - 1, by simp at hleft; omega⟩
    have hm : m it = 0 := hnul
    unfold printFrom
    rw [if_pos hm]
  | cons c bytes ih =>
    rw [List.length_cons] at hnul hleft
    rw [List.mem_cons, not_or] at h0
    obtain ⟨left, rfl⟩ : ∃ k, left = k + 1 := ⟨left - 1, by omega⟩
    have hc : m it = c := hbytes 0 (Nat.zero_lt_succ _)
    have hrest : printFrom m left (it + 1) = .ok bytes := by
      refine ih ?_ ?_ h0.2 (by omega)
      · rw [← hnul]
        congr 1
        omega
      · intro i hi
        have := hbytes (i + 1) (Nat.succ_lt_succ hi)
        rw [List.getElem_cons_succ] at this
        rw [← this]
        congr 1
        omega
    unfold printFrom
    rw [hc, if_neg (Ne.symm h0.1), hrest]
    rfl

/-- Without a NUL it runs out of the buffer. -/
theorem printFrom_of_full {m : Mem} {left it : ℕ} (h : ∀ i, i < left → m (it + i) ≠ 0) :
    printFrom m left it = .error .buffer := by
  induction left generalizing it with
  | zero => rfl
  | succ left ih =>
    have hrest : printFrom m left (it + 1) = .error .buffer := by
      apply ih
      intro i hi
      rw [Nat.add_assoc, Nat.add_comm 1 i]
      exact h (i + 1) (Nat.succ_lt_succ hi)
    have hbyte : m it ≠ 0 := h 0 (Nat.zero_lt_succ left)
    unfold printFrom
    rw [if_neg hbyte, hrest]
    rfl

variable {bytes : List UInt8} {buffer size : ℕ}

/-- A text that ends before the buffer does is printed. -/
theorem printBuffer_storeBytes (h0 : 0 ∉ bytes) (hlen : bytes.length < size)
    (hbuffer : 0 < buffer) :
    printBuffer (storeBytes (fun _ => 0) buffer bytes) buffer size = .ok bytes := by
  have hfront : storeBytes (fun _ => 0) buffer bytes (buffer - 1) = 0 :=
    storeBytes_of_outside (by omega)
  have hback : storeBytes (fun _ => 0) buffer bytes (buffer + size) = 0 :=
    storeBytes_of_outside (by omega)
  unfold printBuffer
  rw [if_neg fun h => h.elim (absurd hfront) (absurd hback)]
  refine printFrom_eq (storeBytes_of_outside (Or.inr (Nat.le_refl _))) ?_ h0 hlen
  intro i hi
  simp [storeBytes, hi]

variable {f : Frame} {self : Formatter} {fuel : ℕ} {T : Integral}

/-- The absolute value takes 32 bits, and 31 where it is negated exactly. -/
theorem natAbs_lt {value : ℤ} (hmin : T.min ≤ value) (hmax : value ≤ T.max) :
    value.natAbs < 2 ^ 32 := by
  have hlt := max_lt T
  cases T <;> simp only [Integral.min, Integral.isUnsigned, Integral.bits] at hmin <;> omega

theorem natAbs_lt_of_neg {value : ℤ} (hmin : T.min < value) (hneg : value < 0) :
    value.natAbs < 2 ^ 31 := by
  cases T <;> simp only [Integral.min, Integral.isUnsigned, Integral.bits] at hmin <;> omega

/-- The buffer has room for every numeral but those of the minimum of `int32_t`. -/
theorem length_numeral_le (base : NumBase) {value : ℤ} (hmin : T.min ≤ value)
    (hmax : value ≤ T.max) (h : T.isUnsigned = true ∨ value ≠ T.min) :
    (numeral base value).length ≤ 32 := by
  unfold numeral
  rw [List.length_append, List.length_map]
  by_cases hneg : value < 0
  · have hne : T.min ≠ value := by
      intro he
      refine h.elim ?_ (fun hne => hne he.symm)
      intro hu
      simp only [Integral.min, hu, if_true] at he
      omega
    have hlen := length_digits_le base (natAbs_lt_of_neg (T := T) (by omega) hneg) (by omega)
    rw [if_pos hneg, List.length_singleton]
    omega
  · have hlen := length_digits_le base (natAbs_lt hmin hmax) (by omega)
    rw [if_neg hneg, List.length_nil]
    omega

/-- What `to_chars` formats is printed. -/
theorem printValue_eq (base : NumBase) {value : ℤ} (hmin : T.min ≤ value) (hmax : value ≤ T.max)
    (h : T.isUnsigned = true ∨ value ≠ T.min) (hf : 32 < fuel) :
    printValue f fuel T value base = .ok ((numeral base value).length, numeral base value) := by
  have hlen := length_numeral_le base hmin hmax h
  have hhigh := f.high
  have hfuel := length_natDigits_le base (natAbs_lt hmin hmax)
  have heq : toChars T fuel (fun _ => 0) f.buffer (f.buffer + 32) ⟨value, hmin, hmax⟩ base =
      some ((numeral base value).length, storeBytes (fun _ => 0) f.buffer (numeral base value)) :=
    toChars_eq (by omega) (by simp only; omega) h (by simp only; omega) _
  have hprint := printBuffer_storeBytes (zero_not_mem_numeral base value)
    (by omega : (numeral base value).length < 33) (by have := f.low; omega : 0 < f.buffer)
  unfold toChars at heq
  simp only at heq
  unfold printValue
  simp only [heq, hprint, ok_bind, pure_eq_ok]

/-- The first division of the minimum of `int32_t`: the negation that overflowed is undone, and at
    least two digits are left. -/
theorem int32_min_div (base : NumBase) :
    Integral.int32_t.div (-2147483648) (getBase base) = (2147483648 / getBase base : ℕ) ∧
      ((2147483648 / getBase base : ℕ) : ℤ) ≤ Integral.int32_t.max ∧
      getBase base ≤ 2147483648 / getBase base ∧ 2147483648 / getBase base < 2 ^ 31 := by
  cases base <;> decide

/-- The conversion of the minimum of `int32_t` counts one digit and the sign, and the digits run
    over the sign and out of the buffer. -/
theorem toChars_int32_min (f : Frame) (base : NumBase) {count : ℕ} {m : Mem}
    (h : toCharsIntegralImpl .int32_t fuel (fun _ => 0) f.buffer (f.buffer + 32) (-2147483648)
      base = some (count, m)) : m (f.buffer - 1) ≠ 0 := by
  have hlow := f.low
  have hhigh := f.high
  obtain ⟨hdiv, hmax, htwo, hlt⟩ := int32_min_div base
  have hlen := length_natDigits_le base hlt
  have hcast : Integral.int32_t.cast 2147483648 = -2147483648 := by decide
  have hcount : digitsCount .int32_t fuel (-2147483648) base = some 1 :=
    (digitsCount_min fuel base rfl).2
  have hit : u32 (f.buffer + 2 + 4294967295) = f.buffer + 1 := by unfold u32; omega
  have hit' : u32 (f.buffer + 1 + 4294967295) = f.buffer := by unfold u32; omega
  unfold toCharsIntegralImpl at h
  rw [if_neg (by omega)] at h
  simp only [Integral.isUnsigned, Bool.not_false, Bool.true_and, if_true, hcast, hcount, neg_neg,
    Option.bind_some, Int.reduceLT, decide_true, Nat.reduceAdd, hit] at h
  rw [if_neg (by omega), if_neg (by omega)] at h
  obtain ⟨m₁, hloop, hm⟩ := Option.map_eq_some_iff.mp h
  cases hm
  -- the lowest digit goes next to the sign, the others from the sign down
  have hmore := digitLoop_mono hloop 34
  rw [show fuel + 34 = fuel + 33 + 1 from rfl, digitLoop, if_neg (by omega), hdiv, hit'] at hmore
  obtain ⟨m₂, hwrite, hbelow⟩ := digitLoop_below _ hmax htwo
    (show f.buffer < 4294967296 by omega) (by omega) (show _ < fuel + 33 by omega)
  cases hwrite.symm.trans hmore
  exact hbelow

/-- The minimum of a signed type is not printed. -/
theorem printValue_min (base : NumBase) (hs : T.isUnsigned = false) (out : ℕ × List UInt8) :
    printValue f fuel T T.min base ≠ .ok out := by
  unfold printValue
  cases hchars : toCharsIntegralImpl T fuel (fun _ => 0) f.buffer (f.buffer + 32) T.min base with
  | none => exact nofun
  | some r =>
    obtain ⟨count, m⟩ := r
    have hbelow : m (f.buffer - 1) ≠ 0 := by
      cases T with
      | int8_t =>
        have hnone : toChars .int8_t fuel (fun _ => 0) f.buffer (f.buffer + 32)
            ⟨Integral.min .int8_t, by decide⟩ base = none :=
          toChars_narrow_min (Or.inl rfl) rfl (by omega) fuel _
        exact absurd (hnone.symm.trans hchars) nofun
      | int16_t =>
        have hnone : toChars .int16_t fuel (fun _ => 0) f.buffer (f.buffer + 32)
            ⟨Integral.min .int16_t, by decide⟩ base = none :=
          toChars_narrow_min (Or.inr rfl) rfl (by omega) fuel _
        exact absurd (hnone.symm.trans hchars) nofun
      | int32_t => exact toChars_int32_min f base hchars
      | uint8_t | uint16_t | uint32_t => cases hs
    simp only [printBuffer, hbelow, ne_eq, not_false_eq_true, true_or, if_true, error_bind]
    exact nofun

/-- The `int` parameter keeps the value. -/
theorem cast_cast {value : ℤ} (hmin : T.min ≤ value) (hmax : value ≤ T.max) :
    T.cast (Integral.int32_t.cast value) = value := by
  cases T <;>
    simp only [Integral.cast, Integral.max, Integral.min, Integral.isUnsigned, Integral.bits,
      Bool.false_eq_true, if_false, if_true, Nat.reduceSub] at hmin hmax ⊢ <;> omega

theorem uint32_mem {n : ℕ} (h : n < 4294967296) :
    Integral.uint32_t.min ≤ n ∧ (n : ℤ) ≤ Integral.uint32_t.max := by
  simp only [Integral.min, Integral.max, Integral.isUnsigned, Integral.bits, if_true]
  omega

/-- The text of one half of a `uint64_t`. -/
def rendered64 (self : Formatter) (n : ℕ) : List UInt8 :=
  List.replicate (if self.leadingZero && self.base == .hex then 8 - (numeral self.base n).length
    else 0) 48 ++ numeral self.base n

/-- The text of an argument that fits.  A `float` whose text is too long for the buffer has none. -/
def rendered (self : Formatter) : Arg → List UInt8
  | .integral _ value => numeral self.base value.val
  | .bool value =>
    if self.asString then if value then [116, 114, 117, 101] else [102, 97, 108, 115, 101]
    else [if value then 49 else 48]
  | .uint64 value =>
    (if value.toNat / 4294967296 ≠ 0 ∨ self.leadingZero then
      rendered64 self (value.toNat / 4294967296) else []) ++ rendered64 self (u32 value.toNat)
  | .float num =>
    if 11 < (num.parts self.precision).checkedLength then [] else (num.parts self.precision).text
  | .text txt => txt.takeWhile (· ≠ 0)
  | .stringView str => str
  | .pointer addr => numeral .hex addr.toNat

/-- Eight hexadecimal digits are enough for 32 bits. -/
theorem length_numeral_hex_le {n : ℕ} (h : n < 4294967296) :
    (numeral .hex n).length ≤ 8 := by
  rw [numeral_natCast, List.length_map]
  unfold digits
  split
  · simp
  · rw [List.length_reverse]
    exact (Nat.digits_length_le_iff (by decide) n).mpr h

theorem printValue64_eq (f : Frame) (self : Formatter) {n : ℕ} (h : n < 4294967296)
    (hf : 32 < fuel) : printValue64 f fuel self n = .ok (rendered64 self n) := by
  obtain ⟨hmin, hmax⟩ := uint32_mem h
  unfold printValue64 rendered64
  rw [printValue_eq self.base hmin hmax (Or.inl rfl) hf, ok_bind]
  by_cases hz : (self.leadingZero && self.base == .hex) = true
  · have hbase : self.base = .hex := by simpa using (Bool.and_eq_true_iff.mp hz).2
    have hlen := length_numeral_hex_le h
    rw [hbase] at hz ⊢
    simp only [hz, if_true, pure_eq_ok, u32]
    congr 3
    omega
  · simp only [hz, Bool.false_eq_true, if_false, pure_eq_ok]

/-- A `float` is printed, unless its sign overflows the range. -/
theorem printFloat_eq (f : Frame) (num : FloatValue) (precision : ℕ)
    (h : ¬(num.minus = true ∧ (num.parts precision).checkedLength = 11)) (hf : 32 < fuel) :
    printFloat f fuel num precision = .ok (if 11 < (num.parts precision).checkedLength then []
      else (num.parts precision).text) := by
  have hlow := f.low
  have hhigh := f.high
  have h0 : 0 ∉ (num.parts precision).text := fun h0 => text_ne_zero h0 rfl
  unfold printFloat
  by_cases hlong : 11 < (num.parts precision).checkedLength
  · have hnone : printBuffer (storeBytes (fun _ => 0) f.buffer []) f.buffer 12 = .ok [] :=
      printBuffer_storeBytes List.not_mem_nil (Nat.zero_lt_succ 11) (by omega)
    rw [storeBytes_nil] at hnone
    rw [toCharsParts_eq _ hf, if_pos (Or.inr (by omega)), if_pos hlong]
    exact hnone
  · have hlen : (num.parts precision).text.length ≤ 11 := by
      by_cases hminus : num.minus = true
      · rw [length_text_of_minus (show (num.parts precision).minus = true from hminus)]
        have hne : ¬(num.parts precision).checkedLength = 11 := fun he => h ⟨hminus, he⟩
        omega
      · rw [length_text_of_not_minus (show ¬(num.parts precision).minus = true from hminus)]
        omega
    rw [toCharsParts_text _ hf (by omega) (by omega), if_neg hlong]
    exact printBuffer_storeBytes h0 (by omega) (by omega)

/-- A sign that overflows the range leaves no NUL in the buffer. -/
theorem printFloat_overflow (f : Frame) (num : FloatValue) (precision : ℕ)
    (hminus : num.minus = true) (hlen : (num.parts precision).checkedLength = 11)
    (out : List UInt8) : printFloat f fuel num precision ≠ .ok out := by
  have hhigh := f.high
  have hover : (num.parts precision).Overflows f.buffer (f.buffer + 11) :=
    ⟨hminus, by omega, by omega⟩
  unfold printFloat
  cases hchars : toCharsParts fuel (fun _ => 0) f.buffer (f.buffer + 11) (num.parts precision) with
  | none => exact nofun
  | some m =>
    obtain ⟨hsome, hend⟩ := toCharsParts_overflow (m := fun _ => 0)
      (show 32 < fuel + 33 by omega) hover (by omega)
    cases hsome.symm.trans (toCharsParts_mono hchars 33)
    have hfull : printFrom (storeBytes (fun _ => 0) f.buffer (num.parts precision).text) 12
        f.buffer = .error .buffer :=
      printFrom_of_full fun i hi => storeBytes_text_ne_zero (by omega)
    simp only [printBuffer, hfull]
    split
    · exact nofun
    · exact nofun

/-- Every argument that fits is formatted, with enough fuel for its numeral. -/
theorem format_eq {arg : Arg} (h : arg.Fits self) (hf : 32 < fuel) :
    format f fuel self arg = .ok (rendered self arg) := by
  cases arg with
  | integral T value =>
    obtain ⟨value, hmin, hmax⟩ := value
    simp only [format, rendered, cast_cast hmin hmax]
    rw [printValue_eq self.base hmin hmax h hf]
    rfl
  | bool value =>
    simp only [format, rendered]
    split
    · rfl
    · rfl
  | uint64 value =>
    have hlt := value.toNat_lt
    simp only [format, rendered]
    rw [printValue64_eq f self (by omega) hf, printValue64_eq f self (u32_lt _) hf]
    split
    · rfl
    · rfl
  | float num => exact printFloat_eq f num self.precision h hf
  | text txt => rfl
  | stringView str => rfl
  | pointer addr =>
    obtain ⟨hmin, hmax⟩ := uint32_mem addr.toNat_lt
    simp only [format, rendered]
    rw [printValue_eq (f := f) .hex hmin hmax (Or.inl rfl) hf]
    rfl

/-- Any other is formatted with no amount of fuel. -/
theorem fits_of_format {arg : Arg} {out : List UInt8} (h : format f fuel self arg = .ok out) :
    arg.Fits self := by
  cases arg with
  | integral T value =>
    by_contra hnot
    obtain ⟨value, hmin, hmax⟩ := value
    obtain ⟨hs, hv⟩ := not_or.mp hnot
    obtain rfl : value = T.min := not_not.mp hv
    simp only [format, cast_cast hmin hmax, bind_eq_ok] at h
    obtain ⟨r, hr, -⟩ := h
    exact printValue_min self.base (Bool.not_eq_true _ ▸ hs) r hr
  | bool value => trivial
  | uint64 value => trivial
  | float num =>
    rintro ⟨hminus, hlen⟩
    exact printFloat_overflow f num self.precision hminus hlen out h
  | text txt => trivial
  | stringView str => trivial
  | pointer addr => trivial

/-! ## `format_to` -/

/-- What is left of the string after a placeholder. -/
def afterPlaceholder (s : List UInt8) : List UInt8 := (fromEnd (fromStart s).tail).tail

/-- `{}`, `n` times. -/
def placeholders (n : ℕ) : List UInt8 := (List.replicate n [123, 125]).flatten

theorem placeholders_sublist_iff {n : ℕ} : List.Sublist (placeholders (n + 1)) s ↔
    123 ∈ s ∧ 125 ∈ (fromStart s).tail ∧ List.Sublist (placeholders n) (afterPlaceholder s) := by
  have h : placeholders (n + 1) = 123 :: 125 :: placeholders n := rfl
  rw [h, cons_sublist_iff_dropWhile (p := fun c => !isStartFormatting c) fun _ => rfl,
    cons_sublist_iff_dropWhile (p := fun c => !isEndFormatting c) fun _ => rfl]
  rfl

/-- The formatter of an argument, after `parse` from `s` on. -/
def formatterAt (arg : Arg) (s : List UInt8) : Formatter := (parse arg (s ++ [0])).toOption.getD {}

/-- Each argument fits, with the placeholder that it meets. -/
def AllFit : List Arg → List UInt8 → Prop
  | [], _ => True
  | arg :: args, s =>
    arg.Fits (formatterAt arg (fromStart s).tail) ∧ AllFit args (afterPlaceholder s)

theorem mem_of_mem_afterPlaceholder {c : UInt8} (h : c ∈ afterPlaceholder s) : c ∈ s := by
  have h1 := (List.dropWhile_suffix _).subset (List.mem_of_mem_tail h)
  exact (List.dropWhile_suffix _).subset (List.mem_of_mem_tail h1)

theorem formatTo_nil (fmt : Fmt) : formatTo f fuel [] fmt = formatToEnd fmt := by
  rw [formatTo]

/-- One argument: a placeholder is passed, and the rest of the string is scanned for the others. -/
theorem formatTo_cons {arg : Arg} {args : List Arg} {out : List UInt8} (hs : 0 ∉ s) :
    formatTo f fuel (arg :: args) (s ++ [0]) = .ok out ↔
      123 ∈ s ∧ 125 ∈ (fromStart s).tail ∧
      ∃ self text rest, parse arg ((fromStart s).tail ++ [0]) = .ok self ∧
        format f fuel self arg = .ok text ∧
        formatTo f fuel args (afterPlaceholder s ++ [0]) = .ok rest ∧
        beforeStart s ++ text ++ rest = out := by
  rw [formatTo, printToFormatSign_eq hs]
  simp only [ok_bind, bind_eq_ok, pure_eq_ok, Except.ok.injEq]
  by_cases h : 123 ∈ s
  · have hcons := dropWhile_eq_cons (p := fun c => !isStartFormatting c) (fun _ => rfl) h
    have htail : (fromStart s ++ [0]).tail = (fromStart s).tail ++ [0] := by
      unfold fromStart
      rw [hcons]
      rfl
    rw [htail, skipInside_eq]
    by_cases h' : 125 ∈ (fromStart s).tail
    · have hcons' := dropWhile_eq_cons (p := fun c => !isEndFormatting c) (fun _ => rfl) h'
      have htail' : (fromEnd (fromStart s).tail ++ [0]).tail = afterPlaceholder s ++ [0] := by
        unfold afterPlaceholder fromEnd
        rw [hcons']
        rfl
      simp [h, h', htail']
    · simp [h']
  · rw [fromStart_eq_nil h]
    simp [h, skipInside]

theorem formatterAt_of_parse {arg : Arg} (h : parse arg (s ++ [0]) = .ok self) :
    formatterAt arg s = self := by
  unfold formatterAt
  rw [h]
  rfl

/-- A call that ends found a placeholder for each argument, and formatted each. -/
theorem of_formatTo {args : List Arg} {out : List UInt8} (hs : 0 ∉ s)
    (h : formatTo f fuel args (s ++ [0]) = .ok out) :
    List.Sublist (placeholders args.length) s ∧ AllFit args s := by
  induction args generalizing s out with
  | nil => exact ⟨List.nil_sublist s, trivial⟩
  | cons arg args ih =>
    obtain ⟨hstart, hend, self, text, rest, hself, hformat, hrest, -⟩ := (formatTo_cons hs).mp h
    obtain ⟨hsub, hfit⟩ := ih (fun h0 => hs (mem_of_mem_afterPlaceholder h0)) hrest
    refine ⟨placeholders_sublist_iff.mpr ⟨hstart, hend, hsub⟩, ?_, hfit⟩
    rw [formatterAt_of_parse hself]
    exact fits_of_format hformat

/-- **`format_to` stays in its format string** exactly when the string has, for each argument in
    turn, a `{` and a later `}`, and every argument fits in the buffer of its formatter. -/
theorem format_to_stays_iff (f : Frame) (s : CString) (args : List Arg) :
    Stays f s args ↔
      List.Sublist (placeholders args.length) s.bytes ∧ AllFit args s.bytes := by
  obtain ⟨s, hs⟩ := s
  unfold Stays CString.data
  simp only
  constructor
  · rintro ⟨fuel, out, h⟩
    exact of_formatTo hs h
  · rintro ⟨hsub, hfit⟩
    refine ⟨64, ?_⟩
    induction args generalizing s with
    | nil => exact ⟨s, by rw [formatTo_nil, formatToEnd_eq hs]⟩
    | cons arg args ih =>
      obtain ⟨hstart, hend, hsub'⟩ := placeholders_sublist_iff.mp hsub
      obtain ⟨rest, hrest⟩ := ih (afterPlaceholder s)
        (fun h0 => hs (mem_of_mem_afterPlaceholder h0)) hsub' hfit.2
      -- the `}` leaves two characters for `parse` to look at
      obtain ⟨c, fmt, hfmt⟩ := List.exists_cons_of_ne_nil (List.ne_nil_of_mem hend)
      obtain ⟨c', fmt', hfmt'⟩ : ∃ c' fmt', fmt ++ [0] = c' :: fmt' :=
        List.exists_cons_of_ne_nil (by simp)
      obtain ⟨self, hself⟩ := parse_ok arg c c' fmt'
      rw [← hfmt', ← List.cons_append, ← hfmt] at hself
      have hself' := hfit.1
      rw [formatterAt_of_parse hself] at hself'
      have htext : format f 64 self arg = .ok (rendered self arg) := format_eq hself' (by omega)
      exact ⟨_, (formatTo_cons hs).mpr ⟨hstart, hend, self, _, rest, hself, htext, hrest, rfl⟩⟩

/-- `"ok"` has no placeholder for the argument 5: its `parse` reads the byte after the NUL. -/
theorem format_to_reads_past_nul :
    (∀ fuel, formatTo ⟨4096, by decide, by decide⟩ fuel [.integral .int32_t ⟨5, by decide⟩]
      [111, 107, 0] = .error .outside) ∧
    ¬ Stays ⟨4096, by decide, by decide⟩ ⟨[111, 107], by decide⟩
      [.integral .int32_t ⟨5, by decide⟩] := by
  refine ⟨fun _ => rfl, ?_⟩
  rintro ⟨fuel, out, h⟩
  exact absurd h nofun

end HryOS.Format
