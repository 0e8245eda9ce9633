import Mathlib.Algebra.Order.Floor.Ring
import Mathlib.Data.Rat.Floor
import HryOS.Hlib.Numeral

/-!
# `to_chars` for `float`

The parts of a value, with the arithmetic of rational numbers: floating point is not embedded.

* `toCharsFloat` — the overload.
* `float_denotes_iff` — when the text denotes the truncated value: zeros at the front of the
  fraction are not written.
* `float_stays_inside_iff` — when only the range is written to: the sign is put in front of a text
  whose length was checked without it.
* `fits_iff_keepsNul` — the same for `format_to`.
-/

set_option autoImplicit false

namespace HryOS.FloatText

open ByteMemory Positional Format

/-- `while (power)` of `pow10`, on an `int`. -/
def pow10Loop : ℕ → ℤ → ℤ
  | 0, result => result
  | power + 1, result => pow10Loop power (Integral.int32_t.cast (result * 10))

/-- `pow10`. -/
def pow10 (power : ℕ) : ℕ := (Integral.uint32_t.cast (pow10Loop power 1)).toNat

/-! ## The parts of a value that is not negative -/

/-- `int_part`. -/
def intPart (value : ℚ) : ℕ := ⌊value⌋₊

/-- `float_part`. -/
def floatPart (value : ℚ) : ℚ := value - intPart value

/-- `after_dot`. -/
def afterDot (value : ℚ) (precision : ℕ) : Bool :=
  decide (0 < floatPart value) && decide (0 < precision)

/-- `float_precision`. -/
def floatPrecision (value : ℚ) (precision : ℕ) : ℕ := ⌊floatPart value * pow10 precision⌋₊

/-! ## `to_chars` -/

/-- The value without its sign. -/
def magnitude (value : ℚ) : ℚ := if value < 0 then -value else value

/-- What the first statements of `to_chars` compute. -/
def parts (value : ℚ) (precision : ℕ) : FloatParts where
  minus := decide (value < 0)
  intPart := UInt32.ofNat (intPart (magnitude value))
  afterDot := afterDot (magnitude value) precision
  floatPrecision := UInt32.ofNat (floatPrecision (magnitude value) precision)

/-- `to_chars(first, last, value, precision)`. -/
def toCharsFloat (fuel : ℕ) (m : Mem) (first last : ℕ) (value : ℚ) (precision : ℕ) :
    Option Mem := toCharsParts fuel m first last (parts value precision)

/-! ## The text -/

/-- What stands behind the sign. -/
def unsignedText (value : ℚ) (precision : ℕ) : List UInt8 :=
  numeral .dec (intPart value) ++
    if afterDot value precision then 46 :: numeral .dec (floatPrecision value precision) else []

/-- What is to be written. -/
def text (value : ℚ) (precision : ℕ) : List UInt8 :=
  (if value < 0 then [45] else []) ++ unsignedText (magnitude value) precision

/-- The length that is compared with that of the range. -/
def checkedLength (value : ℚ) (precision : ℕ) : ℕ :=
  (unsignedText (magnitude value) precision).length

/-- Reading digits, with or without a dot, as a decimal number. -/
def readUnsigned (t : List UInt8) : ℚ :=
  let whole := t.takeWhile (· ≠ 46)
  let fraction := (t.dropWhile (· ≠ 46)).tail
  readBack .dec whole + readBack .dec fraction / 10 ^ fraction.length

/-- Reading a text as a decimal number. -/
def readDecimal : List UInt8 → ℚ
  | [] => 0
  | c :: t => if c = 45 then -readUnsigned t else readUnsigned (c :: t)

/-- `value` without the decimal places behind the first `precision`. -/
def truncate (value : ℚ) (precision : ℕ) : ℚ :=
  (if value < 0 then -1 else 1) * (⌊magnitude value * 10 ^ precision⌋₊ / 10 ^ precision)

variable {value : ℚ} {precision first last fuel : ℕ} {m : Mem}

theorem pow10_eq (hp : precision ≤ 9) : pow10 precision = 10 ^ precision := by
  have hall : ∀ p : Fin 10, pow10 p = 10 ^ (p : ℕ) := by decide
  exact hall ⟨precision, by omega⟩

theorem magnitude_eq_abs (value : ℚ) : magnitude value = |value| := by
  unfold magnitude
  split
  · rename_i h
    rw [abs_of_neg h]
  · rename_i h
    rw [abs_of_nonneg (not_lt.mp h)]

theorem magnitude_nonneg (value : ℚ) : 0 ≤ magnitude value := by
  rw [magnitude_eq_abs]
  exact abs_nonneg value

/-! ## The two numbers -/

theorem floatPart_nonneg (h : 0 ≤ value) : 0 ≤ floatPart value := by
  have hle := Nat.floor_le h
  unfold floatPart intPart
  linarith

theorem floatPart_lt (value : ℚ) : floatPart value < 1 := by
  have hlt := Nat.lt_floor_add_one value
  unfold floatPart intPart
  linarith

theorem intPart_lt (h : value < 2147483648) : intPart value < 4294967296 := by
  unfold intPart
  rw [Nat.floor_lt' (by omega)]
  exact h.trans (by norm_num)

/-- The scaled fraction has no more digits than there are places. -/
theorem floatPrecision_lt (h : 0 ≤ value) (hp : precision ≤ 9) :
    floatPrecision value precision < 10 ^ precision := by
  have hpos : (0 : ℚ) < 10 ^ precision := by positivity
  have h0 := floatPart_nonneg h
  have h1 := floatPart_lt value
  unfold floatPrecision
  rw [pow10_eq hp, Nat.floor_lt (by positivity)]
  push_cast
  nlinarith

theorem floatPrecision_lt_u32 (h : 0 ≤ value) (hp : precision ≤ 9) :
    floatPrecision value precision < 4294967296 := by
  have hlt := floatPrecision_lt h hp
  have hle : 10 ^ precision ≤ 10 ^ 9 := Nat.pow_le_pow_right (by omega) hp
  omega

/-! ## What is written -/

theorem parts_unsignedText (hlt : |value| < 2147483648) (hp : precision ≤ 9) :
    (parts value precision).unsignedText = unsignedText (magnitude value) precision := by
  have h0 := magnitude_nonneg value
  rw [← magnitude_eq_abs] at hlt
  have hint : (UInt32.ofNat (intPart (magnitude value))).toNat = intPart (magnitude value) :=
    UInt32.toNat_ofNat_of_lt (intPart_lt hlt)
  have hfloat : (UInt32.ofNat (floatPrecision (magnitude value) precision)).toNat =
      floatPrecision (magnitude value) precision :=
    UInt32.toNat_ofNat_of_lt (floatPrecision_lt_u32 h0 hp)
  unfold FloatParts.unsignedText FloatParts.fractionText parts unsignedText
  dsimp only
  rw [hint, hfloat]

theorem parts_text (hlt : |value| < 2147483648) (hp : precision ≤ 9) :
    (parts value precision).text = text value precision := by
  unfold FloatParts.text text
  rw [parts_unsignedText hlt hp]
  unfold parts
  simp only [decide_eq_true_eq]

theorem parts_checkedLength (hlt : |value| < 2147483648) (hp : precision ≤ 9) :
    (parts value precision).checkedLength = checkedLength value precision := by
  unfold FloatParts.checkedLength checkedLength
  rw [parts_unsignedText hlt hp]

/-- In a range that is long enough the text is written. -/
theorem toCharsFloat_text (hlt : |value| < 2147483648) (hp : precision ≤ 9) (hf : 32 < fuel)
    (hlast : last < 4294967296) (hroom : first + (text value precision).length ≤ last) :
    toCharsFloat fuel m first last value precision =
      some (storeBytes m first (text value precision)) := by
  rw [← parts_text hlt hp] at hroom ⊢
  exact toCharsParts_text _ hf hlast hroom

/-! ## Reading the text -/

/-- The digits are no sign and no dot. -/
theorem not_sign_or_dot {n : ℕ} {c : UInt8} (hc : c ∈ numeral .dec n) : c ≠ 45 ∧ c ≠ 46 := by
  have hall : ∀ d : Fin 16, DIGITS.getD d 0 ≠ 45 ∧ DIGITS.getD d 0 ≠ 46 := by decide
  rw [numeral_natCast] at hc
  obtain ⟨d, hd, rfl⟩ := List.mem_map.mp hc
  have hlt := lt_of_mem_digits hd
  exact hall ⟨d, by have := getBase_le .dec; omega⟩

theorem readUnsigned_numeral (n : ℕ) : readUnsigned (numeral .dec n) = n := by
  have hall : ∀ c ∈ numeral .dec n, decide (c ≠ 46) = true := fun c hc =>
    decide_eq_true (not_sign_or_dot hc).2
  unfold readUnsigned
  rw [List.takeWhile_eq_self_iff.mpr hall, List.dropWhile_eq_nil_iff.mpr hall]
  simp only [readBack_numeral, List.tail_nil]
  simp [readBack, Positional.value]

theorem readUnsigned_append (n k : ℕ) :
    readUnsigned (numeral .dec n ++ 46 :: numeral .dec k) =
      n + k / 10 ^ (numeral .dec k).length := by
  have hall : ∀ c ∈ numeral .dec n, decide (c ≠ 46) = true := fun c hc =>
    decide_eq_true (not_sign_or_dot hc).2
  unfold readUnsigned
  rw [List.takeWhile_append_of_pos hall, List.dropWhile_append_of_pos hall]
  simp [readBack_numeral]

theorem readDecimal_text : readDecimal (text value precision) =
    (if value < 0 then -1 else 1) * readUnsigned (unsignedText (magnitude value) precision) := by
  unfold text
  split
  · simp [readDecimal]
  · have hne : numeral .dec (intPart (magnitude value)) ≠ [] := by
      rw [← List.length_pos_iff, length_numeral]
      exact length_digits_pos ..
    obtain ⟨c, t, ht⟩ := List.exists_cons_of_ne_nil hne
    have hc : c ≠ 45 := (not_sign_or_dot (by rw [ht]; exact List.mem_cons_self)).1
    unfold unsignedText
    rw [ht]
    simp [readDecimal, hc]

/-! ## Truncation -/

/-- The digits up to the given place are those of the two parts. -/
theorem floor_scaled (h : 0 ≤ value) (hp : precision ≤ 9) :
    ⌊value * 10 ^ precision⌋₊ =
      intPart value * 10 ^ precision + floatPrecision value precision := by
  have hfrac := floatPart_nonneg h
  have hsplit : value * 10 ^ precision =
      floatPart value * 10 ^ precision + ((intPart value * 10 ^ precision : ℕ) : ℚ) := by
    unfold floatPart
    push_cast
    ring
  unfold floatPrecision
  rw [hsplit, Nat.floor_add_natCast (by positivity), pow10_eq hp, Nat.add_comm]
  push_cast
  rfl

theorem truncate_eq (hp : precision ≤ 9) : truncate value precision =
    (if value < 0 then -1 else 1) * (intPart (magnitude value) +
      floatPrecision (magnitude value) precision / 10 ^ precision) := by
  have hpos : (10 : ℚ) ^ precision ≠ 0 := by positivity
  unfold truncate
  rw [floor_scaled (magnitude_nonneg value) hp]
  push_cast
  rw [add_div, mul_div_cancel_right₀ _ hpos]

/-- Without a dot there are no places to write. -/
theorem floatPrecision_eq_zero (h : 0 ≤ value) (hp : precision ≤ 9)
    (hdot : ¬afterDot value precision = true) : floatPrecision value precision = 0 := by
  have hfrac := floatPart_nonneg h
  have hlt := floatPart_lt value
  simp only [afterDot, Bool.and_eq_true, decide_eq_true_eq, not_and, not_lt] at hdot
  unfold floatPrecision
  rw [pow10_eq hp, Nat.floor_eq_zero]
  rcases hfrac.eq_or_lt with h0 | h0
  · rw [← h0]
    norm_num
  · obtain rfl : precision = 0 := by
      have := hdot h0
      omega
    simpa using hlt

/-- The scaled fraction takes all its places, or is zero. -/
def AllPlaces (value : ℚ) (precision : ℕ) : Prop :=
  floatPrecision value precision = 0 ∨
    (numeral .dec (floatPrecision value precision)).length = precision

theorem div_pow_eq_iff {k a b : ℕ} :
    (k : ℚ) / 10 ^ a = k / 10 ^ b ↔ k = 0 ∨ a = b := by
  rw [div_eq_div_iff (by positivity) (by positivity)]
  constructor
  · intro h
    rcases Nat.eq_zero_or_pos k with hk | hk
    · exact Or.inl hk
    · refine Or.inr ?_
      have hpow : (10 : ℚ) ^ b = 10 ^ a :=
        mul_left_cancel₀ (by positivity : (k : ℚ) ≠ 0) h
      exact (Nat.pow_right_injective (Nat.le_refl 2 |>.trans (by omega) : 2 ≤ 10)
        (by exact_mod_cast hpow)).symm
  · rintro (rfl | rfl)
    · simp
    · rfl

/-- What is read is the truncated value exactly then. -/
theorem readDecimal_eq_truncate_iff (hp : precision ≤ 9) :
    readDecimal (text value precision) = truncate value precision ↔
      (afterDot (magnitude value) precision = true → AllPlaces (magnitude value) precision) := by
  have h0 := magnitude_nonneg value
  have hsign : (if value < 0 then -1 else 1 : ℚ) ≠ 0 := by
    split <;> norm_num
  rw [readDecimal_text, truncate_eq hp, mul_right_inj' hsign]
  unfold unsignedText AllPlaces
  split
  · rename_i hdot
    rw [readUnsigned_append, add_right_inj, div_pow_eq_iff]
    exact ⟨fun h _ => h, fun h => h hdot⟩
  · rename_i hdot
    rw [List.append_nil, readUnsigned_numeral, floatPrecision_eq_zero h0 hp hdot]
    simp [hdot]

/-- The digits of the scaled fraction are as many as the places from a tenth on. -/
theorem length_floatPrecision_iff (h : 0 ≤ value) (hp : precision ≤ 9) (hpos : 0 < precision)
    (hne : floatPrecision value precision ≠ 0) :
    (numeral .dec (floatPrecision value precision)).length = precision ↔
      1 / 10 ≤ floatPart value := by
  have hfrac := floatPart_nonneg h
  have hlt := floatPrecision_lt h hp
  have hnumeral := isNumeral_digits .dec (floatPrecision value precision)
  have hten : getBase .dec = 10 := rfl
  rw [hten] at hnumeral
  have hle : (numeral .dec (floatPrecision value precision)).length = precision ↔
      10 ^ (precision - 1) ≤ floatPrecision value precision := by
    rw [length_numeral, hten]
    rcases Nat.lt_or_ge 1 precision with h1 | h1
    · have hiff := hnumeral.length_eq_iff (by omega) (k := precision - 1) (by omega)
      rw [Nat.sub_add_cancel hpos] at hiff
      rw [hiff, and_iff_left hlt]
    · obtain rfl : precision = 1 := by omega
      have hone : (digits 10 (floatPrecision value 1)).length = 1 :=
        length_digits_of_lt (by simpa using hlt)
      rw [hone]
      exact iff_of_true rfl (Nat.one_le_iff_ne_zero.mpr hne)
  rw [hle]
  unfold floatPrecision
  rw [pow10_eq hp, Nat.le_floor_iff (by positivity)]
  obtain ⟨k, rfl⟩ : ∃ k, precision = k + 1 := ⟨precision - 1, by omega⟩
  have hk : (0 : ℚ) < 10 ^ k := by positivity
  rw [Nat.add_sub_cancel]
  push_cast
  rw [pow_succ, ← mul_assoc, mul_right_comm, le_mul_iff_one_le_left hk, div_le_iff₀ (by norm_num)]

/-- The decimal places of the fraction that are written are all there are. -/
theorem allPlaces_iff (hp : precision ≤ 9) :
    (afterDot (magnitude value) precision = true → AllPlaces (magnitude value) precision) ↔
      precision = 0 ∨ Int.fract |value| * 10 ^ precision < 1 ∨ 1 / 10 ≤ Int.fract |value| := by
  have h0 := magnitude_nonneg value
  have hfract : Int.fract |value| = floatPart (magnitude value) := by
    rw [magnitude_eq_abs] at h0 ⊢
    unfold floatPart intPart
    rw [natCast_floor_eq_intCast_floor h0]
    rfl
  have hzero : floatPrecision (magnitude value) precision = 0 ↔
      floatPart (magnitude value) * 10 ^ precision < 1 := by
    unfold floatPrecision
    rw [pow10_eq hp, Nat.floor_eq_zero]
    push_cast
    rfl
  rw [hfract, ← hzero]
  unfold AllPlaces
  rcases Nat.eq_zero_or_pos precision with hp0 | hpos
  · refine iff_of_true ?_ (Or.inl hp0)
    intro _
    exact Or.inl (floatPrecision_eq_zero h0 hp (by simp [afterDot, hp0]))
  by_cases hne : floatPrecision (magnitude value) precision = 0
  · exact iff_of_true (fun _ => Or.inl hne) (Or.inr (Or.inl hne))
  have hdot : afterDot (magnitude value) precision = true := by
    by_contra hdot
    exact hne (floatPrecision_eq_zero h0 hp hdot)
  rw [length_floatPrecision_iff h0 hp hpos hne]
  simp [hdot, hne, hpos.ne']

/-! ## The text in a range -/

theorem text_length_le (hlt : |value| < 2147483648) (hp : precision ≤ 9) :
    (text value precision).length ≤ 22 := by
  rw [← parts_text hlt hp]
  exact length_text_le _

/-- In every range that is long enough one text is written, and it reads as the truncated value. -/
def Denotes (value : ℚ) (precision : ℕ) : Prop :=
  ∀ fuel first last, 32 < fuel → last < 4294967296 →
    first + (text value precision).length ≤ last →
    ∃ t, (∀ m, toCharsFloat fuel m first last value precision = some (storeBytes m first t)) ∧
      readDecimal t = truncate value precision

theorem denotes_iff_text (hlt : |value| < 2147483648) (hp : precision ≤ 9) :
    Denotes value precision ↔ readDecimal (text value precision) = truncate value precision := by
  constructor
  · intro h
    have hlen := text_length_le hlt hp
    obtain ⟨t, hwritten, hread⟩ := h 33 4096 (4096 + (text value precision).length) (by omega)
      (by omega) (Nat.le_refl _)
    have heq : t = text value precision := storeBytes_inj (a := 4096) fun m => by
      have hsome := (hwritten m).symm.trans
        (toCharsFloat_text hlt hp (by omega) (by omega) (Nat.le_refl _))
      exact Option.some.inj hsome
    rw [← heq]
    exact hread
  · intro h fuel first last hf hlast hroom
    exact ⟨_, fun m => toCharsFloat_text hlt hp hf hlast hroom, h⟩

/-- **The text denotes the truncated value** exactly when no zeros are lost at the front of the
    fraction. -/
theorem float_denotes_iff (hlt : |value| < 2147483648) (hp : precision ≤ 9) :
    Denotes value precision ↔
      precision = 0 ∨ Int.fract |value| * 10 ^ precision < 1 ∨ 1 / 10 ≤ Int.fract |value| := by
  rw [denotes_iff_text hlt hp, readDecimal_eq_truncate_iff hp, allPlaces_iff hp]

theorem float_denotes_example : Denotes (-5 / 4) 3 ↔
    3 = 0 ∨ Int.fract |(-5 / 4 : ℚ)| * 10 ^ 3 < 1 ∨ 1 / 10 ≤ Int.fract |(-5 / 4 : ℚ)| :=
  float_denotes_iff (by norm_num) (by norm_num)

/-- 1.0625 with four places is written as `1.625`. -/
theorem float_loses_zero : text (17 / 16) 4 = [49, 46, 54, 50, 53] ∧ ¬Denotes (17 / 16) 4 := by
  have htext : text (17 / 16) 4 = [49, 46, 54, 50, 53] := by decide +kernel
  refine ⟨htext, ?_⟩
  rw [denotes_iff_text (by norm_num) (by norm_num), htext]
  decide +kernel

/-! ## The range -/

/-- The call ends, and no byte outside of `[first, last)` has changed. -/
def StaysInside (value : ℚ) (precision first last : ℕ) : Prop :=
  ∀ fuel m, 32 < fuel → ∃ m', toCharsFloat fuel m first last value precision = some m' ∧
    ∀ x, x < first ∨ last ≤ x → m' x = m x

/-- The sign is put in front of a text that fills the range. -/
def SignOverflows (value : ℚ) (precision first last : ℕ) : Prop :=
  value < 0 ∧ first < last ∧ last - first = checkedLength value precision

theorem signOverflows_iff (hlt : |value| < 2147483648) (hp : precision ≤ 9) :
    SignOverflows value precision first last ↔ (parts value precision).Overflows first last := by
  unfold SignOverflows FloatParts.Overflows
  rw [parts_checkedLength hlt hp]
  unfold parts
  simp only [decide_eq_true_eq]

/-- Only that writes outside, unless the range ends with the address space. -/
theorem staysInside_iff (hlt : |value| < 2147483648) (hp : precision ≤ 9)
    (hlast : last < 4294967296) : StaysInside value precision first last ↔
      ¬(SignOverflows value precision first last ∧ last ≠ 4294967295) := by
  rw [signOverflows_iff hlt hp]
  constructor
  · rintro h ⟨hover, hne⟩
    obtain ⟨m', hm', houtside⟩ := h 33 (fun _ => 0) (by omega)
    obtain ⟨hsome, hlen⟩ := toCharsParts_overflow (m := fun _ => 0) (by omega : 32 < 33) hover
      (by omega : last < 4294967295)
    cases hsome.symm.trans hm'
    have hempty := hover.2.1
    have hbyte := houtside last (Or.inr (Nat.le_refl last))
    rw [show last = first + (last - first) by omega] at hbyte
    exact storeBytes_text_ne_zero (by omega) hbyte
  · intro h fuel m hf
    unfold toCharsFloat
    by_cases hshort : first ≥ last ∨ last - first < (parts value precision).checkedLength
    · refine ⟨m, ?_, fun _ _ => rfl⟩
      rw [toCharsParts_eq _ hf, if_pos hshort]
    rw [not_or, not_le, not_lt] at hshort
    obtain ⟨hempty, hfits⟩ := hshort
    by_cases hroom : first + (parts value precision).text.length ≤ last
    · refine ⟨_, toCharsParts_text _ hf hlast hroom, ?_⟩
      intro x hx
      exact storeBytes_of_outside (by omega)
    · -- the sign is the byte for which there is no room
      have hover := overflows_of_short hempty hfits hroom
      obtain rfl : last = 4294967295 := by
        by_contra hne
        exact h ⟨hover, hne⟩
      exact toCharsParts_overflow_end hf hover

/-! ## `formatter<float>` -/

/-- `char buffer[12]{}` and the call of `to_chars` on its first eleven bytes: a NUL is left for the
    loop that prints the buffer. -/
def KeepsNul (value : ℚ) (precision buffer : ℕ) : Prop :=
  ∀ fuel m, 32 < fuel → (∀ i, i < 12 → m (buffer + i) = 0) →
    ∃ m', toCharsFloat fuel m buffer (buffer + 11) value precision = some m' ∧
      ∃ i, i < 12 ∧ m' (buffer + i) = 0

theorem keepsNul_iff {buffer : ℕ} (hlt : |value| < 2147483648) (hp : precision ≤ 9)
    (hbuffer : buffer + 12 < 4294967296) : KeepsNul value precision buffer ↔
      ¬SignOverflows value precision buffer (buffer + 11) := by
  constructor
  · intro h hover
    rw [signOverflows_iff hlt hp] at hover
    obtain ⟨m', hm', i, hi, hnul⟩ := h 33 (fun _ => 0) (by omega) fun _ _ => rfl
    obtain ⟨hsome, hlen⟩ := toCharsParts_overflow (m := fun _ => 0) (by omega : 32 < 33) hover
      (by omega)
    cases hsome.symm.trans hm'
    exact storeBytes_text_ne_zero (by omega) hnul
  · intro h fuel m hf hzero
    have hstays : StaysInside value precision buffer (buffer + 11) :=
      (staysInside_iff hlt hp (by omega)).mpr fun hover => h hover.1
    obtain ⟨m', hm', houtside⟩ := hstays fuel m hf
    refine ⟨m', hm', 11, by omega, ?_⟩
    rw [houtside _ (Or.inr (Nat.le_refl _))]
    exact hzero 11 (by omega)

/-- A `float` for `format_to`, where its operations are exact. -/
def floatValue (value : ℚ) : FloatValue where
  minus := decide (value < 0)
  intPart := UInt32.ofNat (intPart (magnitude value))
  hasFraction := decide (0 < floatPart (magnitude value))
  scaled precision := UInt32.ofNat (floatPrecision (magnitude value) precision)

/-- `format_to` ends for it where its buffer keeps a NUL. -/
theorem fits_iff_keepsNul {buffer : ℕ} (self : Formatter) (hlt : |value| < 2147483648)
    (hp : self.precision ≤ 9) (hbuffer : buffer + 12 < 4294967296) :
    (Arg.float (floatValue value)).Fits self ↔ KeepsNul value self.precision buffer := by
  have hroom : buffer < buffer + 11 ∧ buffer + 11 - buffer =
      (parts value self.precision).checkedLength ↔
      (parts value self.precision).checkedLength = 11 := by omega
  rw [keepsNul_iff hlt hp hbuffer, signOverflows_iff hlt hp]
  unfold FloatParts.Overflows
  rw [hroom]
  rfl

/-- **Only the range is written to** exactly when the sign does not overflow it, and the buffer of
    the formatter keeps a NUL exactly then. -/
theorem float_stays_inside_iff {buffer : ℕ} (hlt : |value| < 2147483648) (hp : precision ≤ 9)
    (hlast : last < 4294967296) (hbuffer : buffer + 12 < 4294967296) :
    (StaysInside value precision first last ↔
      ¬(SignOverflows value precision first last ∧ last ≠ 4294967295)) ∧
    (KeepsNul value precision buffer ↔
      ¬SignOverflows value precision buffer (buffer + 11)) :=
  ⟨staysInside_iff hlt hp hlast, keepsNul_iff hlt hp hbuffer⟩

theorem float_stays_inside_example :
    (StaysInside (-3 / 2) 1 4096 4100 ↔
      ¬(SignOverflows (-3 / 2) 1 4096 4100 ∧ 4100 ≠ 4294967295)) ∧
    (KeepsNul (-3 / 2) 1 8192 ↔ ¬SignOverflows (-3 / 2) 1 8192 (8192 + 11)) :=
  float_stays_inside_iff (by norm_num) (by norm_num) (by norm_num) (by norm_num)

/-- -1.5 with one place in a range of three bytes, and -1234567.125 with three in the buffer of the
    formatter. -/
theorem float_writes_outside :
    ¬StaysInside (-3 / 2) 1 4096 4099 ∧ ¬KeepsNul (-9876537 / 8) 3 8192 := by
  constructor
  · rw [staysInside_iff (by norm_num) (by norm_num) (by norm_num), not_not]
    exact ⟨⟨by norm_num, by norm_num, by decide +kernel⟩, by norm_num⟩
  · rw [keepsNul_iff (by norm_num [abs_lt]) (by norm_num) (by norm_num), not_not]
    exact ⟨by norm_num, by norm_num, by decide +kernel⟩

end HryOS.FloatText
