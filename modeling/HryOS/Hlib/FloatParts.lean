import HryOS.Hlib.Charconv

/-!
# The text of a `float` from its parts

`to_chars` for `float` takes two unsigned numbers out of its value, the integer part and the
fraction scaled by a power of ten; the rest of it is integer code.  Each number is written by the
`to_chars` of `uint32_t`, with a dot between them.

* `FloatParts` — what is taken out of the value.
* `toCharsParts` — what follows: the length check, the sign, and the two calls.
* `toCharsParts_text` — in a range that is long enough the text is written.
* `toCharsParts_overflow` — in a range that only the sign is too long for, one byte more is.
-/

set_option autoImplicit false

namespace HryOS.FloatText

open ByteMemory

/-- `minus`, `int_part`, `after_dot` and `float_precision`. -/
structure FloatParts where
  minus : Bool
  intPart : UInt32
  afterDot : Bool
  floatPrecision : UInt32
  deriving DecidableEq, Repr

/-- What is written behind the sign: the two parts and the dot. -/
def writeParts (fuel : ℕ) (m : Mem) (first intPartLen floatPartLen : ℕ) (p : FloatParts) :
    Option Mem := do
  let (_, m) ← toCharsIntegralImpl .uint32_t fuel m first (u32 (first + intPartLen))
    p.intPart.toNat .dec
  if p.afterDot then
    let m := Function.update m (u32 (first + intPartLen)) 46 -- '.'
    let (_, m) ← toCharsIntegralImpl .uint32_t fuel m (u32 (first + intPartLen + 1))
      (u32 (first + intPartLen + floatPartLen)) p.floatPrecision.toNat .dec
    return m
  else return m

/-- `float_part_len`. -/
def floatPartLen (fuel : ℕ) (p : FloatParts) : Option ℕ :=
  if p.afterDot then
    -- the dot
    (digitsCount .uint32_t fuel p.floatPrecision.toNat .dec).map (1 + ·)
  else some 0

/-- `to_chars(first, last, value, precision)`, for the parts of `value`. -/
def toCharsParts (fuel : ℕ) (m : Mem) (first last : ℕ) (p : FloatParts) : Option Mem :=
  if first ≥ last then some m
  else do
    let intPartLen ← digitsCount .uint32_t fuel p.intPart.toNat .dec
    let floatPartLen ← floatPartLen fuel p
    if last - first < intPartLen + floatPartLen then return m
    else if p.minus then
      writeParts fuel (Function.update m first 45) (u32 (first + 1)) intPartLen floatPartLen p -- '-'
    else writeParts fuel m first intPartLen floatPartLen p

/-! ## The text -/

namespace FloatParts

/-- The dot and the digits behind it. -/
def fractionText (p : FloatParts) : List UInt8 :=
  if p.afterDot then 46 :: numeral .dec p.floatPrecision.toNat else []

/-- What stands behind the sign. -/
def unsignedText (p : FloatParts) : List UInt8 := numeral .dec p.intPart.toNat ++ p.fractionText

/-- What is to be written. -/
def text (p : FloatParts) : List UInt8 := (if p.minus then [45] else []) ++ p.unsignedText

/-- The length that is compared with that of the range. -/
def checkedLength (p : FloatParts) : ℕ := p.unsignedText.length

end FloatParts

variable {p : FloatParts} {first last fuel : ℕ} {m : Mem}

theorem unsignedText_length : p.unsignedText.length =
    (numeral .dec p.intPart.toNat).length + p.fractionText.length := List.length_append

theorem checkedLength_pos (p : FloatParts) : 0 < p.checkedLength := by
  have hpos := length_numeral_pos .dec p.intPart.toNat
  unfold FloatParts.checkedLength
  rw [unsignedText_length]
  omega

theorem length_text_of_minus (h : p.minus = true) : p.text.length = p.checkedLength + 1 := by
  unfold FloatParts.text
  rw [if_pos h, List.singleton_append, List.length_cons]
  rfl

theorem length_text_of_not_minus (h : ¬p.minus = true) : p.text.length = p.checkedLength := by
  unfold FloatParts.text
  rw [if_neg h, List.nil_append]
  rfl

/-- A number of 32 bits has at most ten digits. -/
theorem length_numeral_dec_le (n : UInt32) : (numeral .dec n.toNat).length ≤ 10 := by
  have hlt := n.toNat_lt
  rw [length_numeral]
  unfold digits
  split
  · exact Nat.le_add_left 1 9
  · rw [List.length_reverse]
    exact (Nat.digits_length_le_iff (by decide) _).mpr (hlt.trans (by decide))

theorem checkedLength_le (p : FloatParts) : p.checkedLength ≤ 21 := by
  have hint := length_numeral_dec_le p.intPart
  have hfloat := length_numeral_dec_le p.floatPrecision
  unfold FloatParts.checkedLength
  rw [unsignedText_length]
  unfold FloatParts.fractionText
  split
  · rw [List.length_cons]
    omega
  · rw [List.length_nil]
    omega

theorem length_text_le (p : FloatParts) : p.text.length ≤ 22 := by
  have hle := checkedLength_le p
  by_cases h : p.minus = true
  · rw [length_text_of_minus h]
    omega
  · rw [length_text_of_not_minus h]
    omega

theorem text_ne_zero {c : UInt8} (hc : c ∈ p.text) : c ≠ 0 := by
  have hnumeral : ∀ n : ℕ, ∀ c ∈ numeral .dec n, c ≠ 0 := by
    rintro n c hc rfl
    exact zero_not_mem_numeral .dec n hc
  unfold FloatParts.text FloatParts.unsignedText FloatParts.fractionText at hc
  rcases List.mem_append.mp hc with hc | hc
  · split at hc
    · rw [List.mem_singleton.mp hc]
      decide
    · cases hc
  rcases List.mem_append.mp hc with hc | hc
  · exact hnumeral _ c hc
  · split at hc
    · rcases List.mem_cons.mp hc with rfl | hc
      · decide
      · exact hnumeral _ c hc
    · cases hc

/-- No byte of the text is a NUL. -/
theorem storeBytes_text_ne_zero {i : ℕ} (hi : i < p.text.length) :
    storeBytes m first p.text (first + i) ≠ 0 := by
  rw [storeBytes_apply _ _ _ hi]
  exact text_ne_zero (List.getElem_mem hi)

/-! ## What is written -/

theorem natDigits_fuel (n : UInt32) (hf : 32 < fuel) :
    (Nat.digits (getBase .dec) n.toNat).length < fuel := by
  have := length_natDigits_le .dec (k := 32) n.toNat_lt
  omega

theorem le_uint32_max (n : UInt32) : (n.toNat : ℤ) ≤ Integral.max .uint32_t := by
  have hmax : Integral.max .uint32_t = 4294967295 := by decide
  have hlt := n.toNat_lt
  omega

theorem digitsCount_numeral (n : UInt32) (hf : 32 < fuel) :
    digitsCount .uint32_t fuel n.toNat .dec = some (numeral .dec n.toNat).length := by
  rw [digitsCount_eq (le_uint32_max n) (natDigits_fuel n hf), length_numeral]

theorem floatPartLen_eq (p : FloatParts) (hf : 32 < fuel) :
    floatPartLen fuel p = some p.fractionText.length := by
  unfold floatPartLen FloatParts.fractionText
  split
  · rw [digitsCount_numeral p.floatPrecision hf, List.length_cons, Nat.add_comm]
    rfl
  · rfl

/-- One number, in a range that is as long as its numeral. -/
theorem number_written (n : UInt32) (hf : 32 < fuel)
    (hroom : first + (numeral .dec n.toNat).length < 4294967296) :
    toCharsIntegralImpl .uint32_t fuel m first (u32 (first + (numeral .dec n.toNat).length))
        n.toNat .dec =
      some ((numeral .dec n.toNat).length, storeBytes m first (numeral .dec n.toNat)) := by
  have hmin : Integral.min .uint32_t ≤ (n.toNat : ℤ) := by
    have h0 : Integral.min .uint32_t = 0 := by decide
    omega
  have hvalue : ∃ v : Integral.Value .uint32_t, v.val = n.toNat :=
    ⟨⟨n.toNat, hmin, le_uint32_max n⟩, rfl⟩
  obtain ⟨v, hv⟩ := hvalue
  rw [u32_of_lt hroom, ← hv]
  rw [← hv] at hroom
  refine toChars_eq hroom (Nat.le_refl _) (Or.inl rfl) ?_ m
  rw [hv]
  exact natDigits_fuel n hf

/-- A range that ends at address 0 is empty. -/
theorem number_not_written (n : ℕ) :
    toCharsIntegralImpl .uint32_t fuel m first 0 n .dec = some (0, m) := by
  unfold toCharsIntegralImpl
  exact if_pos (Nat.zero_le first)

theorem fractionText_length (h : p.afterDot = true) :
    p.fractionText.length = 1 + (numeral .dec p.floatPrecision.toNat).length := by
  unfold FloatParts.fractionText
  rw [if_pos h, List.length_cons, Nat.add_comm]

/-- The parts are written one behind the other. -/
theorem writeParts_eq (hf : 32 < fuel) (hroom : first + p.unsignedText.length < 4294967296) :
    writeParts fuel m first (numeral .dec p.intPart.toNat).length p.fractionText.length p =
      some (storeBytes m first p.unsignedText) := by
  rw [unsignedText_length] at hroom
  unfold writeParts
  rw [number_written p.intPart hf (by omega)]
  simp only [Option.bind_eq_bind, Option.bind_some]
  by_cases hdot : p.afterDot = true
  · have htext : p.unsignedText =
        numeral .dec p.intPart.toNat ++ 46 :: numeral .dec p.floatPrecision.toNat := by
      unfold FloatParts.unsignedText FloatParts.fractionText
      rw [if_pos hdot]
    rw [fractionText_length hdot] at hroom ⊢
    rw [if_pos hdot, u32_of_lt (by omega), u32_of_lt (by omega),
      ← Nat.add_assoc _ 1 (numeral .dec p.floatPrecision.toNat).length,
      number_written p.floatPrecision hf (by omega), htext, ← storeBytes_append, storeBytes_cons]
    rfl
  · have htext : p.unsignedText = numeral .dec p.intPart.toNat := by
      unfold FloatParts.unsignedText FloatParts.fractionText
      rw [if_neg hdot, List.append_nil]
    rw [if_neg hdot, htext]
    rfl

/-- Where the text ends with the address space the last range is empty, and nothing is written
    from the last address on. -/
theorem writeParts_wrap (hf : 32 < fuel) (hroom : first + p.unsignedText.length = 4294967296) :
    ∃ m', writeParts fuel m first (numeral .dec p.intPart.toNat).length p.fractionText.length p =
        some m' ∧
      ∀ x, x < first ∨ 4294967295 ≤ x → m' x = m x := by
  have hwrap : u32 4294967296 = 0 := rfl
  rw [unsignedText_length] at hroom
  unfold writeParts
  by_cases hdot : p.afterDot = true
  · have hpos := length_numeral_pos .dec p.floatPrecision.toNat
    have hlen := fractionText_length hdot
    rw [← Nat.add_assoc] at hroom
    rw [number_written p.intPart hf (by omega), hroom, hwrap]
    simp only [hdot, if_true, Option.bind_eq_bind, Option.bind_some, number_not_written]
    refine ⟨_, rfl, ?_⟩
    intro x hx
    rw [u32_of_lt (by omega), Function.update_of_ne (by omega), storeBytes_of_outside (by omega)]
  · have hlen : p.fractionText.length = 0 := by
      unfold FloatParts.fractionText
      rw [if_neg hdot]
      rfl
    rw [hlen, Nat.add_zero] at hroom
    rw [hroom, hwrap]
    simp only [hdot, Option.bind_eq_bind, Option.bind_some, number_not_written]
    exact ⟨m, rfl, fun _ _ => rfl⟩

/-- The length check, and what follows it. -/
theorem toCharsParts_eq (p : FloatParts) (hf : 32 < fuel) :
    toCharsParts fuel m first last p =
      if first ≥ last ∨ last - first < p.checkedLength then some m
      else if p.minus then
        writeParts fuel (Function.update m first 45) (u32 (first + 1))
          (numeral .dec p.intPart.toNat).length p.fractionText.length p
      else
        writeParts fuel m first (numeral .dec p.intPart.toNat).length p.fractionText.length p := by
  unfold toCharsParts FloatParts.checkedLength
  rw [unsignedText_length]
  by_cases hempty : first ≥ last
  · rw [if_pos hempty, if_pos (Or.inl hempty)]
  · simp only [hempty, if_false, false_or, digitsCount_numeral p.intPart hf, floatPartLen_eq p hf,
      Option.bind_eq_bind, Option.bind_some]
    rfl

theorem writeParts_mono {m' : Mem} {intPartLen floatPartLen : ℕ}
    (h : writeParts fuel m first intPartLen floatPartLen p = some m') (k : ℕ) :
    writeParts (fuel + k) m first intPartLen floatPartLen p = some m' := by
  unfold writeParts at h ⊢
  obtain ⟨⟨count, m₁⟩, hr, hrest⟩ := Option.bind_eq_some_iff.mp h
  rw [toCharsIntegralImpl_mono hr k]
  simp only [Option.bind_eq_bind, Option.bind_some] at hrest ⊢
  by_cases hdot : p.afterDot = true
  · rw [if_pos hdot] at hrest ⊢
    obtain ⟨r', hr', hm'⟩ := Option.bind_eq_some_iff.mp hrest
    rw [toCharsIntegralImpl_mono hr' k]
    exact hm'
  · rw [if_neg hdot] at hrest ⊢
    exact hrest

theorem floatPartLen_mono {len : ℕ} (h : floatPartLen fuel p = some len) (k : ℕ) :
    floatPartLen (fuel + k) p = some len := by
  unfold floatPartLen at h ⊢
  by_cases hdot : p.afterDot = true
  · rw [if_pos hdot] at h ⊢
    obtain ⟨count, hcount, hr⟩ := Option.map_eq_some_iff.mp h
    rw [digitsCount_mono hcount k, Option.map_some, hr]
  · rw [if_neg hdot] at h ⊢
    exact h

/-- More fuel does not change what is written. -/
theorem toCharsParts_mono {m' : Mem} (h : toCharsParts fuel m first last p = some m') (k : ℕ) :
    toCharsParts (fuel + k) m first last p = some m' := by
  unfold toCharsParts at h ⊢
  by_cases hempty : first ≥ last
  · rw [if_pos hempty] at h ⊢
    exact h
  rw [if_neg hempty] at h ⊢
  obtain ⟨intPartLen, hint, hrest⟩ := Option.bind_eq_some_iff.mp h
  obtain ⟨fractionLen, hfraction, hrest⟩ := Option.bind_eq_some_iff.mp hrest
  rw [digitsCount_mono hint k, floatPartLen_mono hfraction k]
  simp only [Option.bind_eq_bind, Option.bind_some] at hrest ⊢
  by_cases hshort : last - first < intPartLen + fractionLen
  · rw [if_pos hshort] at hrest ⊢
    exact hrest
  rw [if_neg hshort] at hrest ⊢
  by_cases hminus : p.minus = true
  · rw [if_pos hminus] at hrest ⊢
    exact writeParts_mono hrest k
  · rw [if_neg hminus] at hrest ⊢
    exact writeParts_mono hrest k

/-- In a range that is long enough the text is written. -/
theorem toCharsParts_text (p : FloatParts) (hf : 32 < fuel) (hlast : last < 4294967296)
    (hroom : first + p.text.length ≤ last) :
    toCharsParts fuel m first last p = some (storeBytes m first p.text) := by
  have hpos := checkedLength_pos p
  rw [toCharsParts_eq p hf]
  by_cases hminus : p.minus = true
  · rw [length_text_of_minus hminus] at hroom
    unfold FloatParts.checkedLength at hpos hroom ⊢
    unfold FloatParts.text
    rw [if_neg (by omega), if_pos hminus, if_pos hminus, u32_of_lt (by omega),
      writeParts_eq hf (by omega), List.singleton_append, storeBytes_cons]
  · rw [length_text_of_not_minus hminus] at hroom
    unfold FloatParts.checkedLength at hpos hroom ⊢
    unfold FloatParts.text
    rw [if_neg (by omega), if_neg hminus, if_neg hminus, writeParts_eq hf (by omega),
      List.nil_append]

/-! ## The sign -/

/-- The range is as long as the text without its sign. -/
def FloatParts.Overflows (p : FloatParts) (first last : ℕ) : Prop :=
  p.minus = true ∧ first < last ∧ last - first = p.checkedLength

instance (p : FloatParts) (first last : ℕ) : Decidable (p.Overflows first last) := by
  unfold FloatParts.Overflows
  infer_instance

/-- The range is full, and the text has one more byte. -/
theorem toCharsParts_overflow (hf : 32 < fuel) (h : p.Overflows first last)
    (hlast : last < 4294967295) :
    toCharsParts fuel m first last p = some (storeBytes m first p.text) ∧
      first + p.text.length = last + 1 := by
  obtain ⟨hminus, hempty, hfull⟩ := h
  have hlen := length_text_of_minus hminus
  refine ⟨?_, by omega⟩
  rw [toCharsParts_eq p hf, if_neg (by omega), if_pos hminus]
  unfold FloatParts.checkedLength at hfull
  unfold FloatParts.text
  rw [if_pos hminus, List.singleton_append, u32_of_lt (by omega), writeParts_eq hf (by omega),
    storeBytes_cons]

/-- At the end of the address space the range of the last part is empty. -/
theorem toCharsParts_overflow_end (hf : 32 < fuel) (h : p.Overflows first 4294967295) :
    ∃ m', toCharsParts fuel m first 4294967295 p = some m' ∧
      ∀ x, x < first ∨ 4294967295 ≤ x → m' x = m x := by
  obtain ⟨hminus, hempty, hfull⟩ := h
  have hend : first + 1 + p.unsignedText.length = 4294967296 := by
    unfold FloatParts.checkedLength at hfull
    omega
  rw [toCharsParts_eq p hf, if_neg (by omega), if_pos hminus, u32_of_lt (by omega)]
  obtain ⟨m', hm', houtside⟩ := writeParts_wrap (m := Function.update m first 45) hf hend
  refine ⟨m', hm', ?_⟩
  intro x hx
  rw [houtside x (by omega), Function.update_of_ne (by omega)]

/-- A range that passes the check and is too short for the text is too short for the sign. -/
theorem overflows_of_short (hempty : first < last) (hfits : p.checkedLength ≤ last - first)
    (hshort : ¬first + p.text.length ≤ last) : p.Overflows first last := by
  by_cases hminus : p.minus = true
  · rw [length_text_of_minus hminus] at hshort
    exact ⟨hminus, hempty, by omega⟩
  · rw [length_text_of_not_minus hminus] at hshort
    omega

end HryOS.FloatText
