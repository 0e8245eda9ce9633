import HryOS.Lib.Positional
import HryOS.Hlib.Format

/-!
# What the integer formatters print

* `toChars_unsigned_exact` — an unsigned value is written as its minimal numeral, or not at all,
  and printed as that numeral; reading the numeral gives the value back.
* `toChars_failed_iff` — when a conversion that returns 0 leaves memory as it was: the sign of a
  negative value is written before the length is known.
-/

set_option autoImplicit false

namespace HryOS.Format

open ByteMemory Positional

/-- `text` is a minimal numeral of `n`, in the digits of `to_chars`. -/
def IsText (base : NumBase) (n : ℕ) (text : List UInt8) : Prop :=
  ∃ ds, IsNumeral (getBase base) n ds ∧ text = ds.map (DIGITS.getD · 0)

/-- Reading a text: the place of each character in `DIGITS` is its digit. -/
def readBack (base : NumBase) (text : List UInt8) : ℕ :=
  value (getBase base) (text.map (DIGITS.idxOf ·))

variable {T : Integral} {base : NumBase} {n : ℕ} {f : Frame} {self : Formatter} {fuel : ℕ}

/-! ## Numerals -/

theorem isNumeral_digits (base : NumBase) (n : ℕ) :
    IsNumeral (getBase base) n (digits (getBase base) n) := by
  have hb := two_le_getBase base
  unfold digits
  split
  · rename_i h
    rw [h]
    exact isNumeral_zero hb
  · rename_i h
    exact Positional.isNumeral_digits hb h

theorem isText_numeral (base : NumBase) (n : ℕ) : IsText base n (numeral base n) :=
  ⟨_, isNumeral_digits base n, numeral_natCast base n⟩

theorem IsText.eq_numeral {text : List UInt8} (h : IsText base n text) :
    text = numeral base n := by
  obtain ⟨ds, hds, rfl⟩ := h
  rw [numeral_natCast, hds.unique (two_le_getBase base) (isNumeral_digits base n)]

theorem idxOf_DIGITS {d : ℕ} (h : d < 16) : DIGITS.idxOf (DIGITS.getD d 0) = d := by
  have hall : ∀ d : Fin 16, DIGITS.idxOf (DIGITS.getD d 0) = d := by decide
  exact hall ⟨d, h⟩

/-- Reading digits gives the number they denote. -/
theorem readBack_map {ds : List ℕ} (h : ∀ d ∈ ds, d < getBase base) :
    readBack base (ds.map (DIGITS.getD · 0)) = value (getBase base) ds := by
  have hle := getBase_le base
  have hmap : (ds.map (DIGITS.getD · 0)).map (DIGITS.idxOf ·) = ds := by
    rw [List.map_map]
    refine (List.map_congr_left fun d hd => ?_).trans (List.map_id ds)
    exact idxOf_DIGITS (by have := h d hd; omega)
  rw [readBack, hmap]

theorem readBack_numeral (base : NumBase) (n : ℕ) : readBack base (numeral base n) = n := by
  have h := isNumeral_digits base n
  rw [numeral_natCast, readBack_map h.lt_base, h.value_eq]

/-! ## The length check -/

theorem natAbs_fuel {T : Integral} (value : T.Value) (base : NumBase) (hf : 32 < fuel) :
    (Nat.digits (getBase base) value.val.natAbs).length < fuel := by
  have := length_natDigits_le base (natAbs_lt value.2.1 value.2.2)
  omega

/-- The length `to_chars` asks for: that of the numeral, but for the minimum of a signed type it
    counts one digit. -/
def needed (T : Integral) (value : ℤ) (base : NumBase) : ℕ :=
  if T.isUnsigned = false ∧ value = T.min then 2 else (numeral base value).length

theorem digitsCountLoop_mono {b fuel k count r : ℕ} {x : ℤ}
    (h : digitsCountLoop T b fuel x count = some r) :
    digitsCountLoop T b (fuel + k) x count = some r := by
  induction fuel generalizing x count with
  | zero => cases h
  | succ fuel ih =>
    rw [Nat.add_right_comm]
    unfold digitsCountLoop at h ⊢
    split at h
    · rename_i hx
      rw [if_pos hx, h]
    · rename_i hx
      rw [if_neg hx]
      exact ih h

/-- More fuel does not change a count. -/
theorem digitsCount_mono {k r : ℕ} {x : ℤ} (h : digitsCount T fuel x base = some r) :
    digitsCount T (fuel + k) x base = some r := by
  unfold digitsCount at h ⊢
  simp only at h ⊢
  generalize (if base ≠ .dec then getBase base else 10) = b at h ⊢
  split at h
  · rename_i hx
    rw [if_pos hx, h]
  · rename_i hx
    rw [if_neg hx]
    exact digitsCountLoop_mono h

/-- Only signed values are negative. -/
theorem minus_eq (value : T.Value) :
    (!T.isUnsigned && decide (value.val < 0)) = decide (value.val < 0) := by
  have hmin := value.2.1
  cases hu : T.isUnsigned with
  | false => rfl
  | true =>
    simp only [Integral.min, hu, if_true] at hmin
    simp [hmin]

/-- What `to_chars` counts, with the sign. -/
theorem digitsCount_needed (value : T.Value) (base : NumBase) (hf : 32 < fuel) :
    ∃ count, digitsCount T fuel (if value.val < 0 then T.cast (-value.val) else value.val) base =
      some count ∧ (if value.val < 0 then 1 else 0) + count = needed T value base := by
  have hfuel := natAbs_fuel value base hf
  obtain ⟨v, hmin, hmax⟩ := value
  simp only at hfuel ⊢
  have hlen : (numeral base v).length =
      (if v < 0 then 1 else 0) + (digits (getBase base) v.natAbs).length := by
    unfold numeral
    rw [List.length_append, List.length_map]
    split
    · rfl
    · rfl
  unfold needed
  by_cases hneg : v < 0
  · have hs : T.isUnsigned = false := by
      by_contra hu
      simp only [Integral.min, Bool.not_eq_false] at hu hmin
      rw [if_pos hu] at hmin
      omega
    rw [hlen]
    simp only [hneg, hs, true_and, if_true]
    by_cases hv : v = T.min
    · rw [hv, cast_neg_min, if_pos rfl]
      exact ⟨1, (digitsCount_min fuel base hs).2, rfl⟩
    · have hr : T.max = -T.min - 1 := by
        cases T <;> first | rfl | cases hs
      rw [if_neg hv, cast_neg hs (by omega) hneg]
      exact ⟨_, digitsCount_eq (by omega) hfuel, rfl⟩
  · obtain ⟨n, rfl⟩ := Int.eq_ofNat_of_zero_le (not_lt.mp hneg)
    have hv : ¬(T.isUnsigned = false ∧ (n : ℤ) = T.min) := by
      rintro ⟨hs, hv⟩
      have := (digitsCount_min fuel base hs).1
      omega
    rw [hlen, if_neg hv]
    simp only [hneg, if_false, Int.natAbs_natCast, Nat.zero_add] at hfuel ⊢
    exact ⟨_, digitsCount_eq hmax hfuel, rfl⟩

/-- A count that is returned is that one. -/
theorem needed_of_digitsCount {value : T.Value} {count : ℕ} (h : digitsCount T fuel
      (if value.val < 0 then T.cast (-value.val) else value.val) base = some count) :
    (if value.val < 0 then 1 else 0) + count = needed T value base := by
  obtain ⟨count', hcount, hsum⟩ :=
    digitsCount_needed value base (show 32 < fuel + 33 by omega)
  obtain rfl : count = count' := Option.some.inj ((digitsCount_mono h).symm.trans hcount)
  exact hsum

theorem needed_pos (T : Integral) (value : ℤ) (base : NumBase) : 0 < needed T value base := by
  have hpos := length_digits_pos (getBase base) value.natAbs
  unfold needed numeral
  split
  · decide
  · rw [List.length_append, List.length_map]
    omega

/-- Too short a range: 0 is returned, after the sign was written. -/
theorem toChars_short {value : T.Value} {first last : ℕ} (hlt : first < last)
    (hshort : last < first + needed T value base) (hf : 32 < fuel) (m : Mem) :
    toChars T fuel m first last value base =
      some (0, if value.val < 0 then Function.update m first 45 else m) := by
  obtain ⟨count, hcount, hsum⟩ := digitsCount_needed value base hf
  unfold toChars toCharsIntegralImpl
  rw [if_neg (by omega)]
  simp only [minus_eq, decide_eq_true_eq]
  rw [hcount, Option.bind_some, if_pos (by omega)]

/-- What `to_chars` returns, if it does: 0 for too short a range, the length for another one. -/
theorem toChars_some {value : T.Value} {first last : ℕ} {m : Mem} {r : ℕ × Mem}
    (hlt : first < last) (h : toChars T fuel m first last value base = some r) :
    (last < first + needed T value base ∧
      r = (0, if value.val < 0 then Function.update m first 45 else m)) ∨
    (first + needed T value base ≤ last ∧ r.1 = needed T value base) := by
  unfold toChars toCharsIntegralImpl at h
  rw [if_neg (by omega)] at h
  simp only [minus_eq, decide_eq_true_eq] at h
  obtain ⟨count, hcount, h⟩ := Option.bind_eq_some_iff.mp h
  have hsum := needed_of_digitsCount hcount
  by_cases hshort : last < first + needed T value base
  · rw [if_pos (by omega)] at h
    exact Or.inl ⟨hshort, (Option.some.inj h).symm⟩
  · rw [if_neg (by omega)] at h
    obtain ⟨m', -, rfl⟩ := Option.map_eq_some_iff.mp h
    exact Or.inr ⟨by omega, hsum⟩

/-- Nothing else is returned for too short a range. -/
theorem toChars_short_eq {value : T.Value} {first last : ℕ} {m : Mem} {r : ℕ × Mem}
    (hlt : first < last) (hshort : last < first + needed T value base)
    (h : toChars T fuel m first last value base = some r) :
    r = (0, if value.val < 0 then Function.update m first 45 else m) := by
  rcases toChars_some hlt h with ⟨-, hr⟩ | ⟨hlong, -⟩
  · exact hr
  · omega

/-- Long enough a range: if `to_chars` returns, it returns the length. -/
theorem toChars_long {value : T.Value} {first last : ℕ} {m : Mem} {r : ℕ × Mem}
    (hlong : first + needed T value base ≤ last)
    (h : toChars T fuel m first last value base = some r) : r.1 = needed T value base := by
  have hpos := needed_pos T value base
  rcases toChars_some (by omega) h with ⟨hshort, -⟩ | ⟨-, hr⟩
  · omega
  · exact hr

/-! ## Unsigned values -/

/-- Everything `to_chars` and `formatter_integral` do with the value is exact: a range that is long
    enough gets the minimal numeral, a shorter one nothing, and the formatter puts the numeral
    out. -/
structure Exact (T : Integral) (value : T.Value) (base : NumBase) : Prop where
  text : IsText base value.val.toNat (numeral base value)
  unique : ∀ text, IsText base value.val.toNat text → text = numeral base value
  writes : ∀ (fuel : ℕ) (m : Mem) (first last : ℕ), 32 < fuel → last < 4294967296 →
    first + (numeral base value).length ≤ last → toChars T fuel m first last value base =
      some ((numeral base value).length, storeBytes m first (numeral base value))
  refuses : ∀ (fuel : ℕ) (m : Mem) (first last : ℕ), 32 < fuel →
    last < first + (numeral base value).length → toChars T fuel m first last value base = some (0, m)
  reads : (readBack base (numeral base value) : ℤ) = value
  prints : ∀ (f : Frame) (fuel : ℕ) (self : Formatter), 32 < fuel → self.base = base →
    format f fuel self (.integral T value) = .ok (numeral base value)

/-- **Formatting an unsigned integer is exact and invertible.** -/
theorem toChars_unsigned_exact (T : Integral) (hT : T.isUnsigned = true) (value : T.Value)
    (base : NumBase) : Exact T value base := by
  have hmin : T.min = 0 := by simp [Integral.min, hT]
  obtain ⟨v, hv0, hmax⟩ := value
  obtain ⟨n, rfl⟩ := Int.eq_ofNat_of_zero_le (show 0 ≤ v by omega)
  refine ⟨?_, ?_, ?_, ?_, ?_, ?_⟩
  · exact isText_numeral base n
  · intro text htext
    exact htext.eq_numeral
  · intro fuel m first last hf hlast hroom
    exact toChars_eq hlast hroom (Or.inl hT) (natAbs_fuel _ base hf) m
  · intro fuel m first last hf hshort
    by_cases hlt : first < last
    · have hneeded : needed T n base = (numeral base n).length := by
        rw [needed, hT]
        rfl
      rw [toChars_short hlt (by rw [hneeded]; exact hshort) hf, if_neg (by simp)]
    · rw [toChars, toCharsIntegralImpl, if_pos (by omega)]
  · simp only [readBack_numeral]
  · intro f fuel self hf hbase
    have hfits : (Arg.integral T ⟨n, hv0, hmax⟩).Fits self := Or.inl hT
    rw [format_eq hfits hf, rendered, hbase]

/-- 4294967295 as a `uint32_t`, in binary. -/
theorem toChars_unsigned_exact_example :
    Exact .uint32_t ⟨4294967295, by decide⟩ .bin :=
  toChars_unsigned_exact .uint32_t (by decide) _ _

/-! ## Conversions that fail -/

/-- **A failed conversion writes nothing**, for every value that is not negative, every range that
    is empty or long enough, and where the first byte was the sign already; for no other. -/
theorem toChars_failed_iff (T : Integral) (value : T.Value) (base : NumBase) (first last : ℕ)
    (m : Mem) :
    (∀ fuel m', toChars T fuel m first last value base = some (0, m') → m' = m) ↔
      0 ≤ value.val ∨ last ≤ first ∨ first + needed T value base ≤ last ∨ m first = 45 := by
  have hpos := needed_pos T value base
  by_cases hempty : last ≤ first
  · refine iff_of_true ?_ (Or.inr (Or.inl hempty))
    intro fuel m' h
    rw [toChars, toCharsIntegralImpl, if_pos hempty] at h
    exact (Prod.mk.inj (Option.some.inj h)).2.symm
  by_cases hlong : first + needed T value base ≤ last
  · refine iff_of_true ?_ (Or.inr (Or.inr (Or.inl hlong)))
    intro fuel m' h
    have := toChars_long hlong h
    simp only at this
    omega
  · have hlt := not_le.mp hempty
    have hshort := not_le.mp hlong
    have hmem : (if value.val < 0 then Function.update m first 45 else m) = m ↔
        0 ≤ value.val ∨ m first = 45 := by
      split
      · rename_i hneg
        rw [Function.update_eq_self_iff, eq_comm]
        simp [not_le.mpr hneg]
      · rename_i hneg
        simp [not_lt.mp hneg]
    constructor
    · intro h
      rcases hmem.mp (h 33 _ (toChars_short hlt hshort (by omega) m)) with h0 | h45
      · exact Or.inl h0
      · exact Or.inr (Or.inr (Or.inr h45))
    · intro h fuel m' hm'
      have hm := toChars_short_eq hlt hshort hm'
      rw [(Prod.mk.inj hm).2]
      exact hmem.mpr (by tauto)

/-- -5 in a range of one byte: 0 is returned, and the byte is a `-` now. -/
theorem toChars_failed_writes : ∃ m', toChars .int32_t 33 (fun _ => 0) 4096 4097 ⟨-5, by decide⟩
    .dec = some (0, m') ∧ m' ≠ fun _ => 0 := by
  refine ⟨_, toChars_short (by decide) (by decide) (by decide) _, ?_⟩
  intro h
  have h45 := congrFun h 4096
  rw [if_pos (by simp), Function.update_self] at h45
  exact absurd h45 (by simp)

end HryOS.Format
