import Mathlib.Data.Nat.Digits.Lemmas
import HryOS.Lib.ByteMemory

/-!
# `to_chars` for integers

`charconv.cpp` and `numerics.hpp` on the 32-bit target: `size_t` and `int` have 32 bits, so the
mixed arithmetic of a `T` and a `size_t` base is unsigned 32-bit arithmetic, and its result is
converted back to `T`.

* `Integral` — the six overloads, `cast` — conversion to a type.
* `digitsCount`, `toChars` — the source's functions; loops take fuel, `none` means that it ran
  out.
* `numeral` — what is to be written.
* `toChars_formats_iff` — every value but the minimum of a signed type is formatted exactly and in
  bounds.
-/

set_option autoImplicit false

namespace HryOS

open ByteMemory

/-- `num_base`. -/
inductive NumBase
  | bin
  | oct
  | dec
  | hex
  deriving DecidableEq, Repr

/-- `get_base`. -/
def getBase : NumBase → ℕ
  | .bin => 2
  | .oct => 8
  | .dec => 10
  | .hex => 16

/-- The integral types `to_chars` is overloaded for. -/
inductive Integral
  | int8_t
  | uint8_t
  | int16_t
  | uint16_t
  | int32_t
  | uint32_t
  deriving DecidableEq, Repr

namespace Integral

/-- The number of bits. -/
def bits : Integral → ℕ
  | .int8_t | .uint8_t => 8
  | .int16_t | .uint16_t => 16
  | .int32_t | .uint32_t => 32

/-- `is_unsigned_v`. -/
def isUnsigned : Integral → Bool
  | .int8_t | .int16_t | .int32_t => false
  | .uint8_t | .uint16_t | .uint32_t => true

/-- The smallest value. -/
def min (T : Integral) : ℤ := if T.isUnsigned then 0 else -2 ^ (T.bits - 1)

/-- The largest value. -/
def max (T : Integral) : ℤ := T.min + 2 ^ T.bits - 1

/-- `static_cast<T>`: the value modulo `2 ^ bits`, in the range of the type. -/
def cast (T : Integral) (value : ℤ) : ℤ := (value - T.min) % 2 ^ T.bits + T.min

/-- The values of the type. -/
abbrev Value (T : Integral) := {value : ℤ // T.min ≤ value ∧ value ≤ T.max}

/-- `value % num_base`: `value` is converted to `size_t`. -/
def mod (value : ℤ) (numBase : ℕ) : ℕ := (value % 4294967296).toNat % numBase

/-- `value /= num_base`: `value` is converted to `size_t`, and the quotient back to `T`. -/
def div (T : Integral) (value : ℤ) (numBase : ℕ) : ℤ :=
  T.cast ((value % 4294967296).toNat / numBase : ℕ)

end Integral

open Integral

/-! ## `numerics.hpp` -/

/-- `while (number)` of `digits_count`. -/
def digitsCountLoop (T : Integral) (numBase : ℕ) : ℕ → ℤ → ℕ → Option ℕ
  | 0, _, _ => none
  | fuel + 1, number, count =>
    if number = 0 then some count
    else digitsCountLoop T numBase fuel (T.div number numBase) (count + 1)

/-- `digits_count`. -/
def digitsCount (T : Integral) (fuel : ℕ) (number : ℤ) (base : NumBase) : Option ℕ :=
  let numBase := if base ≠ .dec then getBase base else 10
  if number < T.cast numBase then some 1 else digitsCountLoop T numBase fuel number 0

/-! ## `charconv.cpp` -/

/-- `DIGITS`. -/
def DIGITS : List UInt8 := "0123456789ABCDEF".toList.map Char.toUInt8

/-- `while (value)` of `to_chars_integral_impl`: digits are written from `it` downwards. -/
def digitLoop (T : Integral) (numBase : ℕ) : ℕ → Mem → ℤ → ℕ → Option Mem
  | 0, _, _, _ => none
  | fuel + 1, m, value, it =>
    if value = 0 then some m
    else
      let digit := mod value numBase
      digitLoop T numBase fuel (Function.update m it (DIGITS.getD digit 0)) (T.div value numBase)
        (u32 (it + 4294967295))

/-- `to_chars_integral_impl`: the returned length and the memory. -/
def toCharsIntegralImpl (T : Integral) (fuel : ℕ) (m : Mem) (first last : ℕ) (value : ℤ)
    (base : NumBase) : Option (ℕ × Mem) :=
  if first ≥ last then some (0, m)
  else
    let minus := !T.isUnsigned && value < 0
    let m := if minus then Function.update m first 45 else m -- '-'
    let value := if minus then T.cast (-value) else value
    (digitsCount T fuel value base).bind fun count =>
      let digitsCount := (if minus then 1 else 0) + count
      if last - first < digitsCount then some (0, m)
      else
        let numBase := getBase base
        let it := u32 (first + digitsCount + 4294967295)
        let m := if value = 0 then Function.update m it 48 else m -- '0'
        (digitLoop T numBase fuel m value it).map fun m => (digitsCount, m)

/-- `to_chars(first, last, value, base)`. -/
def toChars (T : Integral) (fuel : ℕ) (m : Mem) (first last : ℕ) (value : T.Value)
    (base : NumBase) : Option (ℕ × Mem) :=
  toCharsIntegralImpl T fuel m first last value.val base

/-! ## The numeral -/

/-- The digits of `n` in base `b`, the most significant one first and not zero, except that `0`
    has the digit zero. -/
def digits (b n : ℕ) : List ℕ := if n = 0 then [0] else (Nat.digits b n).reverse

/-- The numeral of a value: `-` where it is negative, and the digits of its absolute value. -/
def numeral (base : NumBase) (value : ℤ) : List UInt8 :=
  (if value < 0 then [45] else []) ++ (digits (getBase base) value.natAbs).map (DIGITS.getD · 0)

/-- `to_chars` terminates, returns the length of the numeral and writes the numeral from `first`
    on, and nothing else. -/
def Formats (T : Integral) (value : T.Value) (base : NumBase) (first last : ℕ) : Prop :=
  ∃ fuel, ∀ m, toChars T fuel m first last value base =
    some ((numeral base value).length, storeBytes m first (numeral base value))

/-- No digit is a NUL. -/
theorem DIGITS_ne_zero {d : ℕ} (h : d < 16) : DIGITS.getD d 0 ≠ 0 := by
  have hall : ∀ d : Fin 16, DIGITS.getD d 0 ≠ 0 := by decide
  exact hall ⟨d, h⟩

/-! ## Arithmetic -/

variable {T : Integral} {base : NumBase} {numBase n : ℕ}

theorem two_le_getBase (base : NumBase) : 2 ≤ getBase base := by
  cases base <;> decide

theorem getBase_le (base : NumBase) : getBase base ≤ 16 := by
  cases base <;> decide

theorem min_le_zero (T : Integral) : T.min ≤ 0 := by
  cases T <;> decide

theorem max_lt (T : Integral) : T.max < 4294967296 := by
  cases T <;> decide

theorem sixteen_le_max (T : Integral) : 16 ≤ T.max := by
  cases T <;> decide

/-- A value of the type is its own conversion. -/
theorem cast_of_mem {value : ℤ} (hmin : T.min ≤ value) (hmax : value ≤ T.max) :
    T.cast value = value := by
  unfold Integral.max at hmax
  unfold Integral.cast
  rw [Int.emod_eq_of_lt (by omega) (by omega)]
  omega

theorem cast_natCast (h : (n : ℤ) ≤ T.max) : T.cast n = n := by
  have hmin := min_le_zero T
  exact cast_of_mem (by omega) h

/-- Only the minimum of a signed type is not negated exactly. -/
theorem cast_neg {value : ℤ} (hs : T.isUnsigned = false) (hmin : T.min < value)
    (hneg : value < 0) : T.cast (-value) = value.natAbs := by
  have hmax : T.max = -T.min - 1 := by
    cases T <;> first | rfl | cases hs
  have hle := min_le_zero T
  rw [cast_of_mem (by omega) (by omega)]
  omega

theorem cast_neg_min (T : Integral) : T.cast (-T.min) = T.min := by
  cases T <;> rfl

theorem toNat_natCast_emod (h : (n : ℤ) ≤ T.max) : ((n : ℤ) % 4294967296).toNat = n := by
  have hlt := max_lt T
  omega

theorem mod_natCast (h : (n : ℤ) ≤ T.max) : mod n numBase = n % numBase := by
  unfold mod
  rw [toNat_natCast_emod h]

theorem div_le (h : (n : ℤ) ≤ T.max) : ((n / numBase : ℕ) : ℤ) ≤ T.max := by
  have hle : n / numBase ≤ n := Nat.div_le_self n numBase
  omega

theorem div_natCast (h : (n : ℤ) ≤ T.max) : T.div n numBase = (n / numBase : ℕ) := by
  unfold Integral.div
  rw [toNat_natCast_emod h, cast_natCast (div_le h)]

/-! ## The loops -/

/-- `digits_count`'s loop adds the number of digits. -/
theorem digitsCountLoop_eq (hb : 1 < numBase) {fuel count : ℕ} (hn : (n : ℤ) ≤ T.max)
    (hfuel : (Nat.digits numBase n).length < fuel) :
    digitsCountLoop T numBase fuel n count = some (count + (Nat.digits numBase n).length) := by
  induction fuel generalizing n count with
  | zero => omega
  | succ fuel ih =>
    unfold digitsCountLoop
    by_cases h : n = 0
    · subst h
      simp
    · have hd := Nat.digits_def' hb (Nat.pos_of_ne_zero h)
      rw [hd, List.length_cons] at hfuel ⊢
      rw [if_neg (by omega), div_natCast hn, ih (div_le hn) (by omega)]
      congr 1
      omega

theorem length_digits_pos (b n : ℕ) : 0 < (digits b n).length := by
  unfold digits
  split
  · exact Nat.one_pos
  · rename_i h
    rw [List.length_reverse]
    exact List.length_pos_iff.mpr (Nat.digits_ne_nil_iff_ne_zero.mpr h)

theorem lt_of_mem_digits {d : ℕ} (hd : d ∈ digits (getBase base) n) : d < getBase base := by
  have hb := two_le_getBase base
  unfold digits at hd
  split at hd
  · rw [List.mem_singleton.mp hd]
    omega
  · exact Nat.digits_lt_base hb (List.mem_reverse.mp hd)

/-- The print loops end at the end of a numeral. -/
theorem zero_not_mem_numeral (base : NumBase) (value : ℤ) : 0 ∉ numeral base value := by
  intro h0
  rcases List.mem_append.mp h0 with h0 | h0
  · split at h0
    · exact absurd (List.mem_singleton.mp h0) (by simp)
    · cases h0
  · obtain ⟨d, hd, hd0⟩ := List.mem_map.mp h0
    have := lt_of_mem_digits hd
    have := getBase_le base
    exact DIGITS_ne_zero (by omega) hd0

theorem length_digits_of_lt (hb : n < numBase) : (digits numBase n).length = 1 := by
  unfold digits
  split
  · rfl
  · rw [Nat.digits_of_lt numBase n ‹_› hb]; rfl

theorem length_natDigits_le {k : ℕ} (base : NumBase) (h : n < 2 ^ k) :
    (Nat.digits (getBase base) n).length ≤ k := by
  have hb := two_le_getBase base
  apply (Nat.digits_length_le_iff (by omega) n).mpr
  exact lt_of_lt_of_le h (Nat.pow_le_pow_left hb k)

theorem length_digits_le {k : ℕ} (base : NumBase) (h : n < 2 ^ k) (hk : 0 < k) :
    (digits (getBase base) n).length ≤ k := by
  unfold digits
  split
  · exact hk
  · rw [List.length_reverse]
    exact length_natDigits_le base h

theorem numeral_natCast (base : NumBase) (n : ℕ) :
    numeral base n = (digits (getBase base) n).map (DIGITS.getD · 0) := by
  unfold numeral
  rw [if_neg (by omega), List.nil_append, Int.natAbs_natCast]

theorem length_numeral (base : NumBase) (n : ℕ) :
    (numeral base n).length = (digits (getBase base) n).length := by
  rw [numeral_natCast, List.length_map]

theorem length_numeral_pos (base : NumBase) (n : ℕ) : 0 < (numeral base n).length := by
  rw [length_numeral]
  exact length_digits_pos _ n

theorem digitsCountLoop_mono {fuel count r : ℕ} {number : ℤ}
    (h : digitsCountLoop T numBase fuel number count = some r) (k : ℕ) :
    digitsCountLoop T numBase (fuel + k) number count = some r := by
  induction fuel generalizing number count with
  | zero => cases h
  | succ fuel ih =>
    rw [Nat.add_right_comm]
    unfold digitsCountLoop at h ⊢
    split at h
    · rename_i hzero
      rw [if_pos hzero]
      exact h
    · rename_i hzero
      rw [if_neg hzero]
      exact ih h

/-- More fuel does not change what is counted. -/
theorem digitsCount_mono {fuel r : ℕ} {number : ℤ} (h : digitsCount T fuel number base = some r)
    (k : ℕ) : digitsCount T (fuel + k) number base = some r := by
  unfold digitsCount at h ⊢
  simp only at h ⊢
  generalize (if base ≠ .dec then getBase base else 10) = numBase at h ⊢
  by_cases hshort : number < T.cast numBase
  · rw [if_pos hshort] at h ⊢
    exact h
  · rw [if_neg hshort] at h ⊢
    exact digitsCountLoop_mono h k

/-- `digits_count` counts the digits. -/
theorem digitsCount_eq {fuel : ℕ} (hn : (n : ℤ) ≤ T.max)
    (hfuel : (Nat.digits (getBase base) n).length < fuel) :
    digitsCount T fuel n base = some (digits (getBase base) n).length := by
  have hbase : (if base ≠ .dec then getBase base else 10) = getBase base := by
    cases base <;> rfl
  have hb := two_le_getBase base
  have hle := getBase_le base
  have hmax := sixteen_le_max T
  unfold digitsCount
  simp only [hbase]
  rw [cast_natCast (by omega)]
  split
  · rw [length_digits_of_lt (by omega)]
  · rw [digitsCountLoop_eq hb hn hfuel, Nat.zero_add, digits, if_neg (by omega),
      List.length_reverse]

/-- The digit loop writes the digits of a positive value so that they end at `it`, and nothing for
    zero. -/
theorem digitLoop_eq (hb : 1 < numBase) {fuel a it : ℕ} {m : Mem} (hn : (n : ℤ) ≤ T.max)
    (hit : it < 4294967296) (ha : n ≠ 0 → a + (Nat.digits numBase n).length = it + 1)
    (hfuel : (Nat.digits numBase n).length < fuel) :
    digitLoop T numBase fuel m n it =
      some (storeBytes m a ((Nat.digits numBase n).reverse.map (DIGITS.getD · 0))) := by
  induction fuel generalizing n m it with
  | zero => omega
  | succ fuel ih =>
    unfold digitLoop
    by_cases h : n = 0
    · subst h
      simp
    · have hd := Nat.digits_def' hb (Nat.pos_of_ne_zero h)
      have hlen := ha h
      rw [hd, List.length_cons] at hlen hfuel
      have hnext : n / numBase ≠ 0 →
          a + (Nat.digits numBase (n / numBase)).length = u32 (it + 4294967295) + 1 := by
        intro hne
        have hpos := List.length_pos_iff.mpr (Nat.digits_ne_nil_iff_ne_zero (b := numBase).mpr hne)
        unfold u32
        omega
      rw [if_neg (by omega)]
      simp only [div_natCast hn, mod_natCast hn]
      rw [ih (div_le hn) (u32_lt _) hnext (by omega), hd, List.reverse_cons, List.map_append,
        List.map_cons, List.map_nil, storeBytes_concat, List.length_map, List.length_reverse]
      congr 4
      omega

/-- More fuel does not change what is written. -/
theorem digitLoop_mono {fuel it : ℕ} {m m' : Mem} {value : ℤ}
    (h : digitLoop T numBase fuel m value it = some m') (k : ℕ) :
    digitLoop T numBase (fuel + k) m value it = some m' := by
  induction fuel generalizing m value it with
  | zero => cases h
  | succ fuel ih =>
    rw [Nat.add_right_comm]
    unfold digitLoop at h ⊢
    split at h
    · rename_i hzero
      rw [if_pos hzero]
      exact h
    · rename_i hzero
      rw [if_neg hzero]
      exact ih h

/-- More fuel does not change what `to_chars` does. -/
theorem toCharsIntegralImpl_mono {fuel first last : ℕ} {m : Mem} {value : ℤ} {r : ℕ × Mem}
    (h : toCharsIntegralImpl T fuel m first last value base = some r) (k : ℕ) :
    toCharsIntegralImpl T (fuel + k) m first last value base = some r := by
  unfold toCharsIntegralImpl at h ⊢
  by_cases hempty : first ≥ last
  · rw [if_pos hempty] at h ⊢
    exact h
  rw [if_neg hempty] at h ⊢
  simp only at h ⊢
  generalize (!T.isUnsigned && decide (value < 0)) = minus at h ⊢
  obtain ⟨count, hcount, hrest⟩ := Option.bind_eq_some_iff.mp h
  rw [digitsCount_mono hcount k, Option.bind_some]
  generalize (if minus = true then 1 else 0) + count = digitsCount at hrest ⊢
  by_cases hshort : last - first < digitsCount
  · rw [if_pos hshort] at hrest ⊢
    exact hrest
  · rw [if_neg hshort] at hrest ⊢
    obtain ⟨m', hloop, hr⟩ := Option.map_eq_some_iff.mp hrest
    rw [digitLoop_mono hloop k, Option.map_some, hr]

/-- A number of more than one digit is written to the byte below `it` too. -/
theorem digitLoop_below {fuel it : ℕ} (m : Mem) (hn : (n : ℤ) ≤ T.max) (htwo : getBase base ≤ n)
    (hit : it < 4294967296) (hroom : (Nat.digits (getBase base) n).length ≤ it + 1)
    (hfuel : (Nat.digits (getBase base) n).length < fuel) :
    ∃ m', digitLoop T (getBase base) fuel m n it = some m' ∧ m' (it - 1) ≠ 0 := by
  have hb := two_le_getBase base
  have hlen : 2 ≤ (Nat.digits (getBase base) n).length :=
    (Nat.lt_digits_length_iff hb n).mpr (by simpa using htwo)
  refine ⟨_, digitLoop_eq hb (a := it + 1 - (Nat.digits (getBase base) n).length) hn hit
    (by omega) hfuel, ?_⟩
  have hbelow : it - 1 = it + 1 - (Nat.digits (getBase base) n).length +
      ((Nat.digits (getBase base) n).length - 2) := by omega
  rw [hbelow, storeBytes_apply _ _ _ (by rw [List.length_map, List.length_reverse]; omega),
    List.getElem_map]
  have hdigit := Nat.digits_lt_base hb (List.mem_reverse.mp (List.getElem_mem
    (show (Nat.digits (getBase base) n).length - 2 <
      (Nat.digits (getBase base) n).reverse.length by rw [List.length_reverse]; omega)))
  exact DIGITS_ne_zero (hdigit.trans_le (getBase_le base))

/-! ## `to_chars` -/

theorem DIGITS_zero : DIGITS.getD 0 0 = 48 := by decide

/-- What follows the sign: the digits of `n`, written so that they end before `first + count`. -/
theorem digits_written {fuel a it : ℕ} {m : Mem} (hn : (n : ℤ) ≤ T.max) (hit : it < 4294967296)
    (ha : a + (digits (getBase base) n).length = it + 1)
    (hfuel : (Nat.digits (getBase base) n).length < fuel) :
    digitLoop T (getBase base) fuel (if (n : ℤ) = 0 then Function.update m it 48 else m) n it =
      some (storeBytes m a ((digits (getBase base) n).map (DIGITS.getD · 0))) := by
  have hb := two_le_getBase base
  unfold digits at ha ⊢
  by_cases h : n = 0
  · subst h
    obtain rfl : it = a := by simpa using ha.symm
    rw [digitLoop_eq hb (a := it) hn hit (fun hne => absurd rfl hne) hfuel, Nat.digits_zero]
    simp only [Nat.cast_zero, if_true, List.reverse_nil, List.map_nil, List.map_cons,
      storeBytes_cons, storeBytes_nil, DIGITS_zero]
  · rw [if_neg h] at ha ⊢
    rw [if_neg (by omega), digitLoop_eq hb hn hit (fun _ => by simpa using ha) hfuel]

/-- Every value but the minimum of a signed type is formatted, once there is fuel for its
    digits. -/
theorem toChars_eq {value : T.Value} {first last fuel : ℕ} (hlast : last < 4294967296)
    (hroom : first + (numeral base value).length ≤ last)
    (h : T.isUnsigned = true ∨ value.val ≠ T.min)
    (hfuel : (Nat.digits (getBase base) value.val.natAbs).length < fuel) (m : Mem) :
    toChars T fuel m first last value base =
      some ((numeral base value).length, storeBytes m first (numeral base value)) := by
  obtain ⟨value, hmin, hmax⟩ := value
  simp only at hroom h hfuel
  have hlen := length_digits_pos (getBase base) value.natAbs
  unfold toChars toCharsIntegralImpl numeral
  unfold numeral at hroom
  by_cases hneg : value < 0
  · -- the sign, then the digits of the absolute value
    have hs : T.isUnsigned = false := by
      by_contra hu
      have hmin0 : T.min = 0 := by simp [Integral.min, hu]
      omega
    have hne : T.min ≠ value := by
      intro he
      exact h.elim (by simp [hs]) (fun hne => hne he.symm)
    have hcast := cast_neg hs (by omega) hneg
    have hn : ((value.natAbs : ℕ) : ℤ) ≤ T.max := by
      have hr : T.max = -T.min - 1 := by
        cases T <;> first | rfl | cases hs
      omega
    simp only [hneg, if_true, List.singleton_append, List.length_cons, List.length_map] at hroom ⊢
    rw [if_neg (by omega)]
    simp only [hs, Bool.not_false, Bool.true_and, decide_true, if_true, hcast]
    rw [digitsCount_eq hn (by omega)]
    simp only [Option.bind_some]
    rw [if_neg (by omega), digits_written (a := first + 1) hn (u32_lt _) ?_ (by omega)]
    · simp [storeBytes_cons, Nat.add_comm]
    · unfold u32
      omega
  · obtain ⟨n, rfl⟩ := Int.eq_ofNat_of_zero_le (not_lt.mp hneg)
    simp only [Int.natAbs_natCast] at hlen hfuel
    simp only [Int.natAbs_natCast, hneg, if_false, List.nil_append, List.length_map] at hroom ⊢
    rw [if_neg (by omega)]
    simp only [decide_false, Bool.and_false, Bool.false_eq_true, if_false]
    rw [digitsCount_eq (by omega) (by omega)]
    simp only [Option.bind_some, Nat.zero_add]
    rw [if_neg (by omega), digits_written (a := first) (by omega) (u32_lt _) ?_ (by omega)]
    · simp
    · unfold u32
      omega

/-- The minimum of a signed type has one digit for `digits_count`. -/
theorem digitsCount_min (fuel : ℕ) (base : NumBase) (hs : T.isUnsigned = false) :
    T.min < 0 ∧ digitsCount T fuel T.min base = some 1 := by
  have hneg : T.min < 0 := by
    cases T <;> first | decide | cases hs
  have hb : (if base ≠ .dec then getBase base else 10) ≤ 16 := by
    cases base <;> decide
  have hmax := sixteen_le_max T
  refine ⟨hneg, ?_⟩
  unfold digitsCount
  rw [if_pos]
  rw [cast_natCast (by omega)]
  omega

/-- For the minimum of a signed type `to_chars` returns 2, if it returns. -/
theorem toChars_min {value : T.Value} {first last fuel : ℕ} {m : Mem} {r : ℕ × Mem}
    (hs : T.isUnsigned = false) (hv : value.val = T.min) (hroom : first + 2 ≤ last)
    (h : toChars T fuel m first last value base = some r) : r.1 = 2 := by
  obtain ⟨hneg, hcount⟩ := digitsCount_min fuel base hs
  unfold toChars toCharsIntegralImpl at h
  rw [if_neg (by omega)] at h
  simp only [hv, hs, hneg, decide_true, Bool.not_false, Bool.true_and, if_true, cast_neg_min,
    hcount, Option.bind_some] at h
  rw [if_neg (by omega)] at h
  obtain ⟨m', -, rfl⟩ := Option.map_eq_some_iff.mp h
  rfl

theorem three_le_length_numeral_min (base : NumBase) (hs : T.isUnsigned = false) :
    3 ≤ (numeral base T.min).length := by
  cases T with
  | int8_t | int16_t | int32_t => cases base <;> decide
  | uint8_t | uint16_t | uint32_t => cases hs

/-- **Formatting is exact and in bounds** in a range of addresses with room for the numeral, for
    every value but the minimum of a signed type. -/
theorem toChars_formats_iff (T : Integral) (value : T.Value) (base : NumBase) (first last : ℕ)
    (hlast : last < 4294967296) (hroom : first + (numeral base value).length ≤ last) :
    Formats T value base first last ↔ T.isUnsigned = true ∨ value.val ≠ T.min := by
  constructor
  · rintro ⟨fuel, h⟩
    by_contra hnot
    rw [not_or, Bool.not_eq_true, not_not] at hnot
    obtain ⟨hs, hv⟩ := hnot
    have h3 := three_le_length_numeral_min base hs
    rw [← hv] at h3
    have h2 := toChars_min hs hv (by omega) (h fun _ => 0)
    simp only at h2
    omega
  · intro h
    exact ⟨_, toChars_eq hlast hroom h (Nat.lt_succ_self _)⟩

/-- -127 as an `int8_t` fits in a range of four bytes. -/
theorem toChars_formats_example :
    numeral .dec (-127) = [45, 49, 50, 55] ∧ Formats .int8_t ⟨-127, by decide⟩ .dec 4096 4100 :=
  ⟨by decide, (toChars_formats_iff .int8_t ⟨-127, by decide⟩ .dec 4096 4100 (by decide)
    (by decide)).mpr (Or.inr (by decide))⟩

/-! ## The minimum of a narrow type -/

/-- In eight or sixteen bits a negative value stays negative when it is divided as a `size_t`. -/
theorem div_neg (base : NumBase) {value : ℤ} (hT : T = .int8_t ∨ T = .int16_t)
    (hmin : T.min ≤ value) (hneg : value < 0) :
    T.min ≤ T.div value (getBase base) ∧ T.div value (getBase base) < 0 := by
  rcases hT with rfl | rfl <;> cases base <;>
    simp only [Integral.div, Integral.cast, Integral.min, Integral.isUnsigned, Integral.bits,
      getBase, Bool.false_eq_true, if_false, Nat.reduceSub] at hmin ⊢ <;> omega

theorem digitLoop_neg (hT : T = .int8_t ∨ T = .int16_t) {value : ℤ} (hmin : T.min ≤ value)
    (hneg : value < 0) (fuel : ℕ) (m : Mem) (it : ℕ) :
    digitLoop T (getBase base) fuel m value it = none := by
  induction fuel generalizing m it value with
  | zero => rfl
  | succ fuel ih =>
    obtain ⟨hmin', hneg'⟩ := div_neg base hT hmin hneg
    unfold digitLoop
    rw [if_neg (by omega)]
    exact ih hmin' hneg' _ _

/-- For the minimum of `int8_t` and of `int16_t` `to_chars` never returns. -/
theorem toChars_narrow_min (hT : T = .int8_t ∨ T = .int16_t) {value : T.Value} {first last : ℕ}
    (hv : value.val = T.min) (hroom : first + 2 ≤ last) (fuel : ℕ) (m : Mem) :
    toChars T fuel m first last value base = none := by
  have hs : T.isUnsigned = false := by
    rcases hT with rfl | rfl <;> rfl
  obtain ⟨hneg, hcount⟩ := digitsCount_min fuel base hs
  unfold toChars toCharsIntegralImpl
  rw [if_neg (by omega)]
  simp only [hv, hs, hneg, decide_true, Bool.not_false, Bool.true_and, if_true, cast_neg_min,
    hcount, Option.bind_some]
  rw [if_neg (by omega), digitLoop_neg hT (le_refl _) hneg]
  rfl

/-- -128 as an `int8_t` in base ten: the numeral has four bytes, and in a range of four bytes
    `to_chars` never returns. -/
theorem toChars_int8_min_diverges :
    numeral .dec (-128) = [45, 49, 50, 56] ∧
    (∀ fuel m, toChars .int8_t fuel m 4096 4100 ⟨-128, by decide⟩ .dec = none) ∧
    ¬ Formats .int8_t ⟨-128, by decide⟩ .dec 4096 4100 := by
  have hnone : ∀ fuel m, toChars .int8_t fuel m 4096 4100 ⟨-128, by decide⟩ .dec = none :=
    toChars_narrow_min (Or.inl rfl) rfl (by omega)
  refine ⟨by decide, hnone, ?_⟩
  rintro ⟨fuel, h⟩
  exact absurd ((hnone fuel fun _ => 0).symm.trans (h fun _ => 0)) nofun

end HryOS
