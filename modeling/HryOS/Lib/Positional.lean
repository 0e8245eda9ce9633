import Mathlib.Data.Nat.Digits.Lemmas

/-!
# Positional notation, most significant digit first

`value b ds` is the number that the digits `ds` denote, as a reader works it out from the left.

* `value_append` — reading on after some digits.
* `IsNumeral b n ds` — `ds` are the digits of `n` in base `b` with no zero in front, except for
  the numeral of zero itself; `isNumeral_digits` and `IsNumeral.unique` say that there is exactly
  one.
* `IsNumeral.append`, `IsNumeral.value_append_iff` — the numerals of `h` and `l` side by side are a
  numeral, and when it is that of `h * q + l`.
* `IsFixed b k n ds` — the same with `k` digits, zeros in front included.
-/

set_option autoImplicit false

namespace Positional

/-- The number denoted by `ds` in base `b`. -/
def value (b : ℕ) (ds : List ℕ) : ℕ := ds.foldl (fun n d => n * b + d) 0

/-- The digits of `n` in base `b`, with no leading zero. -/
structure IsNumeral (b n : ℕ) (ds : List ℕ) : Prop where
  ne_nil : ds ≠ []
  lt_base : ∀ d ∈ ds, d < b
  minimal : ds.head? = some 0 → ds = [0]
  value_eq : value b ds = n

/-- The `k` digits of `n` in base `b`, filled up with zeros. -/
structure IsFixed (b k n : ℕ) (ds : List ℕ) : Prop where
  length_eq : ds.length = k
  lt_base : ∀ d ∈ ds, d < b
  value_eq : value b ds = n

variable {b n d h l q k j : ℕ} {ds xs ys : List ℕ}

/-! ## The value -/

theorem value_eq_ofDigits (b : ℕ) (ds : List ℕ) : value b ds = Nat.ofDigits b ds.reverse := by
  rw [value, ← List.foldr_reverse, Nat.ofDigits_eq_foldr]
  congr 1
  funext d n
  rw [Nat.cast_id, Nat.mul_comm, Nat.add_comm]

theorem value_cons (b d : ℕ) (ds : List ℕ) :
    value b (d :: ds) = d * b ^ ds.length + value b ds := by
  rw [value_eq_ofDigits, value_eq_ofDigits, List.reverse_cons, Nat.ofDigits_append,
    Nat.ofDigits_singleton, List.length_reverse, Nat.add_comm, Nat.mul_comm]

/-- Reading on: what came before moves up by as many places. -/
theorem value_append (b : ℕ) (xs ys : List ℕ) :
    value b (xs ++ ys) = value b xs * b ^ ys.length + value b ys := by
  rw [value_eq_ofDigits, List.reverse_append, Nat.ofDigits_append, List.length_reverse,
    ← value_eq_ofDigits, ← value_eq_ofDigits, Nat.add_comm, Nat.mul_comm]

theorem value_zero (b : ℕ) : value b [0] = 0 := by simp [value]

/-- Zeros in front do not count. -/
theorem value_replicate_zero_append (b k : ℕ) (ds : List ℕ) :
    value b (List.replicate k 0 ++ ds) = value b ds := by
  have hz : value b (List.replicate k 0) = 0 := by
    rw [value_eq_ofDigits, List.reverse_replicate, Nat.ofDigits_replicate_zero]
  rw [value_append, hz, Nat.zero_mul, Nat.zero_add]

theorem value_lt (hb : 1 < b) (h : ∀ d ∈ ds, d < b) : value b ds < b ^ ds.length := by
  rw [value_eq_ofDigits, ← List.length_reverse]
  exact Nat.ofDigits_lt_base_pow_length hb fun d hd => h d (List.mem_reverse.mp hd)

/-- As many digits with the same value are the same digits. -/
theorem eq_of_value_eq (hb : 1 < b) (hlen : xs.length = ys.length) (hx : ∀ d ∈ xs, d < b)
    (hy : ∀ d ∈ ys, d < b) (h : value b xs = value b ys) : xs = ys := by
  rw [value_eq_ofDigits, value_eq_ofDigits] at h
  have hrev := Nat.ofDigits_inj_of_len_eq hb (by simpa using hlen)
    (fun d hd => hx d (List.mem_reverse.mp hd)) (fun d hd => hy d (List.mem_reverse.mp hd)) h
  exact List.reverse_injective hrev

/-! ## Numerals -/

theorem isNumeral_zero (hb : 1 < b) : IsNumeral b 0 [0] :=
  ⟨by simp, by simpa using by omega, by simp, value_zero b⟩

/-- Every number has a numeral. -/
theorem isNumeral_digits (hb : 1 < b) (hn : n ≠ 0) : IsNumeral b n (Nat.digits b n).reverse := by
  refine ⟨?_, ?_, ?_, ?_⟩
  · intro hnil
    rw [List.reverse_eq_nil_iff] at hnil
    exact Nat.digits_ne_nil_iff_ne_zero.mpr hn hnil
  · intro d hd
    exact Nat.digits_lt_base hb (List.mem_reverse.mp hd)
  · intro h0
    rw [List.head?_reverse] at h0
    have hne := Nat.digits_ne_nil_iff_ne_zero (b := b).mpr hn
    rw [List.getLast?_eq_some_getLast hne, Option.some.injEq] at h0
    exact absurd h0 (Nat.getLast_digit_ne_zero b hn)
  · rw [value_eq_ofDigits, List.reverse_reverse, Nat.ofDigits_digits]

/-- A numeral of more than one digit is at least the power of its leading place. -/
theorem IsNumeral.pow_le (hd : IsNumeral b n ds) (h2 : 2 ≤ ds.length) :
    b ^ (ds.length - 1) ≤ n := by
  obtain ⟨hne, -, hmin, hval⟩ := hd
  cases ds with
  | nil => exact absurd rfl hne
  | cons d ds =>
    have hd0 : d ≠ 0 := by
      intro h0
      subst h0
      have := hmin rfl
      simp only [List.cons.injEq, true_and] at this
      simp [this] at h2
    rw [value_cons] at hval
    rw [List.length_cons, Nat.add_sub_cancel]
    have := Nat.le_mul_of_pos_left (b ^ ds.length) (Nat.pos_of_ne_zero hd0)
    omega

theorem IsNumeral.lt_pow (hb : 1 < b) (hd : IsNumeral b n ds) : n < b ^ ds.length := by
  rw [← hd.value_eq]
  exact value_lt hb hd.lt_base

/-- The number of digits, from two on. -/
theorem IsNumeral.length_eq_iff (hb : 1 < b) (hd : IsNumeral b n ds) (hk : 0 < k) :
    ds.length = k + 1 ↔ b ^ k ≤ n ∧ n < b ^ (k + 1) := by
  constructor
  · intro hlen
    have h1 := hd.pow_le (by omega)
    have h2 := hd.lt_pow hb
    rw [hlen] at h1 h2
    exact ⟨h1, h2⟩
  · rintro ⟨h1, h2⟩
    have hlt := hd.lt_pow hb
    have hgt : k < ds.length := (Nat.pow_lt_pow_iff_right hb).mp (lt_of_le_of_lt h1 hlt)
    have hle := hd.pow_le (by omega)
    have : ds.length - 1 < k + 1 := (Nat.pow_lt_pow_iff_right hb).mp (lt_of_le_of_lt hle h2)
    omega

/-- **A number has one numeral.** -/
theorem IsNumeral.unique (hb : 1 < b) (hx : IsNumeral b n xs) (hy : IsNumeral b n ys) :
    xs = ys := by
  have hlen : xs.length = ys.length := by
    by_cases h1 : 2 ≤ xs.length ∨ 2 ≤ ys.length
    · wlog h2 : 2 ≤ xs.length generalizing xs ys
      · exact (this hy hx h1.symm (h1.resolve_left h2)).symm
      · have hx' := (hx.length_eq_iff hb (k := xs.length - 1) (by omega)).mp (by omega)
        have := (hy.length_eq_iff hb (k := xs.length - 1) (by omega)).mpr hx'
        omega
    · have := List.length_pos_iff.mpr hx.ne_nil
      have := List.length_pos_iff.mpr hy.ne_nil
      omega
  exact eq_of_value_eq hb hlen hx.lt_base hy.lt_base (hx.value_eq.trans hy.value_eq.symm)

/-- **Gluing numerals.**  Side by side they are a numeral again; the upper one has moved up by the
    places of the lower one. -/
theorem IsNumeral.append (hx : IsNumeral b h xs) (hy : IsNumeral b l ys) (hh : h ≠ 0) :
    IsNumeral b (h * b ^ ys.length + l) (xs ++ ys) := by
  refine ⟨by simp [hx.ne_nil], ?_, ?_, ?_⟩
  · intro d hd
    exact (List.mem_append.mp hd).elim (hx.lt_base d) (hy.lt_base d)
  · intro h0
    rw [List.head?_append_of_ne_nil _ hx.ne_nil] at h0
    have hx0 := hx.value_eq
    rw [hx.minimal h0, value_zero] at hx0
    exact absurd hx0.symm hh
  · rw [value_append, hx.value_eq, hy.value_eq]

/-- So they denote `h * q + l` exactly when the lower one takes the places of `q`. -/
theorem IsNumeral.value_append_iff (hx : IsNumeral b h xs) (hy : IsNumeral b l ys) (hh : h ≠ 0) :
    value b (xs ++ ys) = h * q + l ↔ b ^ ys.length = q := by
  rw [value_append, hx.value_eq, hy.value_eq, Nat.add_right_cancel_iff]
  constructor
  · intro hval
    exact Nat.eq_of_mul_eq_mul_left (Nat.pos_of_ne_zero hh) hval
  · intro hq
    rw [hq]

/-! ## Digits of a fixed number of places -/

theorem IsFixed.unique (hb : 1 < b) (hx : IsFixed b k n xs) (hy : IsFixed b k n ys) : xs = ys :=
  eq_of_value_eq hb (hx.length_eq.trans hy.length_eq.symm) hx.lt_base hy.lt_base
    (hx.value_eq.trans hy.value_eq.symm)

/-- A numeral, filled up with zeros. -/
theorem IsNumeral.pad (hb : 1 < b) (hd : IsNumeral b n ds) (hk : ds.length ≤ k) :
    IsFixed b k n (List.replicate (k - ds.length) 0 ++ ds) := by
  refine ⟨?_, ?_, ?_⟩
  · simp [hk]
  · intro d h
    rcases List.mem_append.mp h with h | h
    · rw [(List.mem_replicate.mp h).2]
      omega
    · exact hd.lt_base d h
  · rw [value_replicate_zero_append, hd.value_eq]

/-- **Gluing digits of fixed places** always works. -/
theorem IsFixed.append (hx : IsFixed b k h xs) (hy : IsFixed b j l ys) :
    IsFixed b (k + j) (h * b ^ j + l) (xs ++ ys) := by
  refine ⟨?_, ?_, ?_⟩
  · rw [List.length_append, hx.length_eq, hy.length_eq]
  · intro d hd
    exact (List.mem_append.mp hd).elim (hx.lt_base d) (hy.lt_base d)
  · rw [value_append, hx.value_eq, hy.value_eq, hy.length_eq]

/-- What lies between two powers is no power. -/
theorem pow_ne_of_between (hb : 1 < b) (hlow : b ^ j < q) (hhigh : q < b ^ (j + 1)) :
    b ^ k ≠ q := by
  rintro rfl
  have hjk : j < k := (Nat.pow_lt_pow_iff_right hb).mp hlow
  have hkj : k < j + 1 := (Nat.pow_lt_pow_iff_right hb).mp hhigh
  omega

end Positional
