import HryOS.Hlib.Numeral

/-!
# 64-bit values, printed as two halves

`formatter<uint64_t>` converts the two 32-bit halves of its value on their own and puts the texts
side by side.

* `numeral_append_iff` — two numerals side by side are the numeral of the whole exactly when the
  lower one has all the places of 32 bits.
* `formatter64_denotes_iff` — so for each placeholder the values that are printed right.
* `formatter64_collides` — `4294967296` and `10` are both printed as `10`.
-/

set_option autoImplicit false

namespace HryOS.Format

open ByteMemory Positional

/-- The placeholders `{}`, `{x}`, `{o}`, `{b}` and `{x0}`. -/
inductive Placeholder
  | dec
  | hex
  | oct
  | bin
  | hexPadded
  deriving DecidableEq, Repr

namespace Placeholder

/-- What stands between the braces. -/
def spec : Placeholder → List UInt8
  | .dec => []
  | .hex => [120] -- 'x'
  | .oct => [111] -- 'o'
  | .bin => [98] -- 'b'
  | .hexPadded => [120, 48] -- 'x', '0'

def base : Placeholder → NumBase
  | .dec => .dec
  | .hex | .hexPadded => .hex
  | .oct => .oct
  | .bin => .bin

/-- The text a value should be printed as. -/
def text (p : Placeholder) (v : ℕ) : List UInt8 :=
  match p with
  | .hexPadded => List.replicate (16 - (numeral .hex v).length) 48 ++ numeral .hex v
  | p => numeral p.base v

/-- The values printed right under a placeholder with the text `rest` after its `}`. -/
def Denotes (p : Placeholder) (rest : CString) (v : ℕ) : Prop :=
  match p with
  | .dec => v < 4294967296 ∧ rest.bytes.head? ≠ some 48
  | .hex => v < 4294967296 ∨ 16 ^ 7 ≤ v % 4294967296
  | .oct => v < 4294967296
  | .bin => v < 4294967296 ∨ 2 ^ 31 ≤ v % 4294967296
  | .hexPadded => True

end Placeholder

/-- What `formatter<uint64_t>` puts out for a value, with `fmt` after the `{`. -/
def emitted64 (f : Frame) (fuel : ℕ) (p : Placeholder) (rest : CString) (v : UInt64) :
    Except Fault (List UInt8) := do
  let self ← parse (.uint64 v) (p.spec ++ 125 :: rest.data)
  format f fuel self (.uint64 v)

variable {base : NumBase} {h l n fuel : ℕ}

/-! ## Texts side by side -/

/-- Gluing the numerals of two numbers. -/
theorem numeral_append_iff (base : NumBase) (l q : ℕ) (hh : h ≠ 0) :
    numeral base h ++ numeral base l = numeral base (h * q + l : ℕ) ↔
      getBase base ^ (numeral base l).length = q := by
  have hx := isNumeral_digits base h
  have hy := isNumeral_digits base l
  rw [numeral_natCast base h, numeral_natCast base l, ← List.map_append, List.length_map]
  constructor
  · intro heq
    have hval := congrArg (readBack base) heq
    rw [readBack_numeral, readBack_map fun d hd => (List.mem_append.mp hd).elim (hx.lt_base d)
      (hy.lt_base d)] at hval
    exact (hx.value_append_iff hy hh).mp hval
  · rintro rfl
    exact IsText.eq_numeral ⟨_, hx.append hy hh, rfl⟩

/-- Where 32 bits are `k + 1` digits, the lower half has to fill them all. -/
theorem places_iff {k : ℕ} (hk : getBase base ^ (k + 1) = 4294967296) (hpos : 0 < k)
    (hl : l < 4294967296) :
    getBase base ^ (numeral base l).length = 4294967296 ↔ getBase base ^ k ≤ l := by
  have hb := two_le_getBase base
  have hiff := (isNumeral_digits base l).length_eq_iff hb hpos
  rw [numeral_natCast, List.length_map, ← hk, Nat.pow_right_inj hb, hiff]
  exact and_iff_left (hk ▸ hl)

/-- `2 ^ 32` is no power of 8 or 10. -/
theorem pow_ne_two_pow {k : ℕ} (hbase : base = .oct ∨ base = .dec) :
    getBase base ^ k ≠ 4294967296 := by
  have hb := two_le_getBase base
  rcases hbase with rfl | rfl
  · exact pow_ne_of_between (j := 10) hb (by decide) (by decide)
  · exact pow_ne_of_between (j := 9) hb (by decide) (by decide)

/-- Two halves without padding: nothing is put out for an upper half of zero. -/
theorem halves_iff (base : NumBase) (n : ℕ) :
    (if n / 4294967296 ≠ 0 then numeral base (n / 4294967296 : ℕ) else []) ++
        numeral base (n % 4294967296 : ℕ) = numeral base n ↔
      n < 4294967296 ∨ getBase base ^ (numeral base (n % 4294967296 : ℕ)).length = 4294967296 := by
  by_cases hlow : n < 4294967296
  · rw [if_neg (by omega), Nat.mod_eq_of_lt hlow]
    exact iff_of_true rfl (Or.inl hlow)
  · have hiff := numeral_append_iff base (n % 4294967296) 4294967296
      (show n / 4294967296 ≠ 0 by omega)
    rw [Nat.div_add_mod'] at hiff
    rw [if_pos (by omega), hiff]
    simp [hlow]

/-- In decimal both halves together are never the numeral. -/
theorem both_halves_ne (n : ℕ) : numeral .dec (n / 4294967296 : ℕ) ++
    numeral .dec (n % 4294967296 : ℕ) ≠ numeral .dec n := by
  intro heq
  by_cases hlow : n < 4294967296
  · -- the upper half is a superfluous `0`
    rw [Nat.mod_eq_of_lt hlow] at heq
    have hlen := congrArg List.length heq
    rw [List.length_append] at hlen
    have := length_numeral_pos .dec (n / 4294967296)
    omega
  · have hiff := numeral_append_iff .dec (n % 4294967296) 4294967296
      (show n / 4294967296 ≠ 0 by omega)
    rw [Nat.div_add_mod'] at hiff
    exact pow_ne_two_pow (Or.inr rfl) (hiff.mp heq)

/-- Sixteen hexadecimal digits, eight for each half. -/
theorem halves_padded {n : ℕ} (hn : n < 18446744073709551616) :
    (List.replicate (8 - (numeral .hex (n / 4294967296 : ℕ)).length) 48 ++
        numeral .hex (n / 4294967296 : ℕ)) ++
      (List.replicate (8 - (numeral .hex (n % 4294967296 : ℕ)).length) 48 ++
        numeral .hex (n % 4294967296 : ℕ)) =
      List.replicate (16 - (numeral .hex n).length) 48 ++ numeral .hex n := by
  have hpad : ∀ k n : ℕ, List.replicate (k - (numeral .hex n).length) 48 ++ numeral .hex n =
      (List.replicate (k - (digits 16 n).length) 0 ++ digits 16 n).map (DIGITS.getD · 0) := by
    intro k n
    rw [List.map_append, List.map_replicate, DIGITS_zero, numeral_natCast, List.length_map]
    rfl
  have hfix : ∀ {k n : ℕ}, n < 16 ^ k → 0 < k →
      IsFixed 16 k n (List.replicate (k - (digits 16 n).length) 0 ++ digits 16 n) := by
    intro k n hlt hk
    have hnum : IsNumeral 16 n (digits 16 n) := isNumeral_digits .hex n
    refine hnum.pad (by omega) ?_
    by_contra hlong
    have h2 := hnum.pow_le (by omega)
    have hmono : 16 ^ k ≤ 16 ^ ((digits 16 n).length - 1) :=
      Nat.pow_le_pow_right (by omega) (by omega)
    exact absurd (le_trans hmono h2) (not_le.mpr hlt)
  have hhigh := hfix (k := 8) (n := n / 4294967296) (by omega) (by omega)
  have hlow := hfix (k := 8) (n := n % 4294967296) (by omega) (by omega)
  have hboth := hhigh.append hlow
  have hval : n / 4294967296 * 16 ^ 8 + n % 4294967296 = n := Nat.div_add_mod' n _
  rw [hval] at hboth
  rw [hpad, hpad, hpad, ← List.map_append,
    hboth.unique (by omega) (hfix (k := 16) (by omega) (by omega))]

/-! ## `formatter<uint64_t>` -/

/-- What `parse` finds: for `{}` the second character it looks at is the one after the `}`. -/
def Placeholder.leadingZero (p : Placeholder) (rest : CString) : Bool :=
  match p with
  | .dec => rest.bytes.head? == some 48
  | .hexPadded => true
  | _ => false

theorem parse_placeholder (p : Placeholder) (rest : CString) (v : UInt64) :
    parse (.uint64 v) (p.spec ++ 125 :: rest.data) =
      .ok { base := p.base, leadingZero := p.leadingZero rest } := by
  obtain ⟨bytes, hnul⟩ := rest
  cases p with
  | dec => cases bytes <;> rfl
  | hex | oct | bin | hexPadded => rfl

theorem emitted64_eq (f : Frame) (p : Placeholder) (rest : CString) (v : UInt64)
    (hf : 32 < fuel) : emitted64 f fuel p rest v =
      .ok (rendered { base := p.base, leadingZero := p.leadingZero rest } (.uint64 v)) := by
  unfold emitted64
  rw [parse_placeholder, ok_bind]
  exact format_eq trivial hf

/-- Without padding the text is the two halves, the upper one only where it is not zero, or where
    the padding was asked for. -/
theorem rendered_uint64 {self : Formatter} (v : UInt64)
    (hpad : (self.leadingZero && self.base == .hex) = false) :
    rendered self (.uint64 v) = (if v.toNat / 4294967296 ≠ 0 ∨ self.leadingZero then
      numeral self.base (v.toNat / 4294967296 : ℕ) else []) ++
        numeral self.base (v.toNat % 4294967296 : ℕ) := by
  have h64 : ∀ n : ℕ, rendered64 self n = numeral self.base n := by
    intro n
    rw [rendered64, hpad]
    rfl
  rw [rendered, h64, h64]
  rfl

/-- Where no padding is asked for. -/
theorem rendered_unpadded_iff (base : NumBase) (v : UInt64) :
    rendered { base := base, leadingZero := false } (.uint64 v) = numeral base v.toNat ↔
      v.toNat < 4294967296 ∨
        getBase base ^ (numeral base (v.toNat % 4294967296 : ℕ)).length = 4294967296 := by
  rw [rendered_uint64 v rfl]
  simp only [Bool.false_eq_true, or_false]
  exact halves_iff base v.toNat

/-- Where it is asked for in decimal, the upper half is put out always. -/
theorem rendered_padded_ne (v : UInt64) :
    rendered { base := .dec, leadingZero := true } (.uint64 v) ≠ numeral .dec v.toNat := by
  rw [rendered_uint64 v rfl]
  simp only [or_true, if_true]
  exact both_halves_ne v.toNat

theorem rendered_uint64_iff (p : Placeholder) (rest : CString) (v : UInt64) :
    rendered { base := p.base, leadingZero := p.leadingZero rest } (.uint64 v) =
      p.text v.toNat ↔ p.Denotes rest v.toNat := by
  have hlt := v.toNat_lt
  have hlow : v.toNat % 4294967296 < 4294967296 := Nat.mod_lt _ (by omega)
  cases p with
  | dec =>
    by_cases hrest : rest.bytes.head? = some 48
    · have hz : Placeholder.dec.leadingZero rest = true := beq_iff_eq.mpr hrest
      rw [hz]
      exact iff_of_false (rendered_padded_ne v) fun hd => hd.2 hrest
    · have hz : Placeholder.dec.leadingZero rest = false := beq_eq_false_iff_ne.mpr hrest
      have hiff := rendered_unpadded_iff .dec v
      rw [or_iff_left (pow_ne_two_pow (Or.inr rfl))] at hiff
      rw [hz]
      exact hiff.trans (and_iff_left hrest).symm
  | hex =>
    have hiff := rendered_unpadded_iff .hex v
    rw [places_iff (k := 7) rfl (by omega) hlow] at hiff
    exact hiff
  | oct =>
    have hiff := rendered_unpadded_iff .oct v
    rw [or_iff_left (pow_ne_two_pow (Or.inl rfl))] at hiff
    exact hiff
  | bin =>
    have hiff := rendered_unpadded_iff .bin v
    rw [places_iff (k := 31) rfl (by omega) hlow] at hiff
    exact hiff
  | hexPadded =>
    refine iff_of_true ?_ trivial
    simp only [rendered, Placeholder.base, Placeholder.leadingZero, or_true, if_true, u32,
      rendered64, Bool.true_and, beq_self_eq_true, Placeholder.text]
    exact halves_padded hlt

/-- Reading a text gives the value back. -/
theorem readBack_text (p : Placeholder) (n : ℕ) : readBack p.base (p.text n) = n := by
  cases p with
  | dec | hex | oct | bin => exact readBack_numeral _ n
  | hexPadded =>
    have h := isNumeral_digits .hex n
    have hdig : ∀ d ∈ List.replicate (16 - (numeral .hex n).length) 0 ++ digits 16 n, d < 16 := by
      intro d hd
      rcases List.mem_append.mp hd with hd | hd
      · rw [(List.mem_replicate.mp hd).2]
        decide
      · exact h.lt_base d hd
    have htext : Placeholder.text .hexPadded n =
        (List.replicate (16 - (numeral .hex n).length) 0 ++ digits 16 n).map (DIGITS.getD · 0) := by
      rw [List.map_append, List.map_replicate, DIGITS_zero]
      exact congrArg (List.replicate _ 48 ++ ·) (numeral_natCast .hex n)
    have hval : readBack .hex (Placeholder.text .hexPadded n) = value 16
        (List.replicate (16 - (numeral .hex n).length) 0 ++ digits 16 n) := by
      rw [htext]
      exact readBack_map hdig
    rw [value_replicate_zero_append] at hval
    exact hval.trans h.value_eq

/-- **64-bit formatting denotes the value** for exactly the values of `Denotes`; two of them are
    never printed as the same text. -/
theorem formatter64_denotes_iff (f : Frame) (p : Placeholder) (rest : CString) (v : UInt64) :
    ((∀ fuel, 32 < fuel → emitted64 f fuel p rest v = .ok (p.text v.toNat)) ↔
        p.Denotes rest v.toNat) ∧
      (p.Denotes rest v.toNat → ∀ (rest' : CString) (w : UInt64), p.Denotes rest' w.toNat →
        ∀ fuel, 32 < fuel → emitted64 f fuel p rest v = emitted64 f fuel p rest' w → v = w) := by
  have hiff := fun rest v => rendered_uint64_iff p rest v
  refine ⟨⟨?_, ?_⟩, ?_⟩
  · intro hall
    have heq := (emitted64_eq f p rest v (by omega : 32 < 33)).symm.trans (hall 33 (by omega))
    exact (hiff rest v).mp (Except.ok.inj heq)
  · intro hd fuel hf
    rw [emitted64_eq f p rest v hf, (hiff rest v).mpr hd]
  · intro hv rest' w hw fuel hf heq
    rw [emitted64_eq f p rest v hf, emitted64_eq f p rest' w hf, (hiff rest v).mpr hv,
      (hiff rest' w).mpr hw] at heq
    have hread := congrArg (readBack p.base) (Except.ok.inj heq)
    rw [readBack_text, readBack_text] at hread
    exact UInt64.toNat_inj.mp hread

/-- The lower half of 0x1F0000000 fills its places. -/
theorem formatter64_denotes_example :
    emitted64 ⟨4096, by decide, by decide⟩ 64 .hex ⟨[], by decide⟩ 0x1F0000000 =
      .ok (Placeholder.text .hex 0x1F0000000) :=
  (formatter64_denotes_iff ⟨4096, by simp, by simp⟩ .hex ⟨[], by simp⟩ 0x1F0000000).1.mpr
    (Or.inr (by simp)) 64 (by simp)

/-- 4294967296 and 10 are both printed as `10`. -/
theorem formatter64_collides :
    emitted64 ⟨4096, by decide, by decide⟩ 64 .dec ⟨[], by decide⟩ 4294967296 = .ok [49, 48] ∧
    emitted64 ⟨4096, by decide, by decide⟩ 64 .dec ⟨[], by decide⟩ 10 = .ok [49, 48] ∧
    Placeholder.text .dec 4294967296 ≠ [49, 48] := by
  refine ⟨?_, ?_, by decide⟩
  · rw [emitted64_eq _ _ _ _ (by omega)]
    exact congrArg Except.ok (by decide)
  · rw [emitted64_eq _ _ _ _ (by omega)]
    exact congrArg Except.ok (by decide)

end HryOS.Format
