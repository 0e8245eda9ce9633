import Mathlib.Data.Nat.Notation
import Mathlib.Logic.Function.Basic
import Mathlib.Tactic.Common

/-!
# Byte memory with 32-bit little-endian words

Memory is a function from addresses to bytes.  `load32` / `store32` read and write four
consecutive bytes, at any alignment.

* `load32_store32_self`, `load32_store32_of_apart` — a word store is seen by a load of the same
  word and by no load of a word that does not overlap it.
* `store32_apply_of_outside` — the frame of a store: no other byte changes.
* `storeBytes` — a block of bytes, written in one piece; `storeBytes_cons` and
  `storeBytes_concat` write it from either end.
* `u32` — reduction of an address or a size modulo `2 ^ 32`.
-/

set_option autoImplicit false

namespace ByteMemory

/-- Memory contents. -/
abbrev Mem := ℕ → UInt8

/-- Unsigned 32-bit wrap-around. -/
def u32 (x : ℕ) : ℕ := x % 4294967296

theorem u32_lt (x : ℕ) : u32 x < 4294967296 := Nat.mod_lt _ (by decide)

theorem u32_of_lt {x : ℕ} (h : x < 4294967296) : u32 x = x := Nat.mod_eq_of_lt h

/-- The little-endian word at `a`. -/
def load32 (m : Mem) (a : ℕ) : ℕ :=
  (m a).toNat + 256 * (m (a + 1)).toNat + 65536 * (m (a + 2)).toNat +
    16777216 * (m (a + 3)).toNat

/-- Write the byte `v` at `a`. -/
def store8 (m : Mem) (a v : ℕ) : Mem := fun x => if x = a then UInt8.ofNat v else m x

/-- Write the word `v` (modulo `2 ^ 32`) at `a`, least significant byte first. -/
def store32 (m : Mem) (a v : ℕ) : Mem := fun x =>
  if x = a then UInt8.ofNat v
  else if x = a + 1 then UInt8.ofNat (v / 256)
  else if x = a + 2 then UInt8.ofNat (v / 65536)
  else if x = a + 3 then UInt8.ofNat (v / 16777216)
  else m x

/-- Write the bytes from `a` on. -/
def storeBytes (m : Mem) (a : ℕ) (bytes : List UInt8) : Mem := fun x =>
  if a ≤ x then bytes[x - a]?.getD (m x) else m x

variable {m m' : Mem} {a b v x : ℕ}

theorem load32_lt (m : Mem) (a : ℕ) : load32 m a < 4294967296 := by
  have h0 := (m a).toNat_lt
  have h1 := (m (a + 1)).toNat_lt
  have h2 := (m (a + 2)).toNat_lt
  have h3 := (m (a + 3)).toNat_lt
  unfold load32
  omega

theorem store32_apply_of_outside (h : x < a ∨ a + 4 ≤ x) : store32 m a v x = m x := by
  unfold store32
  rw [if_neg (by omega), if_neg (by omega), if_neg (by omega), if_neg (by omega)]

theorem store8_apply_of_ne (h : x ≠ a) : store8 m a v x = m x := if_neg h

theorem load32_congr (h : ∀ x, a ≤ x → x < a + 4 → m x = m' x) : load32 m a = load32 m' a := by
  unfold load32
  rw [h a (by omega) (by omega), h (a + 1) (by omega) (by omega), h (a + 2) (by omega) (by omega),
    h (a + 3) (by omega) (by omega)]

theorem load32_store32 (m : Mem) (a v : ℕ) : load32 (store32 m a v) a = u32 v := by
  simp only [load32, store32, u32]
  simp only [if_true, if_neg (by omega : a + 1 ≠ a), if_neg (by omega : a + 2 ≠ a),
    if_neg (by omega : a + 3 ≠ a), if_neg (by omega : a + 2 ≠ a + 1),
    if_neg (by omega : a + 3 ≠ a + 1), if_neg (by omega : a + 3 ≠ a + 2), UInt8.toNat_ofNat']
  omega

theorem load32_store32_self (h : v < 4294967296) : load32 (store32 m a v) a = v := by
  rw [load32_store32, u32_of_lt h]

theorem load32_store32_of_apart (h : a + 4 ≤ b ∨ b + 4 ≤ a) :
    load32 (store32 m b v) a = load32 m a :=
  load32_congr fun _ _ _ => store32_apply_of_outside (by omega)

/-- Storing the word that is there already changes nothing. -/
theorem store32_load32 (m : Mem) (a : ℕ) : store32 m a (load32 m a) = m := by
  have h0 := (m a).toNat_lt
  have h1 := (m (a + 1)).toNat_lt
  have h2 := (m (a + 2)).toNat_lt
  have h3 := (m (a + 3)).toNat_lt
  funext x
  unfold store32 load32
  split_ifs with e0 e1 e2 e3
  · subst e0
    exact UInt8.toNat_inj.mp (by rw [UInt8.toNat_ofNat']; omega)
  · subst e1
    exact UInt8.toNat_inj.mp (by rw [UInt8.toNat_ofNat']; omega)
  · subst e2
    exact UInt8.toNat_inj.mp (by rw [UInt8.toNat_ofNat']; omega)
  · subst e3
    exact UInt8.toNat_inj.mp (by rw [UInt8.toNat_ofNat']; omega)
  · rfl

/-! ## Blocks of bytes -/

@[simp] theorem storeBytes_nil (m : Mem) (a : ℕ) : storeBytes m a [] = m := by
  funext x
  simp [storeBytes]

/-- The first byte first. -/
theorem storeBytes_cons (m : Mem) (a : ℕ) (b : UInt8) (bytes : List UInt8) :
    storeBytes m a (b :: bytes) = storeBytes (Function.update m a b) (a + 1) bytes := by
  funext x
  unfold storeBytes
  rcases Nat.lt_trichotomy x a with h | rfl | h
  · rw [if_neg (by omega), if_neg (by omega), Function.update_of_ne (by omega)]
  · rw [if_pos (by omega), if_neg (by omega), Nat.sub_self, Function.update_self]
    rfl
  · rw [if_pos (by omega), if_pos (by omega), Function.update_of_ne (by omega),
      show x - a = (x - (a + 1)) + 1 by omega, List.getElem?_cons_succ]

/-- The last byte first. -/
theorem storeBytes_concat (m : Mem) (a : ℕ) (bytes : List UInt8) (b : UInt8) :
    storeBytes m a (bytes ++ [b]) =
      storeBytes (Function.update m (a + bytes.length) b) a bytes := by
  induction bytes generalizing m a with
  | nil => rw [List.nil_append, storeBytes_cons]; simp
  | cons c bytes ih =>
    rw [List.cons_append, storeBytes_cons, ih, storeBytes_cons, List.length_cons,
      Function.update_comm (by omega), Nat.add_right_comm a 1, Nat.add_assoc a]

/-- One block behind another. -/
theorem storeBytes_append (m : Mem) (a : ℕ) (xs ys : List UInt8) :
    storeBytes (storeBytes m a xs) (a + xs.length) ys = storeBytes m a (xs ++ ys) := by
  induction xs generalizing m a with
  | nil => rw [storeBytes_nil]; simp
  | cons x xs ih =>
    rw [List.cons_append, storeBytes_cons, storeBytes_cons, ← ih, List.length_cons,
      show a + 1 + xs.length = a + (xs.length + 1) by omega]

theorem storeBytes_apply (m : Mem) (a : ℕ) (bytes : List UInt8) {i : ℕ} (hi : i < bytes.length) :
    storeBytes m a bytes (a + i) = bytes[i] := by
  unfold storeBytes
  rw [if_pos (by omega), Nat.add_sub_cancel_left, List.getElem?_eq_getElem hi]
  rfl

/-- What is written does not depend on the memory, so it is one block only. -/
theorem storeBytes_inj {xs ys : List UInt8}
    (h : ∀ m : Mem, storeBytes m a xs = storeBytes m a ys) : xs = ys := by
  apply List.ext_getElem?
  intro i
  have hbyte : ∀ v : UInt8, xs[i]?.getD v = ys[i]?.getD v := by
    intro v
    have hv := congrFun (h fun _ => v) (a + i)
    unfold storeBytes at hv
    simpa only [if_pos (Nat.le_add_right a i), Nat.add_sub_cancel_left] using hv
  have h0 := hbyte 0
  have h1 := hbyte 1
  cases hx : xs[i]? <;> cases hy : ys[i]? <;> simp [hx, hy] at h0 h1 ⊢
  · simp [← h0] at h1
  · simp [h0] at h1
  · exact h0

/-- The frame of a block write. -/
theorem storeBytes_of_outside {bytes : List UInt8} (h : x < a ∨ a + bytes.length ≤ x) :
    storeBytes m a bytes x = m x := by
  unfold storeBytes
  split
  · rw [List.getElem?_eq_none (by omega)]; rfl
  · rfl

end ByteMemory
