import Mathlib.Data.Nat.Basic
import Mathlib.Data.List.Defs
import Mathlib.Logic.Function.Basic
import Mathlib.Tactic.Common

/-!
# A pair of 8259A interrupt controllers

Two controllers of eight lines each, the second one on line 2 of the first.

* `Chip` — one controller: its requests, the lines in service, its mask and where it is in its
  initialization; `writeCommand`, `writeData` — its two ports, without rotating priorities.
* `Pair.acknowledge` — the processor takes the interrupt of highest priority.
* `Configured`, `Idle`, `Serving` — the states a driver leads through.
* `acknowledge_spec`, `acknowledge_isSome` — what is taken when nothing is in service;
  `Serving.eoiSlave`, `Serving.eoiMaster` — the two ends of interrupt leave nothing in service.
-/

set_option autoImplicit false

namespace Pic8259

/-! ## One controller -/

/-- What a controller expects on its data port. -/
inductive Phase
  | icw2
  | icw3
  | icw4
  | ready
  deriving DecidableEq, Repr

/-- A controller; lines are numbered from 0, the one of highest priority. -/
structure Chip where
  irr : ℕ → Bool
  isr : ℕ → Bool
  imr : ℕ → Bool
  offset : ℕ
  cascade : ℕ
  autoEoi : Bool
  phase : Phase
  single : Bool
  needsIcw4 : Bool

namespace Chip

/-- The line of highest priority in service. -/
def serving (c : Chip) : Option ℕ := (List.range 8).find? c.isr

/-- A non-specific end of interrupt. -/
def eoi (c : Chip) : Chip :=
  match c.serving with
  | some i => { c with isr := Function.update c.isr i false }
  | none => c

/-- A byte to the command port: ICW1, OCW3, or OCW2. -/
def writeCommand (c : Chip) (data : ℕ) : Chip :=
  if data.testBit 4 then
    { c with
      irr := fun _ => false, isr := fun _ => false, imr := fun _ => false, autoEoi := false
      phase := .icw2, single := data.testBit 1, needsIcw4 := data.testBit 0 }
  else if data.testBit 3 then c
  else if data / 32 = 1 then c.eoi
  else if data / 32 = 3 then { c with isr := Function.update c.isr (data % 8) false }
  else c

/-- A byte to the data port: the next ICW, or the mask. -/
def writeData (c : Chip) (data : ℕ) : Chip :=
  match c.phase with
  | .icw2 =>
    { c with
      offset := data / 8 * 8
      phase := if !c.single then .icw3 else if c.needsIcw4 then .icw4 else .ready }
  | .icw3 => { c with cascade := data, phase := if c.needsIcw4 then .icw4 else .ready }
  | .icw4 => { c with autoEoi := data.testBit 1, phase := .ready }
  | .ready => { c with imr := data.testBit }

/-- A line requests, is not masked, and no line of its priority or a higher one is in service. -/
def pending (c : Chip) (i : ℕ) : Bool :=
  c.irr i && !c.imr i && (List.range (i + 1)).all fun j => !c.isr j

/-- The line to be served next. -/
def highest (c : Chip) : Option ℕ := (List.range 8).find? c.pending

/-- A device requests an interrupt. -/
def raise (c : Chip) (i : ℕ) : Chip := { c with irr := Function.update c.irr i true }

/-- A line is taken into service. -/
def take (c : Chip) (i : ℕ) : Chip :=
  { c with
    irr := Function.update c.irr i false
    isr := if c.autoEoi then c.isr else Function.update c.isr i true }

end Chip

/-! ## The pair -/

/-- The two controllers. -/
structure Pair where
  master : Chip
  slave : Chip

namespace Pair

/-- A device requests on one of the sixteen lines. -/
def raise (p : Pair) (k : ℕ) : Pair :=
  if k < 8 then { p with master := p.master.raise k }
  else { p with slave := p.slave.raise (k - 8) }

/-- The request of a line. -/
def requested (p : Pair) (k : ℕ) : Bool := if k < 8 then p.master.irr k else p.slave.irr (k - 8)

/-- The first controller sees the interrupt output of the second one on its line 2. -/
def seen (p : Pair) : Chip :=
  { p.master with irr := Function.update p.master.irr 2 p.slave.highest.isSome }

/-- The processor acknowledges: the vector, and the controllers afterwards. -/
def acknowledge (p : Pair) : Option (ℕ × Pair) :=
  p.seen.highest.bind fun i =>
    if i = 2 ∧ p.master.cascade.testBit 2 then
      if p.slave.cascade = 2 then
        p.slave.highest.map fun j =>
          (p.slave.offset + j, { master := p.master.take 2, slave := p.slave.take j })
      else none
    else some (p.master.offset + i, { p with master := p.master.take i })

end Pair

/-- Initialized, for the vectors from `first` and from `second` on, nothing masked. -/
structure Configured (first second : ℕ) (p : Pair) : Prop where
  ready : p.master.phase = .ready ∧ p.slave.phase = .ready
  unmasked : (∀ i, p.master.imr i = false) ∧ ∀ i, p.slave.imr i = false
  notAuto : p.master.autoEoi = false ∧ p.slave.autoEoi = false
  first : p.master.offset = first
  second : p.slave.offset = second
  master : p.master.cascade.testBit 2 = true
  slave : p.slave.cascade = 2

/-- Nothing is in service. -/
structure Idle (p : Pair) : Prop where
  master : ∀ i, p.master.isr i = false
  slave : ∀ i, p.slave.isr i = false

/-- Only interrupt `n` is in service, on the second controller too if it is one of its lines. -/
structure Serving (n : ℕ) (p : Pair) : Prop where
  master : ∀ i, p.master.isr i = true ↔ i = if n < 8 then n else 2
  slave : ∀ i, p.slave.isr i = true ↔ 8 ≤ n ∧ i = n - 8

/-- The order in which requests are served. -/
def rank (n : ℕ) : ℕ := if n < 2 then n else if n < 8 then n + 8 else n - 6

/-- The vector of a line. -/
def vector (first second n : ℕ) : ℕ := if n < 8 then first + n else second + (n - 8)

/-- A line of a device. -/
def DeviceLine (k : ℕ) : Prop := k < 16 ∧ k ≠ 2

instance (k : ℕ) : Decidable (DeviceLine k) := inferInstanceAs (Decidable (_ ∧ _))

variable {c : Chip} {p p' : Pair} {first second i k n v : ℕ}

/-! ## One controller with nothing in service -/

theorem Chip.pending_of_idle (hisr : ∀ i, c.isr i = false) (himr : ∀ i, c.imr i = false) :
    c.pending = c.irr := by
  funext i
  simp [Chip.pending, hisr, himr]

/-- The lowest line that requests. -/
theorem Chip.highest_eq_some (hisr : ∀ i, c.isr i = false) (himr : ∀ i, c.imr i = false) :
    c.highest = some i ↔ c.irr i = true ∧ i < 8 ∧ ∀ j, j < i → c.irr j = false := by
  unfold Chip.highest
  rw [Chip.pending_of_idle hisr himr, List.find?_range_eq_some]
  simp only [List.mem_range, Bool.not_eq_true']

theorem Chip.highest_isSome (hisr : ∀ i, c.isr i = false) (himr : ∀ i, c.imr i = false) :
    c.highest.isSome = true ↔ ∃ i, i < 8 ∧ c.irr i = true := by
  unfold Chip.highest
  rw [Chip.pending_of_idle hisr himr, List.find?_isSome]
  simp only [List.mem_range]

theorem Chip.eoi_isr (hi : i < 8) (hisr : ∀ j, c.isr j = true ↔ j = i) (j : ℕ) :
    c.eoi.isr j = false := by
  have hserving : c.serving = some i := by
    unfold Chip.serving
    rw [List.find?_range_eq_some]
    refine ⟨(hisr i).mpr rfl, List.mem_range.mpr hi, fun k hk => ?_⟩
    rw [Bool.not_eq_true', Bool.eq_false_iff]
    intro h
    have := (hisr k).mp h
    omega
  unfold Chip.eoi
  rw [hserving]
  dsimp only
  by_cases hj : j = i
  · rw [hj, Function.update_self]
  · rw [Function.update_of_ne hj, Bool.eq_false_iff]
    exact fun h => hj ((hisr j).mp h)

/-- An end of interrupt changes nothing but the lines in service. -/
theorem Chip.eoi_eq (c : Chip) : ∃ isr, c.eoi = { c with isr := isr } := by
  unfold Chip.eoi
  split
  · exact ⟨_, rfl⟩
  · exact ⟨c.isr, rfl⟩

/-! ## The pair -/

theorem Pair.requested_raise (p : Pair) (k n : ℕ) :
    (p.raise k).requested n = (p.requested n || n == k) := by
  unfold Pair.raise Pair.requested Chip.raise
  by_cases hk : k < 8 <;> by_cases hn : n < 8
  · rw [if_pos hk, if_pos hn, if_pos hn]
    dsimp only
    rw [Function.update_apply]
    by_cases h : n = k <;> simp [h]
  · rw [if_pos hk, if_neg hn, if_neg hn]
    simp [show n ≠ k by omega]
  · rw [if_neg hk, if_pos hn, if_pos hn]
    simp [show n ≠ k by omega]
  · rw [if_neg hk, if_neg hn, if_neg hn]
    dsimp only
    rw [Function.update_apply]
    by_cases h : n = k
    · simp [h]
    · simp [h, show n - 8 ≠ k - 8 by omega]

/-- Whatever is in service, a request changes only the requests. -/
theorem Configured.raise (h : Configured first second p) (k : ℕ) :
    Configured first second (p.raise k) := by
  obtain ⟨h1, h2, h3, h4, h5, h6, h7⟩ := h
  unfold Pair.raise
  split
  · exact ⟨h1, h2, h3, h4, h5, h6, h7⟩
  · exact ⟨h1, h2, h3, h4, h5, h6, h7⟩

theorem Idle.raise (h : Idle p) (k : ℕ) : Idle (p.raise k) := by
  unfold Pair.raise
  split
  · exact ⟨h.master, h.slave⟩
  · exact ⟨h.master, h.slave⟩

theorem Serving.raise (h : Serving n p) (k : ℕ) : Serving n (p.raise k) := by
  unfold Pair.raise
  split
  · exact ⟨h.master, h.slave⟩
  · exact ⟨h.master, h.slave⟩

/-- What an acknowledgement leaves. -/
structure Acknowledged (first second : ℕ) (p : Pair) (v n : ℕ) (p' : Pair) : Prop where
  line : DeviceLine n
  requested : p.requested n = true
  first_served : ∀ k, DeviceLine k → p.requested k = true → rank n ≤ rank k
  vector : v = vector first second n
  configured : Configured first second p'
  serving : Serving n p'
  requests : ∀ k, DeviceLine k → p'.requested k = (p.requested k && k != n)

/-- With nothing in service, the first controller serves the lowest line that it sees. -/
theorem seen_highest (hc : Configured first second p) (hidle : Idle p) :
    p.seen.highest = some i ↔ p.seen.irr i = true ∧ i < 8 ∧ ∀ j, j < i → p.seen.irr j = false :=
  Chip.highest_eq_some hidle.master hc.unmasked.1

theorem slave_highest_isSome (hc : Configured first second p) (hidle : Idle p) :
    p.slave.highest.isSome = true ↔ ∃ k, 8 ≤ k ∧ k < 16 ∧ p.requested k = true := by
  rw [Chip.highest_isSome hidle.slave hc.unmasked.2]
  constructor
  · rintro ⟨i, hi, h⟩
    refine ⟨i + 8, by omega, by omega, ?_⟩
    unfold Pair.requested
    rw [if_neg (by omega), Nat.add_sub_cancel]
    exact h
  · rintro ⟨k, h8, h16, h⟩
    unfold Pair.requested at h
    rw [if_neg (by omega)] at h
    exact ⟨k - 8, by omega, h⟩

theorem seen_irr_two (p : Pair) : p.seen.irr 2 = p.slave.highest.isSome := by
  unfold Pair.seen
  dsimp only
  rw [Function.update_self]

theorem seen_irr (hk : k < 8) (hne : k ≠ 2) : p.seen.irr k = p.requested k := by
  unfold Pair.seen Pair.requested
  dsimp only
  rw [Function.update_of_ne hne, if_pos hk]

/-- A line of the second controller is taken. -/
theorem acknowledged_slave (hc : Configured first second p) (hidle : Idle p)
    (hseen : p.seen.highest = some 2) (hslave : p.slave.highest = some i) :
    Acknowledged first second p (second + i) (i + 8)
      { master := p.master.take 2, slave := p.slave.take i } := by
  obtain ⟨hirr, hi, hleast⟩ := (Chip.highest_eq_some hidle.slave hc.unmasked.2).mp hslave
  obtain ⟨-, -, hlower⟩ := (seen_highest hc hidle).mp hseen
  obtain ⟨h1, h2, ⟨h3, h3'⟩, h4, h5, h6, h7⟩ := hc
  have hn : ¬i + 8 < 8 := by omega
  refine ⟨⟨by omega, by omega⟩, ?_, ?_, ?_, ⟨h1, h2, ⟨h3, h3'⟩, h4, h5, h6, h7⟩, ⟨?_, ?_⟩, ?_⟩
  · unfold Pair.requested
    rw [if_neg hn, Nat.add_sub_cancel]
    exact hirr
  · -- lines 0 and 1 do not request, and lines 3 to 7 come later
    rintro k ⟨hk, hne⟩ hreq
    have h01 : ¬k < 2 := by
      intro h
      rw [← seen_irr (by omega) hne, hlower k h] at hreq
      cases hreq
    have hslaves : 8 ≤ k → i ≤ k - 8 := by
      intro h8
      by_contra hlt
      unfold Pair.requested at hreq
      rw [if_neg (by omega), hleast (k - 8) (by omega)] at hreq
      cases hreq
    unfold rank
    rw [if_neg (by omega), if_neg hn, if_neg h01]
    split <;> omega
  · unfold vector
    rw [if_neg hn, Nat.add_sub_cancel]
  · intro j
    unfold Chip.take
    dsimp only
    rw [h3, if_neg (by simp), if_neg hn, Function.update_apply]
    by_cases hj : j = 2 <;> simp [hj, hidle.master]
  · intro j
    unfold Chip.take
    dsimp only
    rw [h3', if_neg (by simp), Function.update_apply, Nat.add_sub_cancel]
    by_cases hj : j = i <;> simp [hj, hidle.slave]
  · rintro k ⟨hk, hne⟩
    unfold Pair.requested Chip.take
    by_cases h8 : k < 8
    · rw [if_pos h8, if_pos h8]
      dsimp only
      rw [Function.update_of_ne hne]
      simp [show k ≠ i + 8 by omega]
    · rw [if_neg h8, if_neg h8]
      dsimp only
      rw [Function.update_apply]
      by_cases hki : k = i + 8
      · simp [hki]
      · simp [hki, show k - 8 ≠ i by omega]

/-- A line of the first controller is taken. -/
theorem acknowledged_master (hc : Configured first second p) (hidle : Idle p) (hne2 : i ≠ 2)
    (hseen : p.seen.highest = some i) :
    Acknowledged first second p (first + i) i { p with master := p.master.take i } := by
  obtain ⟨hirr, hi, hlower⟩ := (seen_highest hc hidle).mp hseen
  have hslaves := slave_highest_isSome hc hidle
  obtain ⟨h1, h2, ⟨h3, h3'⟩, h4, h5, h6, h7⟩ := hc
  refine ⟨⟨by omega, hne2⟩, ?_, ?_, ?_, ⟨h1, h2, ⟨h3, h3'⟩, h4, h5, h6, h7⟩, ⟨?_, ?_⟩, ?_⟩
  · rw [← seen_irr hi hne2]
    exact hirr
  · rintro k ⟨hk, hne⟩ hreq
    have hmaster : k < 8 → i ≤ k := by
      intro h8
      by_contra hlt
      rw [← seen_irr h8 hne, hlower k (by omega)] at hreq
      cases hreq
    -- a request of the second controller is seen on line 2
    have hslave : 8 ≤ k → i < 2 := by
      intro h8
      by_contra hge
      have h := hlower 2 (Nat.lt_of_le_of_ne (Nat.le_of_not_lt hge) (Ne.symm hne2))
      rw [seen_irr_two, hslaves.mpr ⟨k, h8, hk, hreq⟩] at h
      cases h
    clear hslaves
    unfold rank
    split_ifs <;> omega
  · unfold vector
    rw [if_pos hi]
  · intro j
    unfold Chip.take
    dsimp only
    rw [h3, if_neg (by simp), if_pos hi, Function.update_apply]
    by_cases hj : j = i <;> simp [hj, hidle.master]
  · intro j
    simp only [hidle.slave j, Bool.false_eq_true, false_iff, not_and]
    omega
  · rintro k ⟨hk, hne⟩
    unfold Pair.requested Chip.take
    by_cases h8 : k < 8
    · rw [if_pos h8, if_pos h8]
      dsimp only
      rw [Function.update_apply]
      by_cases hki : k = i <;> simp [hki]
    · rw [if_neg h8, if_neg h8]
      simp [show k ≠ i by omega]

/-- **What the processor takes** when nothing is in service: a request that none precedes, with its
    vector; it is then the only line in service, and every other request stays. -/
theorem acknowledge_spec (hc : Configured first second p) (hidle : Idle p)
    (h : p.acknowledge = some (v, p')) : ∃ n, Acknowledged first second p v n p' := by
  obtain ⟨i, hseen, h⟩ := Option.bind_eq_some_iff.mp h
  by_cases hi : i = 2
  · subst hi
    rw [if_pos ⟨rfl, hc.master⟩, if_pos hc.slave] at h
    obtain ⟨j, hslave, h⟩ := Option.map_eq_some_iff.mp h
    cases h
    rw [hc.second]
    exact ⟨j + 8, acknowledged_slave hc hidle hseen hslave⟩
  · rw [if_neg (fun h => hi h.1)] at h
    cases h
    rw [hc.first]
    exact ⟨i, acknowledged_master hc hidle hi hseen⟩

/-- Any request is enough for the processor to be interrupted. -/
theorem acknowledge_isSome (hc : Configured first second p) (hidle : Idle p) (hk : DeviceLine k)
    (h : p.requested k = true) : p.acknowledge.isSome = true := by
  have hslaves := slave_highest_isSome hc hidle
  have hsome : p.seen.highest.isSome = true := by
    have hline : ∃ i, i < 8 ∧ p.seen.irr i = true := by
      by_cases h8 : k < 8
      · exact ⟨k, h8, by rw [seen_irr h8 hk.2]; exact h⟩
      · exact ⟨2, by omega, by
          rw [seen_irr_two]; exact hslaves.mpr ⟨k, by omega, hk.1, h⟩⟩
    exact (Chip.highest_isSome (c := p.seen) hidle.master hc.unmasked.1).mpr hline
  obtain ⟨i, hseen⟩ := Option.isSome_iff_exists.mp hsome
  unfold Pair.acknowledge
  rw [hseen, Option.bind_some]
  by_cases hi : i = 2
  · subst hi
    have hslave : p.slave.highest.isSome = true := by
      rw [← seen_irr_two]
      exact ((seen_highest hc hidle).mp hseen).1
    rw [if_pos ⟨rfl, hc.master⟩, if_pos hc.slave, Option.isSome_map]
    exact hslave
  · rw [if_neg (fun h => hi h.1)]
    rfl

/-! ## Ends of interrupt -/

/-- The end of interrupt of the second controller. -/
theorem Serving.eoiSlave (h : Serving n p) (h8 : 8 ≤ n) (h16 : n < 16) :
    (∀ i, p.slave.eoi.isr i = false) ∧ ∀ i, p.master.isr i = true ↔ i = 2 := by
  refine ⟨Chip.eoi_isr (i := n - 8) (by omega) fun j => ?_, fun i => ?_⟩
  · rw [h.slave]
    omega
  · rw [h.master, if_neg (by omega)]

/-- The end of interrupt of the first controller. -/
theorem eoi_master (h : ∀ i, p.master.isr i = true ↔ i = k) (hk : k < 8)
    (hslave : ∀ i, p.slave.isr i = false) : Idle { p with master := p.master.eoi } :=
  ⟨Chip.eoi_isr hk h, hslave⟩

/-- An end of interrupt loses no request. -/
theorem requested_eoi (p : Pair) (k : ℕ) :
    ({ p with master := p.master.eoi } : Pair).requested k = p.requested k ∧
      ({ p with slave := p.slave.eoi } : Pair).requested k = p.requested k := by
  obtain ⟨isr, hm⟩ := Chip.eoi_eq p.master
  obtain ⟨isr', hs⟩ := Chip.eoi_eq p.slave
  rw [hm, hs]
  exact ⟨rfl, rfl⟩

theorem Configured.eoi (h : Configured first second p) :
    Configured first second { p with master := p.master.eoi } ∧
      Configured first second { p with slave := p.slave.eoi } := by
  obtain ⟨isr, hm⟩ := Chip.eoi_eq p.master
  obtain ⟨isr', hs⟩ := Chip.eoi_eq p.slave
  obtain ⟨h1, h2, h3, h4, h5, h6, h7⟩ := h
  rw [hm, hs]
  exact ⟨⟨h1, h2, h3, h4, h5, h6, h7⟩, ⟨h1, h2, h3, h4, h5, h6, h7⟩⟩

end Pic8259
