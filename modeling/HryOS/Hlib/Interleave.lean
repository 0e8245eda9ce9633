import HryOS.Hlib.Halves

/-!
# Literals and arguments in turn

A format string made of pieces `lit {spec}` and a rest.  `formatTo` puts out each literal and the
text of each argument, in turn, and then the rest.  The text of an argument should depend on the
argument and its `spec` alone, but the formatter of `uint64_t` looks at the character after the
`}` of an empty placeholder.

* `formatTo_pieces` — what is put out in every case.
* `formatTo_interleaves_iff` — when that is the literals and the renderings.
* `formatTo_peeks` — `{}0` with the argument 5 puts out `050`.
-/

set_option autoImplicit false

namespace HryOS.Format

open ByteMemory

/-- A literal, the text between the braces after it, and the argument that goes there. -/
structure Piece where
  lit : List UInt8
  spec : List UInt8
  arg : Arg
  lit_start : 123 ∉ lit
  lit_nul : 0 ∉ lit
  spec_end : 125 ∉ spec
  spec_nul : 0 ∉ spec

/-- `lit {spec}`. -/
def Piece.source (p : Piece) : List UInt8 := p.lit ++ 123 :: (p.spec ++ [125])

/-- The format string. -/
def source (ps : List Piece) (rest : List UInt8) : List UInt8 :=
  ps.flatMap Piece.source ++ rest

/-- The formatter after `parse`, with nothing after the `}`. -/
def formatterOf (arg : Arg) (spec : List UInt8) : Formatter :=
  (parse arg (spec ++ [125, 0])).toOption.getD {}

/-- The text of an argument under a spec. -/
def render (arg : Arg) (spec : List UInt8) : List UInt8 := rendered (formatterOf arg spec) arg

/-- Literals and renderings in turn, then the rest. -/
def interleaved (ps : List Piece) (rest : List UInt8) : List UInt8 :=
  ps.flatMap (fun p => p.lit ++ render p.arg p.spec) ++ rest

/-- The argument fits in the buffer of its formatter. -/
def Piece.Fits (p : Piece) : Prop := p.arg.Fits (formatterOf p.arg p.spec)

/-- A `uint64_t` below `2 ^ 32`. -/
def Arg.isLow : Arg → Bool
  | .uint64 v => v.toNat < 4294967296
  | _ => false

/-- `parse` takes a `0` after the `}` for a part of the placeholder. -/
def Piece.Peeks (p : Piece) (following : List UInt8) : Prop :=
  p.spec = [] ∧ following.head? = some 48 ∧ p.arg.isLow = true

instance (p : Piece) (following : List UInt8) : Decidable (p.Peeks following) := by
  unfold Piece.Peeks
  infer_instance

/-- What is put out: a `0` too many for each argument whose `parse` peeks. -/
def putOut : List Piece → List UInt8 → List UInt8
  | [], rest => rest
  | p :: ps, rest =>
    p.lit ++ ((if p.Peeks (source ps rest) then [48] else []) ++ render p.arg p.spec) ++
      putOut ps rest

variable {f : Frame} {fuel : ℕ} {p : Piece} {ps : List Piece} {arg : Arg}
  {s rest spec following : List UInt8}

theorem source_cons : source (p :: ps) rest = p.lit ++ 123 :: (p.spec ++ 125 :: source ps rest) := by
  simp [source, Piece.source]

theorem source_noNul (hrest : 0 ∉ rest) : 0 ∉ source ps rest := by
  induction ps with
  | nil => simpa [source] using hrest
  | cons p ps ih =>
    rw [source_cons]
    simp [p.lit_nul, p.spec_nul, ih]

/-! ## Scanning a piece -/

theorem lit_scan : ∀ c ∈ p.lit, (!isStartFormatting c) = true := by
  intro c hc
  have hne : c ≠ 123 := fun he => p.lit_start (he ▸ hc)
  simpa [isStartFormatting] using hne

theorem spec_scan : ∀ c ∈ p.spec, (!isEndFormatting c) = true := by
  intro c hc
  have hne : c ≠ 125 := fun he => p.spec_end (he ▸ hc)
  simpa [isEndFormatting] using hne

theorem beforeStart_source : beforeStart (source (p :: ps) rest) = p.lit := by
  rw [source_cons, beforeStart, List.takeWhile_append_of_pos lit_scan,
    List.takeWhile_cons_of_neg (by decide), List.append_nil]

theorem fromStart_source :
    (fromStart (source (p :: ps) rest)).tail = p.spec ++ 125 :: source ps rest := by
  rw [source_cons, fromStart, List.dropWhile_append_of_pos lit_scan,
    List.dropWhile_cons_of_neg (by decide), List.tail_cons]

theorem afterPlaceholder_source : afterPlaceholder (source (p :: ps) rest) = source ps rest := by
  rw [afterPlaceholder, fromStart_source, fromEnd, List.dropWhile_append_of_pos spec_scan,
    List.dropWhile_cons_of_neg (by decide), List.tail_cons]

/-! ## The lookahead of `parse` -/

/-- Behind a spec that is not empty `parse` sees no further than the `}`. -/
theorem parse_of_spec (arg : Arg) (hspec : spec ≠ []) (more : List UInt8) :
    parse arg (spec ++ 125 :: more) = .ok (formatterOf arg spec) := by
  match spec, hspec with
  | [c], _ => cases arg <;> rfl
  | c :: c' :: spec, _ => cases arg <;> rfl

/-- A `uint64_t` in base ten, with or without padding. -/
theorem rendered_dec (v : UInt64) (zero : Bool) :
    rendered { base := .dec, leadingZero := zero } (.uint64 v) =
      (if zero = true ∧ v.toNat < 4294967296 then [48] else []) ++
        rendered { base := .dec } (.uint64 v) := by
  rw [rendered_uint64 v (by simp), rendered_uint64 v (by simp)]
  simp only [Bool.false_eq_true, or_false]
  by_cases hh : v.toNat / 4294967296 = 0
  · have hlow : v.toNat < 4294967296 := by omega
    have hzero : numeral .dec (0 : ℕ) = [48] := by decide
    cases zero with
    | false => simp [hh]
    | true => simp only [hh, hlow, hzero, ne_eq, not_true_eq_false, or_true, and_self, if_true,
        if_false, List.nil_append]
  · have hlow : ¬v.toNat < 4294967296 := by omega
    simp [hh, hlow]

/-- Behind an empty spec the `parse` of a `uint64_t` sees the next character. -/
theorem parse_of_empty (arg : Arg) (following : List UInt8) :
    ∃ self, parse arg (125 :: (following ++ [0])) = .ok self ∧
      (arg.Fits self ↔ arg.Fits (formatterOf arg [])) ∧ rendered self arg =
      (if following.head? = some 48 ∧ arg.isLow = true then [48] else []) ++
        rendered (formatterOf arg []) arg := by
  cases arg with
  | uint64 v =>
    have hself : parse (.uint64 v) (125 :: (following ++ [0])) =
        .ok { base := .dec, leadingZero := following.head? == some 48 } := by
      cases following <;> rfl
    refine ⟨_, hself, Iff.rfl, ?_⟩
    have hof : formatterOf (.uint64 v) [] = { base := .dec } := rfl
    rw [rendered_dec, hof]
    simp [Arg.isLow]
  | integral T value | bool value | float num | text txt | stringView str | pointer addr =>
    exact ⟨_, rfl, Iff.rfl, by simp [Arg.isLow]; rfl⟩

/-- What the argument of a piece is formatted as. -/
theorem parse_piece (p : Piece) (following : List UInt8) :
    ∃ self, parse p.arg (p.spec ++ 125 :: (following ++ [0])) = .ok self ∧
      (p.arg.Fits self ↔ p.Fits) ∧ rendered self p.arg =
        (if p.Peeks following then [48] else []) ++ render p.arg p.spec := by
  by_cases hspec : p.spec = []
  · obtain ⟨self, hself, hfits, hr⟩ := parse_of_empty p.arg following
    unfold Piece.Fits
    refine ⟨self, by rw [hspec]; exact hself, by rw [hspec]; exact hfits, ?_⟩
    rw [hr, render, hspec]
    simp [Piece.Peeks, hspec]
  · refine ⟨_, parse_of_spec p.arg hspec _, Iff.rfl, ?_⟩
    rw [if_neg fun hp => hspec hp.1]
    rfl

/-! ## The whole string -/

/-- In a string of pieces each argument meets its own. -/
theorem allFit_source_iff : AllFit (ps.map Piece.arg) (source ps rest) ↔ ∀ p ∈ ps, p.Fits := by
  induction ps with
  | nil => exact iff_of_true trivial fun _ h => absurd h List.not_mem_nil
  | cons p ps ih =>
    obtain ⟨self, hself, hfits, -⟩ := parse_piece p (source ps rest)
    have hat : formatterAt p.arg (p.spec ++ 125 :: source ps rest) = self := by
      apply formatterAt_of_parse
      rw [List.append_assoc]
      exact hself
    rw [List.map_cons, AllFit, fromStart_source, afterPlaceholder_source, hat, hfits, ih,
      List.forall_mem_cons]

/-- **What `format_to` puts out** for a string of pieces. -/
theorem formatTo_pieces (hrest : 0 ∉ rest) (hfit : ∀ p ∈ ps, p.Fits) (hf : 32 < fuel) :
    formatTo f fuel (ps.map Piece.arg) (source ps rest ++ [0]) = .ok (putOut ps rest) := by
  induction ps with
  | nil =>
    rw [List.map_nil, formatTo_nil]
    exact formatToEnd_eq hrest
  | cons p ps ih =>
    obtain ⟨self, hself, hfits, hr⟩ := parse_piece p (source ps rest)
    have htext : format f fuel self p.arg = .ok (rendered self p.arg) :=
      format_eq (hfits.mpr (hfit p List.mem_cons_self)) hf
    have hmem : 123 ∈ source (p :: ps) rest := by
      rw [source_cons]
      simp
    rw [List.map_cons, formatTo_cons (source_noNul hrest)]
    refine ⟨hmem, ?_, self, _, putOut ps rest, ?_, htext, ?_, ?_⟩
    · rw [fromStart_source]
      simp
    · rw [fromStart_source, List.append_assoc]
      exact hself
    · rw [afterPlaceholder_source]
      exact ih fun q hq => hfit q (List.mem_cons_of_mem p hq)
    · rw [beforeStart_source, hr]
      rfl

theorem interleaved_cons : interleaved (p :: ps) rest =
    p.lit ++ render p.arg p.spec ++ interleaved ps rest := by
  simp [interleaved]

/-- Nothing is left out. -/
theorem length_interleaved_le : (interleaved ps rest).length ≤ (putOut ps rest).length := by
  induction ps with
  | nil => exact Nat.le_refl _
  | cons p ps ih =>
    rw [interleaved_cons, putOut]
    simp only [List.length_append]
    omega

/-- It is the literals and renderings in turn unless a `parse` peeks. -/
theorem putOut_eq_iff : putOut ps rest = interleaved ps rest ↔
    ∀ p post, p :: post <:+ ps → ¬p.Peeks (source post rest) := by
  induction ps with
  | nil => simp [putOut, interleaved]
  | cons q ps ih =>
    rw [interleaved_cons, putOut]
    constructor
    · intro heq p post hsuf hpeek
      have hlen := congrArg List.length heq
      have hle : (interleaved ps rest).length ≤ (putOut ps rest).length := length_interleaved_le
      simp only [List.length_append] at hlen
      rcases List.suffix_cons_iff.mp hsuf with hpq | hsuf
      · obtain ⟨rfl, rfl⟩ := List.cons.inj hpq
        rw [if_pos hpeek, List.length_singleton] at hlen
        omega
      · have hq : ¬q.Peeks (source ps rest) := by
          intro hq
          rw [if_pos hq, List.length_singleton] at hlen
          omega
        rw [if_neg hq, List.nil_append] at heq
        exact ih.mp (List.append_cancel_left heq) p post hsuf hpeek
    · intro hall
      rw [if_neg (hall q ps (List.suffix_refl _)), List.nil_append,
        ih.mpr fun p post hsuf => hall p post (hsuf.trans (List.suffix_cons q ps))]

/-- **`format_to` interleaves literals and arguments**, exactly when every argument fits in the
    buffer of its formatter and no `parse` takes the `0` after a `}` for its own. -/
theorem formatTo_interleaves_iff (f : Frame) (ps : List Piece) (rest : List UInt8)
    (hrest : 0 ∉ rest) :
    (∀ fuel, 32 < fuel → formatTo f fuel (ps.map Piece.arg) (source ps rest ++ [0]) =
        .ok (interleaved ps rest)) ↔
      ∀ p post, p :: post <:+ ps → p.Fits ∧ ¬p.Peeks (source post rest) := by
  constructor
  · intro hall
    have hfit : ∀ p ∈ ps, p.Fits := allFit_source_iff.mp
      (of_formatTo (source_noNul hrest) (hall 33 (by omega))).2
    have heq := (formatTo_pieces (f := f) hrest hfit (by omega : 32 < 33)).symm.trans
      (hall 33 (by omega))
    intro p post hsuf
    exact ⟨hfit p (hsuf.subset List.mem_cons_self), putOut_eq_iff.mp (Except.ok.inj heq) p post hsuf⟩
  · intro hall fuel hf
    have hfit : ∀ p ∈ ps, p.Fits := by
      intro p hp
      obtain ⟨pre, post, rfl⟩ := List.append_of_mem hp
      exact (hall p post (List.suffix_append pre _)).1
    rw [formatTo_pieces hrest hfit hf,
      putOut_eq_iff.mpr fun p post hsuf => (hall p post hsuf).2]

/-- `{}` for the `uint64_t` 5. -/
def fivePiece : Piece where
  lit := []
  spec := []
  arg := .uint64 5
  lit_start := by decide
  lit_nul := by decide
  spec_end := by decide
  spec_nul := by decide

/-- `a{x}` for the `int` -2147483647 and `{}` for a `string_view` of `b`. -/
def twoPieces : List Piece :=
  [{ lit := [97], spec := [120], arg := .integral .int32_t ⟨-2147483647, by decide⟩,
     lit_start := by decide, lit_nul := by decide, spec_end := by decide, spec_nul := by decide },
   { lit := [], spec := [], arg := .stringView [98],
     lit_start := by decide, lit_nul := by decide, spec_end := by decide, spec_nul := by decide }]

/-- `a{x}{}0` with them makes `a-7FFFFFFFb0`. -/
theorem formatTo_interleaves_example :
    formatTo ⟨4096, by decide, by decide⟩ 64
        [.integral .int32_t ⟨-2147483647, by decide⟩, .stringView [98]]
        [97, 123, 120, 125, 123, 125, 48, 0] =
      .ok [97, 45, 55, 70, 70, 70, 70, 70, 70, 70, 98, 48] := by
  have h := (formatTo_interleaves_iff ⟨4096, by omega, by omega⟩ twoPieces [48]
    (by simp)).mpr ?_ 64 (by simp)
  · rw [show [97, 45, 55, 70, 70, 70, 70, 70, 70, 70, 98, 48] = interleaved twoPieces [48] by decide]
    exact h
  · intro p post hsuf
    rcases List.suffix_cons_iff.mp hsuf with hp | hsuf
    · obtain ⟨rfl, rfl⟩ := List.cons.inj hp
      exact ⟨Or.inr (by decide), by decide⟩
    rcases List.suffix_cons_iff.mp hsuf with hp | hsuf
    · obtain ⟨rfl, rfl⟩ := List.cons.inj hp
      exact ⟨trivial, by decide⟩
    · cases List.eq_nil_of_suffix_nil hsuf

/-- `{}0` and 5 make `050`. -/
theorem formatTo_peeks :
    formatTo ⟨4096, by decide, by decide⟩ 64 [.uint64 5] [123, 125, 48, 0] = .ok [48, 53, 48] ∧
      [123, 125, 48] = source [fivePiece] [48] ∧ interleaved [fivePiece] [48] = [53, 48] := by
  refine ⟨?_, by decide, by decide⟩
  rw [show [48, 53, 48] = putOut [fivePiece] [48] by decide]
  have h : formatTo ⟨4096, by omega, by omega⟩ 64 ([fivePiece].map Piece.arg)
      (source [fivePiece] [48] ++ [0]) = .ok (putOut [fivePiece] [48]) :=
    formatTo_pieces (by simp) (by simp [fivePiece, Piece.Fits, Arg.Fits]) (by simp)
  exact h

end HryOS.Format
