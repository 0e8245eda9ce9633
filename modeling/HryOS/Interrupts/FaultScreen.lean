import HryOS.Hlib.Interleave
import HryOS.Interrupts.Stubs
import HryOS.Terminal.Tasks
import HryOS.Terminal.Vga

/-!
# The screen of a fault

`fault_handler` of `interrupts.cpp` prints what it finds in its registers, on a terminal in
whatever state the fault left it.

* `printLine`, `faultHandler` — `print_line` with its arguments through `format_to`, and the handler
  up to its `halt`.
* `printLine_shows` — a line that fits is written below those above it.
* `faultText` — the lines of the screen; `fault_screen` — the display of the VGA build shows them
  and nothing else.
-/

set_option autoImplicit false

namespace HryOS.FaultScreen

open ByteMemory Format Stubs TextGrid Terminal
open Tasks (bytes)

/-- `ERROR_MESSAGES`. -/
def ERROR_MESSAGES : List (List UInt8) :=
  ["Divide Error", "Debug Exception", "NMI Interrupt", "Breakpoint", "Overflow",
    "BOUND Range Exceeded", "Invalid Opcode (Undefined Opcode)",
    "Device Not Available (No Math Coprocessor)", "Double Fault", "Coprocessor Segment Overrun",
    "Invalid TSS", "Segment Not Present", "Stack-Segment Fault", "General Protection", "Page Fault",
    "Intel Reserved", "x87 FPU Floating-Point Error (Math Fault)", "Alignment Check",
    "Machine Check", "SIMD Floating-Point Exception", "Virtualization Exception"].map bytes

/-! ## The handler -/

section Handler

variable {σ : Type} (B : Backend σ) (f : Frame) (fuel : ℕ)

/-- `terminal::print_line`: `format_to` gives its output to `put_char`. -/
def printLine (s : TerminalStatics σ) (fmt : List UInt8) (args : List Arg) :
    Option (TerminalStatics σ) := do
  let out ← (formatTo f fuel args (fmt ++ [0])).toOption
  let s ← out.foldlM (TerminalStatics.putChar B) s
  s.nextLine B

/-- A `uint32_t`. -/
def word (value : ℕ) : Arg := .integral .uint32_t ⟨u32 value, uint32_mem (u32_lt value)⟩

/-- The registers that are printed, with their names. -/
def named (regs : Registers) : List (List UInt8 × ℕ) :=
  (["eax", "ecx", "edx", "ebx", "esp", "ebp", "esi", "edi", "eip"].map bytes).zip
    [regs.eax, regs.ecx, regs.edx, regs.ebx, regs.esp, regs.ebp, regs.esi, regs.edi, regs.eip]

/-- `print_line("eax: {x}", regs->eax)`, and the like. -/
def printRegister (s : TerminalStatics σ) (r : List UInt8 × ℕ) : Option (TerminalStatics σ) :=
  printLine B f fuel s (r.1 ++ bytes ": {x}") [word r.2]

/-- `fault_handler`, up to its `halt`; no result for an index behind `ERROR_MESSAGES`. -/
def faultHandler (s : TerminalStatics σ) (regs : Registers) : Option (TerminalStatics σ) := do
  let s ← s.clearScreen B
  let s ← backendStep B s (.setForegroundColor .lightRed)
  let s ← printLine B f fuel s (bytes "Avada Kedavra has been casted!") []
  let s ← printLine B f fuel s (bytes "------------------------------") []
  let s ← backendStep B s (.setForegroundColor .white)
  let message ← ERROR_MESSAGES[regs.irq_id]?
  let s ← printLine B f fuel s (bytes "Message: {}") [.text message]
  let s ← printLine B f fuel s [] []
  (named regs).foldlM (printRegister B f fuel) s

end Handler

/-! ## The text -/

/-- A line in one color. -/
def colored (color : CombinedColor) (line : List UInt8) : List ColorGlyph :=
  line.map fun ch => (ch, color)

/-- The line of a register: its value in base sixteen. -/
def registerLine (r : List UInt8 × ℕ) : List UInt8 := r.1 ++ bytes ": " ++ numeral .hex r.2

/-- The lines of the screen. -/
def faultText (background : TermColor) (regs : Registers) : List (List ColorGlyph) :=
  [bytes "Avada Kedavra has been casted!", bytes "------------------------------"].map
      (colored ⟨.lightRed, background⟩) ++
    ((bytes "Message: " ++ ERROR_MESSAGES[regs.irq_id]?.getD []) :: [] ::
      (named regs).map registerLine).map (colored ⟨.white, background⟩)

/-! ## One line -/

variable {σ : Type} {B : Backend σ} {f : Frame} {fuel : ℕ} {s : TerminalStatics σ}
  {Ready : σ → Prop} {Shows : σ → (ℕ → ℕ → Option ColorGlyph) → Prop}
  {CursorAt : σ → Vec2u → Prop} {ls : List (List ColorGlyph)} {color : CombinedColor}

theorem foldl_put (w h : ℕ) (out : List UInt8) (t : ColorText) : out.foldl (ColorText.put w h) t =
    { t with grid := (colored t.color out).foldl (type w h) t.grid } := by
  induction out generalizing t with
  | nil => rfl
  | cons ch out ih =>
    rw [List.foldl_cons, ih]
    rfl

/-- **`print_line`** of a text that fits, below the lines already there. -/
theorem printLine_shows (hB : B.Correct Ready Shows CursorAt) {fmt out : List UInt8}
    {args : List Arg} (h : ShowsText B Shows CursorAt s ⟨written ls, color⟩)
    (hout : formatTo f fuel args (fmt ++ [0]) = .ok out) (hlen : out.length < B.getWidth)
    (hrow : ls.length + 1 < B.getHeight) :
    ∃ s', printLine B f fuel s fmt args = some s' ∧
      ShowsText B Shows CursorAt s' ⟨written (ls ++ [colored color out]), color⟩ := by
  obtain ⟨s₁, hs₁, h₁⟩ := showsText_print hB h out
  rw [foldl_put] at h₁
  obtain ⟨s₂, hs₂, h₂⟩ := showsText_nextLine hB h₁.isInitialized h₁.cells
    (by rw [h₁.cursor]) h₁.inRange.row
  have hcolor : s₁.currentColor = color := h₁.color
  have hwidth : (colored color out).length < B.getWidth := by
    rw [colored, List.length_map]
    exact hlen
  have hline := newline_written hwidth hrow
  refine ⟨s₂, ?_, ?_⟩
  · unfold printLine
    rw [hout]
    simp only [Except.toOption, Option.bind_eq_bind, Option.bind_some, hs₁]
    exact hs₂
  · rw [hcolor] at h₂
    rw [← hline]
    exact h₂

/-- A text without arguments. -/
theorem printLine_text (hB : B.Correct Ready Shows CursorAt) (f : Frame) (fuel : ℕ)
    {fmt : List UInt8} (h : ShowsText B Shows CursorAt s ⟨written ls, color⟩) (hnul : 0 ∉ fmt)
    (hlen : fmt.length < B.getWidth) (hrow : ls.length + 1 < B.getHeight) :
    ∃ s', printLine B f fuel s fmt [] = some s' ∧
      ShowsText B Shows CursorAt s' ⟨written (ls ++ [colored color fmt]), color⟩ := by
  refine printLine_shows hB h ?_ hlen hrow
  rw [formatTo_nil]
  exact formatToEnd_eq hnul

/-- A literal, one argument and nothing behind it. -/
theorem formatTo_piece (p : Piece) (hfits : p.Fits) (hf : 32 < fuel) :
    formatTo f fuel [p.arg] (p.lit ++ 123 :: (p.spec ++ [125]) ++ [0]) =
      .ok (p.lit ++ render p.arg p.spec) := by
  have hall : ∀ q ∈ [p], q.Fits := fun q hq => by
    rw [List.mem_singleton.mp hq]
    exact hfits
  have hrest : (0 : UInt8) ∉ ([] : List UInt8) := List.not_mem_nil
  have hpieces := formatTo_pieces (f := f) hrest hall hf
  have hpeeks : ¬p.Peeks [] := fun h => by simpa using h.2.1
  rw [putOut, show source [] ([] : List UInt8) = [] from rfl, if_neg hpeeks] at hpieces
  simpa [source, Piece.source, putOut] using hpieces

theorem named_mem {regs : Registers} {r : List UInt8 × ℕ} (hr : r ∈ named regs) :
    r.1.length = 3 ∧ 123 ∉ r.1 ∧ 0 ∉ r.1 := by
  have hnames : ∀ name ∈ (["eax", "ecx", "edx", "ebx", "esp", "ebp", "esi", "edi", "eip"].map
      bytes), name.length = 3 ∧ 123 ∉ name ∧ 0 ∉ name := by decide
  exact hnames r.1 (List.of_mem_zip hr).1

/-- The line of one register. -/
theorem printRegister_shows (hB : B.Correct Ready Shows CursorAt) {r : List UInt8 × ℕ}
    (h : ShowsText B Shows CursorAt s ⟨written ls, color⟩)
    (hname : r.1.length = 3 ∧ 123 ∉ r.1 ∧ 0 ∉ r.1) (hvalue : r.2 < 4294967296)
    (hwidth : 13 < B.getWidth) (hrow : ls.length + 1 < B.getHeight) (hf : 32 < fuel) :
    ∃ s', printRegister B f fuel s r = some s' ∧
      ShowsText B Shows CursorAt s' ⟨written (ls ++ [colored color (registerLine r)]), color⟩ := by
  obtain ⟨hlength, hstart, hnul⟩ := hname
  have hcolon : 123 ∉ bytes ": " ∧ 0 ∉ bytes ": " := by decide
  let p : Piece := ⟨r.1 ++ bytes ": ", bytes "x", word r.2, by simp [hstart, hcolon.1],
    by simp [hnul, hcolon.2], by decide, by decide⟩
  have htext : render (word r.2) (bytes "x") = numeral .hex r.2 := by
    have hw : u32 r.2 = r.2 := u32_of_lt hvalue
    show rendered { base := .hex } (word r.2) = _
    unfold word rendered
    simp [hw]
  have hout := formatTo_piece (f := f) p (Or.inl rfl) hf
  have hlen : (numeral .hex r.2).length ≤ 8 := length_numeral_hex_le hvalue
  unfold printRegister
  refine printLine_shows hB h ?_ ?_ hrow
  · rw [← show p.lit ++ render p.arg p.spec = registerLine r from congrArg _ htext, ← hout]
    have hsource : p.lit ++ 123 :: (p.spec ++ [125]) = r.1 ++ bytes ": {x}" := by
      show (r.1 ++ bytes ": ") ++ _ = _
      rw [List.append_assoc]
      rfl
    rw [hsource]
  · unfold registerLine
    simp only [List.length_append, hlength]
    have hlen' : (bytes ": ").length = 2 := by decide
    omega

/-- The lines of some registers, one below the other. -/
theorem printRegisters_shows (hB : B.Correct Ready Shows CursorAt) {rs : List (List UInt8 × ℕ)}
    (h : ShowsText B Shows CursorAt s ⟨written ls, color⟩)
    (hnames : ∀ r ∈ rs, r.1.length = 3 ∧ 123 ∉ r.1 ∧ 0 ∉ r.1)
    (hvalues : ∀ r ∈ rs, r.2 < 4294967296) (hwidth : 13 < B.getWidth)
    (hrow : ls.length + rs.length < B.getHeight) (hf : 32 < fuel) :
    ∃ s', rs.foldlM (printRegister B f fuel) s = some s' ∧ ShowsText B Shows CursorAt s'
      ⟨written (ls ++ (rs.map registerLine).map (colored color)), color⟩ := by
  induction rs generalizing s ls with
  | nil => exact ⟨s, rfl, by rw [List.map_nil, List.map_nil, List.append_nil]; exact h⟩
  | cons r rs ih =>
    rw [List.length_cons] at hrow
    obtain ⟨s₁, hs₁, h₁⟩ := printRegister_shows (f := f) hB h (hnames r List.mem_cons_self)
      (hvalues r List.mem_cons_self) hwidth (by omega) hf
    obtain ⟨s₂, hs₂, h₂⟩ := ih h₁ (fun q hq => hnames q (List.mem_cons_of_mem r hq))
      (fun q hq => hvalues q (List.mem_cons_of_mem r hq))
      (by rw [List.length_append, List.length_singleton]; omega)
    refine ⟨s₂, ?_, ?_⟩
    · rw [List.foldlM_cons, hs₁]
      exact hs₂
    · rw [List.append_assoc] at h₂
      exact h₂

theorem ShowsText.setForeground {g : Grid ColorGlyph} (h : ShowsText B Shows CursorAt s ⟨g, color⟩)
    (foreground : TermColor) : ∃ s', backendStep B s (.setForegroundColor foreground) = some s' ∧
      ShowsText B Shows CursorAt s' ⟨g, { color with foreground }⟩ := by
  refine ⟨_, rfl, ⟨h.isInitialized, h.cells, h.inRange, h.cursor, ?_, h.shown⟩⟩
  have hcolor := h.color
  dsimp only at hcolor ⊢
  rw [hcolor]

/-- Every message fits on a row. -/
theorem message_fits {n : ℕ} (hn : n ≤ 20) : ∃ message, ERROR_MESSAGES[n]? = some message ∧
    message.length ≤ 43 ∧ 0 ∉ message := by
  have hall : ∀ message ∈ ERROR_MESSAGES, message.length ≤ 43 ∧ 0 ∉ message := by
    decide +kernel
  have hlt : n < ERROR_MESSAGES.length := by
    rw [show ERROR_MESSAGES.length = 21 from rfl]
    omega
  exact ⟨ERROR_MESSAGES[n], List.getElem?_eq_getElem hlt, hall _ (List.getElem_mem hlt)⟩

theorem formatTo_message {message : List UInt8} (hnul : 0 ∉ message) (hf : 32 < fuel) :
    formatTo f fuel [.text message] (bytes "Message: {}" ++ [0]) =
      .ok (bytes "Message: " ++ message) := by
  have hpiece := formatTo_piece (f := f)
    ⟨bytes "Message: ", [], .text message, by decide, by decide, by decide, by decide⟩ trivial hf
  have htext : render (.text message) [] = message :=
    List.takeWhile_eq_self_iff.mpr fun c hc => by simpa using fun h0 : c = 0 => hnul (h0 ▸ hc)
  rw [htext] at hpiece
  exact hpiece

theorem named_lt {regs : Registers} (hwords : ∀ v ∈ regs.words, v < 4294967296)
    {r : List UInt8 × ℕ} (hr : r ∈ named regs) : r.2 < 4294967296 := by
  refine hwords r.2 ?_
  have hmem := (List.of_mem_zip hr).2
  simp only [List.mem_cons, List.not_mem_nil, or_false] at hmem
  simp only [Registers.words, List.mem_cons, List.not_mem_nil, or_false]
  tauto

/-- **`fault_handler`**, over any correct implementation with room for its lines. -/
theorem faultHandler_shows (hB : B.Correct Ready Shows CursorAt) {regs : Registers}
    (hi : s.isInitialized = true) (hready : Ready s.impl) (hirq : regs.irq_id ≤ 20)
    (hwords : ∀ v ∈ regs.words, v < 4294967296) (hwidth : 60 ≤ B.getWidth)
    (hheight : 14 ≤ B.getHeight) (hf : 32 < fuel) :
    ∃ s', faultHandler B f fuel s regs = some s' ∧ ShowsText B Shows CursorAt s'
      ⟨written (faultText s.currentColor.background regs),
        ⟨.white, s.currentColor.background⟩⟩ := by
  obtain ⟨s₁, hs₁, h₁⟩ := showsText_clearScreen hB hi hready
  obtain ⟨s₂, hs₂, h₂⟩ := ShowsText.setForeground h₁ .lightRed
  rw [← written_nil] at h₂
  obtain ⟨s₃, hs₃, h₃⟩ := printLine_text hB f fuel h₂
    (show 0 ∉ bytes "Avada Kedavra has been casted!" by decide)
    (show (bytes "Avada Kedavra has been casted!").length < B.getWidth from
      Nat.lt_of_lt_of_le (by decide) hwidth) (by simp only [List.length_nil]; omega)
  obtain ⟨s₄, hs₄, h₄⟩ := printLine_text hB f fuel h₃
    (show 0 ∉ bytes "------------------------------" by decide)
    (show (bytes "------------------------------").length < B.getWidth from
      Nat.lt_of_lt_of_le (by decide) hwidth)
    (by simp only [List.length_append, List.length_cons, List.length_nil]; omega)
  obtain ⟨s₅, hs₅, h₅⟩ := ShowsText.setForeground h₄ .white
  obtain ⟨message, hmessage, hfits, hnul⟩ := message_fits hirq
  obtain ⟨s₆, hs₆, h₆⟩ := printLine_shows hB h₅ (formatTo_message (f := f) hnul hf)
    (by
      rw [List.length_append, show (bytes "Message: ").length = 9 by decide]
      omega)
    (by simp only [List.length_append, List.length_cons, List.length_nil]; omega)
  obtain ⟨s₇, hs₇, h₇⟩ := printLine_text hB f fuel h₆
    List.not_mem_nil (by rw [List.length_nil]; omega)
    (by simp only [List.length_append, List.length_cons, List.length_nil]; omega)
  obtain ⟨s₈, hs₈, h₈⟩ := printRegisters_shows (f := f) hB h₇
    (fun r hr => named_mem hr) (fun r hr => named_lt hwords hr) (by omega)
    (by
      simp only [List.length_append, List.length_cons, List.length_nil, named, List.length_zip,
        List.length_map]
      omega) hf
  refine ⟨s₈, ?_, ?_⟩
  · unfold faultHandler
    simp only [hs₁, hs₂, hs₃, hs₄, hs₅, hmessage, hs₆, hs₇, Option.bind_eq_bind, Option.bind_some]
    exact hs₈
  · unfold faultText
    rw [hmessage]
    simpa using h₈

/-- **The screen of a fault**: whatever the display shows and wherever the cursor is, after
    `fault_handler` the display of the VGA build shows the title, the message of the exception and
    its registers in base sixteen, one to a row, and is blank elsewhere; the cursor is below. -/
theorem fault_screen (f : Frame) (fuel : ℕ) (hf : 32 < fuel) (s : TerminalStatics VgaState)
    (hi : s.isInitialized = true) (regs : Registers) (hirq : regs.irq_id ≤ 20)
    (hwords : ∀ v ∈ regs.words, v < 4294967296) :
    ∃ s', faultHandler vgaBackend f fuel s regs = some s' ∧
      (∀ x y, x < 80 → y < 25 → (s'.impl.display (80 * y + x)).ShowsCell
        ((faultText s.currentColor.background regs)[y]?.bind fun glyphs => glyphs[x]?)) ∧
      s'.impl.crtc.cursorLocation = 80 * 13 ∧
      ∀ i, 2000 ≤ i → s'.impl.display i = s.impl.display i := by
  obtain ⟨s', hs', h⟩ := faultHandler_shows (f := f) (vgaBackend_correct s.impl.display) hi
    (fun _ _ => rfl) hirq hwords (show 60 ≤ 80 by omega) (show 14 ≤ 25 by omega) hf
  refine ⟨s', hs', h.cells.entries, ?_, h.cells.behind⟩
  have hshown := h.shown
  unfold VgaCursorAt at hshown
  rw [h.cursor] at hshown
  exact hshown

/-- A page fault: the fifth row begins with `eax: C0FFEE`, whose digits are in columns 5 to 10. -/
theorem fault_screen_example : ∃ s' : TerminalStatics VgaState,
    faultHandler vgaBackend ⟨4096, by omega, by omega⟩ 33
      ⟨true, ⟨79, 24⟩, ⟨.green, .blue⟩, ⟨fun _ => ⟨7, 7⟩, ⟨0, fun _ => 0⟩⟩⟩
      ⟨0, 0, 0, 0, 0, 0, 0, 0xC0FFEE, 14, 0, 0, 0⟩ = some s' ∧
    (s'.impl.display 325).character = 67 ∧ (s'.impl.display 330).character = 69 := by
  obtain ⟨s', hs', hentries, -⟩ := fault_screen ⟨4096, by omega, by omega⟩ 33 (by omega)
    ⟨true, ⟨79, 24⟩, ⟨.green, .blue⟩, ⟨fun _ => ⟨7, 7⟩, ⟨0, fun _ => 0⟩⟩⟩ rfl
    ⟨0, 0, 0, 0, 0, 0, 0, 0xC0FFEE, 14, 0, 0, 0⟩ (by simp) (by simp [Registers.words])
  exact ⟨s', hs', (hentries 5 4 (by omega) (by omega)).1, (hentries 10 4 (by omega) (by omega)).1⟩

end HryOS.FaultScreen
