import HryOS.Drivers.Keyboard
import HryOS.Lib.Transition

/-!
# The command line

`command_line.cpp` on its statics: the line is edited in `input_buffer`, an array of 32 bytes
without room for a terminator, and looked up among the registered commands with
`cstring_compare`.  A C string is the list of the bytes from a pointer to the end of its array; an
access behind the array has no result (`none`).

* `sendInput` — one key event: the new statics and the calls it makes, in order.
* `editLine` — the line a user edits; `lookup` — the command of a line.
* `runs_typed_command` — the buffer holds the edited line, and Enter invokes the callback of the
  first command with that name.
-/

set_option autoImplicit false

namespace HryOS

namespace Keyboard

/-- `key::enter`. -/
def enter : ℕ := 0x1C

/-- `key::backspace`. -/
def backspace : ℕ := 0x0E

/-- The keys `map_key_to_ascii` has a character for: the letters, the digits and space. -/
def asciiKeys : List (ℕ × UInt8) :=
  [(0x1E, 97), (0x30, 98), (0x2E, 99), (0x20, 100), (0x12, 101), (0x21, 102), (0x22, 103),
   (0x23, 104), (0x17, 105), (0x24, 106), (0x25, 107), (0x26, 108), (0x32, 109), (0x31, 110),
   (0x18, 111), (0x19, 112), (0x10, 113), (0x13, 114), (0x1F, 115), (0x14, 116), (0x16, 117),
   (0x2F, 118), (0x11, 119), (0x2D, 120), (0x15, 121), (0x2C, 122),
   (0x0B, 48), (0x02, 49), (0x03, 50), (0x04, 51), (0x05, 52), (0x06, 53), (0x07, 54), (0x08, 55),
   (0x09, 56), (0x0A, 57), (0x39, 32)]

/-- `map_key_to_ascii`. -/
def mapKeyToAscii (key : ℕ) : UInt8 := (asciiKeys.lookup key).getD 0

end Keyboard

namespace CommandLine

open Transition Keyboard

/-- The value of a `char`, which is signed. -/
def charValue (c : UInt8) : ℤ := if c.toNat < 128 then c.toNat else c.toNat - 256

/-- `cstring_compare`. -/
def cstringCompare : List UInt8 → List UInt8 → Option ℤ
  | x :: a, y :: b =>
    if x ≠ 0 ∧ x = y then cstringCompare a b
    else some ((if charValue x > charValue y then 1 else 0) -
      (if charValue y > charValue x then 1 else 0))
  | _, _ => none

/-- `MAX_BUFFER_SIZE`. -/
def MAX_BUFFER_SIZE : ℕ := 32

/-- `COMMANDS_ARRAY_SIZE`. -/
def COMMANDS_ARRAY_SIZE : ℕ := 32

variable {K : Type}

/-- `struct command`: an array of 32 bytes, and a callback or the null pointer. -/
structure Command (K : Type) where
  command : List UInt8
  callback : Option K

/-- The statics: `input_buffer`, its index, and the first `commands_count` commands. -/
structure Statics (K : Type) where
  inputBuffer : List UInt8
  inputBufferIndex : ℕ
  commands : List (Command K)

/-- What `send_input` calls. -/
inductive Call (K : Type)
  /-- `terminal::put_char(ch)` -/
  | putChar (ch : UInt8)
  | nextLine
  | print (txt : List UInt8)
  | callback (k : K)
  /-- `put_char_at(' ', { cursor_pos.x - 1, cursor_pos.y })` -/
  | eraseLeft
  /-- `move_cursor({ cursor_pos.x - 1, cursor_pos.y })` -/
  | moveLeft
  deriving DecidableEq, Repr

/-- `call_callback`: whether a command was found, and what is called. -/
def callCallback (inputBuffer : List UInt8) : List (Command K) → Option (Bool × List (Call K))
  | [] => some (false, [])
  | command :: commands => do
    let r ← cstringCompare inputBuffer command.command
    if r = 0 then
      match command.callback with
      | some k => return (true, [.callback k])
      | none => return (true, [])
    else callCallback inputBuffer commands

/-- `input_buffer[i] = ch`. -/
def write (inputBuffer : List UInt8) (i : ℕ) (ch : UInt8) : Option (List UInt8) :=
  if i < inputBuffer.length then some (inputBuffer.set i ch) else none

/-- `"> "`. -/
def PROMPT : List UInt8 := [62, 32]

/-- `print_line("'{}' unknown command", input_buffer)`; the formatter of an array stops at its
    end. -/
def unknownCommand (inputBuffer : List UInt8) : List (Call K) :=
  [.print ([39] ++ inputBuffer.takeWhile (· ≠ 0) ++
    "' unknown command".toList.map Char.toUInt8), .nextLine]

/-- The branch of Enter. -/
def onEnter (s : Statics K) : Option (Statics K × List (Call K)) := do
  let (found, calls) ← callCallback s.inputBuffer s.commands
  let calls := if !found then unknownCommand s.inputBuffer else calls
  let inputBuffer ← (List.range s.inputBufferIndex).foldlM (fun b i => write b i 0) s.inputBuffer
  return ({ s with inputBuffer, inputBufferIndex := 0 },
    [.nextLine] ++ calls ++ [.nextLine, .print PROMPT])

/-- `if (key_event.state == released)` of `send_input`. -/
def onReleased (s : Statics K) (key : ℕ) :
    Option (Statics K × List (Call K)) :=
  let ch := mapKeyToAscii key
  if s.inputBufferIndex < MAX_BUFFER_SIZE ∧ ch ≠ 0 then do
    let inputBuffer ← write s.inputBuffer s.inputBufferIndex ch
    return ({ s with inputBuffer, inputBufferIndex := s.inputBufferIndex + 1 }, [.putChar ch])
  else if key = enter then onEnter s
  else some (s, [])

/-- `if (... == backspace && ... == pressed)` of `send_input`. -/
def onBackspace (s : Statics K) : Option (Statics K × List (Call K)) :=
  if s.inputBufferIndex > 0 then do
    let inputBuffer ← write s.inputBuffer (s.inputBufferIndex - 1) 0
    return ({ s with inputBuffer, inputBufferIndex := s.inputBufferIndex - 1 },
      [.eraseLeft, .moveLeft])
  else some (s, [])

/-- `send_input`. -/
def sendInput (s : Statics K) (event : KeyEvent) :
    Option (Statics K × List (Call K)) := do
  let (s, calls) ← if event.state = .released then onReleased s event.key else some (s, [])
  let (s, calls') ← if event.key = backspace ∧ event.state = .pressed then onBackspace s
    else some (s, [])
  return (s, calls ++ calls')

/-- A call of `register_command`: the name, the bytes in memory behind its NUL, the callback. -/
structure Registration (K : Type) where
  name : List UInt8
  behind : ℕ → UInt8
  callback : Option K
  noNul : 0 ∉ name
  short : name.length < 32

/-- The byte at `command + i`. -/
def Registration.source (r : Registration K) (i : ℕ) : UInt8 :=
  if h : i < r.name.length then r.name[i] else if i = r.name.length then 0 else r.behind i

/-- `register_command`: 32 bytes are copied. -/
def registerCommand (s : Statics K) (r : Registration K) : Statics K :=
  if s.commands.length < COMMANDS_ARRAY_SIZE - 1 then
    { s with commands := s.commands ++ [⟨(List.range 32).map r.source, r.callback⟩] }
  else s

/-- The statics before anything is registered. -/
def init : Statics K :=
  { inputBuffer := List.replicate 32 0, inputBufferIndex := 0, commands := [] }

/-- The shell's loop: one key event after the other. -/
def step : Step (Statics K) KeyEvent :=
  fun s event => (sendInput s event).map Prod.fst

/-! ## The line and its command -/

/-- The edited line. -/
def editLine (line : List UInt8) (event : KeyEvent) : List UInt8 :=
  match event.state with
  | .released =>
    if mapKeyToAscii event.key ≠ 0 then
      if line.length < 32 then line ++ [mapKeyToAscii event.key] else line
    else if event.key = enter then []
    else line
  | .pressed => if event.key = backspace then line.dropLast else line

/-- The line in a buffer of 32 bytes. -/
def padded (line : List UInt8) : List UInt8 := line ++ List.replicate (32 - line.length) 0

/-- The first command with the line as its name. -/
def lookup (regs : List (Registration K)) (line : List UInt8) : Option (Registration K) :=
  regs.find? (·.name = line)

/-- The callbacks an event is to invoke: one at most, on a released Enter. -/
def toInvoke (regs : List (Registration K)) (line : List UInt8) (event : KeyEvent) : List K :=
  if event = ⟨.released, enter⟩ then ((lookup regs line).bind (·.callback)).toList else []

/-- The callbacks among the calls. -/
def invoked (calls : List (Call K)) : List K :=
  calls.filterMap fun
    | .callback k => some k
    | _ => none

/-! ## The comparison -/

theorem charValue_inj {a b : UInt8} (h : charValue a = charValue b) : a = b := by
  have ha := a.toNat_lt
  have hb := b.toNat_lt
  apply UInt8.toNat_inj.mp
  unfold charValue at h
  split at h <;> split at h <;> omega

/-- The result at the first two characters that differ, or at the NUL, is `0` for equal ones
    only. -/
theorem charValue_sub_eq_zero_iff (x y : UInt8) :
    ((if charValue x > charValue y then 1 else 0) -
      (if charValue y > charValue x then 1 else 0) : ℤ) = 0 ↔ x = y := by
  constructor
  · intro h
    apply charValue_inj
    split at h <;> split at h <;> omega
  · rintro rfl
    simp

/-- **The comparison with a command**: it returns before the end of either array, also where the
    line fills its array, and returns `0` exactly on the line itself. -/
theorem cstringCompare_spec (line zeros name tail : List UInt8) (hl : 0 ∉ line) (hn : 0 ∉ name)
    (hz : name.length < line.length ∨ ∃ z, zeros = 0 :: z) :
    ∃ r, cstringCompare (line ++ zeros) (name ++ 0 :: tail) = some r ∧ (r = 0 ↔ line = name) := by
  induction line generalizing name with
  | nil =>
    obtain ⟨z, rfl⟩ : ∃ z, zeros = 0 :: z := hz.resolve_left (by simp)
    cases name with
    | nil => exact ⟨0, by simp [cstringCompare], by simp⟩
    | cons y name =>
      refine ⟨_, by simp [cstringCompare]; rfl, ?_⟩
      rw [charValue_sub_eq_zero_iff]
      simp only [List.mem_cons, not_or] at hn
      simp [hn.1]
  | cons x line ih =>
    simp only [List.mem_cons, not_or] at hl
    cases name with
    | nil =>
      refine ⟨_, by simp [cstringCompare, Ne.symm hl.1]; rfl, ?_⟩
      rw [charValue_sub_eq_zero_iff]
      simp [Ne.symm hl.1]
    | cons y name =>
      simp only [List.mem_cons, not_or] at hn
      by_cases hxy : x = y
      · subst hxy
        obtain ⟨r, hr, hr0⟩ := ih name hl.2 hn.2 (by simpa using hz)
        exact ⟨r, by simpa [cstringCompare, Ne.symm hl.1] using hr, by simpa using hr0⟩
      · refine ⟨_, by simp [cstringCompare, hxy]; rfl, ?_⟩
        rw [charValue_sub_eq_zero_iff]
        simp [hxy]

/-! ## The buffer -/

theorem padded_length {line : List UInt8} (h : line.length ≤ 32) : (padded line).length = 32 := by
  simp [padded]
  omega

theorem write_append {line : List UInt8} (h : line.length < 32) (ch : UInt8) :
    write (padded line) line.length ch = some (padded (line ++ [ch])) := by
  have hsucc : 32 - line.length = 32 - (line.length + 1) + 1 := by omega
  unfold write
  rw [if_pos (by rw [padded_length (by omega)]; exact h)]
  simp [padded, hsucc, List.replicate_succ]

theorem write_dropLast {line : List UInt8} (h : line ≠ []) (h32 : line.length ≤ 32) :
    write (padded line) (line.length - 1) 0 = some (padded line.dropLast) := by
  obtain ⟨front, last, rfl⟩ := (List.eq_nil_or_concat' line).resolve_left h
  simp only [List.length_append, List.length_singleton] at h32
  have hsucc : 32 - front.length = 32 - (front.length + 1) + 1 := by omega
  unfold write
  rw [if_pos (by rw [padded_length (by simpa using h32)]; simp; omega)]
  simp [padded, hsucc, List.replicate_succ]

theorem foldlM_write_zero (buffer : List UInt8) (n : ℕ) (h : n ≤ buffer.length) :
    (List.range n).foldlM (fun b i => write b i 0) buffer =
      some (List.replicate n 0 ++ buffer.drop n) := by
  induction n with
  | zero => simp
  | succ n ih =>
    have hdrop : buffer.drop n = buffer[n] :: buffer.drop (n + 1) :=
      List.drop_eq_getElem_cons (by omega)
    rw [List.range_succ, List.foldlM_append, ih (by omega)]
    have hn : 0 < buffer.length - n := by omega
    have hset : (buffer.drop n).set 0 0 = 0 :: buffer.drop (n + 1) := by rw [hdrop]; rfl
    simp [write, List.replicate_succ', hn, hset]

/-- The loop over the line empties the buffer. -/
theorem clear_line {line : List UInt8} (h : line.length ≤ 32) :
    (List.range line.length).foldlM (fun b i => write b i 0) (padded line) = some (padded []) := by
  have hsum : line.length + (32 - line.length) = 32 := by omega
  rw [foldlM_write_zero _ _ (by rw [padded_length h]; exact h)]
  simp [padded, List.replicate_append_replicate, hsum]

/-! ## The commands -/

/-- The command of a registration. -/
def Registration.command (r : Registration K) : Command K :=
  ⟨(List.range 32).map r.source, r.callback⟩

/-- The copied bytes are the name, its NUL and what stands behind it. -/
theorem Registration.command_eq (r : Registration K) :
    ∃ tail, r.command.command = r.name ++ 0 :: tail := by
  have hshort := r.short
  refine ⟨(List.range (31 - r.name.length)).map fun i => r.behind (r.name.length + 1 + i), ?_⟩
  apply List.ext_getElem
  · simp [Registration.command]
    omega
  · intro i h₁ h₂
    simp only [Registration.command, List.getElem_map, List.getElem_range, Registration.source,
      List.getElem_append]
    split
    · rfl
    · rename_i hi
      split
      · rename_i heq
        simp [heq]
      · rename_i hne
        obtain ⟨j, rfl⟩ : ∃ j, i = r.name.length + 1 + j := ⟨i - (r.name.length + 1), by omega⟩
        have hj : r.name.length + 1 + j - r.name.length = j + 1 := by omega
        simp [hj]

/-- The first 31 registrations are kept, in their order. -/
theorem registerCommand_commands (regs : List (Registration K)) (s : Statics K) :
    (regs.foldl registerCommand s).commands =
      s.commands ++ (regs.take (31 - s.commands.length)).map Registration.command := by
  induction regs generalizing s with
  | nil => simp
  | cons r regs ih =>
    rw [List.foldl_cons, ih]
    unfold registerCommand COMMANDS_ARRAY_SIZE
    split
    · have hsucc : 31 - s.commands.length = 31 - (s.commands.length + 1) + 1 := by omega
      rw [hsucc]
      simp [Registration.command]
    · have hzero : 31 - s.commands.length = 0 := by omega
      simp [hzero]

/-- Registering leaves the line alone. -/
theorem registerCommand_line (regs : List (Registration K)) (s : Statics K) :
    (regs.foldl registerCommand s).inputBuffer = s.inputBuffer ∧
      (regs.foldl registerCommand s).inputBufferIndex = s.inputBufferIndex := by
  induction regs generalizing s with
  | nil => exact ⟨rfl, rfl⟩
  | cons r regs ih =>
    rw [List.foldl_cons, (ih _).1, (ih _).2]
    unfold registerCommand
    split <;> exact ⟨rfl, rfl⟩

/-- Looking the line up in the table finds its command. -/
theorem callCallback_spec {line : List UInt8} (h32 : line.length ≤ 32) (hl : 0 ∉ line)
    (regs : List (Registration K)) :
    callCallback (padded line) (regs.map Registration.command) =
      some ((lookup regs line).isSome,
        (((lookup regs line).bind (·.callback)).toList.map Call.callback)) := by
  induction regs with
  | nil => rfl
  | cons r regs ih =>
    obtain ⟨tail, htail⟩ := r.command_eq
    have hz : r.name.length < line.length ∨
        ∃ z, List.replicate (32 - line.length) (0 : UInt8) = 0 :: z := by
      rcases Nat.lt_or_ge line.length 32 with h | h
      · have hsucc : 32 - line.length = 31 - line.length + 1 := by omega
        exact .inr ⟨_, by rw [hsucc, List.replicate_succ]⟩
      · have hshort := r.short
        left
        omega
    obtain ⟨c, hc, hc0⟩ := cstringCompare_spec line _ r.name tail hl r.noNul hz
    rw [← htail] at hc
    have hfind : lookup (r :: regs) line = if line = r.name then some r else lookup regs line := by
      unfold lookup
      rw [List.find?_cons]
      split <;> simp_all [eq_comm]
    simp only [List.map_cons, callCallback]
    rw [show cstringCompare (padded line) r.command.command = some c from hc, hfind]
    by_cases heq : line = r.name
    · rw [if_pos heq]
      simp only [Option.bind_eq_bind, Option.bind_some, hc0.mpr heq, ↓reduceIte]
      cases hcb : r.callback with
      | none => simp [Registration.command, hcb]
      | some k => simp [Registration.command, hcb]
    · rw [if_neg heq]
      simp only [Option.bind_eq_bind, Option.bind_some, mt hc0.mp heq, ↓reduceIte]
      exact ih

/-! ## One key event -/

/-- The statics hold the line, next to the table `commands`. -/
structure LineOf (commands : List (Command K)) (s : Statics K) (line : List UInt8) : Prop where
  buffer : s.inputBuffer = padded line
  index : s.inputBufferIndex = line.length
  commands : s.commands = commands
  short : line.length ≤ 32
  noNul : 0 ∉ line

section

variable {commands : List (Command K)} {s : Statics K} {line : List UInt8}

/-- Enter empties the line and invokes what the look-up finds. -/
theorem onEnter_spec (h : LineOf commands s line) {found : Bool}
    {calls : List (Call K)} (hcall : callCallback (padded line) commands = some (found, calls))
    (hnone : found = false → invoked calls = []) :
    ∃ s' calls', onEnter s = some (s', calls') ∧ LineOf commands s' [] ∧
      invoked calls' = invoked calls := by
  have hclear := clear_line h.short
  rw [← h.buffer, ← h.commands] at hcall
  rw [← h.buffer, ← h.index] at hclear
  unfold onEnter
  rw [hcall]
  simp only [Option.bind_eq_bind, Option.bind_some]
  rw [hclear]
  refine ⟨_, _, rfl, ⟨rfl, rfl, h.commands, by simp, by simp⟩, ?_⟩
  cases found with
  | false =>
    rw [hnone rfl]
    simp [invoked, unknownCommand]
  | true => simp [invoked]

/-- Enter fails where the look-up does. -/
theorem onEnter_eq_none (h : LineOf commands s line)
    (hcall : callCallback (padded line) commands = none) : onEnter s = none := by
  rw [← h.buffer, ← h.commands] at hcall
  unfold onEnter
  rw [hcall]
  rfl

/-- A released key other than Enter. -/
theorem onReleased_spec (h : LineOf commands s line) {key : ℕ}
    (hkey : key ≠ enter) :
    ∃ s' calls, onReleased s key = some (s', calls) ∧
      LineOf commands s' (editLine line ⟨.released, key⟩) ∧ invoked calls = [] := by
  simp only [onReleased, editLine, MAX_BUFFER_SIZE, h.index, hkey, ↓reduceIte]
  by_cases hch : mapKeyToAscii key = 0
  · simp only [hch, ne_eq, not_true_eq_false, and_false, ↓reduceIte]
    exact ⟨s, [], rfl, h, rfl⟩
  · simp only [hch, ne_eq, not_false_eq_true, and_true, ↓reduceIte]
    split
    · rename_i hroom
      rw [h.buffer, write_append hroom]
      have hnoNul : 0 ∉ line ++ [mapKeyToAscii key] := by
        simp [h.noNul, Ne.symm hch]
      exact ⟨_, _, rfl, ⟨rfl, by simp, h.commands, by simp; omega, hnoNul⟩, rfl⟩
    · exact ⟨s, [], rfl, h, rfl⟩

/-- A pressed backspace. -/
theorem onBackspace_spec (h : LineOf commands s line) :
    ∃ s' calls, onBackspace s = some (s', calls) ∧ LineOf commands s' line.dropLast ∧
      invoked calls = [] := by
  unfold onBackspace
  rw [h.index]
  split
  · rename_i hpos
    have hne : line ≠ [] := List.ne_nil_of_length_pos hpos
    rw [h.buffer, write_dropLast hne h.short]
    have hshort : line.dropLast.length ≤ 32 := by
      have := h.short
      rw [List.length_dropLast]
      omega
    have hnoNul : 0 ∉ line.dropLast := fun h0 => h.noNul (List.mem_of_mem_dropLast h0)
    exact ⟨_, _, rfl, ⟨rfl, by simp, h.commands, hshort, hnoNul⟩, rfl⟩
  · rename_i hzero
    have hnil : line = [] := List.eq_nil_of_length_eq_zero (by omega)
    subst hnil
    exact ⟨s, [], rfl, h, rfl⟩

theorem sendInput_released (s : Statics K) (key : ℕ) :
    sendInput s ⟨.released, key⟩ = onReleased s key := by
  simp [sendInput]

theorem sendInput_pressed (s : Statics K) (key : ℕ) :
    sendInput s ⟨.pressed, key⟩ =
      if key = backspace then onBackspace s else some (s, []) := by
  split <;> simp [sendInput, *]

theorem sendInput_enter (s : Statics K) :
    sendInput s ⟨.released, enter⟩ = onEnter s := by
  have henter : mapKeyToAscii enter = 0 := by decide
  rw [sendInput_released]
  simp [onReleased, henter]

theorem editLine_enter (line : List UInt8) : editLine line ⟨.released, enter⟩ = [] := by
  have henter : mapKeyToAscii enter = 0 := by decide
  simp [editLine, henter]

/-- An event other than a released Enter edits the line. -/
theorem sendInput_edits (h : LineOf commands s line) {event : KeyEvent}
    (hevent : event ≠ ⟨.released, enter⟩) :
    ∃ s' calls, sendInput s event = some (s', calls) ∧
      LineOf commands s' (editLine line event) ∧ invoked calls = [] := by
  obtain ⟨state, key⟩ := event
  cases state with
  | released =>
    rw [sendInput_released]
    exact onReleased_spec h fun hkey => hevent (congrArg _ hkey)
  | pressed =>
    rw [sendInput_pressed]
    by_cases hkey : key = backspace
    · subst hkey
      exact onBackspace_spec h
    · refine ⟨s, [], if_neg hkey, ?_, rfl⟩
      simpa [editLine, hkey] using h

end

/-! ## The calls of a key -/

/-- A call that edits the line. -/
def EditsLine : Call K → Prop
  | .putChar _ | .eraseLeft | .moveLeft => True
  | .nextLine | .print _ | .callback _ => False

/-- What a key makes `send_input` call, with the length of the line before and after. -/
inductive KeyCalls (s s' : Statics K) : List (Call K) → Prop
  | echo (ch : UInt8) (hroom : s.inputBufferIndex < MAX_BUFFER_SIZE)
      (hindex : s'.inputBufferIndex = s.inputBufferIndex + 1) : KeyCalls s s' [.putChar ch]
  | back (hindex : s.inputBufferIndex = s'.inputBufferIndex + 1) :
      KeyCalls s s' [.eraseLeft, .moveLeft]
  | nothing (hindex : s'.inputBufferIndex = s.inputBufferIndex) : KeyCalls s s' []
  | enter (pre : List (Call K)) (hpre : ∀ call ∈ pre, ¬ EditsLine call)
      (hindex : s'.inputBufferIndex = 0) : KeyCalls s s' (pre ++ [.nextLine, .print PROMPT])

section

variable {s s' : Statics K} {calls : List (Call K)}

theorem callCallback_calls {inputBuffer : List UInt8} {commands : List (Command K)} {found : Bool}
    (h : callCallback inputBuffer commands = some (found, calls)) :
    ∀ call ∈ calls, ¬ EditsLine call := by
  induction commands with
  | nil =>
    cases h
    exact List.forall_mem_nil _
  | cons command commands ih =>
    unfold callCallback at h
    obtain ⟨r, -, h⟩ := Option.bind_eq_some_iff.mp h
    split at h
    · split at h
      · cases h
        exact List.forall_mem_singleton.mpr id
      · cases h
        exact List.forall_mem_nil _
    · exact ih h

/-- The calls of Enter end with the prompt on a new line. -/
theorem onEnter_calls (h : onEnter s = some (s', calls)) : KeyCalls s s' calls := by
  unfold onEnter at h
  obtain ⟨⟨found, inner⟩, hinner, h⟩ := Option.bind_eq_some_iff.mp h
  obtain ⟨buffer, -, h⟩ := Option.bind_eq_some_iff.mp h
  cases h
  refine .enter _ ?_ rfl
  intro call hcall
  rcases List.mem_append.mp hcall with hcall | hcall
  · obtain rfl := List.mem_singleton.mp hcall
    exact id
  · split at hcall
    · simp only [unknownCommand, List.mem_cons, List.not_mem_nil, or_false] at hcall
      rcases hcall with rfl | rfl <;> exact id
    · exact callCallback_calls hinner call hcall

theorem onReleased_calls {key : ℕ} (h : onReleased s key = some (s', calls)) :
    KeyCalls s s' calls := by
  unfold onReleased at h
  simp only at h
  split at h
  · rename_i hch
    obtain ⟨buffer, -, h⟩ := Option.bind_eq_some_iff.mp h
    cases h
    exact .echo _ hch.1 rfl
  · split at h
    · exact onEnter_calls h
    · cases h
      exact .nothing rfl

theorem onBackspace_calls (h : onBackspace s = some (s', calls)) : KeyCalls s s' calls := by
  unfold onBackspace at h
  split at h
  · rename_i hpos
    obtain ⟨buffer, -, h⟩ := Option.bind_eq_some_iff.mp h
    cases h
    exact .back (Nat.sub_add_cancel hpos).symm
  · cases h
    exact .nothing rfl

/-- **The calls of a key.** -/
theorem sendInput_calls {event : KeyEvent} (h : sendInput s event = some (s', calls)) :
    KeyCalls s s' calls := by
  obtain ⟨state, key⟩ := event
  cases state with
  | released =>
    rw [sendInput_released] at h
    exact onReleased_calls h
  | pressed =>
    rw [sendInput_pressed] at h
    split at h
    · exact onBackspace_calls h
    · cases h
      exact .nothing rfl

end

/-! ## A whole run -/

/-- The statics hold the line, and the commands `regs`. -/
structure LineHeld (regs : List (Registration K)) (s : Statics K) (line : List UInt8) : Prop where
  buffer : s.inputBuffer = padded line
  index : s.inputBufferIndex = line.length
  commands : s.commands = regs.map Registration.command
  short : line.length ≤ 32
  noNul : 0 ∉ line

theorem lineHeld_iff {regs : List (Registration K)} {s : Statics K} {line : List UInt8} :
    LineHeld regs s line ↔ LineOf (regs.map Registration.command) s line :=
  ⟨fun h => ⟨h.buffer, h.index, h.commands, h.short, h.noNul⟩,
   fun h => ⟨h.buffer, h.index, h.commands, h.short, h.noNul⟩⟩

/-- **One key event**: the buffer follows the line, and the callback invoked is the one of the
    line's command. -/
theorem sendInput_spec {regs : List (Registration K)} {s : Statics K}
    {line : List UInt8} (h : LineHeld regs s line) (event : KeyEvent) :
    ∃ s' calls, sendInput s event = some (s', calls) ∧
      LineHeld regs s' (editLine line event) ∧ invoked calls = toInvoke regs line event := by
  simp only [lineHeld_iff] at h ⊢
  unfold toInvoke
  by_cases hevent : event = ⟨.released, enter⟩
  · subst hevent
    rw [sendInput_enter, editLine_enter, if_pos rfl]
    have hcallbacks : ∀ ks : List K, invoked (ks.map Call.callback) = ks := by
      simp [invoked, List.filterMap_map]
    obtain ⟨s', calls, hs, h', hinv⟩ :=
      onEnter_spec h (callCallback_spec h.short h.noNul regs) fun hnone => by
        rw [Option.isSome_eq_false_iff, Option.isNone_iff_eq_none] at hnone
        rw [hnone]
        rfl
    exact ⟨s', calls, hs, h', hinv.trans (hcallbacks _)⟩
  · rw [if_neg hevent]
    exact sendInput_edits h hevent

/-- **The shell runs exactly the typed command**: after any key events the buffer holds the edited
    line, padded with zeros, and the next event invokes exactly the callback of the first command
    with that line as its name, where it is a released Enter. -/
theorem runs_typed_command (regs : List (Registration K))
    (events : List KeyEvent) :
    ∃ s, run step (regs.foldl registerCommand init) events = some s ∧
      s.inputBuffer = padded (events.foldl editLine []) ∧
      s.inputBufferIndex = (events.foldl editLine []).length ∧
      ∀ event, ∃ s' calls, sendInput s event = some (s', calls) ∧
        invoked calls = toInvoke (regs.take 31) (events.foldl editLine []) event := by
  obtain ⟨hbuffer, hindex⟩ := registerCommand_line regs init
  have hinit : LineHeld (regs.take 31) (regs.foldl registerCommand init) [] := by
    refine ⟨hbuffer, hindex, ?_, by simp, by simp⟩
    rw [registerCommand_commands]
    rfl
  have hrun : ∃ s, run step (regs.foldl registerCommand init) events = some s ∧
      LineHeld (regs.take 31) s (events.foldl editLine []) := by
    refine run_forward ?_ hinit fun event _ => trivial
    intro s line event h _
    obtain ⟨s', calls, hs, h', -⟩ := sendInput_spec h event
    exact ⟨s', by simp [step, hs], h'⟩
  obtain ⟨s, hrun, h⟩ := hrun
  refine ⟨s, hrun, h.buffer, h.index, ?_⟩
  intro event
  obtain ⟨s', calls, hs, -, hinv⟩ := sendInput_spec h event
  exact ⟨s', calls, hs, hinv⟩

end CommandLine

end HryOS
