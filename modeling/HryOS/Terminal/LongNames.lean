import HryOS.Terminal.CommandLine

/-!
# Names of any length

`register_command` copies 32 bytes from its name and `create_process` 16, wherever the name ends.
A name of 32 characters or more fills the field of its command, and then nothing ends a comparison
with a line that fills the input buffer with the same characters.

* `registerReads`, `createProcessReads` — the bytes of a name that are read.
* `callCallback_eq_none_iff` — when a comparison runs out of its arrays.
* `names_stay_inside_iff` — when every access lies where it should.
-/

set_option autoImplicit false

namespace HryOS.CommandLine

open Transition Keyboard

variable {K : Type}

/-- A NUL-terminated name, with the bytes in memory behind its NUL. -/
structure Name where
  chars : List UInt8
  behind : ℕ → UInt8
  noNul : 0 ∉ chars

/-- The byte at `name + i`. -/
def Name.source (name : Name) (i : ℕ) : UInt8 :=
  if h : i < name.chars.length then name.chars[i]
  else if i = name.chars.length then 0 else name.behind i

/-- `copy_n`: what is written, and the places that are read, from `i` on. -/
def copyN (source : ℕ → UInt8) : ℕ → ℕ → List UInt8 × List ℕ
  | 0, _ => ([], [])
  | n + 1, i =>
    let (out, reads) := copyN source n (i + 1)
    (source i :: out, i :: reads)

/-- `{}` of a log line: a name is read up to its NUL. -/
def Name.logReads (name : Name) : List ℕ := List.range (name.chars.length + 1)

/-- A call of `register_command`. -/
structure CommandName (K : Type) where
  name : Name
  callback : Option K

/-- `register_command`. -/
def registerAny (s : Statics K) (r : CommandName K) : Statics K :=
  if s.commands.length < COMMANDS_ARRAY_SIZE - 1 then
    { s with commands := s.commands ++ [⟨(copyN r.name.source 32 0).1, r.callback⟩] }
  else s

/-- The places of the name that `register_command` reads. -/
def registerReads (s : Statics K) (r : CommandName K) : List ℕ :=
  if s.commands.length < COMMANDS_ARRAY_SIZE - 1 then
    (copyN r.name.source 32 0).2 ++ r.name.logReads
  else []

/-- The places of the name that `create_process` reads: the log line, and the copy to
    `process::name`. -/
def createProcessReads (name : Name) : List ℕ := name.logReads ++ (copyN name.source 16 0).2

/-- A released Enter finds in the buffer the first 32 characters of a name as long as that. -/
def FillsBoth (regs : List (CommandName K)) (line : List UInt8) : Prop :=
  ∃ r ∈ regs.take 31, 32 ≤ r.name.chars.length ∧ r.name.chars.take 32 = line

variable {name : Name} {r : CommandName K} {regs : List (CommandName K)} {s : Statics K}
  {line : List UInt8}

/-! ## Copying a name -/

theorem copyN_eq (source : ℕ → UInt8) (n i : ℕ) :
    copyN source n i = ((List.range' i n).map source, List.range' i n) := by
  induction n generalizing i with
  | zero => rfl
  | succ n ih =>
    unfold copyN
    rw [ih]
    rfl

theorem copyN_reads (source : ℕ → UInt8) (n : ℕ) : (copyN source n 0).2 = List.range n := by
  rw [copyN_eq, List.range_eq_range']

theorem mem_logReads {i : ℕ} : i ∈ name.logReads ↔ i ≤ name.chars.length := by
  unfold Name.logReads
  rw [List.mem_range]
  omega

/-- A copy reads past the NUL unless the name is about as long as the copy. -/
theorem copyN_inside_iff {n : ℕ} (hn : 0 < n) :
    (∀ i ∈ (copyN name.source n 0).2, i ≤ name.chars.length) ↔ n - 1 ≤ name.chars.length := by
  simp only [copyN_reads, List.mem_range]
  constructor
  · intro h
    exact h (n - 1) (by omega)
  · intro h i hi
    omega

theorem registerReads_inside_iff : (∀ i ∈ registerReads s r, i ≤ r.name.chars.length) ↔
    31 ≤ s.commands.length ∨ 31 ≤ r.name.chars.length := by
  unfold registerReads COMMANDS_ARRAY_SIZE
  split
  · rename_i hroom
    rw [or_iff_right (by omega), List.forall_mem_append,
      and_iff_left fun i hi => mem_logReads.mp hi]
    exact copyN_inside_iff (by omega)
  · rename_i hfull
    simp only [List.not_mem_nil, false_implies, implies_true, true_iff]
    exact Or.inl (by omega)

theorem createProcessReads_inside_iff :
    (∀ i ∈ createProcessReads name, i ≤ name.chars.length) ↔ 15 ≤ name.chars.length := by
  unfold createProcessReads
  rw [List.forall_mem_append, and_iff_right fun i hi => mem_logReads.mp hi]
  exact copyN_inside_iff (by omega)

/-! ## Comparing without a terminator -/

/-- In arrays of one length the comparison only runs out of them on equal ones without a NUL. -/
theorem cstringCompare_eq_none_iff {a b : List UInt8} (hlen : a.length = b.length) :
    cstringCompare a b = none ↔ a = b ∧ 0 ∉ a := by
  induction a generalizing b with
  | nil =>
    obtain rfl := List.length_eq_zero_iff.mp hlen.symm
    simp [cstringCompare]
  | cons x a ih =>
    cases b with
    | nil => simp at hlen
    | cons y b =>
      unfold cstringCompare
      split
      · rename_i h
        rw [ih (by simpa using hlen), h.2]
        simp [Ne.symm (h.2 ▸ h.1)]
      · rename_i h
        simp only [reduceCtorEq, List.cons.injEq, List.mem_cons, not_or, false_iff]
        rintro ⟨⟨hxy, -⟩, hx, -⟩
        exact h ⟨Ne.symm hx, hxy⟩

/-- Without a NUL in the first array nothing compares as equal. -/
theorem cstringCompare_ne_zero {a b : List UInt8} (ha : 0 ∉ a) : cstringCompare a b ≠ some 0 := by
  induction a generalizing b with
  | nil => simp [cstringCompare]
  | cons x a ih =>
    rw [List.mem_cons, not_or] at ha
    cases b with
    | nil => simp [cstringCompare]
    | cons y b =>
      unfold cstringCompare
      split
      · exact ih ha.2
      · rename_i h
        intro heq
        have hxy := (charValue_sub_eq_zero_iff x y).mp (Option.some.inj heq)
        exact h ⟨Ne.symm ha.1, hxy⟩

/-- The look-up runs out of its arrays exactly where the line fills the buffer and a field holds
    the same characters. -/
theorem callCallback_eq_none_iff {buffer : List UInt8} {commands : List (Command K)}
    (hlen : ∀ c ∈ commands, c.command.length = buffer.length) :
    callCallback buffer commands = none ↔ 0 ∉ buffer ∧ ∃ c ∈ commands, c.command = buffer := by
  induction commands with
  | nil => simp [callCallback]
  | cons c commands ih =>
    have ih' := ih fun d hd => hlen d (List.mem_cons_of_mem c hd)
    have hnone := cstringCompare_eq_none_iff (a := buffer) (b := c.command)
      (hlen c List.mem_cons_self).symm
    simp only [List.mem_cons, exists_eq_or_imp]
    unfold callCallback
    cases hcompare : cstringCompare buffer c.command with
    | none =>
      obtain ⟨heq, hnul⟩ := hnone.mp hcompare
      exact iff_of_true rfl ⟨hnul, Or.inl heq.symm⟩
    | some x =>
      have hne : 0 ∉ buffer → c.command ≠ buffer := by
        intro hnul heq
        rw [hnone.mpr ⟨heq.symm, hnul⟩] at hcompare
        cases hcompare
      simp only [Option.bind_eq_bind, Option.bind_some]
      by_cases hx : x = 0
      · rw [if_pos hx]
        refine iff_of_false (by cases c.callback <;> simp) ?_
        rintro ⟨hnul, -⟩
        exact cstringCompare_ne_zero hnul (hx ▸ hcompare)
      · rw [if_neg hx, ih']
        constructor
        · rintro ⟨hnul, hmem⟩
          exact ⟨hnul, Or.inr hmem⟩
        · rintro ⟨hnul, heq | hmem⟩
          · exact absurd heq (hne hnul)
          · exact ⟨hnul, hmem⟩

/-! ## The table -/

/-- The field of a command. -/
def CommandName.command (r : CommandName K) : Command K :=
  ⟨(copyN r.name.source 32 0).1, r.callback⟩

theorem CommandName.command_length (r : CommandName K) : r.command.command.length = 32 := by
  simp [CommandName.command, copyN_eq]

/-- A field without a NUL holds the front of a name that fills it. -/
theorem CommandName.command_eq_iff (hline : 0 ∉ line) : r.command.command = line ↔
    32 ≤ r.name.chars.length ∧ r.name.chars.take 32 = line := by
  have hget : ∀ i (hi : i < r.command.command.length), r.command.command[i] =
      r.name.source i := by
    intro i hi
    simp [CommandName.command, copyN_eq]
  have htake : 32 ≤ r.name.chars.length → r.command.command = r.name.chars.take 32 := by
    intro hlong
    apply List.ext_getElem
    · rw [r.command_length, List.length_take]
      omega
    · intro i hi hi'
      rw [hget i hi]
      rw [r.command_length] at hi
      rw [List.getElem_take, Name.source, dif_pos (by omega)]
  constructor
  · intro heq
    have hlong : 32 ≤ r.name.chars.length := by
      by_contra hshort
      apply hline
      have hnul : r.name.source r.name.chars.length = 0 := by
        unfold Name.source
        rw [dif_neg (by omega), if_pos rfl]
      rw [← heq, ← hnul, ← hget _ (by rw [r.command_length]; omega)]
      exact List.getElem_mem _
    exact ⟨hlong, (htake hlong).symm.trans heq⟩
  · rintro ⟨hlong, heq⟩
    rw [htake hlong, heq]

theorem registerAny_commands (regs : List (CommandName K)) (s : Statics K) :
    (regs.foldl registerAny s).commands =
      s.commands ++ (regs.take (31 - s.commands.length)).map CommandName.command := by
  induction regs generalizing s with
  | nil => simp
  | cons r regs ih =>
    rw [List.foldl_cons, ih]
    unfold registerAny COMMANDS_ARRAY_SIZE
    split
    · have hsucc : 31 - s.commands.length = 31 - (s.commands.length + 1) + 1 := by omega
      rw [hsucc]
      simp [CommandName.command]
    · have hzero : 31 - s.commands.length = 0 := by omega
      simp [hzero]

theorem registerAny_line (regs : List (CommandName K)) (s : Statics K) :
    (regs.foldl registerAny s).inputBuffer = s.inputBuffer ∧
      (regs.foldl registerAny s).inputBufferIndex = s.inputBufferIndex := by
  induction regs generalizing s with
  | nil => exact ⟨rfl, rfl⟩
  | cons r regs ih =>
    rw [List.foldl_cons, (ih _).1, (ih _).2]
    unfold registerAny
    split <;> exact ⟨rfl, rfl⟩

/-- The look-up of a line fails exactly where the line and a name fill both arrays. -/
theorem lookup_eq_none_iff (h32 : line.length ≤ 32) (hline : 0 ∉ line) :
    callCallback (padded line) ((regs.take 31).map CommandName.command) = none ↔
      FillsBoth regs line := by
  have hlen : ∀ c ∈ (regs.take 31).map CommandName.command,
      c.command.length = (padded line).length := by
    intro c hc
    obtain ⟨r, -, rfl⟩ := List.mem_map.mp hc
    rw [r.command_length, padded_length h32]
  have hnul : 0 ∉ padded line ↔ line.length = 32 := by
    unfold padded
    rw [List.mem_append, not_or, and_iff_right hline, List.mem_replicate]
    simp only [ne_eq, and_true, not_not]
    omega
  rw [callCallback_eq_none_iff hlen, hnul]
  simp only [List.mem_map, exists_exists_and_eq_and]
  unfold FillsBoth
  constructor
  · rintro ⟨hfull, r, hr, heq⟩
    have hpadded : padded line = line := by simp [padded, hfull]
    rw [hpadded] at heq
    exact ⟨r, hr, (CommandName.command_eq_iff hline).mp heq⟩
  · rintro ⟨r, hr, hlong, heq⟩
    have hfull : line.length = 32 := by
      rw [← heq, List.length_take]
      omega
    have hpadded : padded line = line := by simp [padded, hfull]
    rw [hpadded]
    exact ⟨hfull, r, hr, (CommandName.command_eq_iff hline).mpr ⟨hlong, heq⟩⟩

/-! ## A whole run -/

/-- Where no command is found none is called. -/
theorem callCallback_not_found {buffer : List UInt8} {commands : List (Command K)}
    {calls : List (Call K)} (h : callCallback buffer commands = some (false, calls)) :
    calls = [] := by
  induction commands with
  | nil =>
    cases h
    rfl
  | cons c commands ih =>
    unfold callCallback at h
    obtain ⟨x, -, h⟩ := Option.bind_eq_some_iff.mp h
    split at h
    · split at h <;> cases h
    · exact ih h

/-- One event: the shell stops exactly at a released Enter that fills both arrays. -/
theorem sendInput_any
    (h : LineOf ((regs.take 31).map CommandName.command) s line) (event : KeyEvent) :
    (event = ⟨.released, enter⟩ ∧ FillsBoth regs line ∧ step s event = none) ∨
      (event = ⟨.released, enter⟩ → ¬FillsBoth regs line) ∧
        ∃ s', step s event = some s' ∧
          LineOf ((regs.take 31).map CommandName.command) s' (editLine line event) := by
  have hiff : callCallback (padded line) ((regs.take 31).map CommandName.command) = none ↔
      FillsBoth regs line := lookup_eq_none_iff h.short h.noNul
  unfold step
  by_cases hevent : event = ⟨.released, enter⟩
  · subst hevent
    rw [sendInput_enter, editLine_enter]
    cases hcall : callCallback (padded line) ((regs.take 31).map CommandName.command) with
    | none =>
      rw [onEnter_eq_none h hcall]
      exact Or.inl ⟨rfl, hiff.mp hcall, rfl⟩
    | some found =>
      obtain ⟨found, calls⟩ := found
      obtain ⟨s', calls', hs, h', -⟩ := onEnter_spec h hcall fun hfound => by
        subst hfound
        rw [callCallback_not_found hcall]
        rfl
      rw [hs]
      refine Or.inr ⟨fun _ hfills => ?_, s', rfl, h'⟩
      rw [hiff.mpr hfills] at hcall
      cases hcall
  · obtain ⟨s', calls, hs, h', -⟩ := sendInput_edits h hevent
    rw [hs]
    exact Or.inr ⟨fun he => absurd he hevent, s', rfl, h'⟩

theorem run_any_iff {events : List KeyEvent}
    (h : LineOf ((regs.take 31).map CommandName.command) s line) :
    (∃ s', run step s events = some s') ↔
      ∀ pre, pre ++ [⟨.released, enter⟩] <+: events →
        ¬FillsBoth regs (pre.foldl editLine line) := by
  induction events generalizing s line with
  | nil => exact iff_of_true ⟨s, rfl⟩ fun pre hpre => absurd hpre (by simp)
  | cons event events ih =>
    rw [run_cons]
    rcases sendInput_any h event with ⟨rfl, hfills, hs⟩ | ⟨hok, s', hs, h'⟩
    · rw [hs]
      refine iff_of_false (by simp) fun hall => ?_
      exact hall [] (List.cons_prefix_cons.mpr ⟨rfl, List.nil_prefix⟩) hfills
    · rw [hs, Option.bind_some, ih h']
      constructor
      · intro hall pre hpre
        cases pre with
        | nil => exact hok (List.cons_prefix_cons.mp hpre).1.symm
        | cons e pre =>
          obtain ⟨rfl, hpre'⟩ := List.cons_prefix_cons.mp hpre
          exact hall pre hpre'
      · intro hall pre hpre
        exact hall (event :: pre) (List.cons_prefix_cons.mpr ⟨rfl, hpre⟩)

/-- **Names stay inside**: `register_command` and `create_process` read a name up to its NUL only
    when it is about as long as the copy or longer, or not copied at all, and in the shell every
    access lies in its array exactly when no released Enter finds the front of a name that fills
    both arrays. -/
theorem names_stay_inside_iff (s : Statics K) (r : CommandName K)
    (name : Name) (regs : List (CommandName K)) (events : List KeyEvent) :
    ((∀ i ∈ registerReads s r, i ≤ r.name.chars.length) ↔
      31 ≤ s.commands.length ∨ 31 ≤ r.name.chars.length) ∧
    ((∀ i ∈ createProcessReads name, i ≤ name.chars.length) ↔ 15 ≤ name.chars.length) ∧
    ((∃ s', run step (regs.foldl registerAny init) events = some s') ↔
      ∀ pre, pre ++ [⟨.released, enter⟩] <+: events → ¬FillsBoth regs (pre.foldl editLine [])) := by
  refine ⟨registerReads_inside_iff, createProcessReads_inside_iff, run_any_iff ?_⟩
  obtain ⟨hbuffer, hindex⟩ := registerAny_line regs init
  refine ⟨hbuffer, hindex, ?_, by simp, by simp⟩
  rw [registerAny_commands]
  rfl

/-- A name of 32 times the letter `a`, typed and entered: the comparison leaves both arrays.  And
    `cls` is read past its NUL by both copies. -/
theorem names_leave_arrays :
    let long : Name := ⟨List.replicate 32 97, fun _ => 0, by simp⟩
    let cls : Name := ⟨[99, 108, 115], fun _ => 0, by simp⟩
    let typed : List KeyEvent := List.replicate 32 ⟨.released, 0x1E⟩ ++ [⟨.released, enter⟩]
    run step ([(⟨long, none⟩ : CommandName Unit)].foldl registerAny init) typed = none ∧
      ¬(∀ i ∈ registerReads init (⟨cls, none⟩ : CommandName Unit), i ≤ cls.chars.length) ∧
      ¬(∀ i ∈ createProcessReads cls, i ≤ cls.chars.length) := by
  refine ⟨by decide +kernel, ?_, ?_⟩
  · rw [registerReads_inside_iff]
    simp [init]
  · rw [createProcessReads_inside_iff]
    simp

end HryOS.CommandLine
