import HryOS.Memory.Allocator

/-!
# Placing the kernel heap (`kernel_heap.cpp`, `kheap::init`)

`kheap::init` takes the longest available entry of the memory map that starts below 4 GiB, caps
its length at 1 GiB, moves the start when it lies in the kernel image, and creates the allocator
on the range.

* `largest_spec` — which entry is selected.
* `placement_iff` — exactly when the range lies in that entry, clear of the kernel image: the
  source sets `heap_end` to the entry's length (`heap_end = largest.addr = largest.length`) and
  adds the rounded kernel end to the start, so this depends on where the entry and the kernel are.
* `placement_past_end` — an entry at 256 MiB of 16 MiB gets a range that ends before it starts.
-/

set_option autoImplicit false

namespace HryOS.KernelHeap

open ByteMemory Allocator

/-- `mmap::entry`. -/
structure Entry where
  size : ℕ
  addr : ℕ
  length : ℕ
  type : ℕ
  deriving DecidableEq, Repr

/-- `mmap::entry::type::available`. -/
def available : ℕ := 1

/-- `mmap::entry::type::reserved`. -/
def reserved : ℕ := 2

/-- `mmap::entry{}`. -/
def Entry.default : Entry := ⟨0, 0, 0, reserved⟩

/-- `max_address`: 4 GiB. -/
def maxAddress : ℕ := 4 * 1024 * 1024 * 1024

/-- The body of the loop over the entries. -/
def pick (largest entry : Entry) : Entry :=
  if entry.type = available then
    if entry.addr < maxAddress ∧ entry.length > largest.length then entry else largest
  else largest

/-- `largest` after the loop. -/
def largest (entries : List Entry) : Entry := entries.foldl pick Entry.default

/-- The range `[heap_start, heap_end)` that `kheap::init` passes to `allocator::create`; `none`
    when one of the two assertions halts the kernel. -/
def placement (entries : List Entry) (kernel_start kernel_end : ℕ) : Option (ℕ × ℕ) :=
  let largest := largest entries
  if ¬ largest.type = available then none
  else if ¬ largest.length > 10 * 1024 * 1024 then none
  else
    let length := if largest.length > 1024 * 1024 * 1024 then 1024 * 1024 * 1024 else largest.length
    let heap_start := u32 largest.addr
    -- `uint32_t heap_end = largest.addr = largest.length;`
    let heap_end := u32 length
    let heap_start :=
      if heap_start ≥ kernel_start ∧ heap_start ≤ kernel_end
      then u32 (heap_start + alignTo kernel_end 16) else heap_start
    some (heap_start, heap_end)

/-- `kheap::init`: memory and the `allocator*`. -/
def init (m : Mem) (entries : List Entry) (kernel_start kernel_end : ℕ) : Option (Mem × ℕ) :=
  (placement entries kernel_start kernel_end).map fun r => create m r.1 r.2

/-! ## The selected entry -/

/-- Entries the loop considers. -/
def Usable (e : Entry) : Prop := e.type = available ∧ e.addr < maxAddress

theorem pick_cases (l e : Entry) :
    (pick l e = e ∧ Usable e ∧ l.length < e.length) ∨
      (pick l e = l ∧ (Usable e → e.length ≤ l.length)) := by
  unfold pick
  by_cases ht : e.type = available
  · rw [if_pos ht]
    by_cases hc : e.addr < maxAddress ∧ e.length > l.length
    · rw [if_pos hc]
      exact Or.inl ⟨rfl, ⟨ht, hc.1⟩, hc.2⟩
    · rw [if_neg hc]
      exact Or.inr ⟨rfl, fun hu => by have := hu.2; omega⟩
  · rw [if_neg ht]
    exact Or.inr ⟨rfl, fun hu => absurd hu.1 ht⟩

theorem foldl_pick_spec : ∀ (entries : List Entry) (l : Entry),
    (entries.foldl pick l = l ∨ (entries.foldl pick l ∈ entries ∧ Usable (entries.foldl pick l))) ∧
      l.length ≤ (entries.foldl pick l).length ∧
      ∀ e ∈ entries, Usable e → e.length ≤ (entries.foldl pick l).length
  | [], l => ⟨Or.inl rfl, Nat.le_refl _, fun e he => absurd he List.not_mem_nil⟩
  | e :: entries, l => by
    obtain ⟨hsel, hle, hmax⟩ := foldl_pick_spec entries (pick l e)
    rw [List.foldl_cons]
    rcases pick_cases l e with ⟨hp, hu, hlt⟩ | ⟨hp, hu⟩
    · rw [hp] at hsel hle hmax ⊢
      refine ⟨Or.inr ?_, by omega, ?_⟩
      · rcases hsel with hsel | ⟨hmem, hus⟩
        · rw [hsel]
          exact ⟨List.mem_cons_self, hu⟩
        · exact ⟨List.mem_cons_of_mem _ hmem, hus⟩
      · intro x hx hxu
        rcases List.mem_cons.mp hx with rfl | hx
        · exact hle
        · exact hmax x hx hxu
    · rw [hp] at hsel hle hmax ⊢
      refine ⟨hsel.imp_right fun ⟨hmem, hus⟩ => ⟨List.mem_cons_of_mem _ hmem, hus⟩, hle, ?_⟩
      intro x hx hxu
      rcases List.mem_cons.mp hx with rfl | hx
      · exact Nat.le_trans (hu hxu) hle
      · exact hmax x hx hxu

/-- **The selected entry** is a longest available entry that starts below 4 GiB. -/
theorem largest_spec {entries : List Entry} (h : (largest entries).type = available) :
    largest entries ∈ entries ∧ Usable (largest entries) ∧
      ∀ e ∈ entries, Usable e → e.length ≤ (largest entries).length := by
  obtain ⟨hsel, -, hmax⟩ := foldl_pick_spec entries Entry.default
  rcases hsel with hsel | hsel
  · rw [largest, hsel] at h
    cases h
  · exact ⟨hsel.1, hsel.2, hmax⟩

/-! ## The range -/

/-- The range `[s, e)` is non-empty, inside the entry and disjoint from the kernel image. -/
def Placed (entry : Entry) (kernel_start kernel_end s e : ℕ) : Prop :=
  s < e ∧ (entry.addr ≤ s ∧ e ≤ entry.addr + entry.length) ∧
    ∀ x, s ≤ x → x < e → ¬(kernel_start ≤ x ∧ x < kernel_end)

/-- When the placement works out: the capped length, taken as an address, lies above the (moved)
    start; and an entry that starts below the kernel image must end below it too. -/
def Fits (entry : Entry) (kernel_start kernel_end : ℕ) : Prop :=
  let cap := min entry.length (1024 * 1024 * 1024)
  if kernel_start ≤ entry.addr ∧ entry.addr ≤ kernel_end
  then entry.addr + (kernel_end + 15) / 16 * 16 < cap
  else entry.addr < cap ∧ (entry.addr < kernel_start → cap ≤ kernel_start ∨ kernel_end ≤ kernel_start)

instance (entry : Entry) (kernel_start kernel_end : ℕ) :
    Decidable (Fits entry kernel_start kernel_end) := by
  unfold Fits
  infer_instance

theorem disjoint_iff {s e ks ke : ℕ} (h : s < e) :
    (∀ x, s ≤ x → x < e → ¬(ks ≤ x ∧ x < ke)) ↔ e ≤ ks ∨ ke ≤ s ∨ ke ≤ ks := by
  constructor
  · intro hd
    by_contra hc
    have := hd (max s ks) (by omega) (by omega)
    omega
  · intro hd x hs he hk
    omega

theorem capped_eq (length : ℕ) :
    u32 (if length > 1024 * 1024 * 1024 then 1024 * 1024 * 1024 else length) =
      min length (1024 * 1024 * 1024) := by
  split
  · rw [Nat.min_eq_right (by omega)]
    rfl
  · rw [Nat.min_eq_left (by omega), u32_of_lt (by omega)]

/-- The range, once the selected entry is known to be usable. -/
theorem placement_eq {entries : List Entry} {kernel_start kernel_end s e : ℕ}
    (h : placement entries kernel_start kernel_end = some (s, e)) :
    (largest entries).type = available ∧
      ((largest entries).addr < maxAddress → s =
        (if kernel_start ≤ (largest entries).addr ∧ (largest entries).addr ≤ kernel_end
          then u32 ((largest entries).addr + u32 (kernel_end + 15) / 16 * 16)
          else (largest entries).addr)) ∧
      e = min (largest entries).length (1024 * 1024 * 1024) := by
  unfold placement at h
  simp only at h
  split at h
  · cases h
  rename_i htype
  split at h
  · cases h
  obtain ⟨hs, he⟩ := Prod.mk.inj (Option.some.inj h)
  refine ⟨not_not.mp htype, ?_, by rw [← he, capped_eq]⟩
  intro haddr
  simp only [maxAddress] at haddr
  have hstart : u32 (largest entries).addr = (largest entries).addr := u32_of_lt (by omega)
  rw [← hs, hstart, alignTo_sixteen]

/-- An entry at the kernel image: the start moves up by the rounded kernel end. -/
theorem placed_moved {l : Entry} {kernel_start kernel_end : ℕ} (hend : kernel_end < 4294967296)
    (hin : kernel_start ≤ l.addr ∧ l.addr ≤ kernel_end) :
    Placed l kernel_start kernel_end (u32 (l.addr + u32 (kernel_end + 15) / 16 * 16))
        (min l.length (1024 * 1024 * 1024)) ↔
      l.addr + (kernel_end + 15) / 16 * 16 < min l.length (1024 * 1024 * 1024) := by
  constructor
  · rintro ⟨hlt, hsub, hdis⟩
    have hd := (disjoint_iff hlt).mp hdis
    simp only [u32] at hlt hsub hd
    omega
  · intro hfit
    have hs : u32 (l.addr + u32 (kernel_end + 15) / 16 * 16) =
        l.addr + (kernel_end + 15) / 16 * 16 := by
      simp only [u32]
      omega
    rw [hs]
    exact ⟨hfit, by omega, (disjoint_iff hfit).mpr (by omega)⟩

/-- Any other entry: the start stays. -/
theorem placed_kept {l : Entry} {kernel_start kernel_end : ℕ}
    (hout : ¬(kernel_start ≤ l.addr ∧ l.addr ≤ kernel_end)) :
    Placed l kernel_start kernel_end l.addr (min l.length (1024 * 1024 * 1024)) ↔
      l.addr < min l.length (1024 * 1024 * 1024) ∧ (l.addr < kernel_start →
        min l.length (1024 * 1024 * 1024) ≤ kernel_start ∨ kernel_end ≤ kernel_start) := by
  constructor
  · rintro ⟨hlt, hsub, hdis⟩
    have hd := (disjoint_iff hlt).mp hdis
    omega
  · rintro ⟨hlt, hfit⟩
    exact ⟨hlt, by omega, (disjoint_iff hlt).mpr (by omega)⟩

/-- **Placement.**  Whenever both assertions pass, the range lies in the selected entry and clear
    of the kernel image if and only if `Fits` holds of that entry. -/
theorem placement_iff {entries : List Entry} {kernel_start kernel_end s e : ℕ}
    (hend : kernel_end < 4294967296) (h : placement entries kernel_start kernel_end = some (s, e)) :
    (largest entries ∈ entries ∧ Usable (largest entries) ∧
      ∀ x ∈ entries, Usable x → x.length ≤ (largest entries).length) ∧
    (Placed (largest entries) kernel_start kernel_end s e ↔
      Fits (largest entries) kernel_start kernel_end) := by
  obtain ⟨htype, hs, rfl⟩ := placement_eq h
  obtain ⟨hmem, husable, hmax⟩ := largest_spec htype
  refine ⟨⟨hmem, husable, hmax⟩, ?_⟩
  rw [hs husable.2]
  unfold Fits
  split
  · rename_i hin
    exact placed_moved hend hin
  · rename_i hout
    exact placed_kept hout

/-- An entry of 16 MiB at 256 MiB, next to a smaller one below the image. -/
def highEntry : Entry := ⟨20, 0x10000000, 0x1000000, available⟩

/-- The kernel image lies at 1 MiB, apart from the entry; the range passed to `create` is
    `[0x10000000, 0x1000000)`. -/
theorem placement_past_end :
    let entries := [⟨20, 0, 0x9FC00, available⟩, highEntry]
    entries.Pairwise (fun a b => a.addr + a.length ≤ b.addr) ∧
      largest entries = highEntry ∧
      ¬(0x100000 ≤ highEntry.addr ∧ highEntry.addr + highEntry.length ≤ 0x120000) ∧
      placement entries 0x100000 0x120000 = some (0x10000000, 0x1000000) ∧
      ¬ Placed highEntry 0x100000 0x120000 0x10000000 0x1000000 := by
  refine ⟨by decide, by decide, by decide, by decide, ?_⟩
  intro h
  exact absurd h.1 (by omega)

/-- The common map: one big entry at the kernel image itself. -/
theorem placement_iff_example :
    let entries := [⟨20, 0, 0x9FC00, available⟩, ⟨20, 0x100000, 0x7EE0000, available⟩]
    Placed (largest entries) 0x100000 0x120000 0x220000 0x7EE0000 := by
  intro entries
  have h : placement entries 0x100000 0x120000 = some (0x220000, 0x7EE0000) := by decide
  exact (placement_iff (by decide) h).2.mpr (by decide)

end HryOS.KernelHeap
