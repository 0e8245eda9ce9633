import HryOS.Memory.KernelHeap

/-!
# The memory map of the boot loader (`memory_map.cpp`)

The map is a buffer of records, each a size field with that many bytes behind it.  The loops go
through it as a span of `mmap::entry`, which is 24 bytes long, until the end is met exactly.

* `Laid` — a buffer as the boot loader lays it out.
* `forEach`, `visited` — the loops over `mmap::get_entries()`.
* `memory_map_read_iff` — they visit the entries of the buffer exactly when every size is 20.
* `largestOf_of_laid` — the loop of `kheap::init` then runs over these entries.
-/

set_option autoImplicit false

namespace HryOS.MemoryMap

open ByteMemory KernelHeap

/-- A `uint64_t` at `a`. -/
def load64 (m : Mem) (a : ℕ) : ℕ := load32 m a + 4294967296 * load32 m (u32 (a + 4))

/-- The fields of the packed `mmap::entry` at `a`. -/
def entryAt (m : Mem) (a : ℕ) : Entry where
  size := load32 m a
  addr := load64 m (u32 (a + 4))
  length := load64 m (u32 (a + 12))
  type := load32 m (u32 (a + 20))

/-- `sizeof(mmap::entry)`. -/
def sizeofEntry : ℕ := 24

/-- The fields of `multiboot_info` that `mmap::init` reads. -/
structure MultibootInfo where
  flags : ℕ
  mmap_length : ℕ
  mmap_addr : ℕ
  deriving DecidableEq, Repr

/-- `hlib::span<mmap::entry>`. -/
structure Span where
  begin_ : ℕ
  end_ : ℕ
  deriving DecidableEq, Repr

/-- `mmap::init` up to its loop: `entries`, or `none` where it returns false. -/
def init (mbi : MultibootInfo) : Option Span :=
  if mbi.flags.testBit 6 then some ⟨mbi.mmap_addr, u32 (mbi.mmap_addr + mbi.mmap_length)⟩ else none

/-- `for (auto& entry : entries)`, from `it` on: `body` is run on each entry.  No result where
    the end is not met in `rounds` rounds. -/
def forEach {σ : Type} (m : Mem) (body : σ → Entry → σ) : ℕ → ℕ → ℕ → σ → Option σ
  | 0, _, _, _ => none
  | rounds + 1, it, end_, s =>
    if it ≠ end_ then forEach m body rounds (u32 (it + sizeofEntry)) end_ (body s (entryAt m it))
    else some s

/-- The entries that a loop over the span is run on. -/
def visited (m : Mem) (span : Span) (rounds : ℕ) : Option (List Entry) :=
  forEach m (fun l e => l ++ [e]) rounds span.begin_ span.end_ []

/-- The loop of `kheap::init`. -/
def largestOf (m : Mem) (span : Span) (rounds : ℕ) : Option Entry :=
  forEach m pick rounds span.begin_ span.end_ Entry.default

/-! ## The buffer -/

/-- Consecutive records from `a` on: a size of at least 20, and so many bytes that start with the
    other fields. -/
def Laid (m : Mem) : ℕ → List Entry → Prop
  | _, [] => True
  | a, e :: es => 20 ≤ e.size ∧ entryAt m a = e ∧ Laid m (a + 4 + e.size) es

/-- The length of the buffer. -/
def total : List Entry → ℕ
  | [] => 0
  | e :: es => 4 + e.size + total es

variable {σ : Type} {m : Mem} {body : σ → Entry → σ} {es l : List Entry} {e : Entry}
  {a it end_ rounds : ℕ} {s : σ}

theorem total_cons : total (e :: es) = 4 + e.size + total es := rfl

/-- The entries need 24 bytes each, and more where a size is larger. -/
theorem total_eq_iff (h : Laid m a es) :
    24 * es.length ≤ total es ∧ (total es = 24 * es.length ↔ ∀ e ∈ es, e.size = 20) := by
  induction es generalizing a with
  | nil => simp [total]
  | cons e es ih =>
    obtain ⟨hsize, -, hrest⟩ := h
    obtain ⟨hle, hiff⟩ := ih hrest
    rw [total_cons, List.length_cons, List.forall_mem_cons, ← hiff]
    omega

/-! ## The loops -/

/-- A loop that collects the entries meets the end after as many strides. -/
theorem forEach_collect (h : forEach m (fun l e => l ++ [e]) rounds it end_ l = some es) :
    ∃ ws, es = l ++ ws ∧ u32 (it + 24 * ws.length) = u32 end_ := by
  induction rounds generalizing it l with
  | zero => cases h
  | succ rounds ih =>
    unfold forEach at h
    split at h
    · obtain ⟨ws, hes, hend⟩ := ih h
      refine ⟨entryAt m it :: ws, by rw [hes]; simp, ?_⟩
      rw [← hend, List.length_cons]
      unfold u32 sizeofEntry
      omega
    · rename_i heq
      obtain rfl := Option.some.inj h
      exact ⟨[], (List.append_nil l).symm, by rw [not_not.mp heq]; rfl⟩

theorem ne_u32_add {n : ℕ} (hpos : 0 < n) (hn : n < 4294967296) : a ≠ u32 (a + n) := by
  unfold u32
  omega

/-- A buffer whose sizes are all 20 is met entry by entry. -/
theorem forEach_of_laid (h : Laid m a es) (hsize : ∀ e ∈ es, e.size = 20)
    (hend : a + total es ≤ 4294967296) (ha : a < 4294967296) (body : σ → Entry → σ) (s : σ) :
    forEach m body (es.length + 1) a (u32 (a + total es)) s = some (es.foldl body s) := by
  induction es generalizing a s with
  | nil =>
    unfold forEach total
    rw [if_neg]
    · rfl
    · simp [u32_of_lt ha]
  | cons e es ih =>
    obtain ⟨-, hentry, hrest⟩ := h
    have he : e.size = 20 := hsize e List.mem_cons_self
    have htail : ∀ e ∈ es, e.size = 20 := fun e he => hsize e (List.mem_cons_of_mem _ he)
    have htotal := ((total_eq_iff hrest).2).mpr htail
    rw [total_cons, he, htotal] at hend
    rw [he] at hrest
    have hne : a ≠ u32 (a + total (e :: es)) := by
      rw [total_cons, he, htotal]
      exact ne_u32_add (by omega) (by omega)
    unfold forEach
    rw [if_pos hne, hentry, List.foldl_cons]
    rcases Nat.lt_or_ge (a + 24) 4294967296 with hlt | hge
    · have hnext : u32 (a + sizeofEntry) = a + 4 + 20 := by
        unfold sizeofEntry
        rw [u32_of_lt hlt]
      have hsum : a + total (e :: es) = a + 4 + 20 + total es := by
        rw [total_cons, he]
        omega
      rw [hnext, hsum]
      exact ih hrest htail (by rw [htotal]; omega) (by omega) _
    · -- the buffer ends with the address space
      obtain rfl : es = [] := List.length_eq_zero_iff.mp (by omega)
      have hstop : u32 (a + sizeofEntry) = u32 (a + total [e]) := by
        simp [total, sizeofEntry, he]
      rw [hstop]
      generalize u32 (a + total [e]) = stop
      simp [forEach]

/-- **The memory map is read as laid out** exactly when every size field is 20. -/
theorem memory_map_read_iff (mbi : MultibootInfo) (hflag : mbi.flags.testBit 6 = true)
    (h : Laid m mbi.mmap_addr es) (hlength : mbi.mmap_length = total es)
    (haddr : mbi.mmap_addr < 4294967296) (hend : mbi.mmap_addr + mbi.mmap_length ≤ 4294967296) :
    (∃ span rounds, init mbi = some span ∧ visited m span rounds = some es) ↔
      ∀ e ∈ es, e.size = 20 := by
  have hinit : init mbi = some ⟨mbi.mmap_addr, u32 (mbi.mmap_addr + mbi.mmap_length)⟩ :=
    if_pos hflag
  obtain ⟨hle, hiff⟩ := total_eq_iff h
  rw [hinit, hlength]
  rw [hlength] at hend
  constructor
  · rintro ⟨span, rounds, hspan, hvisited⟩
    cases hspan
    obtain ⟨ws, hws, hmet⟩ := forEach_collect hvisited
    rw [List.nil_append] at hws
    subst hws
    apply hiff.mp
    dsimp only at hmet
    by_contra hne
    -- the strides end before the buffer does, and by less than all addresses
    have hpos : total es - 24 * es.length < 4294967296 := by
      cases es with
      | nil => exact absurd rfl hne
      | cons e es =>
        rw [List.length_cons]
        omega
    have hsame : mbi.mmap_addr + total es =
        mbi.mmap_addr + 24 * es.length + (total es - 24 * es.length) := by omega
    rw [hsame] at hmet
    generalize total es - 24 * es.length = gap at *
    unfold u32 at hmet
    omega
  · intro hsize
    refine ⟨_, es.length + 1, rfl, ?_⟩
    have hloop := forEach_of_laid h hsize hend haddr (fun l e => l ++ [e]) []
    rw [show es.foldl (fun l e => l ++ [e]) [] = es by simp [← List.flatMap_def]] at hloop
    exact hloop

/-- Two records of 20 bytes from 4096 on. -/
def twoEntries : Mem := store32 (store32 (store32 (store32 (fun _ => 0) 4096 20) 4116 1) 4120 20)
  4140 2

theorem memory_map_read_example :
    (∃ span rounds, init ⟨64, 48, 4096⟩ = some span ∧
      visited twoEntries span rounds = some [⟨20, 0, 0, 1⟩, ⟨20, 0, 0, 2⟩]) ↔
      ∀ e ∈ ([⟨20, 0, 0, 1⟩, ⟨20, 0, 0, 2⟩] : List Entry), e.size = 20 :=
  memory_map_read_iff ⟨64, 48, 4096⟩ (by decide) ⟨by decide, by decide, by decide, by decide,
    trivial⟩ rfl (by simp) (by simp)

/-- One record whose size is 24: the loop steps over the end and never meets it. -/
theorem memory_map_runs_past :
    let m := store32 (store32 (fun _ => 0) 4096 24) 4116 1
    Laid m 4096 [⟨24, 0, 0, 1⟩] ∧ total [⟨24, 0, 0, 1⟩] = 28 ∧
      ∀ rounds, visited m ⟨4096, u32 (4096 + 28)⟩ rounds = none := by
  refine ⟨⟨by decide, by decide, trivial⟩, rfl, ?_⟩
  intro rounds
  by_contra hsome
  obtain ⟨es, hes⟩ := Option.ne_none_iff_exists'.mp hsome
  obtain ⟨ws, -, hmet⟩ := forEach_collect hes
  dsimp only at hmet
  unfold u32 at hmet
  omega

/-- **The loop of `kheap::init`** runs over the entries of such a buffer. -/
theorem largestOf_of_laid (h : Laid m a es) (hsize : ∀ e ∈ es, e.size = 20)
    (hend : a + total es ≤ 4294967296) (ha : a < 4294967296) :
    largestOf m ⟨a, u32 (a + total es)⟩ (es.length + 1) = some (largest es) :=
  forEach_of_laid h hsize hend ha pick Entry.default

end HryOS.MemoryMap
