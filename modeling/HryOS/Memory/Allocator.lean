import Mathlib.Algebra.Group.Nat.Defs
import Mathlib.Data.Int.Notation
import HryOS.Lib.ByteMemory

/-!
# The heap allocator (`allocator.hpp`)

The allocator works in place, on the bytes of its region: an `allocator` object at the start of
the region and `block` headers linked in both directions.  Both are 16 bytes on the 32-bit
target, at the offsets below; addresses and sizes wrap modulo `2 ^ 32`.

Loops and the recursion of `merge_with_next_block` take a fuel argument, `memory_length_`
(every block on the list takes at least 16 of these bytes); `none` means that it ran out.
Log output is left out.
-/

set_option autoImplicit false

namespace HryOS.Allocator

open ByteMemory

/-- `align_to(value, align)`: the subtraction wraps and `~` complements 32 bits. -/
def alignTo (value align : ℕ) : ℕ :=
  u32 (value + align + 4294967295) &&& (4294967295 - u32 (align + 4294967295))

/-- `allocator::ALIGNED`. -/
def ALIGNED : ℕ := 8

/-! ## `struct block` -/

/-- `sizeof(block)`: `prev`, `next`, `size`, `state`, four bytes each. -/
def sizeofBlock : ℕ := 16

/-- `sizeof(allocator)`: `memory_start_`, `memory_length_`, `head_`, `tail_`. -/
def sizeofAllocator : ℕ := 16

namespace Block

/-- `state::free`. -/
def free : ℕ := 0

/-- `state::allocated`. -/
def allocated : ℕ := 1

def prev (m : Mem) (b : ℕ) : ℕ := load32 m b
def next (m : Mem) (b : ℕ) : ℕ := load32 m (b + 4)
def size (m : Mem) (b : ℕ) : ℕ := load32 m (b + 8)
def state (m : Mem) (b : ℕ) : ℕ := load32 m (b + 12)

def setPrev (m : Mem) (b v : ℕ) : Mem := store32 m b v
def setNext (m : Mem) (b v : ℕ) : Mem := store32 m (b + 4) v
def setSize (m : Mem) (b v : ℕ) : Mem := store32 m (b + 8) v
def setState (m : Mem) (b v : ℕ) : Mem := store32 m (b + 12) v

/-- `block::is_free`. -/
def isFree (m : Mem) (b : ℕ) : Bool := state m b == free

/-- `block::get_data_address`. -/
def getDataAddress (b : ℕ) : ℕ := u32 (b + sizeofBlock)

end Block

/-! ## Members of `allocator` -/

def memoryLength (m : Mem) (heap : ℕ) : ℕ := load32 m (heap + 4)
def head (m : Mem) (heap : ℕ) : ℕ := load32 m (heap + 8)
def tail (m : Mem) (heap : ℕ) : ℕ := load32 m (heap + 12)

/-- `(p - q - 1) * sizeof(block)` for two `block*`.  Blocks are placed at multiples of 8, and the
    compiled code has no division left: it is the byte difference less `sizeof(block)`. -/
def blockBytes (p q : ℕ) : ℕ := u32 (p + (4294967296 - q) + (4294967296 - sizeofBlock))

/-- `calc_size_between(first, second)`, in `uintptr_t`. -/
def calcSizeBetween (first second : ℕ) : ℕ :=
  if second > first then blockBytes second first else blockBytes first second

/-- `allocator::create`: the new memory and the `allocator*` (`0` for `nullptr`). -/
def create (m : Mem) (memory_start memory_end : ℕ) : Mem × ℕ :=
  if memory_start > memory_end then (m, 0)
  else if memory_end - memory_start < sizeofAllocator + sizeofBlock then (m, 0)
  else
    let heap := memory_start
    let m := store32 m heap memory_start
    let m := store32 m (heap + 4) (memory_end - memory_start)
    let head := u32 (memory_start + sizeofAllocator)
    let tail := memory_end - sizeofBlock
    let free := u32 (head + sizeofBlock)
    let m := Block.setPrev m head 0
    let m := Block.setNext m head free
    let m := Block.setSize m head 0
    let m := Block.setState m head Block.allocated
    let m := Block.setPrev m tail free
    let m := Block.setNext m tail 0
    let m := Block.setSize m tail 0
    let m := Block.setState m tail Block.allocated
    let m := Block.setPrev m free head
    let m := Block.setNext m free tail
    let m := Block.setSize m free (calcSizeBetween tail free)
    let m := Block.setState m free Block.free
    let m := store32 m (heap + 8) head
    let m := store32 m (heap + 12) tail
    (m, heap)

/-- The loop of `find_fit` from `node` on. -/
def findFitFrom (m : Mem) (tail size : ℕ) : ℕ → ℕ → Option ℕ
  | 0, _ => none
  | fuel + 1, node =>
    if node = tail then some 0
    else if !Block.isFree m node then findFitFrom m tail size fuel (Block.next m node)
    else if Block.size m node ≥ size then some node
    else findFitFrom m tail size fuel (Block.next m node)

/-- `find_fit`: the first free block that is large enough, `0` if there is none. -/
def findFit (m : Mem) (heap size : ℕ) : Option ℕ :=
  findFitFrom m (tail m heap) size (memoryLength m heap) (Block.next m (head m heap))

/-- The branch of `allocate` that cuts a new free block off the end of `block`. -/
def split (m : Mem) (block size : ℕ) : Mem :=
  let new_free_block := u32 (block + sizeofBlock + size)
  let next := Block.next m block
  let m := Block.setNext m new_free_block next
  let m := Block.setPrev m new_free_block block
  let m := Block.setSize m new_free_block (calcSizeBetween next new_free_block)
  let m := Block.setState m new_free_block Block.free
  let m := Block.setNext m block new_free_block
  let m := Block.setSize m block size
  Block.setPrev m next new_free_block

/-- `allocator::allocate`: the new memory and the address returned (`0` for failure). -/
def allocate (m : Mem) (heap size : ℕ) : Option (Mem × ℕ) :=
  let size := alignTo size ALIGNED
  (findFit m heap size).map fun block =>
    if block = 0 then (m, 0)
    else
      let m := if Block.size m block ≥ u32 (size + sizeofBlock) then split m block size else m
      (Block.setState m block Block.allocated, Block.getDataAddress block)

/-- The search loop of `free`: is `node` on the list from `curr` on? -/
def isOnList (m : Mem) (node : ℕ) : ℕ → ℕ → Option Bool
  | 0, _ => none
  | fuel + 1, curr =>
    if curr = 0 then some false
    else if node = curr then some true
    else isOnList m node fuel (Block.next m curr)

/-- `merge_with_next_block(node)`. -/
def mergeWithNextBlock : ℕ → Mem → ℕ → Option Mem
  | 0, _, _ => none
  | fuel + 1, m, node =>
    let next := Block.next m (Block.next m node)
    let m := Block.setNext m node next
    let m := Block.setSize m node (calcSizeBetween node next)
    let m := Block.setPrev m next node
    if Block.isFree m next then mergeWithNextBlock fuel m node else some m

/-- `allocator::free(addr)`. -/
def free (m : Mem) (heap addr : ℕ) : Option Mem :=
  let node := u32 (addr + 4294967296 - sizeofBlock)
  let fuel := memoryLength m heap
  (isOnList m node fuel (head m heap)).bind fun found =>
    if !found then some m
    else
      let m := Block.setState m node Block.free
      if Block.isFree m (Block.prev m node) then mergeWithNextBlock fuel m (Block.prev m node)
      else if Block.isFree m (Block.next m node) then mergeWithNextBlock fuel m node
      else some m

/-- The loop of `print`: the addresses of the blocks from `node` on. -/
def blocksFrom (m : Mem) : ℕ → ℕ → List ℕ
  | 0, _ => []
  | fuel + 1, node => if node = 0 then [] else node :: blocksFrom m fuel (Block.next m node)

/-- The blocks on the list, in the order `print` visits them. -/
def blocks (m : Mem) (heap : ℕ) : List ℕ := blocksFrom m (memoryLength m heap) (head m heap)

/-! ## Rounding -/

/-- Clearing the low `k` bits of a 32-bit word. -/
theorem and_sub_two_pow {x k : ℕ} (hx : x < 2 ^ 32) (hk : k ≤ 32) :
    x &&& (2 ^ 32 - 2 ^ k) = x / 2 ^ k * 2 ^ k := by
  have hc : 2 ^ 32 - 2 ^ k = (2 ^ (32 - k) - 1) <<< k := by
    rw [Nat.shiftLeft_eq, Nat.sub_mul, Nat.one_mul, ← Nat.pow_add, Nat.sub_add_cancel hk]
  have hlt : x / 2 ^ k < 2 ^ (32 - k) := by
    rw [Nat.div_lt_iff_lt_mul (Nat.two_pow_pos k), ← Nat.pow_add, Nat.sub_add_cancel hk]
    exact hx
  have hq : x / 2 ^ k * 2 ^ k = (x / 2 ^ k % 2 ^ (32 - k)) <<< k := by
    rw [Nat.shiftLeft_eq, Nat.mod_eq_of_lt hlt]
  rw [hc, hq, ← Nat.and_two_pow_sub_one_eq_mod, ← Nat.shiftRight_eq_div_pow]
  apply Nat.eq_of_testBit_eq
  intro i
  simp only [Nat.testBit_and, Nat.testBit_shiftLeft, Nat.testBit_shiftRight]
  by_cases hi : k ≤ i
  · simp [hi]
  · simp [hi]

/-- Sizes are rounded up to a multiple of 8, wrapping to 0 above `2 ^ 32 - 8`. -/
theorem alignTo_eight (size : ℕ) : alignTo size ALIGNED = u32 (size + 7) / 8 * 8 := by
  have h : u32 (size + ALIGNED + 4294967295) = u32 (size + 7) := by simp only [u32, ALIGNED]; omega
  have hc : 4294967295 - u32 (ALIGNED + 4294967295) = 2 ^ 32 - 2 ^ 3 := by decide
  rw [alignTo, h, hc, and_sub_two_pow (u32_lt _) (by omega), show 2 ^ 3 = 8 from rfl]

theorem alignTo_sixteen (value : ℕ) : alignTo value 16 = u32 (value + 15) / 16 * 16 := by
  have h : u32 (value + 16 + 4294967295) = u32 (value + 15) := by simp only [u32]; omega
  have hc : 4294967295 - u32 (16 + 4294967295) = 2 ^ 32 - 2 ^ 4 := by decide
  rw [alignTo, h, hc, and_sub_two_pow (u32_lt _) (by omega), show 2 ^ 4 = 16 from rfl]

/-- Between blocks that do not overlap. -/
theorem blockBytes_eq {a b : ℕ} (h : a + 16 ≤ b) (hb : b < 4294967296) :
    blockBytes b a = b - a - 16 := by
  unfold blockBytes sizeofBlock u32
  omega

theorem calcSizeBetween_of_lt {a b : ℕ} (h : a + 16 ≤ b) (hb : b < 4294967296) :
    calcSizeBetween a b = b - a - 16 := by
  rw [calcSizeBetween, if_pos (by omega : b > a), blockBytes_eq h hb]

theorem calcSizeBetween_of_gt {a b : ℕ} (h : a + 16 ≤ b) (hb : b < 4294967296) :
    calcSizeBetween b a = b - a - 16 := by
  rw [calcSizeBetween, if_neg (by omega : ¬ a > b), blockBytes_eq h hb]

/-! ## Headers as records -/

/-- The four fields of the block header at `b`. -/
structure Header where
  prev : ℕ
  next : ℕ
  size : ℕ
  state : ℕ

/-- The header stored at `b`. -/
def header (m : Mem) (b : ℕ) : Header :=
  ⟨Block.prev m b, Block.next m b, Block.size m b, Block.state m b⟩

variable {m : Mem} {a b v : ℕ}

theorem header_store32_of_apart {x : ℕ} (h : x + 4 ≤ b ∨ b + 16 ≤ x) :
    header (store32 m x v) b = header m b := by
  simp only [header, Block.prev, Block.next, Block.size, Block.state]
  rw [load32_store32_of_apart (by omega), load32_store32_of_apart (by omega),
    load32_store32_of_apart (by omega), load32_store32_of_apart (by omega)]

theorem header_setPrev (h : v < 4294967296) :
    header (Block.setPrev m b v) b = { header m b with prev := v } := by
  simp only [header, Block.prev, Block.next, Block.size, Block.state, Block.setPrev]
  rw [load32_store32_self h, load32_store32_of_apart (by omega), load32_store32_of_apart (by omega),
    load32_store32_of_apart (by omega)]

theorem header_setNext (h : v < 4294967296) :
    header (Block.setNext m b v) b = { header m b with next := v } := by
  simp only [header, Block.prev, Block.next, Block.size, Block.state, Block.setNext]
  rw [load32_store32_self h, load32_store32_of_apart (by omega), load32_store32_of_apart (by omega),
    load32_store32_of_apart (by omega)]

theorem header_setSize (h : v < 4294967296) :
    header (Block.setSize m b v) b = { header m b with size := v } := by
  simp only [header, Block.prev, Block.next, Block.size, Block.state, Block.setSize]
  rw [load32_store32_self h, load32_store32_of_apart (by omega), load32_store32_of_apart (by omega),
    load32_store32_of_apart (by omega)]

theorem header_setState (h : v < 4294967296) :
    header (Block.setState m b v) b = { header m b with state := v } := by
  simp only [header, Block.prev, Block.next, Block.size, Block.state, Block.setState]
  rw [load32_store32_self h, load32_store32_of_apart (by omega), load32_store32_of_apart (by omega),
    load32_store32_of_apart (by omega)]

end HryOS.Allocator
