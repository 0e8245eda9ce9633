import HryOS.Memory.AllocatorRefines

/-!
# `allocator::create` on every region

`create` refuses a region shorter than `sizeof(allocator) + sizeof(block)`, but it writes an
`allocator` and three blocks: two from the start of the region and one from its end.

* `LaidOut` — the four headers are apart and inside the region, and the free block ends before
  `tail`.
* `create_laidOut_iff` — `create` fails or lays out its headers exactly when the region does not
  fall in the band that the length check lets through.
* `create_short` — a region of 32 bytes is accepted, with `head` and `tail` in one place.
-/

set_option autoImplicit false

namespace HryOS.Allocator

open ByteMemory BlockList

variable {m : Mem} {heap start end_ : ℕ}

/-- The places and lengths of the headers: the object, `head`, `free` and `tail`. -/
def pieces (m : Mem) (heap : ℕ) : List (ℕ × ℕ) :=
  [(heap, sizeofAllocator), (head m heap, sizeofBlock),
    (Block.next m (head m heap), sizeofBlock), (tail m heap, sizeofBlock)]

/-- The headers of the heap at `heap` are laid out in the region `[start, end_)`. -/
structure LaidOut (m : Mem) (heap start end_ : ℕ) : Prop where
  disjoint : (pieces m heap).Pairwise fun a b => a.1 + a.2 ≤ b.1 ∨ b.1 + b.2 ≤ a.1
  inside : ∀ a ∈ pieces m heap, start ≤ a.1 ∧ a.1 + a.2 ≤ end_
  size : Block.next m (head m heap) + sizeofBlock + Block.size m (Block.next m (head m heap)) ≤
    tail m heap

/-! ## Regions that are too short -/

/-- Four headers do not fit into less than 64 bytes, wherever the pointers lead. -/
theorem not_laidOut_of_short (h : end_ < start + 64) : ¬LaidOut m heap start end_ := by
  intro hl
  have hd := hl.disjoint
  have hin := hl.inside
  simp only [pieces, sizeofAllocator, sizeofBlock] at hd hin
  generalize head m heap = a at hd hin
  generalize Block.next m a = b at hd hin
  generalize tail m heap = c at hd hin
  simp only [List.pairwise_cons, List.mem_cons, List.not_mem_nil, or_false, forall_eq_or_imp,
    forall_eq] at hd hin
  omega

/-- The length check lets 32 bytes through. -/
theorem create_snd (m : Mem) (start end_ : ℕ) :
    (create m start end_).2 = if end_ < start + 32 then 0 else start := by
  unfold create
  by_cases hgt : start > end_
  · rw [if_pos hgt, if_pos (by omega)]
  · rw [if_neg hgt]
    by_cases hlen : end_ < start + 32
    · rw [if_pos (by simp only [sizeofAllocator, sizeofBlock]; omega), if_pos hlen]
    · rw [if_neg (by simp only [sizeofAllocator, sizeofBlock]; omega), if_neg hlen]

/-! ## Regions that are long enough -/

/-- The heap of an initial block list is laid out. -/
theorem HeapAt.laidOut (h : HeapAt m start end_ (initialBlocks start end_)) :
    LaidOut m start start end_ := by
  have hb := h.bounds
  have hfree : Block.next m (start + 16) = start + 32 := next_eq h.seg.1
  have hsize : Block.size m (start + 32) = geometry.gap (start + 32) (end_ - 16) :=
    size_eq h.seg.2.1
  have hroom := geometry.gap_room (start + 32) (end_ - 16) (by simp only [geometry_hdr]; omega)
  simp only [geometry_hdr] at hroom
  refine ⟨?_, ?_, ?_⟩
  · simp only [pieces, h.head_eq, h.tail_eq, hfree, sizeofAllocator, sizeofBlock,
      List.pairwise_cons, List.mem_cons, List.not_mem_nil, or_false, forall_eq_or_imp, forall_eq,
      false_implies, implies_true, List.Pairwise.nil, and_true]
    omega
  · simp only [pieces, h.head_eq, h.tail_eq, hfree, sizeofAllocator, sizeofBlock,
      List.mem_cons, List.not_mem_nil, or_false, forall_eq_or_imp, forall_eq]
    omega
  · rw [h.head_eq, h.tail_eq, hfree, hsize]
    exact hroom

/-- **`create` on every region.**  It returns `nullptr` or lays out its headers, unless the region
    holds an `allocator` and one `block` but not three. -/
theorem create_laidOut_iff (m : Mem) (start end_ : ℕ) (hlt : end_ < 4294967296) :
    ((create m start end_).2 = 0 ∨
        LaidOut (create m start end_).1 (create m start end_).2 start end_) ↔
      start = 0 ∨ end_ < start + sizeofAllocator + sizeofBlock ∨
        start + sizeofAllocator + 3 * sizeofBlock ≤ end_ := by
  simp only [sizeofAllocator, sizeofBlock]
  rw [create_snd]
  by_cases hshort : end_ < start + 32
  · simp [hshort, Nat.add_assoc]
  rw [if_neg hshort]
  by_cases hlong : start + 64 ≤ end_
  · obtain ⟨m', heq, hat⟩ := create_heapAt m hlong hlt
    have hl : LaidOut (create m start end_).1 start start end_ := by
      rw [heq]
      exact hat.laidOut
    exact iff_of_true (Or.inr hl) (Or.inr (Or.inr hlong))
  · have hnot : ¬LaidOut (create m start end_).1 start start end_ :=
      not_laidOut_of_short (by omega)
    simp only [hnot, or_false]
    omega

theorem create_laidOut_iff_example : (create (fun _ => 0) 4096 4352).2 = 0 ∨
    LaidOut (create (fun _ => 0) 4096 4352).1 (create (fun _ => 0) 4096 4352).2 4096 4352 :=
  (create_laidOut_iff (fun _ => 0) 4096 4352 (by decide)).mpr (Or.inr (Or.inr (by decide)))

/-- 32 bytes at 4096: `head` and `tail` are both at 4112, and the free block lies outside. -/
theorem create_short : ¬((create (fun _ => 0) 4096 4128).2 = 0 ∨
    LaidOut (create (fun _ => 0) 4096 4128).1 (create (fun _ => 0) 4096 4128).2 4096 4128) := by
  have hret : (create (fun _ => 0) 4096 4128).2 = 4096 := create_snd _ _ _
  rintro (hzero | hl)
  · rw [hret] at hzero
    cases hzero
  · exact not_laidOut_of_short (by omega) hl

end HryOS.Allocator
