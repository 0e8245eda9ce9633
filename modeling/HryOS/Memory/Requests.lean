import HryOS.Memory.HeapSafety

/-!
# What single requests do to a reachable heap

* `allocate_bigEnough_iff` — the block handed out holds the requested bytes, unless the size is
  among the seven that `align_to` wraps to 0 and some block is free.
* `allocate_complete` — `allocate` fails only when no gap behind a free block is wide enough.
* `free_repeated` — freeing an address again, when its block is free or gone, changes no byte.
-/

set_option autoImplicit false

namespace HryOS.Allocator

open ByteMemory BlockList Transition

/-- `b` and `n` are neighbours on the block list. -/
def Adjacent (m : Mem) (heap b n : ℕ) : Prop := [b, n] <:+: blocks m heap

instance (m : Mem) (heap b n : ℕ) : Decidable (Adjacent m heap b n) := by
  unfold Adjacent
  infer_instance

/-- The bytes between the end of the header at `b` and the header at `n`. -/
def gapBytes (b n : ℕ) : ℕ := n - (b + sizeofBlock)

variable {start end_ addr size x y : ℕ} {m m' : Mem} {s : HeapState}
  {b c n : BlockList.Block} {bs pre post rest : List BlockList.Block}

/-! ## Neighbours -/

theorem HeapAt.adjacent_iff (h : HeapAt m start end_ bs) : Adjacent m start x y ↔
    ∃ b n, [b, n] <:+: bs ∧ b.addr = x ∧ n.addr = y := by
  rw [Adjacent, h.blocks_eq, List.infix_map_iff]
  constructor
  · rintro ⟨l, hl, heq⟩
    match l, heq with
    | [b, n], heq =>
      simp only [List.map_cons, List.map_nil, List.cons.injEq, and_true] at heq
      exact ⟨b, n, hl, heq.1.symm, heq.2.symm⟩
  · rintro ⟨b, n, hl, rfl, rfl⟩
    exact ⟨[b, n], hl, rfl⟩

theorem HeapAt.adjacent (h : HeapAt m start end_ (pre ++ b :: n :: post)) :
    Adjacent m start b.addr n.addr :=
  h.adjacent_iff.mpr ⟨b, n, ⟨pre, post, by simp⟩, rfl, rfl⟩

/-- Neighbours are linked as the chain says. -/
theorem HeapAt.link (h : HeapAt m start end_ bs) (hbn : [b, n] <:+: bs) :
    Link geometry (end_ - 16) b n ∧ b ∈ bs ∧ n ∈ bs ∧ n.addr ≤ end_ - 16 := by
  obtain ⟨pre, post, rfl⟩ := hbn
  have hb : b ∈ pre ++ [b, n] ++ post := by simp
  have hn : n ∈ pre ++ [b, n] ++ post := by simp
  have hc := h.chain
  rw [List.append_assoc] at hc
  exact ⟨(chain_cons_cons.mp hc.suffix).1, hb, hn, h.chain.addr_le hn⟩

/-- A block before the tail has a neighbour. -/
theorem HeapAt.exists_next (h : HeapAt m start end_ bs) (hb : b ∈ bs) (hf : b.free = true) :
    ∃ n, [b, n] <:+: bs := by
  obtain ⟨pre, rest, rfl⟩ := List.append_of_mem hb
  obtain ⟨n, post, rfl⟩ := h.chain.suffix.exists_next_of_free hf
  exact ⟨n, pre, post, by simp⟩

theorem HeapAt.isFree_at (h : HeapAt m start end_ bs) (hb : b ∈ bs) :
    Block.isFree m b.addr = b.free := by
  obtain ⟨q, r, hh⟩ := h.seg.header_mem hb
  exact isFree_eq hh

/-- A free block and its neighbour in memory are neighbours on the list. -/
theorem HeapAt.adjacent_free (h : HeapAt m start end_ bs) (hxy : Adjacent m start x y)
    (hf : Block.isFree m x = true) :
    ∃ b n, [b, n] <:+: bs ∧ b.addr = x ∧ n.addr = y ∧ b.free = true := by
  obtain ⟨b, n, hbn, rfl, rfl⟩ := h.adjacent_iff.mp hxy
  rw [h.isFree_at (h.link hbn).2.1] at hf
  exact ⟨b, n, hbn, rfl, rfl, hf⟩

/-! ## What `allocate` returns -/

/-- `allocate` fails when every free block records too little, and otherwise takes a free block
    with the rounded size up to its new neighbour. -/
theorem HeapAt.allocate_cases (h : HeapAt m start end_ bs) (size : ℕ) :
    (allocate m start size = some (m, 0) ∧
      ∀ b ∈ bs, b.free = true → b.size < alignTo size ALIGNED) ∨
    ∃ m' bs' b n, allocate m start size = some (m', b.addr + 16) ∧ HeapAt m' start end_ bs' ∧
      (b ∈ bs ∧ b.free = true ∧ alignTo size ALIGNED ≤ b.size) ∧
      Adjacent m' start b.addr n ∧ b.addr + 16 + alignTo size ALIGNED ≤ n := by
  have href := allocate_refines h size
  cases hp : place geometry (alignTo size ALIGNED) bs with
  | none =>
    rw [hp] at href
    refine Or.inl ⟨href, ?_⟩
    intro b hb hbf
    have hne : b ∈ bs.dropLast := by
      obtain ⟨pre, rfl⟩ := h.chain.eq_append
      rw [List.dropLast_concat]
      rcases List.mem_append.mp hb with hb | hb
      · exact hb
      · rw [List.mem_singleton.mp hb] at hbf
        cases hbf
    have hfit := place_none hp b hne
    simp only [hbf, true_and] at hfit
    omega
  | some r =>
    obtain ⟨bs', data⟩ := r
    rw [hp] at href
    obtain ⟨m', halloc, hat⟩ := href
    obtain ⟨pre, b, n, post, rfl, -, hfree, hsize, rfl, rfl⟩ := place_spec hp
    have hroom := (chain_cons_cons.mp h.chain.suffix).1.room
    simp only [geometry_hdr] at hroom
    have hmem : b ∈ pre ++ b :: n :: post := by simp
    refine Or.inr ?_
    by_cases hbig : alignTo size ALIGNED + geometry.hdr ≤ b.size
    · rw [cut_of_le hbig] at hat
      exact ⟨m', _, b, b.addr + 16 + alignTo size ALIGNED, halloc, hat, ⟨hmem, hfree, hsize⟩,
        HeapAt.adjacent hat, Nat.le_refl _⟩
    · rw [cut_of_lt (Nat.lt_of_not_le hbig)] at hat
      have hadj : Adjacent m' start (⟨b.addr, b.size, false⟩ : BlockList.Block).addr n.addr :=
        HeapAt.adjacent hat
      exact ⟨m', _, b, n.addr, halloc, hat, ⟨hmem, hfree, hsize⟩, hadj, by omega⟩

/-! ## The block is big enough -/

/-- The `size` bytes at `addr` follow the header of a block and end before the next header. -/
def BigEnough (m : Mem) (heap addr size : ℕ) : Prop :=
  ∃ b n, Adjacent m heap b n ∧ b + sizeofBlock = addr ∧ addr + size ≤ n

theorem le_alignTo (h : size ≤ 4294967288) : size ≤ alignTo size ALIGNED := by
  rw [alignTo_eight, u32_of_lt (by omega)]
  omega

theorem alignTo_of_gt (h : 4294967288 < size) (hlt : size < 4294967296) :
    alignTo size ALIGNED = 0 := by
  rw [alignTo_eight, u32]
  omega

/-- Nothing in the region has room for a size that wraps. -/
theorem HeapAt.not_bigEnough (h : HeapAt m start end_ bs) (hb : start + 16 ≤ x)
    (hsize : 4294967288 < size) : ¬BigEnough m start (x + 16) size := by
  rintro ⟨a, k, hak, -, hle⟩
  obtain ⟨b, n, hbn, rfl, rfl⟩ := h.adjacent_iff.mp hak
  have := (h.link hbn).2.2.2
  have := h.bounds
  omega

/-- **Allocations are big enough** in every reachable heap, for exactly the sizes up to
    `2 ^ 32 - 8`; above, `align_to` wraps to 0 and any free block is handed out. -/
theorem allocate_bigEnough_iff (m : Mem) (hlen : start + sizeofAllocator + 3 * sizeofBlock ≤ end_)
    (hlt : end_ < 4294967296) (hs : Reachable step (newHeap m start end_) s)
    (hsize : size < 4294967296) :
    (∃ m' addr, allocate s.mem s.heap size = some (m', addr) ∧
        (addr = 0 ∨ BigEnough m' s.heap addr size)) ↔
      size ≤ 4294967288 ∨ ∀ b ∈ blocks s.mem s.heap, Block.isFree s.mem b = false := by
  obtain ⟨bs, h⟩ := reachable_inv hlen hlt hs
  have hat := h.heapAt
  rw [h.at_start]
  rcases hat.allocate_cases size with ⟨halloc, hnone⟩ | ⟨m', bs', b, n, halloc, hat', hb, hbn, hle⟩
  · refine iff_of_true ⟨_, _, halloc, Or.inl rfl⟩ ?_
    by_cases hs8 : size ≤ 4294967288
    · exact Or.inl hs8
    · refine Or.inr ?_
      intro x hx
      obtain ⟨b, hb, rfl⟩ := hat.mem_blocks.mp hx
      rw [hat.isFree_at hb]
      by_contra hf
      have := hnone b hb (by simpa using hf)
      rw [alignTo_of_gt (by omega) hsize] at this
      omega
  · have hge := (hat.free_bounds hb.1 hb.2.1).1
    by_cases hs8 : size ≤ 4294967288
    · have := le_alignTo hs8
      exact iff_of_true ⟨_, _, halloc, Or.inr ⟨b.addr, n, hbn, rfl, by omega⟩⟩ (Or.inl hs8)
    · refine iff_of_false ?_ ?_
      · rintro ⟨m'', addr, heq, hret⟩
        cases halloc.symm.trans heq
        rcases hret with hzero | hbig
        · omega
        · exact hat'.not_bigEnough (by omega) (by omega) hbig
      · rintro (hle8 | hall)
        · exact hs8 hle8
        · have := hall b.addr (hat.mem_blocks.mpr ⟨b, hb.1, rfl⟩)
          rw [hat.isFree_at hb.1, hb.2.1] at this
          cases this

theorem allocate_bigEnough_iff_example : ∃ s : HeapState, s.live = [4144, 4184] ∧
    ∃ m' addr, allocate s.mem s.heap 100 = some (m', addr) ∧
      (addr = 0 ∨ BigEnough m' s.heap addr 100) := by
  obtain ⟨s, hrun, hlive⟩ := Option.map_eq_some_iff.mp exampleCalls_live
  exact ⟨s, hlive, (allocate_bigEnough_iff (fun _ => 0) (by decide) (by decide) ⟨_, hrun⟩
    (by omega)).mpr (Or.inl (by omega))⟩

/-- A request for `2 ^ 32 - 1` bytes from a new heap of 256 gets the address 4144. -/
theorem allocate_wrapped : ∃ m', allocate (newHeap (fun _ => 0) 4096 4352).mem
      (newHeap (fun _ => 0) 4096 4352).heap 4294967295 = some (m', 4144) ∧
    ¬BigEnough m' (newHeap (fun _ => 0) 4096 4352).heap 4144 4294967295 := by
  have h := newHeap_inv (fun _ => 0) (by omega : 4096 + 64 ≤ 4352) (by omega)
  have hp : (place geometry (alignTo 4294967295 ALIGNED) (initialBlocks 4096 4352)).isSome := by
    decide
  obtain ⟨⟨bs', data⟩, hp⟩ := Option.isSome_iff_exists.mp hp
  have href := allocate_refines h.heapAt 4294967295
  rw [hp] at href
  obtain ⟨m', halloc, hat⟩ := href
  have hdata : data = 4144 := by
    have : (place geometry (alignTo 4294967295 ALIGNED) (initialBlocks 4096 4352)).map Prod.snd =
        some 4144 := by decide
    rw [hp] at this
    exact Option.some.inj this
  subst hdata
  rw [h.at_start]
  exact ⟨m', halloc, hat.not_bigEnough (by omega) (by omega)⟩

/-! ## No request fails needlessly -/

/-- A block records all the bytes up to its neighbour. -/
theorem HeapAt.recorded (h : HeapAt m start end_ bs) (hbn : [b, n] <:+: bs) :
    b.size = gapBytes b.addr n.addr := by
  obtain ⟨hlink, -, -, -⟩ := h.link hbn
  have hroom := hlink.room
  simp only [geometry_hdr] at hroom
  unfold gapBytes sizeofBlock
  rcases hlink.size with hs | ⟨hs, -⟩
  · rw [geometry_gap] at hs
    omega
  · simp only [geometry_hdr] at hs
    omega

/-- **`allocate` fails only when nothing fits**: in every reachable heap it returns, and it returns
    0 only if no free block has the rounded size between its header and the next one. -/
theorem allocate_complete (m : Mem) (hlen : start + sizeofAllocator + 3 * sizeofBlock ≤ end_)
    (hlt : end_ < 4294967296) (hs : Reachable step (newHeap m start end_) s) (size : ℕ) :
    ∃ m' addr, allocate s.mem s.heap size = some (m', addr) ∧
      (addr = 0 → ∀ b n, Adjacent s.mem s.heap b n → Block.isFree s.mem b = true →
        gapBytes b n < alignTo size ALIGNED) := by
  obtain ⟨bs, h⟩ := reachable_inv hlen hlt hs
  have hat := h.heapAt
  rw [h.at_start]
  rcases hat.allocate_cases size with ⟨halloc, hnone⟩ | ⟨m', bs', b, n, halloc, -, hb, -, -⟩
  · refine ⟨s.mem, 0, halloc, fun _ x y hxy hf => ?_⟩
    -- first fit passed the block over, so it records too little, and it records its whole gap
    obtain ⟨b, n, hbn, rfl, rfl, hbf⟩ := hat.adjacent_free hxy hf
    rw [← hat.recorded hbn]
    exact hnone b (hat.link hbn).2.1 hbf
  · have hge := (hat.free_bounds hb.1 hb.2.1).1
    exact ⟨m', b.addr + 16, halloc, fun h0 => by omega⟩

/-- A request for 1000 bytes from a heap of 256 returns 0, and no gap is that wide. -/
theorem allocate_complete_example : ∃ s : HeapState, s.live = [4144, 4184] ∧
    ∃ m', allocate s.mem s.heap 1000 = some (m', 0) ∧
      ∀ b n, Adjacent s.mem s.heap b n → Block.isFree s.mem b = true → gapBytes b n < 1000 := by
  have hview : (run step (newHeap (fun _ => 0) 4096 4352) exampleCalls).map
      (fun s => (s.live, (allocate s.mem s.heap 1000).map Prod.snd)) =
      some ([4144, 4184], some 0) := by
    decide +kernel
  obtain ⟨s, hrun, hs⟩ := Option.map_eq_some_iff.mp hview
  obtain ⟨hlive, haddr⟩ := Prod.mk.inj hs
  obtain ⟨⟨m', addr⟩, halloc, rfl⟩ := Option.map_eq_some_iff.mp haddr
  obtain ⟨m'', addr', halloc', hwide⟩ :=
    allocate_complete (fun _ => 0) (by decide) (by decide) ⟨_, hrun⟩ 1000
  cases halloc.symm.trans halloc'
  exact ⟨s, hlive, m', halloc, hwide rfl⟩

/-! ## Freeing again -/

/-- A free block lies between two that are not. -/
theorem HeapAt.between (h : HeapAt m start end_ bs) (hb : b ∈ bs) (hf : b.free = true) :
    ∃ pre a c rest, bs = pre ++ a :: b :: c :: rest ∧ a.free = false ∧ c.free = false := by
  obtain ⟨f, tl, hbs, -⟩ := h.first
  obtain ⟨pre, rest, rfl⟩ := List.append_of_mem hb
  obtain ⟨c, rest, rfl⟩ := h.chain.suffix.exists_next_of_free hf
  rcases List.eq_nil_or_concat pre with rfl | ⟨pre, a, rfl⟩
  · obtain ⟨rfl, -⟩ := List.cons.inj hbs
    cases hf
  · rw [List.concat_append] at h ⊢
    obtain ⟨hab, hbc⟩ := chain_cons_cons.mp h.chain.suffix
    have haf : a.free = false := by simpa [hf] using hab.coalesced
    have hcf : c.free = false := by simpa [hf] using (chain_cons_cons.mp hbc).1.coalesced
    exact ⟨pre, a, c, rest, rfl, haf, hcf⟩

/-- `free` of a block that is free already writes what is there. -/
theorem HeapAt.free_again (h : HeapAt m start end_ bs) {node : ℕ}
    (hnode : node = u32 (addr + 4294967296 - sizeofBlock))
    (hfree : ∀ b ∈ bs, b.addr = node → b.free = true) : free m start addr = some m := by
  unfold free
  simp only [← hnode]
  rw [h.isOnList_head, Option.bind_some]
  by_cases hmem : ∃ b ∈ bs, b.addr = node
  · obtain ⟨b, hb, rfl⟩ := hmem
    have hbf := hfree b hb rfl
    have hany : (bs.any fun x => x.addr == b.addr) = true :=
      List.any_eq_true.mpr ⟨b, hb, beq_self_eq_true _⟩
    obtain ⟨pre, a, c, rest, rfl, haf, hcf⟩ := h.between hb hbf
    obtain ⟨ha', hb', hc', -⟩ := (seg_append.mp h.seg).2
    have hst : Block.setState m b.addr Block.free = m := by
      have hs : load32 m (b.addr + 12) = Block.free := by
        have := congrArg Header.state hb'
        rw [hbf] at this
        exact this
      rw [Block.setState, ← hs, store32_load32]
    have hprev : Block.isFree m a.addr = false := (isFree_eq ha').trans haf
    have hnext : Block.isFree m c.addr = false := (isFree_eq hc').trans hcf
    have hnx : Block.next m b.addr = c.addr := next_eq hb'
    rw [hany, hst, prev_eq hb', hnx]
    simp [hprev, hnext]
  · have hany : (bs.any fun x => x.addr == node) = false :=
      List.any_eq_false.mpr fun b hb hbn => hmem ⟨b, hb, by simpa using hbn⟩
    rw [hany]
    rfl

/-- **Freeing again leaves the heap intact.**  In every reachable heap, `free` of an address that
    was returned earlier and is not the data address of an allocated block changes no byte. -/
theorem free_repeated (m : Mem) (hlen : start + sizeofAllocator + 3 * sizeofBlock ≤ end_)
    (hlt : end_ < 4294967296) (hs : Reachable step (newHeap m start end_) s)
    (haddr : addr ∈ s.returned) (hstale : ∀ b ∈ blocks s.mem s.heap,
      Block.getDataAddress b = addr → Block.state s.mem b ≠ Block.allocated) :
    free s.mem s.heap addr = some s.mem := by
  obtain ⟨bs, h⟩ := reachable_inv hlen hlt hs
  have hat := h.heapAt
  have hbound := hat.bounds
  have hcase := h.returned addr haddr
  rw [h.at_start] at hstale ⊢
  refine hat.free_again rfl ?_
  intro b hb hnode
  by_contra hf
  have hle := hat.chain.addr_le hb
  have hge := hat.addr_ge hb
  simp only [u32, sizeofBlock] at hnode
  have hmem : b.addr ∈ blocks s.mem start := hat.mem_blocks.mpr ⟨b, hb, rfl⟩
  have hdata : Block.getDataAddress b.addr = addr := by
    rw [getDataAddress_eq (by omega)]
    omega
  obtain ⟨q, r, hh⟩ := hat.seg.header_mem hb
  have hst : Block.state s.mem b.addr = stateOf b.free := congrArg Header.state hh
  refine hstale b.addr hmem hdata ?_
  rw [hst, Bool.eq_false_iff.mpr hf]
  rfl

/-- Two allocations, both freed: the second block is merged into the first. -/
def freedCalls : List Op := [.allocate 24, .allocate 8, .free 4144, .free 4184]

theorem free_repeated_example : ∃ s : HeapState, s.returned = [4184, 4144] ∧
    blocks s.mem s.heap = [4112, 4128, 4336] ∧ free s.mem s.heap 4184 = some s.mem := by
  have hview : (run step (newHeap (fun _ => 0) 4096 4352) freedCalls).map
      (fun s => (s.returned, blocks s.mem s.heap)) =
      some ([4184, 4144], [4112, 4128, 4336]) := by
    decide +kernel
  obtain ⟨s, hrun, hs⟩ := Option.map_eq_some_iff.mp hview
  obtain ⟨hret, hblocks⟩ := Prod.mk.inj hs
  refine ⟨s, hret, hblocks, free_repeated (fun _ => 0) (by decide) (by decide) ⟨_, hrun⟩ ?_ ?_⟩
  · rw [hret]
    exact List.mem_cons_self
  · rw [hblocks]
    simp [Block.getDataAddress, sizeofBlock, u32]

end HryOS.Allocator
