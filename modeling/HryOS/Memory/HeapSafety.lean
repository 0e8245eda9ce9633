import HryOS.Lib.Transition
import HryOS.Memory.AllocatorRefines

/-!
# Runs of the heap: safety, representation, no leaks

A client calls `allocate` with any 32-bit size and `free` with any address it was given before
(again and again, if it likes).  `HeapState` adds to memory the client's view: the addresses
returned so far and those of them not yet freed.

* `HeapInv` — the invariant: memory holds a block list, and the live addresses are the data
  addresses of its allocated blocks (the sentinels apart).
* `heap_safety` — live allocations never overlap each other, a header or the bounds, and no call
  disturbs another live allocation.
* `heap_representation` — the list stays doubly linked, sorted, within its sizes and coalesced.
* `heap_no_leak` — with nothing live the list is the one `create` made.
-/

set_option autoImplicit false

namespace HryOS.Allocator

open ByteMemory BlockList Transition

/-- The memory, the heap in it, every address `allocate` returned, and those still live. -/
structure HeapState where
  mem : Mem
  heap : ℕ
  returned : List ℕ
  live : List ℕ

/-- A client's call. -/
inductive Op where
  | allocate (size : ℕ)
  | free (addr : ℕ)
  deriving DecidableEq

/-- The calls a client may make: any 32-bit size, any address returned earlier. -/
def Op.Allowed (s : HeapState) : Op → Prop
  | .allocate size => size < 4294967296
  | .free addr => addr ∈ s.returned

instance (s : HeapState) (op : Op) : Decidable (op.Allowed s) := by
  cases op <;> unfold Op.Allowed <;> infer_instance

/-- One call. -/
def call (s : HeapState) : Op → Option HeapState
  | .allocate size =>
    (allocate s.mem s.heap size).map fun (m, addr) =>
      { s with mem := m, returned := addr :: s.returned,
               live := if addr = 0 then s.live else addr :: s.live }
  | .free addr =>
    (free s.mem s.heap addr).map fun m =>
      { s with mem := m, live := s.live.filter (· ≠ addr) }

/-- One allowed call; `none` if the call is not allowed or does not return. -/
def step (s : HeapState) (op : Op) : Option HeapState := if op.Allowed s then call s op else none

/-- The heap right after `create`. -/
def newHeap (m : Mem) (start end_ : ℕ) : HeapState :=
  ⟨(create m start end_).1, (create m start end_).2, [], []⟩

/-- The size recorded in the header in front of the data address `addr`. -/
def recordedSize (m : Mem) (addr : ℕ) : ℕ := Block.size m (addr - sizeofBlock)

/-- Is the block in front of the data address `addr` marked allocated? -/
def recordedState (m : Mem) (addr : ℕ) : ℕ := Block.state m (addr - sizeofBlock)

variable {start end_ addr size a : ℕ} {m m' : Mem} {s s' : HeapState} {op : Op}
  {b c f : BlockList.Block} {bs bs' rest : List BlockList.Block}

/-! ## The invariant -/

/-- `a` is the data address of an allocated block of `bs` that is not a sentinel. -/
def IsLive (start end_ : ℕ) (bs : List BlockList.Block) (a : ℕ) : Prop :=
  ∃ b ∈ bs, b.free = false ∧ b.addr + 16 = a ∧ b.addr ≠ start + 16 ∧ b.addr ≠ end_ - 16

/-- The invariant of a heap state over the region `[start, end_)`. -/
structure HeapInv (start end_ : ℕ) (bs : List BlockList.Block) (s : HeapState) : Prop where
  at_start : s.heap = start
  heapAt : HeapAt s.mem start end_ bs
  live : ∀ a, a ∈ s.live ↔ IsLive start end_ bs a
  nodup : s.live.Nodup
  returned : ∀ a ∈ s.returned, a = 0 ∨ (start + 48 ≤ a ∧ a ≤ end_ - 16)
  given : ∀ a ∈ s.live, a ∈ s.returned
  aligned : ∀ b ∈ bs, b.addr ≠ end_ - 16 → b.addr % 8 = start % 8

/-- Blocks other than the head sentinel start at the first block or above. -/
theorem HeapAt.addr_ge_first (h : HeapAt m start end_ bs) (hb : b ∈ bs)
    (hne : b.addr ≠ start + 16) : start + 32 ≤ b.addr := by
  obtain ⟨f, rest, hbs, hf⟩ := h.first
  have hp := h.chain.pairwise
  rw [hbs] at hb hp
  rcases List.mem_cons.mp hb with rfl | hb
  · exact absurd rfl hne
  rcases List.mem_cons.mp hb with rfl | hb
  · omega
  · have := (List.pairwise_cons.mp (List.pairwise_cons.mp hp).2).1 b hb
    omega

/-- Blocks other than the tail sentinel end before it. -/
theorem HeapAt.end_le (h : HeapAt m start end_ bs) (hb : b ∈ bs) (hne : b.addr ≠ end_ - 16) :
    b.addr + 16 + b.size ≤ end_ - 16 := by
  obtain ⟨pre, rfl⟩ := h.chain.eq_append
  rcases List.mem_append.mp hb with hb | hb
  · exact (List.pairwise_append.mp h.chain.pairwise).2.2 b hb _ (List.mem_singleton_self _)
  · rw [List.mem_singleton.mp hb] at hne
    exact absurd rfl hne

/-- The sentinels are allocated, with size 0. -/
theorem HeapAt.sentinel (h : HeapAt m start end_ bs) (hb : b ∈ bs)
    (hs : b.addr = start + 16 ∨ b.addr = end_ - 16) : b.free = false ∧ b.size = 0 := by
  have key : ∀ x ∈ bs, x.free = false → x.size = 0 → b.addr = x.addr →
      b.free = false ∧ b.size = 0 := fun x hx hxf hxs hbx => by
    rw [h.chain.eq_of_addr hb hx hbx]
    exact ⟨hxf, hxs⟩
  obtain ⟨f, rest, hbs, -⟩ := h.first
  rcases hs with hs | hs
  · exact key ⟨start + 16, 0, false⟩ (by rw [hbs]; exact List.mem_cons_self) rfl rfl hs
  · exact key ⟨end_ - 16, 0, false⟩ (List.mem_of_getLast? h.chain.last) rfl rfl hs

/-- A free block lies strictly between the sentinels. -/
theorem HeapAt.free_bounds (h : HeapAt m start end_ bs) (hb : b ∈ bs) (hf : b.free = true) :
    start + 32 ≤ b.addr ∧ b.addr + 16 ≤ end_ - 16 ∧ b.addr ≠ start + 16 ∧ b.addr ≠ end_ - 16 := by
  have hne : b.addr ≠ start + 16 ∧ b.addr ≠ end_ - 16 := by
    constructor <;> intro he
    · rw [(h.sentinel hb (Or.inl he)).1] at hf
      cases hf
    · rw [(h.sentinel hb (Or.inr he)).1] at hf
      cases hf
  have h1 := h.addr_ge_first hb hne.1
  have h2 := h.end_le hb hne.2
  exact ⟨h1, by omega, hne⟩

theorem newHeap_inv (m : Mem) (h : start + 64 ≤ end_) (hlt : end_ < 4294967296) :
    HeapInv start end_ (initialBlocks start end_) (newHeap m start end_) := by
  obtain ⟨m', heq, hat⟩ := create_heapAt m h hlt
  have hlive : ∀ a, ¬ IsLive start end_ (initialBlocks start end_) a := by
    rintro a ⟨b, hb, hf, -, h1, h2⟩
    simp only [initialBlocks, List.mem_cons, List.not_mem_nil, or_false] at hb
    rcases hb with rfl | rfl | rfl
    · exact h1 rfl
    · cases hf
    · exact h2 rfl
  unfold newHeap
  rw [heq]
  refine ⟨rfl, hat, fun a => ⟨fun ha => absurd ha List.not_mem_nil, fun ha => absurd ha (hlive a)⟩,
    List.nodup_nil, fun a ha => absurd ha List.not_mem_nil,
    fun a ha => absurd ha List.not_mem_nil, ?_⟩
  intro b hb hne
  simp only [initialBlocks, List.mem_cons, List.not_mem_nil, or_false] at hb
  rcases hb with rfl | rfl | rfl
  · simp only; omega
  · simp only; omega
  · exact absurd rfl hne

/-! ## One call -/

theorem alignTo_mod (size : ℕ) : alignTo size ALIGNED % 8 = 0 := by
  rw [alignTo_eight]; omega

/-- A placement adds the live address it returns, which lay in a free block, and keeps the
    allocated blocks. -/
structure Placed (start end_ data : ℕ) (bs bs' : List BlockList.Block) : Prop where
  live : ∀ a, IsLive start end_ bs' a ↔ a = data ∨ IsLive start end_ bs a
  fresh : ¬IsLive start end_ bs data
  kept : ∀ b ∈ bs, b.free = false → b ∈ bs'
  lower : start + 48 ≤ data
  upper : data ≤ end_ - 16

theorem HeapAt.placed {n data : ℕ} (h : HeapAt m start end_ bs)
    (hp : place geometry n bs = some (bs', data)) : Placed start end_ data bs bs' := by
  obtain ⟨pre, b, post, hl, hl', hdata, -, c, hc, hcf, hcb⟩ := place_live hp
  obtain ⟨h1, h2, h3, h4⟩ := h.free_bounds hc hcf
  simp only [geometry_hdr] at hdata
  have hb : b ∈ bs' ∧ b.free = false := mem_live.mp (by rw [hl']; simp)
  have hkeep : ∀ x, x ∈ bs → x.free = false → x ∈ bs' ∧ x.free = false := fun x hx hxf => by
    have hx' : x ∈ BlockList.live bs := mem_live.mpr ⟨hx, hxf⟩
    refine mem_live.mp ?_
    rw [hl] at hx'
    rw [hl']
    rcases List.mem_append.mp hx' with hx' | hx'
    · exact List.mem_append_left _ hx'
    · exact List.mem_append_right _ (List.mem_cons_of_mem _ hx')
  have hold : ∀ x, x ∈ bs' → x.free = false → x = b ∨ x ∈ bs := fun x hx hxf => by
    have hx' : x ∈ BlockList.live bs' := mem_live.mpr ⟨hx, hxf⟩
    rw [hl'] at hx'
    have : x = b ∨ x ∈ BlockList.live bs := by
      rw [hl]
      simp only [List.mem_append, List.mem_cons] at hx' ⊢
      tauto
    exact this.imp_right fun hx => (mem_live.mp hx).1
  refine ⟨fun a => ⟨?_, ?_⟩, ?_, fun x hx hxf => (hkeep x hx hxf).1, by omega, by omega⟩
  · rintro ⟨x, hx, hxf, hxa, hx1, hx2⟩
    rcases hold x hx hxf with rfl | hx
    · exact Or.inl (by omega)
    · exact Or.inr ⟨x, hx, hxf, hxa, hx1, hx2⟩
  · rintro (rfl | ⟨x, hx, hxf, hxa, hx1, hx2⟩)
    · exact ⟨b, hb.1, hb.2, hdata, by omega, by omega⟩
    · exact ⟨x, (hkeep x hx hxf).1, hxf, hxa, hx1, hx2⟩
  · rintro ⟨x, hx, hxf, hxa, -, -⟩
    have := h.chain.eq_of_addr hx hc (by omega)
    rw [this, hcf] at hxf
    cases hxf

/-- Sizes are multiples of 8, so a split keeps the headers 8-aligned. -/
theorem HeapInv.aligned_place {size data : ℕ} (h : HeapInv start end_ bs s)
    (hp : place geometry (alignTo size ALIGNED) bs = some (bs', data)) :
    ∀ b ∈ bs', b.addr ≠ end_ - 16 → b.addr % 8 = start % 8 := by
  intro x hx hxt
  obtain ⟨y, hy, hxy | ⟨hxy, hyf⟩⟩ := place_addr hp hx
  · rw [hxy]
    exact h.aligned y hy (by omega)
  · have := h.aligned y hy (h.heapAt.free_bounds hy hyf).2.2.2
    have := alignTo_mod size
    simp only [geometry_hdr] at hxy
    omega

/-- What one `allocate` call does to a state with the invariant. -/
theorem allocate_inv (h : HeapInv start end_ bs s) (size : ℕ) :
    ∃ s' bs', call s (.allocate size) = some s' ∧ HeapInv start end_ bs' s' ∧
      ∀ b ∈ bs, b.free = false → b ∈ bs' := by
  have href := allocate_refines h.heapAt size
  rw [call, h.at_start]
  cases hp : place geometry (alignTo size ALIGNED) bs with
  | none =>
    rw [hp] at href
    simp only at href
    rw [href]
    refine ⟨_, bs, rfl, ⟨rfl, h.heapAt, h.live, h.nodup, ?_, ?_, h.aligned⟩, fun b hb _ => hb⟩
    · intro a ha
      rcases List.mem_cons.mp ha with rfl | ha
      · exact Or.inl rfl
      · exact h.returned a ha
    · exact fun a ha => List.mem_cons_of_mem _ (h.given a ha)
  | some r =>
    obtain ⟨bs', data⟩ := r
    rw [hp] at href
    obtain ⟨m', hm', hat⟩ := href
    obtain ⟨hlive, hfresh, hkept, hlower, hupper⟩ := h.heapAt.placed hp
    have hne : ¬data = 0 := by omega
    rw [hm']
    refine ⟨_, bs', rfl, ⟨rfl, hat, ?_, ?_, ?_, ?_, h.aligned_place hp⟩, hkept⟩
    · intro a
      simp only [if_neg hne, List.mem_cons, h.live a, hlive a]
    · simp only [if_neg hne]
      exact List.nodup_cons.mpr ⟨fun hmem => hfresh ((h.live data).mp hmem), h.nodup⟩
    · intro a ha
      rcases List.mem_cons.mp ha with rfl | ha
      · exact Or.inr ⟨hlower, hupper⟩
      · exact h.returned a ha
    · intro a ha
      simp only [if_neg hne] at ha
      rcases List.mem_cons.mp ha with rfl | ha
      · exact List.mem_cons_self
      · exact List.mem_cons_of_mem _ (h.given a ha)

/-- What one `free` call does to a state with the invariant. -/
theorem free_inv (h : HeapInv start end_ bs s) (ha : a ∈ s.returned) :
    ∃ s' bs', call s (.free a) = some s' ∧ HeapInv start end_ bs' s' ∧
      (∀ b ∈ bs, b.free = false → b.addr + 16 ≠ a → b ∈ bs') ∧
      s'.live = s.live.filter (· ≠ a) ∧ s'.returned = s.returned := by
  have hbound := h.heapAt.bounds
  have hcase := h.returned a ha
  obtain ⟨node, hnode⟩ : ∃ node, node = u32 (a + 4294967296 - sizeofBlock) := ⟨_, rfl⟩
  have hval : node = (a + 4294967280) % 4294967296 := by
    rw [hnode, u32, sizeofBlock]; omega
  have hhead : node ≠ start + 16 := by omega
  have htail : node ≠ end_ - 16 := by omega
  obtain ⟨m', hm', hat⟩ := free_refines h.heapAt hnode hhead htail
  have hl : live (release geometry node bs) = (live bs).filter fun b => b.addr ≠ node :=
    release_live h.heapAt.chain htail fun b hb => by
      obtain ⟨f, rest, hbs, -⟩ := h.heapAt.first
      rw [hbs] at hb
      obtain rfl : (⟨start + 16, 0, false⟩ : BlockList.Block) = b := by simpa using hb
      exact fun he => hhead he.symm
  have hmem : ∀ x, x ∈ release geometry node bs ∧ x.free = false ↔
      (x ∈ bs ∧ x.free = false) ∧ x.addr ≠ node := fun x => by
    rw [← mem_live, hl, List.mem_filter, mem_live]
    simp
  have hnode16 : ∀ x ∈ bs, (x.addr ≠ node ↔ x.addr + 16 ≠ a) := fun x hx => by
    have := h.heapAt.addr_ge hx
    have := h.heapAt.chain.addr_le hx
    omega
  rw [call, h.at_start, hm']
  refine ⟨_, _, rfl, ⟨rfl, hat, ?_, h.nodup.filter _, h.returned, ?_, ?_⟩, ?_, rfl, rfl⟩
  · intro d
    simp only [List.mem_filter, h.live d, decide_eq_true_eq]
    constructor
    · rintro ⟨⟨x, hx, hxf, rfl, hx1, hx2⟩, hda⟩
      have := (hmem x).mpr ⟨⟨hx, hxf⟩, (hnode16 x hx).mpr (by simpa using hda)⟩
      exact ⟨x, this.1, hxf, rfl, hx1, hx2⟩
    · rintro ⟨x, hx, hxf, rfl, hx1, hx2⟩
      obtain ⟨⟨hx', -⟩, hxn⟩ := (hmem x).mp ⟨hx, hxf⟩
      exact ⟨⟨x, hx', hxf, rfl, hx1, hx2⟩, by simpa using (hnode16 x hx').mp hxn⟩
  · intro d hd
    exact h.given d (List.mem_of_mem_filter hd)
  · intro x hx hxt
    obtain ⟨y, hy, hyx⟩ := release_addr h.heapAt.chain htail hx
    rw [← hyx]
    exact h.aligned y hy (by omega)
  · intro x hx hxf hxa
    exact ((hmem x).mpr ⟨⟨hx, hxf⟩, (hnode16 x hx).mpr hxa⟩).1

theorem step_of_allowed (h : op.Allowed s) : step s op = call s op := if_pos h

theorem step_inv (h : ∃ bs, HeapInv start end_ bs s) (hs : step s op = some s') :
    ∃ bs, HeapInv start end_ bs s' := by
  obtain ⟨bs, h⟩ := h
  unfold step at hs
  split at hs
  · rename_i hok
    cases op with
    | allocate size =>
      obtain ⟨t, bs', heq, hinv, -⟩ := allocate_inv h size
      cases heq.symm.trans hs
      exact ⟨bs', hinv⟩
    | free a =>
      obtain ⟨t, bs', heq, hinv, -⟩ := free_inv h hok
      cases heq.symm.trans hs
      exact ⟨bs', hinv⟩
  · cases hs

theorem reachable_inv {m : Mem} (h : start + 64 ≤ end_) (hlt : end_ < 4294967296)
    (hs : Reachable step (newHeap m start end_) s) : ∃ bs, HeapInv start end_ bs s :=
  hs.invariant ⟨_, newHeap_inv m h hlt⟩ fun _ _ _ hi hstep => step_inv hi hstep

/-! ## What memory shows -/

theorem Seg.header_mem {p n : ℕ} (h : Seg m p bs n) (hb : b ∈ bs) :
    ∃ q r, header m b.addr = ⟨q, r, b.size, stateOf b.free⟩ := by
  obtain ⟨pre, post, rfl⟩ := List.append_of_mem hb
  exact ⟨_, _, (seg_append.mp h).2.1⟩

theorem blocksFrom_eq : ∀ {bs : List BlockList.Block} {p fuel : ℕ}, Seg m p bs 0 →
    (∀ b ∈ bs, b.addr ≠ 0) → bs.length ≤ fuel →
    blocksFrom m fuel (firstAddr 0 bs) = bs.map BlockList.Block.addr
  | [], _, 0, _, _, _ => rfl
  | [], _, _ + 1, _, _, _ => rfl
  | b :: bs, p, fuel + 1, hs, h0, hfuel => by
    have hnext : Block.next m b.addr = firstAddr 0 bs := next_eq hs.1
    rw [blocksFrom, firstAddr, if_neg (h0 b List.mem_cons_self), hnext,
      blocksFrom_eq hs.2 (fun c hc => h0 c (List.mem_cons_of_mem _ hc)) (by simpa using hfuel),
      List.map_cons]

theorem HeapAt.blocks_eq (h : HeapAt m start end_ bs) :
    blocks m start = bs.map BlockList.Block.addr := by
  have hlen := h.length_le
  have hh : head m start = firstAddr 0 bs := by
    obtain ⟨f, rest, hbs, -⟩ := h.first
    rw [h.head_eq, hbs]
    rfl
  rw [blocks, h.memoryLength_eq, hh]
  exact blocksFrom_eq h.seg (fun b hb => by have := h.addr_ge hb; omega) (by omega)

theorem HeapAt.mem_blocks (h : HeapAt m start end_ bs) {x : ℕ} :
    x ∈ blocks m start ↔ ∃ b ∈ bs, b.addr = x := by
  rw [h.blocks_eq, List.mem_map]

theorem Seg.linked {p n : ℕ} (h : Seg m p bs n) : bs.IsChain fun a b =>
    Block.next m a.addr = b.addr ∧ Block.prev m b.addr = a.addr := by
  induction bs generalizing p with
  | nil => exact .nil
  | cons a bs ih =>
    cases bs with
    | nil => exact .singleton _
    | cons b bs =>
      exact List.isChain_cons_cons.mpr ⟨⟨next_eq h.1, prev_eq h.2.1⟩, ih h.2⟩

/-- The header in front of a live address. -/
theorem HeapInv.live_block (h : HeapInv start end_ bs s) (ha : a ∈ s.live) :
    ∃ b ∈ bs, b.free = false ∧ b.addr + 16 = a ∧ start + 32 ≤ b.addr ∧ a + b.size ≤ end_ - 16 ∧
      recordedSize s.mem a = b.size ∧ recordedState s.mem a = Block.allocated := by
  obtain ⟨b, hb, hbf, rfl, h1, h2⟩ := (h.live a).mp ha
  obtain ⟨q, r, hh⟩ := h.heapAt.seg.header_mem hb
  refine ⟨b, hb, hbf, rfl, h.heapAt.addr_ge_first hb h1, h.heapAt.end_le hb h2, ?_, ?_⟩
  · rw [recordedSize, sizeofBlock, Nat.add_sub_cancel]
    exact size_eq hh
  · rw [recordedState, sizeofBlock, Nat.add_sub_cancel]
    have hs : Block.state s.mem b.addr = stateOf b.free := congrArg Header.state hh
    rw [hs, hbf]
    rfl

/-! ## Safety -/

/-- The live allocations of `s` are where they should be: disjoint from each other, from the
    allocator object and from every header on the list, inside the region and 8-aligned. -/
structure Safe (start end_ : ℕ) (s : HeapState) : Prop where
  nodup : s.live.Nodup
  disjoint : ∀ a ∈ s.live, ∀ b ∈ s.live, a ≠ b →
    a + recordedSize s.mem a ≤ b ∨ b + recordedSize s.mem b ≤ a
  off_object : ∀ a ∈ s.live, a + recordedSize s.mem a ≤ s.heap ∨ s.heap + sizeofAllocator ≤ a
  off_headers : ∀ a ∈ s.live, ∀ b ∈ blocks s.mem s.heap,
    a + recordedSize s.mem a ≤ b ∨ b + sizeofBlock ≤ a
  inside : ∀ a ∈ s.live, start ≤ a ∧ a + recordedSize s.mem a ≤ end_
  aligned : ∀ a ∈ s.live, a % 8 = 0

/-- The call `op` from `s` to `s'` left every other live allocation as it was. -/
def Untouched (s : HeapState) (op : Op) (s' : HeapState) : Prop :=
  ∀ a ∈ s.live, op ≠ .free a → a ∈ s'.live ∧
    recordedSize s'.mem a = recordedSize s.mem a ∧
    recordedState s.mem a = Block.allocated ∧ recordedState s'.mem a = Block.allocated

theorem HeapInv.safe (h : HeapInv start end_ bs s) (h8 : start % 8 = 0) : Safe start end_ s := by
  have hbound := h.heapAt.bounds
  have hlt : ∀ {x y : BlockList.Block}, x ∈ bs → y ∈ bs → x.addr < y.addr →
      x.addr + 16 + x.size ≤ y.addr := fun {x y} hx hy hxy => by
    have hs := h.heapAt.chain.pairwise
    obtain ⟨pre, post, rfl⟩ := List.append_of_mem hx
    rcases List.mem_append.mp hy with hy | hy
    · have := (List.pairwise_append.mp hs).2.2 y hy x List.mem_cons_self
      omega
    · rcases List.mem_cons.mp hy with rfl | hy
      · omega
      · exact (List.pairwise_cons.mp (List.pairwise_append.mp hs).2.1).1 y hy
  refine ⟨h.nodup, ?_, ?_, ?_, ?_, ?_⟩
  · intro a ha b hb hab
    obtain ⟨x, hx, -, rfl, -, -, hxs, -⟩ := h.live_block ha
    obtain ⟨y, hy, -, rfl, -, -, hys, -⟩ := h.live_block hb
    rw [hxs, hys]
    rcases Nat.lt_or_ge x.addr y.addr with hl | hl
    · have := hlt hx hy hl
      omega
    · have := hlt hy hx (by omega)
      omega
  · intro a ha
    obtain ⟨x, hx, -, rfl, hge, -, -, -⟩ := h.live_block ha
    rw [h.at_start, sizeofAllocator]
    omega
  · intro a ha b hb
    obtain ⟨x, hx, -, rfl, -, -, hxs, -⟩ := h.live_block ha
    rw [h.at_start] at hb
    obtain ⟨y, hy, rfl⟩ := h.heapAt.mem_blocks.mp hb
    rw [hxs, sizeofBlock]
    rcases Nat.lt_or_ge x.addr y.addr with hl | hl
    · have := hlt hx hy hl
      omega
    · omega
  · intro a ha
    obtain ⟨x, hx, -, rfl, hge, hle, hxs, -⟩ := h.live_block ha
    rw [hxs]
    omega
  · intro a ha
    obtain ⟨x, hx, -, rfl, hge, hle, -, -⟩ := h.live_block ha
    have := h.aligned x hx (by omega)
    omega

theorem untouched_of_keep (h : HeapInv start end_ bs s) (h' : HeapInv start end_ bs' s')
    (hkeep : ∀ b ∈ bs, b.free = false → op ≠ .free (b.addr + 16) → b ∈ bs') :
    Untouched s op s' := by
  intro a ha hop
  obtain ⟨b, hb, hbf, rfl, hge, hle, hsz, hst⟩ := h.live_block ha
  have hb' := hkeep b hb hbf hop
  have ha' : b.addr + 16 ∈ s'.live := (h'.live _).mpr ⟨b, hb', hbf, rfl, by omega, by omega⟩
  obtain ⟨c, hc, -, hca, -, -, hsz', hst'⟩ := h'.live_block ha'
  have hcb : c = b := h'.heapAt.chain.eq_of_addr hc hb' (by omega)
  exact ⟨ha', by rw [hsz, hsz', hcb], hst, hst'⟩

/-- Every allowed call returns, and leaves every other live allocation as it was. -/
theorem step_returns (h : HeapInv start end_ bs s) (hop : op.Allowed s) :
    ∃ s', step s op = some s' ∧ Untouched s op s' := by
  rw [step_of_allowed hop]
  cases op with
  | allocate size =>
    obtain ⟨s', bs', heq, hinv, hkeep⟩ := allocate_inv h size
    exact ⟨s', heq, untouched_of_keep h hinv fun b hb hbf _ => hkeep b hb hbf⟩
  | free a =>
    obtain ⟨s', bs', heq, hinv, hkeep, -, -⟩ := free_inv h hop
    exact ⟨s', heq, untouched_of_keep h hinv fun b hb hbf hne =>
      hkeep b hb hbf fun he => hne (by rw [he])⟩

/-- **Heap safety.**  In every state reached by allowed calls from a new heap in an 8-aligned
    region, the live allocations are safe; every allowed call returns, and touches no other live
    allocation. -/
theorem heap_safety (m : Mem) (hlen : start + sizeofAllocator + 3 * sizeofBlock ≤ end_)
    (hlt : end_ < 4294967296) (h8 : start % 8 = 0)
    (hs : Reachable step (newHeap m start end_) s) :
    Safe start end_ s ∧ ∀ op : Op, op.Allowed s → ∃ s', step s op = some s' ∧ Untouched s op s' := by
  obtain ⟨bs, h⟩ := reachable_inv hlen hlt hs
  exact ⟨h.safe h8, fun op hop => step_returns h hop⟩

/-- A run that splits twice, frees, and places the third allocation in the gap. -/
def exampleCalls : List Op := [.allocate 24, .allocate 8, .free 4144, .allocate 16]

theorem exampleCalls_live :
    (run step (newHeap (fun _ => 0) 4096 4352) exampleCalls).map (·.live) = some [4144, 4184] := by
  decide +kernel

theorem heap_safety_example : ∃ s, s.live = [4144, 4184] ∧ Safe 4096 4352 s ∧
    ∀ op : Op, op.Allowed s → ∃ s', step s op = some s' ∧ Untouched s op s' := by
  obtain ⟨s, hrun, hlive⟩ := Option.map_eq_some_iff.mp exampleCalls_live
  exact ⟨s, hlive, heap_safety (fun _ => 0) (by decide) (by decide) (by decide) ⟨_, hrun⟩⟩

/-! ## Representation -/

/-- The linked list in memory is what the allocator takes it for. -/
structure WellFormed (m : Mem) (heap : ℕ) : Prop where
  first : (blocks m heap).head? = some (head m heap)
  last : (blocks m heap).getLast? = some (tail m heap)
  increasing : (blocks m heap).Pairwise (· < ·)
  linked : (blocks m heap).IsChain fun a b => Block.next m a = b ∧ Block.prev m b = a
  ends : Block.prev m (head m heap) = 0 ∧ Block.next m (tail m heap) = 0
  sentinels : ∀ x, x = head m heap ∨ x = tail m heap →
    Block.size m x = 0 ∧ Block.state m x = Block.allocated
  room : (blocks m heap).IsChain fun a b => a + sizeofBlock + Block.size m a ≤ b
  coalesced : (blocks m heap).IsChain fun a b => ¬(Block.isFree m a ∧ Block.isFree m b)

theorem HeapAt.wellFormed (h : HeapAt m start end_ bs) : WellFormed m start := by
  obtain ⟨f, rest, hbs, -⟩ := h.first
  have hfield : ∀ b ∈ bs, Block.size m b.addr = b.size ∧ Block.state m b.addr = stateOf b.free ∧
      Block.isFree m b.addr = b.free := fun b hb => by
    obtain ⟨q, r, hh⟩ := h.seg.header_mem hb
    exact ⟨size_eq hh, congrArg Header.state hh, isFree_eq hh⟩
  obtain ⟨pre, hpre⟩ := h.chain.eq_append
  have htail : Block.next m (end_ - 16) = 0 := by
    have hs := h.seg
    rw [hpre] at hs
    exact next_eq (seg_append.mp hs).2.1
  have hhead : Block.prev m (start + 16) = 0 := by
    have hs := h.seg
    rw [hbs] at hs
    exact prev_eq hs.1
  have hlinks := h.chain.links
  refine ⟨?_, ?_, ?_, ?_, ?_, ?_, ?_, ?_⟩
  · rw [h.blocks_eq, h.head_eq, hbs]
    rfl
  · rw [h.blocks_eq, h.tail_eq, hpre]
    simp
  · rw [h.blocks_eq, List.pairwise_map]
    refine h.chain.pairwise.imp ?_
    intro a b hab
    simp only [geometry_hdr] at hab
    omega
  · rw [h.blocks_eq, List.isChain_map]
    exact h.seg.linked
  · rw [h.head_eq, h.tail_eq]
    exact ⟨hhead, htail⟩
  · intro x hx
    rw [h.head_eq, h.tail_eq] at hx
    rcases hx with rfl | rfl
    · have := hfield ⟨start + 16, 0, false⟩ (by rw [hbs]; exact List.mem_cons_self)
      exact ⟨this.1, this.2.1⟩
    · have := hfield ⟨end_ - 16, 0, false⟩ (List.mem_of_getLast? h.chain.last)
      exact ⟨this.1, this.2.1⟩
  · rw [h.blocks_eq, List.isChain_map]
    refine hlinks.imp_of_mem_imp ?_
    intro a b ha _ hab
    rw [(hfield a ha).1]
    exact hab.room
  · rw [h.blocks_eq, List.isChain_map]
    refine hlinks.imp_of_mem_imp ?_
    intro a b ha hb hab
    rw [(hfield a ha).2.2, (hfield b hb).2.2]
    exact hab.coalesced

/-- **Representation.**  In every state reached by allowed calls from a new heap the block list
    is well formed and fully coalesced, between the sentinels `create` made; every allowed call
    returns. -/
theorem heap_representation (m : Mem) (hlen : start + sizeofAllocator + 3 * sizeofBlock ≤ end_)
    (hlt : end_ < 4294967296) (hs : Reachable step (newHeap m start end_) s) :
    WellFormed s.mem s.heap ∧ head s.mem s.heap = start + sizeofAllocator ∧
      tail s.mem s.heap = end_ - sizeofBlock ∧
      ∀ op : Op, op.Allowed s → ∃ s', step s op = some s' := by
  obtain ⟨bs, h⟩ := reachable_inv hlen hlt hs
  rw [h.at_start]
  exact ⟨h.heapAt.wellFormed, h.heapAt.head_eq, h.heapAt.tail_eq, fun op hop =>
    (step_returns h hop).imp fun _ => And.left⟩

theorem heap_representation_example : ∃ s, s.live = [4144, 4184] ∧ WellFormed s.mem s.heap ∧
    head s.mem s.heap = 4112 ∧ tail s.mem s.heap = 4336 ∧
    ∀ op : Op, op.Allowed s → ∃ s', step s op = some s' := by
  obtain ⟨s, hrun, hlive⟩ := Option.map_eq_some_iff.mp exampleCalls_live
  exact ⟨s, hlive, heap_representation (fun _ => 0) (by decide) (by decide) ⟨_, hrun⟩⟩

/-! ## Nothing leaks -/

theorem Seg.header_eq {p n : ℕ} (h : Seg m p bs n) (h' : Seg m' p bs n) (hb : b ∈ bs) :
    header m b.addr = header m' b.addr := by
  induction bs generalizing p with
  | nil => cases hb
  | cons c bs ih =>
    rcases List.mem_cons.mp hb with rfl | hb
    · exact h.1.trans h'.1.symm
    · exact ih h.2 h'.2 hb

/-- The allocator object and the block list of `s`, links, sizes and states included, are those of
    `s'`. -/
structure SameList (s s' : HeapState) : Prop where
  object : s.heap = s'.heap ∧ header s.mem s.heap = header s'.mem s'.heap
  blocks : blocks s.mem s.heap = blocks s'.mem s'.heap
  headers : ∀ b ∈ Allocator.blocks s.mem s.heap, header s.mem b = header s'.mem b

/-- With nothing live the block list is the initial one. -/
theorem HeapInv.eq_initialBlocks (h : HeapInv start end_ bs s) (hlive : s.live = []) :
    bs = initialBlocks start end_ := by
  obtain ⟨f, rest, rfl, hf⟩ := h.heapAt.first
  have hbound := h.heapAt.bounds
  obtain ⟨-, hc⟩ := chain_cons_cons.mp h.heapAt.chain
  have hge : ∀ c ∈ f :: rest, start + 32 ≤ c.addr := fun c hc => by
    have := (List.pairwise_cons.mp h.heapAt.chain.pairwise).1 c hc
    simp only [geometry_hdr] at this
    omega
  have hnone : ∀ c ∈ f :: rest, c.free = false → c.addr = end_ - 16 := fun c hc hcf => by
    by_contra hne
    have hmem := (h.live (c.addr + 16)).mpr ⟨c, List.mem_cons_of_mem _ hc, hcf, rfl,
      by have := hge c hc; omega, hne⟩
    rw [hlive] at hmem
    cases hmem
  cases rest with
  | nil =>
    have hlast := hc.last
    simp only [List.getLast?_singleton, Option.some.injEq] at hlast
    rw [hlast] at hf
    simp only at hf
    omega
  | cons n rest =>
    obtain ⟨hfe, hrest⟩ := eq_of_live_eq_nil hc hnone
    rw [hrest, hfe, hf]
    rfl

theorem HeapInv.sameList (h : HeapInv start end_ bs s) (hlive : s.live = []) (m : Mem) :
    SameList s (newHeap m start end_) := by
  have h0 := newHeap_inv m h.heapAt.bounds.1 h.heapAt.bounds.2
  have hbs := h.eq_initialBlocks hlive
  subst hbs
  refine ⟨⟨h.at_start.trans h0.at_start.symm, ?_⟩, ?_, ?_⟩
  · rw [h.at_start, h0.at_start, h.heapAt.object, h0.heapAt.object]
  · rw [h.at_start, h0.at_start, h.heapAt.blocks_eq, h0.heapAt.blocks_eq]
  · intro x hx
    rw [h.at_start] at hx
    obtain ⟨b, hb, rfl⟩ := h.heapAt.mem_blocks.mp hx
    exact h.heapAt.seg.header_eq h0.heapAt.seg hb

/-- Freeing a list of returned addresses, in that order, leaves live exactly the others. -/
theorem run_free : ∀ {order : List ℕ} {s : HeapState}, (∃ bs, HeapInv start end_ bs s) →
    (∀ a ∈ order, a ∈ s.returned) → ∃ s', run step s (order.map Op.free) = some s' ∧
      (∃ bs, HeapInv start end_ bs s') ∧ ∀ a ∈ s'.live, a ∈ s.live ∧ a ∉ order
  | [], s, hinv, _ => ⟨s, rfl, hinv, fun a ha => ⟨ha, List.not_mem_nil⟩⟩
  | a :: order, s, ⟨bs, h⟩, horder => by
    have ha : a ∈ s.returned := horder a List.mem_cons_self
    obtain ⟨t, bs', heq, hinv, -, hlive, hret⟩ := free_inv h ha
    have hstep : step s (.free a) = some t := by
      rw [step_of_allowed (show (Op.free a).Allowed s from ha)]
      exact heq
    have hrest : ∀ x ∈ order, x ∈ t.returned := fun x hx => by
      rw [hret]
      exact horder x (List.mem_cons_of_mem _ hx)
    obtain ⟨s', hrun, hinv', hsub⟩ := run_free ⟨bs', hinv⟩ hrest
    refine ⟨s', by rw [List.map_cons, run_cons, hstep]; exact hrun, hinv', ?_⟩
    intro x hx
    obtain ⟨hxt, hxo⟩ := hsub x hx
    rw [hlive] at hxt
    obtain ⟨hxs, hxa⟩ := List.mem_filter.mp hxt
    exact ⟨hxs, fun hmem => (List.mem_cons.mp hmem).elim (by simpa using hxa) hxo⟩

/-- **No leaks.**  Whenever no allocation is live the block list is the one `create` made, and
    freeing what is live, in any order, leads there. -/
theorem heap_no_leak (m : Mem) (hlen : start + sizeofAllocator + 3 * sizeofBlock ≤ end_)
    (hlt : end_ < 4294967296) (hs : Reachable step (newHeap m start end_) s) :
    (s.live = [] → SameList s (newHeap m start end_)) ∧
      ∀ order : List ℕ, order.Perm s.live → ∃ s', run step s (order.map Op.free) = some s' ∧
        s'.live = [] ∧ SameList s' (newHeap m start end_) := by
  obtain ⟨bs, h⟩ := reachable_inv hlen hlt hs
  refine ⟨fun hlive => h.sameList hlive m, ?_⟩
  intro order hperm
  have horder : ∀ a ∈ order, a ∈ s.returned := fun a ha => h.given a (hperm.mem_iff.mp ha)
  obtain ⟨s', hrun, ⟨bs', h'⟩, hsub⟩ := run_free ⟨bs, h⟩ horder
  have hnil : s'.live = [] := List.eq_nil_iff_forall_not_mem.mpr fun a ha =>
    (hsub a ha).2 (hperm.mem_iff.mpr (hsub a ha).1)
  exact ⟨s', hrun, hnil, h'.sameList hnil m⟩

theorem heap_no_leak_example : ∃ s s', s.live = [4144, 4184] ∧
    run step s [.free 4184, .free 4144] = some s' ∧ s'.live = [] ∧
    SameList s' (newHeap (fun _ => 0) 4096 4352) := by
  obtain ⟨s, hrun, hlive⟩ := Option.map_eq_some_iff.mp exampleCalls_live
  obtain ⟨s', h⟩ := (heap_no_leak (fun _ => 0) (by decide) (by decide) ⟨_, hrun⟩).2 [4184, 4144]
    (by rw [hlive]; decide)
  exact ⟨s, s', hlive, h⟩

/-- The initial list: head sentinel, one free block right after it, tail sentinel. -/
theorem newHeap_blocks (m : Mem) (hlen : start + sizeofAllocator + 3 * sizeofBlock ≤ end_)
    (hlt : end_ < 4294967296) : blocks (newHeap m start end_).mem (newHeap m start end_).heap =
      [start + 16, start + 32, end_ - 16] := by
  have h := newHeap_inv m hlen hlt
  rw [h.at_start, h.heapAt.blocks_eq]
  rfl

end HryOS.Allocator
