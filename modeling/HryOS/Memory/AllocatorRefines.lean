import HryOS.Lib.BlockList
import HryOS.Memory.Allocator

/-!
# The allocator refines a first-fit block list

`HeapAt m start end_ bs` says that memory `m` holds, in the region `[start, end_)`, the allocator
object and the linked headers of the block list `bs`, and that `bs` is a well-formed
`BlockList.Chain` whose first block is the head sentinel.

* `create_heapAt` — `create` lays out the list `[head, free, tail]`.
* `allocate_refines` — `allocate` is `BlockList.place` (after rounding the size).
* `free_refines` — `free` is `BlockList.release`, and terminates.
-/

set_option autoImplicit false

namespace HryOS.Allocator

open ByteMemory BlockList

/-- Headers of 16 bytes; the size recorded is the distance to the next header. -/
def geometry : Geometry where
  hdr := 16
  hdr_pos := by decide
  gap a b := b - a - 16
  gap_room a b h := by omega

@[simp] theorem geometry_hdr : geometry.hdr = 16 := rfl

theorem geometry_gap (a b : ℕ) : geometry.gap a b = b - a - 16 := rfl

/-- The word that stores a block's state. -/
def stateOf (free : Bool) : ℕ := if free then Block.free else Block.allocated

/-- The address of the first block of `bs`, or else `n`. -/
def firstAddr (n : ℕ) : List BlockList.Block → ℕ
  | [] => n
  | b :: _ => b.addr

/-- The address of the last block of `bs`, or else `p`. -/
def lastAddr (p : ℕ) : List BlockList.Block → ℕ
  | [] => p
  | b :: bs => lastAddr b.addr bs

/-- The headers of `bs` are in memory, doubly linked; `p` precedes the segment and `n` follows. -/
def Seg (m : Mem) (p : ℕ) : List BlockList.Block → ℕ → Prop
  | [], _ => True
  | b :: bs, n =>
    header m b.addr = ⟨p, firstAddr n bs, b.size, stateOf b.free⟩ ∧ Seg m b.addr bs n

/-- Memory `m` holds the allocator of the region `[start, end_)` with block list `bs`. -/
structure HeapAt (m : Mem) (start end_ : ℕ) (bs : List BlockList.Block) : Prop where
  bounds : start + 64 ≤ end_ ∧ end_ < 4294967296
  object : header m start = ⟨start, end_ - start, start + 16, end_ - 16⟩
  seg : Seg m 0 bs 0
  chain : Chain geometry (end_ - 16) bs
  first : ∃ f rest, bs = ⟨start + 16, 0, false⟩ :: f :: rest ∧ f.addr = start + 32

variable {m m' : Mem} {start end_ size p n t x y v fuel : ℕ} {a b c f k : BlockList.Block}
  {bs cs rest pre post : List BlockList.Block}

/-! ## Reading fields -/

theorem isFree_eq {p' n' s' : ℕ} {fr : Bool} (h : header m x = ⟨p', n', s', stateOf fr⟩) :
    Block.isFree m x = fr := by
  have hs : Block.state m x = stateOf fr := congrArg Header.state h
  rw [Block.isFree, hs]
  cases fr <;> rfl

theorem next_eq {h : Header} (hx : header m x = h) : Block.next m x = h.next :=
  congrArg Header.next hx

theorem prev_eq {h : Header} (hx : header m x = h) : Block.prev m x = h.prev :=
  congrArg Header.prev hx

theorem size_eq {h : Header} (hx : header m x = h) : Block.size m x = h.size :=
  congrArg Header.size hx

theorem header_setPrev_of_apart (h : y + 16 ≤ x ∨ x + 16 ≤ y) :
    header (Block.setPrev m y v) x = header m x := header_store32_of_apart (by omega)

theorem header_setNext_of_apart (h : y + 16 ≤ x ∨ x + 16 ≤ y) :
    header (Block.setNext m y v) x = header m x := header_store32_of_apart (by omega)

theorem header_setSize_of_apart (h : y + 16 ≤ x ∨ x + 16 ≤ y) :
    header (Block.setSize m y v) x = header m x := header_store32_of_apart (by omega)

theorem header_setState_of_apart (h : y + 16 ≤ x ∨ x + 16 ≤ y) :
    header (Block.setState m y v) x = header m x := header_store32_of_apart (by omega)

theorem HeapAt.head_eq (h : HeapAt m start end_ bs) : head m start = start + 16 :=
  congrArg Header.size h.object

theorem HeapAt.tail_eq (h : HeapAt m start end_ bs) : tail m start = end_ - 16 :=
  congrArg Header.state h.object

theorem HeapAt.memoryLength_eq (h : HeapAt m start end_ bs) :
    memoryLength m start = end_ - start :=
  congrArg Header.next h.object

/-! ## Segments -/

theorem seg_append : Seg m p (bs ++ cs) n ↔
    Seg m p bs (firstAddr n cs) ∧ Seg m (lastAddr p bs) cs n := by
  induction bs generalizing p with
  | nil => simp [Seg, lastAddr]
  | cons b bs ih =>
    have hfirst : firstAddr n (bs ++ cs) = firstAddr (firstAddr n cs) bs := by
      cases bs <;> rfl
    simp only [List.cons_append, Seg, ih, hfirst, lastAddr, and_assoc]

theorem Seg.congr (h : Seg m p bs n) (heq : ∀ b ∈ bs, header m' b.addr = header m b.addr) :
    Seg m' p bs n := by
  induction bs generalizing p with
  | nil => trivial
  | cons b bs ih =>
    exact ⟨(heq b List.mem_cons_self).trans h.1, ih h.2 fun c hc => heq c (List.mem_cons_of_mem _ hc)⟩

/-- A chain from `b` on has at most `t - b.addr` blocks after `b`. -/
theorem chain_length (h : Chain geometry t (b :: rest)) : b.addr + rest.length ≤ t := by
  induction rest generalizing b with
  | nil => simpa using h.addr_le List.mem_cons_self
  | cons c rest ih =>
    obtain ⟨hbc, hc⟩ := chain_cons_cons.mp h
    have h1 := hbc.room
    have h2 := ih hc
    simp only [geometry_hdr] at h1
    rw [List.length_cons]
    omega

theorem HeapAt.length_le (h : HeapAt m start end_ bs) : bs.length + 16 ≤ end_ - start := by
  obtain ⟨f, rest, hbs, -⟩ := h.first
  have hc := h.chain
  rw [hbs] at hc
  have hlen := chain_length hc
  have hb := h.bounds
  simp only [List.length_cons] at hlen
  simp only [hbs, List.length_cons]
  omega

theorem HeapAt.addr_ge (h : HeapAt m start end_ bs) (hb : b ∈ bs) : start + 16 ≤ b.addr := by
  obtain ⟨f, rest, hbs, -⟩ := h.first
  have hp := h.chain.pairwise
  rw [hbs] at hb hp
  rcases List.mem_cons.mp hb with rfl | hb
  · exact Nat.le_refl _
  · have := (List.pairwise_cons.mp hp).1 b hb
    simp only [geometry_hdr] at this
    omega

/-! ## `find_fit` -/

/-- The loop finds the block that first fit takes. -/
theorem findFitFrom_eq : ∀ {bs : List BlockList.Block} {p fuel : ℕ}, Seg m p bs 0 →
    Chain geometry t bs → bs.length ≤ fuel →
    findFitFrom m t size fuel (firstAddr 0 bs) =
      some (match place geometry size bs with | some (_, data) => data - 16 | none => 0)
  | [], _, _, _, hc, _ => by cases hc.last
  | [b], p, fuel + 1, _, hc, _ => by
    have hlast := hc.last
    simp only [List.getLast?_singleton, Option.some.injEq] at hlast
    rw [findFitFrom, firstAddr, if_pos (by rw [hlast])]
    rfl
  | b :: c :: rest, p, fuel + 1, hs, hc, hfuel => by
    obtain ⟨hbc, hc'⟩ := chain_cons_cons.mp hc
    have hroom := hbc.room
    have hle := hc'.addr_le (b := c) List.mem_cons_self
    simp only [geometry_hdr] at hroom
    have hnext : Block.next m b.addr = firstAddr 0 (c :: rest) := next_eq hs.1
    have ih : findFitFrom m t size fuel (firstAddr 0 (c :: rest)) = _ :=
      findFitFrom_eq hs.2 hc' (by simpa using hfuel)
    rw [findFitFrom, firstAddr, if_neg (by omega), isFree_eq hs.1, hnext, size_eq hs.1, place]
    cases hbf : b.free with
    | false =>
      simp only [Bool.not_false, if_true, Bool.false_eq_true, false_and, if_false]
      rw [ih]
      cases place geometry size (c :: rest) <;> rfl
    | true =>
      by_cases hsz : size ≤ b.size
      · simp [hsz]
      · simp only [Bool.not_true, Bool.false_eq_true, if_false, hsz, and_false]
        rw [ih]
        cases place geometry size (c :: rest) <;> rfl

/-! ## `allocate` -/

/-- Everything `split` and the state write of `allocate` leave in the headers. -/
theorem header_split {nx : ℕ} {fr : Bool} (hb : header m x = ⟨p, y, v, stateOf fr⟩)
    (hy : header m y = ⟨x, nx, n, t⟩) (hroom : x + 32 + size ≤ y) (hlt : y < 4294967296) :
    let m' := Block.setState (split m x size) x Block.allocated
    header m' x = ⟨p, x + 16 + size, size, stateOf false⟩ ∧
    header m' (x + 16 + size) = ⟨x, y, geometry.gap (x + 16 + size) y, stateOf true⟩ ∧
    header m' y = ⟨x + 16 + size, nx, n, t⟩ ∧
    ∀ z, z + 16 ≤ x ∨ y + 16 ≤ z → header m' z = header m z := by
  have hnew : u32 (x + sizeofBlock + size) = x + 16 + size := u32_of_lt (by simp [sizeofBlock]; omega)
  have hnext : Block.next m x = y := next_eq hb
  have hgap : calcSizeBetween y (x + 16 + size) = geometry.gap (x + 16 + size) y := by
    rw [calcSizeBetween_of_gt (by omega) hlt, geometry_gap]
  have hgl : geometry.gap (x + 16 + size) y < 4294967296 := by rw [geometry_gap]; omega
  intro m'
  simp only [m', split, hnew, hnext, hgap]
  generalize geometry.gap (x + 16 + size) y = g at hgl
  refine ⟨?_, ?_, ?_, ?_⟩
  · rw [header_setState (by decide), header_setPrev_of_apart (by omega), header_setSize (by omega),
      header_setNext (by omega), header_setState_of_apart (by omega),
      header_setSize_of_apart (by omega), header_setPrev_of_apart (by omega),
      header_setNext_of_apart (by omega), hb]
    rfl
  · rw [header_setState_of_apart (by omega), header_setPrev_of_apart (by omega),
      header_setSize_of_apart (by omega), header_setNext_of_apart (by omega),
      header_setState (by decide), header_setSize hgl, header_setPrev (by omega),
      header_setNext hlt]
    rfl
  · rw [header_setState_of_apart (by omega), header_setPrev (by omega),
      header_setSize_of_apart (by omega), header_setNext_of_apart (by omega),
      header_setState_of_apart (by omega), header_setSize_of_apart (by omega),
      header_setPrev_of_apart (by omega), header_setNext_of_apart (by omega), hy]
  · intro z hz
    rw [header_setState_of_apart (by omega), header_setPrev_of_apart (by omega),
      header_setSize_of_apart (by omega), header_setNext_of_apart (by omega),
      header_setState_of_apart (by omega), header_setSize_of_apart (by omega),
      header_setPrev_of_apart (by omega), header_setNext_of_apart (by omega)]

theorem getDataAddress_eq (h : x + 16 < 4294967296) : Block.getDataAddress x = x + 16 :=
  u32_of_lt h

/-- What the headers below a changed part of the list still hold. -/
theorem HeapAt.frame (h : HeapAt m start end_ (pre ++ b :: rest))
    (hframe : ∀ z, z + 16 ≤ b.addr → header m' z = header m z)
    (hseg : Seg m' (lastAddr 0 pre) (c :: cs) 0) (haddr : c.addr = b.addr) :
    header m' start = ⟨start, end_ - start, start + 16, end_ - 16⟩ ∧
      Seg m' 0 (pre ++ c :: cs) 0 := by
  have hp := (List.pairwise_append.mp h.chain.pairwise).2.2
  have hb : start + 16 ≤ b.addr := h.addr_ge (by simp)
  refine ⟨(hframe start hb).trans h.object, seg_append.mpr ⟨?_, hseg⟩⟩
  have hs : Seg m 0 pre b.addr := (seg_append.mp h.seg).1
  rw [firstAddr, haddr]
  refine hs.congr fun x hx => hframe x.addr ?_
  have := hp x hx b List.mem_cons_self
  simp only [geometry_hdr] at this
  omega

/-- Taking a free block, in memory. -/
theorem seg_cut (hs : Seg m p (b :: c :: rest) 0) (hc : Chain geometry t (b :: c :: rest))
    (ht : t < 4294967296) (hsize : size ≤ b.size) :
    let m' := Block.setState
      (if Block.size m b.addr ≥ u32 (size + sizeofBlock) then split m b.addr size else m)
      b.addr Block.allocated
    Seg m' p (cut geometry b c.addr size ++ c :: rest) 0 ∧
      ∀ z, z + 16 ≤ b.addr → header m' z = header m z := by
  obtain ⟨hbc, hc'⟩ := chain_cons_cons.mp hc
  have hroom := hbc.room
  have hle := hc'.addr_le (b := c) List.mem_cons_self
  simp only [geometry_hdr] at hroom
  have habove : ∀ x ∈ rest, c.addr + 16 ≤ x.addr := fun x hx => by
    have := (List.pairwise_cons.mp hc'.pairwise).1 x hx
    simp only [geometry_hdr] at this
    omega
  have hb : header m b.addr = ⟨p, c.addr, b.size, stateOf b.free⟩ := hs.1
  have hsz : Block.size m b.addr = b.size := size_eq hb
  have hu : u32 (size + sizeofBlock) = size + 16 := u32_of_lt (by simp only [sizeofBlock]; omega)
  intro m'
  simp only [m', hsz, hu]
  by_cases hbig : size + 16 ≤ b.size
  · rw [if_pos hbig, cut_of_le hbig]
    obtain ⟨h1, h2, h3, h4⟩ := header_split hb hs.2.1
      (show b.addr + 32 + size ≤ c.addr by omega) (by omega)
    refine ⟨⟨h1, h2, h3, ?_⟩, fun z hz => h4 z (Or.inl hz)⟩
    exact hs.2.2.congr fun x hx => h4 x.addr (Or.inr (habove x hx))
  · rw [if_neg hbig, cut_of_lt (Nat.lt_of_not_le hbig)]
    refine ⟨⟨?_, hs.2.congr fun x hx => header_setState_of_apart (Or.inl ?_)⟩, fun z hz =>
      header_setState_of_apart (Or.inr hz)⟩
    · rw [header_setState (by decide), hb]
      rfl
    · rcases List.mem_cons.mp hx with rfl | hx
      · omega
      · have := habove x hx
        omega

/-- **`allocate` is first fit** on the rounded size; it fails exactly when first fit does. -/
theorem allocate_refines (h : HeapAt m start end_ bs) (size : ℕ) :
    match place geometry (alignTo size ALIGNED) bs with
    | none => allocate m start size = some (m, 0)
    | some (bs', data) =>
      ∃ m', allocate m start size = some (m', data) ∧ HeapAt m' start end_ bs' := by
  obtain ⟨f, rest, hbs, hf⟩ := h.first
  have hlen := h.length_le
  have hb := h.bounds
  have hfind : findFit m start (alignTo size ALIGNED) = some
      (match place geometry (alignTo size ALIGNED) bs with | some (_, d) => d - 16 | none => 0) := by
    have hseg := h.seg
    have hchain := h.chain
    rw [hbs] at hseg hchain hlen
    have hnext : Block.next m (start + 16) = firstAddr 0 (f :: rest) := next_eq hseg.1
    rw [findFit, h.head_eq, h.tail_eq, h.memoryLength_eq, hnext,
      findFitFrom_eq hseg.2 (chain_cons_cons.mp hchain).2 (by simp only [List.length_cons] at *; omega),
      hbs, place]
    simp only [Bool.false_eq_true, false_and, if_false]
    cases place geometry (alignTo size ALIGNED) (f :: rest) <;> rfl
  cases hp : place geometry (alignTo size ALIGNED) bs with
  | none => simp [allocate, hfind, hp]
  | some r =>
    obtain ⟨bs', data⟩ := r
    simp only
    rw [hp] at hfind
    have hchain' := place_chain h.chain hp
    have hfirst : ∃ f rest, bs' = ⟨start + 16, 0, false⟩ :: f :: rest ∧ f.addr = start + 32 := by
      rw [hbs] at hp
      obtain ⟨f', rest', hbs', hf'⟩ := place_first rfl hp
      exact ⟨f', rest', hbs', hf'.trans hf⟩
    obtain ⟨pre, b, c, post, rfl, -, hfree, hsize, rfl, rfl⟩ := place_spec hp
    have hbge : start + 16 ≤ b.addr := h.addr_ge (by simp)
    have hble := h.chain.addr_le (b := b) (by simp)
    obtain ⟨hseg, hframe⟩ := seg_cut (seg_append.mp h.seg).2 h.chain.suffix (by omega) hsize
    obtain ⟨sz, tl, hcut, -, -⟩ := cut_eq_cons (G := geometry) b c.addr (alignTo size ALIGNED)
    have halloc : allocate m start size = some (Block.setState
        (if Block.size m b.addr ≥ u32 (alignTo size ALIGNED + sizeofBlock)
          then split m b.addr (alignTo size ALIGNED) else m) b.addr Block.allocated,
        b.addr + geometry.hdr) := by
      rw [allocate, hfind]
      simp only [geometry_hdr, Option.map_some, Nat.add_sub_cancel]
      rw [if_neg (by omega : ¬ b.addr = 0), getDataAddress_eq (by omega)]
    rw [hcut] at hseg hchain' hfirst ⊢
    obtain ⟨hobj, hseg'⟩ := h.frame hframe hseg rfl
    exact ⟨_, halloc, ⟨hb, hobj, hseg', hchain', hfirst⟩⟩

/-! ## `free` -/

/-- The search loop of `free` decides whether a block of the list has that address. -/
theorem isOnList_eq : ∀ {bs : List BlockList.Block} {p fuel : ℕ}, Seg m p bs 0 →
    (∀ b ∈ bs, b.addr ≠ 0) → bs.length < fuel →
    isOnList m x fuel (firstAddr 0 bs) = some (bs.any fun b => b.addr == x)
  | [], _, fuel + 1, _, _, _ => rfl
  | b :: bs, p, fuel + 1, hs, h0, hfuel => by
    have hnext : Block.next m b.addr = firstAddr 0 bs := next_eq hs.1
    have ih : isOnList m x fuel (firstAddr 0 bs) = _ :=
      isOnList_eq hs.2 (fun c hc => h0 c (List.mem_cons_of_mem _ hc)) (by simpa using hfuel)
    rw [isOnList, firstAddr, if_neg (h0 b List.mem_cons_self), hnext, ih, List.any_cons]
    by_cases hxb : x = b.addr
    · simp [hxb]
    · have hbx : (b.addr == x) = false := by simpa using Ne.symm hxb
      simp [hxb, hbx]

theorem HeapAt.isOnList_head (h : HeapAt m start end_ bs) (x : ℕ) :
    isOnList m x (memoryLength m start) (head m start) = some (bs.any fun b => b.addr == x) := by
  obtain ⟨f, rest, hbs, -⟩ := h.first
  have hlen := h.length_le
  have hh : head m start = firstAddr 0 bs := by rw [h.head_eq, hbs]; rfl
  rw [hh, h.memoryLength_eq]
  exact isOnList_eq h.seg (fun b hb => by have := h.addr_ge hb; omega) (by omega)

/-- The three writes of one round of `merge_with_next_block`. -/
theorem header_merge {nx : ℕ} {sz st : ℕ} (hx : header m x = ⟨p, y, v, t⟩)
    (hy : Block.next m y = n) (hn : header m n = ⟨y, nx, sz, st⟩) (hroom : x + 16 ≤ n)
    (hlt : n < 4294967296) :
    let m' := Block.setPrev
      (Block.setSize (Block.setNext m x n) x (calcSizeBetween x n)) n x
    header m' x = ⟨p, n, geometry.gap x n, t⟩ ∧ header m' n = ⟨x, nx, sz, st⟩ ∧
      ∀ z, z + 16 ≤ x ∨ (x + 16 ≤ z ∧ (z + 16 ≤ n ∨ n + 16 ≤ z)) → header m' z = header m z := by
  have hgap : calcSizeBetween x n = geometry.gap x n := calcSizeBetween_of_lt hroom hlt
  have hgl : geometry.gap x n < 4294967296 := by rw [geometry_gap]; omega
  intro m'
  simp only [m', hgap]
  refine ⟨?_, ?_, ?_⟩
  · rw [header_setPrev_of_apart (by omega), header_setSize hgl, header_setNext hlt, hx]
  · rw [header_setPrev (by omega), header_setSize_of_apart (by omega),
      header_setNext_of_apart (by omega), hn]
  · intro z hz
    rw [header_setPrev_of_apart (by omega), header_setSize_of_apart (by omega),
      header_setNext_of_apart (by omega)]

/-- `merge_with_next_block` is `BlockList.mergeNext`: `b` is followed by `a`, then `c`. -/
theorem mergeWithNextBlock_refines : ∀ {rest : List BlockList.Block} {m : Mem}
    {a b c : BlockList.Block} {fuel q : ℕ}, header m b.addr = ⟨p, q, b.size, stateOf b.free⟩ →
    q = a.addr → Block.next m a.addr = c.addr → Seg m a.addr (c :: rest) 0 →
    Chain geometry t (c :: rest) → t < 4294967296 → b.addr + 16 ≤ c.addr → rest.length < fuel →
    ∃ m', mergeWithNextBlock fuel m b.addr = some m' ∧
      Seg m' p (mergeNext geometry b (a :: c :: rest)) 0 ∧
      ∀ z, z + 16 ≤ b.addr → header m' z = header m z
  | rest, m, a, b, c, fuel + 1, q, hb, hq, ha, hs, hc, ht, hroom, hfuel => by
    subst hq
    have hle := hc.addr_le (b := c) List.mem_cons_self
    have hnext : Block.next m (Block.next m b.addr) = c.addr := by rw [next_eq hb]; exact ha
    obtain ⟨h1, h2, h3⟩ := header_merge hb ha hs.1 hroom (by omega)
    have hrest : ∀ x ∈ rest, c.addr + 16 ≤ x.addr := fun x hx => by
      have := (List.pairwise_cons.mp hc.pairwise).1 x hx
      simp only [geometry_hdr] at this
      omega
    rw [mergeWithNextBlock, hnext]
    rw [isFree_eq h2, mergeNext]
    generalize Block.setPrev
      (Block.setSize (Block.setNext m b.addr c.addr) b.addr (calcSizeBetween b.addr c.addr))
      c.addr b.addr = m1 at h1 h2 h3
    have hseg : Seg m1 c.addr rest 0 := hs.2.congr fun x hx => h3 x.addr (Or.inr
      ⟨by have := hrest x hx; omega, Or.inr (hrest x hx)⟩)
    by_cases hcf : c.free = true
    · rw [if_pos hcf, if_pos hcf]
      obtain ⟨k, rest, rfl⟩ := hc.exists_next_of_free hcf
      obtain ⟨hck, hk⟩ := chain_cons_cons.mp hc
      have hck' := hrest k List.mem_cons_self
      obtain ⟨m', heq, hseg', hframe⟩ := mergeWithNextBlock_refines (a := c)
        (b := ⟨b.addr, geometry.gap b.addr c.addr, b.free⟩) h1 rfl (next_eq h2) hseg hk ht
        (by simp only; omega) (by simpa using hfuel)
      exact ⟨m', heq, hseg', fun z hz => (hframe z hz).trans (h3 z (Or.inl hz))⟩
    · rw [if_neg hcf, if_neg hcf]
      exact ⟨m1, rfl, ⟨h1, h2, hseg⟩, fun z hz => h3 z (Or.inl hz)⟩

/-- What `free` does once the block `b` is found between `a` and `c`. -/
theorem seg_releaseAt (hs : Seg m p (a :: b :: c :: rest) 0)
    (hc : Chain geometry t (a :: b :: c :: rest)) (ht : t < 4294967296)
    (hfuel : rest.length < fuel) :
    let m1 := Block.setState m b.addr Block.free
    ∃ m', (if Block.isFree m1 (Block.prev m1 b.addr)
        then mergeWithNextBlock fuel m1 (Block.prev m1 b.addr)
        else if Block.isFree m1 (Block.next m1 b.addr) then mergeWithNextBlock fuel m1 b.addr
        else some m1) = some m' ∧
      Seg m' p (releaseAt geometry a b (c :: rest)) 0 ∧
      ∀ z, z + 16 ≤ a.addr → header m' z = header m z := by
  obtain ⟨hab, hb⟩ := chain_cons_cons.mp hc
  obtain ⟨hbc, hc'⟩ := chain_cons_cons.mp hb
  have hroom := hab.room
  have hroom' := hbc.room
  have hle := hc'.addr_le (b := c) List.mem_cons_self
  simp only [geometry_hdr] at hroom hroom'
  intro m1
  have hframe : ∀ z, z + 16 ≤ b.addr ∨ b.addr + 16 ≤ z → header m1 z = header m z := fun z hz =>
    header_setState_of_apart (by omega)
  have ha1 : header m1 a.addr = ⟨p, b.addr, a.size, stateOf a.free⟩ :=
    (hframe a.addr (by omega)).trans hs.1
  have hb1 : header m1 b.addr = ⟨a.addr, c.addr, b.size, stateOf true⟩ := by
    rw [header_setState (by decide), hs.2.1]
    rfl
  have hc1 : Seg m1 b.addr (c :: rest) 0 := hs.2.2.congr fun x hx => hframe x.addr (Or.inr (by
    rcases List.mem_cons.mp hx with rfl | hx
    · omega
    · have := (List.pairwise_cons.mp hc'.pairwise).1 x hx
      simp only [geometry_hdr] at this
      omega))
  rw [prev_eq hb1, next_eq hb1, isFree_eq ha1, isFree_eq hc1.1, releaseAt]
  by_cases haf : a.free = true
  · rw [if_pos haf, if_pos haf]
    obtain ⟨m', heq, hseg, hfr⟩ := mergeWithNextBlock_refines (a := ⟨b.addr, b.size, true⟩) ha1 rfl
      (next_eq hb1) hc1 hc' ht (by omega) hfuel
    exact ⟨m', heq, hseg, fun z hz => (hfr z hz).trans (hframe z (by omega))⟩
  · rw [if_neg haf, if_neg haf]
    by_cases hcf : c.free = true
    · rw [if_pos hcf, if_pos hcf]
      obtain ⟨k, rest, rfl⟩ := hc'.exists_next_of_free hcf
      obtain ⟨hck, hk⟩ := chain_cons_cons.mp hc'
      have hroom'' := hck.room
      simp only [geometry_hdr] at hroom''
      have hfuel' : rest.length < fuel := Nat.lt_of_succ_lt hfuel
      obtain ⟨m', heq, hseg, hfr⟩ := mergeWithNextBlock_refines (b := ⟨b.addr, b.size, true⟩) (a := c)
        hb1 rfl (next_eq hc1.1) hc1.2 hk ht (by simp only; omega) hfuel'
      simp only at heq hfr
      refine ⟨m', heq, ⟨?_, hseg⟩, fun z hz => (hfr z (by omega)).trans (hframe z (by omega))⟩
      obtain ⟨sz, tl, hmerge, -, -, -⟩ := mergeNext_spec (G := geometry)
        (b := ⟨b.addr, b.size, true⟩) c hk (by simp only [geometry_hdr]; omega) rfl
      rw [hmerge]
      exact (hfr a.addr (by omega)).trans ha1
    · rw [if_neg hcf, if_neg hcf]
      exact ⟨m1, rfl, ⟨ha1, hb1, hc1⟩, fun z hz => hframe z (by omega)⟩

/-- **`free` is release** of the block whose header lies 16 bytes below the address, unless that
    is a sentinel. -/
theorem free_refines (h : HeapAt m start end_ bs) {addr node : ℕ}
    (hnode : node = u32 (addr + 4294967296 - sizeofBlock)) (hhead : node ≠ start + 16)
    (htail : node ≠ end_ - 16) :
    ∃ m', free m start addr = some m' ∧ HeapAt m' start end_ (release geometry node bs) := by
  obtain ⟨f, rest, hbs, hf⟩ := h.first
  have hlen := h.length_le
  have hbound := h.bounds
  have hfind := h.isOnList_head node
  have hchain := release_chain h.chain htail
  have hfirst : ∃ f rest, release geometry node bs = ⟨start + 16, 0, false⟩ :: f :: rest ∧
      f.addr = start + 32 := by
    have hc := h.chain
    rw [hbs] at hc ⊢
    obtain ⟨f', rest', heq, hf'⟩ := release_first rfl hc htail
    exact ⟨f', rest', heq, hf'.trans hf⟩
  unfold free
  simp only [← hnode]
  rw [hfind, Option.bind_some]
  by_cases hmem : ∃ b ∈ bs.tail, b.addr = node
  · have hany : (bs.any fun b => b.addr == node) = true := by
      obtain ⟨b, hb, hbn⟩ := hmem
      exact List.any_eq_true.mpr ⟨b, List.mem_of_mem_tail hb, by simp [hbn]⟩
    rw [hany]
    simp only [Bool.not_true, Bool.false_eq_true, if_false]
    obtain ⟨pre, a, b, post, rfl, rfl, heq⟩ := release_of_mem (G := geometry) hmem
    obtain ⟨c, rest, rfl⟩ := h.chain.exists_next htail
    obtain ⟨sz, tl, hr, -, -, -⟩ := releaseAt_spec h.chain.suffix
    obtain ⟨m', hm', hseg, hframe⟩ := seg_releaseAt (seg_append.mp h.seg).2 h.chain.suffix
      (by omega) (show rest.length < memoryLength m start by
        rw [h.memoryLength_eq]
        simp only [List.length_append, List.length_cons] at hlen
        omega)
    rw [heq, hr] at hchain hfirst ⊢
    rw [hr] at hseg
    obtain ⟨hobj, hseg'⟩ := h.frame hframe hseg rfl
    exact ⟨m', hm', ⟨hbound, hobj, hseg', hchain, hfirst⟩⟩
  · have hany : (bs.any fun b => b.addr == node) = false := by
      rw [List.any_eq_false]
      intro b hb hbn
      rw [hbs] at hb
      rcases List.mem_cons.mp hb with rfl | hb
      · have hbn' : start + 16 = node := by simpa using hbn
        exact hhead hbn'.symm
      · exact hmem ⟨b, by rw [hbs]; exact hb, by simpa using hbn⟩
    rw [hany, release_of_not_mem fun b hb hbn => hmem ⟨b, hb, hbn⟩]
    exact ⟨m, rfl, h⟩

/-! ## `create` -/

/-- The block list of a new heap. -/
def initialBlocks (start end_ : ℕ) : List BlockList.Block :=
  [⟨start + 16, 0, false⟩,
    ⟨start + 32, geometry.gap (start + 32) (end_ - 16), true⟩, ⟨end_ - 16, 0, false⟩]

/-- **`create` lays out the initial block list.** -/
theorem create_heapAt (m : Mem) (h : start + 64 ≤ end_) (hlt : end_ < 4294967296) :
    ∃ m', create m start end_ = (m', start) ∧ HeapAt m' start end_ (initialBlocks start end_) := by
  have hgap : calcSizeBetween (end_ - 16) (start + 32) = geometry.gap (start + 32) (end_ - 16) :=
    calcSizeBetween_of_gt (by omega) (by omega)
  have hgl : geometry.gap (start + 32) (end_ - 16) < 4294967296 := by rw [geometry_gap]; omega
  have hgr := geometry.gap_room (start + 32) (end_ - 16) (by simp only [geometry_hdr]; omega)
  rw [create, if_neg (by omega), if_neg (by simp only [sizeofAllocator, sizeofBlock]; omega)]
  simp only [sizeofAllocator, sizeofBlock, u32_of_lt (by omega : start + 16 < 4294967296),
    u32_of_lt (by omega : start + 16 + 16 < 4294967296), Nat.add_assoc, Nat.reduceAdd, hgap]
  have e0 : ∀ m v, store32 m start v = Block.setPrev m start v := fun _ _ => rfl
  have e1 : ∀ m v, store32 m (start + 4) v = Block.setNext m start v := fun _ _ => rfl
  have e2 : ∀ m v, store32 m (start + 8) v = Block.setSize m start v := fun _ _ => rfl
  have e3 : ∀ m v, store32 m (start + 12) v = Block.setState m start v := fun _ _ => rfl
  rw [e0, e1, e2, e3]
  have hs0 : Block.allocated < 4294967296 ∧ Block.free < 4294967296 := by decide
  refine ⟨_, rfl, ⟨h, hlt⟩, ?_, ⟨?_, ?_, ?_, trivial⟩, ?_, _, _, rfl, rfl⟩
  · simp (disch := omega) only [header_setState, header_setSize, header_setNext, header_setPrev,
      header_setState_of_apart, header_setSize_of_apart, header_setNext_of_apart,
      header_setPrev_of_apart]
  · simp (disch := omega) only [header_setState, header_setSize, header_setNext, header_setPrev,
      header_setState_of_apart, header_setSize_of_apart, header_setNext_of_apart,
      header_setPrev_of_apart]
    rfl
  · simp (disch := omega) only [header_setState, header_setSize, header_setNext, header_setPrev,
      header_setState_of_apart, header_setSize_of_apart, header_setNext_of_apart,
      header_setPrev_of_apart]
    rfl
  · simp (disch := omega) only [header_setState, header_setSize, header_setNext, header_setPrev,
      header_setState_of_apart, header_setSize_of_apart, header_setNext_of_apart,
      header_setPrev_of_apart]
    rfl
  · exact chain_cons_cons.mpr ⟨⟨Nat.le_refl _, by simp, Or.inl (by rw [geometry_gap]; simp only; omega)⟩,
      chain_cons_cons.mpr ⟨⟨hgr, by simp, Or.inl rfl⟩, ⟨List.isChain_singleton _, rfl⟩⟩⟩

end HryOS.Allocator
