import Mathlib.Data.List.Chain
import Mathlib.Data.List.Nodup
import Mathlib.Tactic.Common

/-!
# First-fit block lists with full coalescing

The bookkeeping of a heap that cuts one region into blocks: a list of blocks in address order,
each with a header of `hdr` bytes followed by its data.  The last block is an allocated sentinel.
A block's size is recorded when it is cut or merged, by a function `gap` of the two addresses.

* `place` — first fit, cutting the rest off the block found when a header fits into it.
* `release` — mark a block free and merge it with its free neighbours.
* `Chain` — the invariant: blocks do not overlap, no two neighbours are free, and every recorded
  size is what `gap` gives for the next block, or ends exactly there.
* `place_chain`, `release_chain` — both operations keep it; `place_live`, `release_live` — both
  leave every other allocated block as it was.
* `eq_of_live_eq_nil` — with no block allocated, one free block spans the region.
-/

set_option autoImplicit false

namespace BlockList

/-- Header size and the size recorded for a block that ends where the block at `b` starts. -/
structure Geometry where
  hdr : ℕ
  hdr_pos : 0 < hdr
  gap : ℕ → ℕ → ℕ
  gap_room : ∀ a b, a + hdr ≤ b → a + hdr + gap a b ≤ b

/-- A block: header address, recorded size, and whether it is free. -/
structure Block where
  addr : ℕ
  size : ℕ
  free : Bool
  deriving DecidableEq, Repr

variable (G : Geometry)

/-- The blocks that replace the free block `b`, followed by a block at `n`, when `size` bytes are
    taken from it. -/
def cut (b : Block) (n size : ℕ) : List Block :=
  if size + G.hdr ≤ b.size then
    [⟨b.addr, size, false⟩, ⟨b.addr + G.hdr + size, G.gap (b.addr + G.hdr + size) n, true⟩]
  else [⟨b.addr, b.size, false⟩]

/-- First fit: the new list and the data address. -/
def place (size : ℕ) : List Block → Option (List Block × ℕ)
  | b :: n :: rest =>
    if b.free = true ∧ size ≤ b.size then some (cut G b n.addr size ++ n :: rest, b.addr + G.hdr)
    else (place size (n :: rest)).map fun r => (b :: r.1, r.2)
  | _ => none

/-- Drop the block after `b` and go on while the one after that is free. -/
def mergeNext (b : Block) : List Block → List Block
  | _ :: n :: rest =>
    let b' : Block := ⟨b.addr, G.gap b.addr n.addr, b.free⟩
    if n.free = true then mergeNext b' (n :: rest) else b' :: n :: rest
  | rest => b :: rest

/-- Free the block `n` between `p` and `rest`. -/
def releaseAt (p n : Block) (rest : List Block) : List Block :=
  let n' : Block := ⟨n.addr, n.size, true⟩
  if p.free = true then mergeNext G p (n' :: rest)
  else
    match rest with
    | x :: _ => if x.free = true then p :: mergeNext G n' rest else p :: n' :: rest
    | [] => p :: n' :: rest

/-- Free the block at `addr`; the first block of the list is never freed. -/
def release (addr : ℕ) : List Block → List Block
  | p :: n :: rest => if n.addr = addr then releaseAt G p n rest else p :: release addr (n :: rest)
  | bs => bs

/-- The allocated blocks. -/
def live (bs : List Block) : List Block := bs.filter fun b => !b.free

/-- Neighbouring blocks `a`, `b` of a list whose last block is at `t`. -/
structure Link (t : ℕ) (a b : Block) : Prop where
  room : a.addr + G.hdr + a.size ≤ b.addr
  coalesced : ¬(a.free = true ∧ b.free = true)
  size : a.size = G.gap a.addr b.addr ∨ (a.addr + G.hdr + a.size = b.addr ∧ b.addr ≠ t)

/-- The invariant of a block list that ends in the sentinel at `t`. -/
structure Chain (t : ℕ) (bs : List Block) : Prop where
  links : bs.IsChain (Link G t)
  last : bs.getLast? = some ⟨t, 0, false⟩

variable {G} {t size addr data : ℕ} {a b c n p x : Block} {bs bs' pre post rest : List Block}

/-! ## Structure of a chain -/

theorem chain_cons_cons :
    Chain G t (a :: b :: rest) ↔ Link G t a b ∧ Chain G t (b :: rest) := by
  constructor
  · rintro ⟨hl, hlast⟩
    obtain ⟨hab, hrest⟩ := List.isChain_cons_cons.mp hl
    exact ⟨hab, hrest, by simpa using hlast⟩
  · rintro ⟨hab, hl, hlast⟩
    exact ⟨List.isChain_cons_cons.mpr ⟨hab, hl⟩, by simpa using hlast⟩

theorem Chain.suffix (h : Chain G t (pre ++ b :: rest)) : Chain G t (b :: rest) :=
  ⟨(List.isChain_append.mp h.links).2.1, by
    have := h.last
    rwa [List.getLast?_append_of_ne_nil _ (List.cons_ne_nil b rest)] at this⟩

/-- Replace the part of a chain that starts at `b` by one with the same start. -/
theorem Chain.replace (h : Chain G t (pre ++ b :: rest)) (hc : Chain G t (c :: bs))
    (haddr : c.addr = b.addr) (hfree : c.free = true → b.free = true) :
    Chain G t (pre ++ c :: bs) := by
  obtain ⟨hp, -, hseam⟩ := List.isChain_append.mp h.links
  refine ⟨List.isChain_append.mpr ⟨hp, hc.links, ?_⟩, ?_⟩
  · intro y hy z hz
    have hl := hseam y hy b rfl
    obtain rfl : c = z := by simpa using hz
    exact ⟨by rw [haddr]; exact hl.room, fun hyc => hl.coalesced ⟨hyc.1, hfree hyc.2⟩, by
      rw [haddr]; exact hl.size⟩
  · rw [List.getLast?_append_of_ne_nil _ (List.cons_ne_nil c bs)]
    exact hc.last

/-- Blocks of a chain do not overlap: each ends, with its data, before any later one starts. -/
theorem Chain.pairwise : ∀ {bs : List Block}, Chain G t bs →
    bs.Pairwise fun a b => a.addr + G.hdr + a.size ≤ b.addr
  | [], _ => .nil
  | [_], _ => List.pairwise_singleton _ _
  | a :: b :: rest, h => by
    obtain ⟨hab, hb⟩ := chain_cons_cons.mp h
    have ih := hb.pairwise
    refine List.pairwise_cons.mpr ⟨?_, ih⟩
    intro c hc
    have h1 := hab.room
    rcases List.mem_cons.mp hc with rfl | hc
    · exact h1
    · have h2 := (List.pairwise_cons.mp ih).1 c hc
      omega

theorem Chain.nodup_addr (h : Chain G t bs) : (bs.map Block.addr).Nodup := by
  have hG := G.hdr_pos
  refine List.pairwise_map.mpr (h.pairwise.imp fun {a b} hab => ?_)
  omega

/-- Two blocks of a chain with one address are one block. -/
theorem Chain.eq_of_addr (h : Chain G t bs) (ha : a ∈ bs) (hb : b ∈ bs)
    (hab : a.addr = b.addr) : a = b :=
  List.inj_on_of_nodup_map h.nodup_addr ha hb hab

theorem Chain.eq_append (h : Chain G t bs) : ∃ pre, bs = pre ++ [⟨t, 0, false⟩] := by
  have hne : bs ≠ [] := by rintro rfl; cases h.last
  have hlast := h.last
  rw [List.getLast?_eq_some_getLast hne, Option.some.injEq] at hlast
  exact ⟨bs.dropLast, by rw [← hlast, List.dropLast_append_getLast hne]⟩

theorem Chain.addr_le (h : Chain G t bs) (hb : b ∈ bs) : b.addr ≤ t := by
  obtain ⟨pre, rfl⟩ := h.eq_append
  rcases List.mem_append.mp hb with hb | hb
  · have := (List.pairwise_append.mp h.pairwise).2.2 b hb _ (List.mem_singleton_self _)
    simp only at this
    omega
  · rw [List.mem_singleton.mp hb]

/-! ## `place` -/

theorem cut_of_le {n : ℕ} (h : size + G.hdr ≤ b.size) : cut G b n size =
    [⟨b.addr, size, false⟩, ⟨b.addr + G.hdr + size, G.gap (b.addr + G.hdr + size) n, true⟩] :=
  if_pos h

theorem cut_of_lt {n : ℕ} (h : b.size < size + G.hdr) :
    cut G b n size = [⟨b.addr, b.size, false⟩] :=
  if_neg (by omega)

theorem place_spec : ∀ {bs bs' : List Block} {data : ℕ}, place G size bs = some (bs', data) →
    ∃ pre b n post, bs = pre ++ b :: n :: post ∧
      (∀ c ∈ pre, ¬(c.free = true ∧ size ≤ c.size)) ∧ b.free = true ∧ size ≤ b.size ∧
      bs' = pre ++ (cut G b n.addr size ++ n :: post) ∧ data = b.addr + G.hdr
  | b :: n :: rest, _, _, h => by
    unfold place at h
    split at h
    · rename_i hfit
      cases h
      exact ⟨[], b, n, rest, rfl, by simp, hfit.1, hfit.2, rfl, rfl⟩
    · rename_i hfit
      obtain ⟨r, hr, heq⟩ := Option.map_eq_some_iff.mp h
      cases heq
      obtain ⟨pre, c, k, post, hbs, hpre, hfree, hsz, hr1, hr2⟩ := place_spec hr
      refine ⟨b :: pre, c, k, post, by rw [hbs]; rfl, ?_, hfree, hsz, by rw [hr1]; rfl, hr2⟩
      intro d hd
      rcases List.mem_cons.mp hd with rfl | hd
      · exact hfit
      · exact hpre d hd

theorem place_none : ∀ {bs : List Block}, place G size bs = none →
    ∀ b ∈ bs.dropLast, ¬(b.free = true ∧ size ≤ b.size)
  | [], _ => by simp
  | [_], _ => by simp
  | a :: n :: rest, h => by
    unfold place at h
    split at h
    · cases h
    · rename_i hfit
      intro b hb
      rw [List.dropLast_cons_cons] at hb
      rcases List.mem_cons.mp hb with rfl | hb
      · exact hfit
      · exact place_none (Option.map_eq_none_iff.mp h) b hb

/-- Cutting a free block keeps the rest of the chain. -/
theorem cut_chain (h : Chain G t (b :: n :: rest)) (hfree : b.free = true)
    (hsize : size ≤ b.size) : Chain G t (cut G b n.addr size ++ n :: rest) := by
  obtain ⟨hbn, hn⟩ := chain_cons_cons.mp h
  have hroom := hbn.room
  have hnfree : ¬ n.free = true := fun hf => hbn.coalesced ⟨hfree, hf⟩
  have hnt : n.addr ≤ t := hn.addr_le List.mem_cons_self
  have hG := G.hdr_pos
  unfold cut
  split
  · rename_i hbig
    have hgap := G.gap_room (b.addr + G.hdr + size) n.addr (by omega)
    refine chain_cons_cons.mpr ⟨⟨?_, ?_, ?_⟩, chain_cons_cons.mpr ⟨⟨?_, ?_, ?_⟩, hn⟩⟩
    · exact Nat.le_refl _
    · simp
    · exact Or.inr ⟨rfl, by simp only; omega⟩
    · exact hgap
    · exact fun hf => hnfree hf.2
    · exact Or.inl rfl
  · exact chain_cons_cons.mpr ⟨⟨hroom, by simp, hbn.size⟩, hn⟩

/-- The blocks cut from `b` start with an allocated block at the same address. -/
theorem cut_eq_cons (b : Block) (n size : ℕ) : ∃ sz tl, cut G b n size = ⟨b.addr, sz, false⟩ :: tl ∧
    live tl = [] ∧ (size ≤ b.size → size ≤ sz) := by
  unfold cut
  split
  · exact ⟨size, _, rfl, by simp [live], fun _ => Nat.le_refl _⟩
  · exact ⟨b.size, [], rfl, rfl, fun h => h⟩

theorem live_append (bs cs : List Block) : live (bs ++ cs) = live bs ++ live cs :=
  List.filter_append _ _

theorem live_cons (b : Block) (bs : List Block) :
    live (b :: bs) = if b.free = true then live bs else b :: live bs := by
  unfold live
  rw [List.filter_cons]
  cases b.free <;> simp

theorem mem_live : b ∈ live bs ↔ b ∈ bs ∧ b.free = false := by
  simp [live]

/-- **First fit keeps the invariant.** -/
theorem place_chain (h : Chain G t bs) (hp : place G size bs = some (bs', data)) :
    Chain G t bs' := by
  obtain ⟨pre, b, n, post, rfl, -, hfree, hsize, rfl, -⟩ := place_spec hp
  have hcut := cut_chain h.suffix hfree hsize
  obtain ⟨sz, tl, hb, -, -⟩ := cut_eq_cons (G := G) b n.addr size
  rw [hb] at hcut ⊢
  exact h.replace hcut rfl (by simp)

/-- **First fit adds one allocated block**, of the requested size at least, and leaves the others
    as they were. -/
theorem place_live (hp : place G size bs = some (bs', data)) :
    ∃ pre b post, live bs = pre ++ post ∧ live bs' = pre ++ b :: post ∧
      b.addr + G.hdr = data ∧ size ≤ b.size ∧ ∃ c ∈ bs, c.free = true ∧ c.addr = b.addr := by
  obtain ⟨pre, b, n, post, rfl, -, hfree, hsize, rfl, rfl⟩ := place_spec hp
  obtain ⟨sz, tl, hb, htl, hsz⟩ := cut_eq_cons (G := G) b n.addr size
  refine ⟨live pre, ⟨b.addr, sz, false⟩, live (n :: post), ?_, ?_, rfl, hsz hsize, b, by simp,
    hfree, rfl⟩
  · rw [live_append, live_cons b, if_pos hfree]
  · rw [hb, live_append, List.cons_append, live_cons, live_append, htl]
    simp

/-- An allocated first block stays, and so does the address of the second. -/
theorem place_first (ha : a.free = false) (hp : place G size (a :: b :: rest) = some (bs', data)) :
    ∃ b' rest', bs' = a :: b' :: rest' ∧ b'.addr = b.addr := by
  obtain ⟨pre, c, n, post, hbs, -, hfree, -, rfl, -⟩ := place_spec hp
  cases pre with
  | nil =>
    obtain ⟨rfl, -⟩ := List.cons.inj hbs
    rw [ha] at hfree
    cases hfree
  | cons d pre =>
    obtain ⟨rfl, hbs'⟩ := List.cons.inj hbs
    cases pre with
    | nil =>
      obtain ⟨rfl, -⟩ := List.cons.inj hbs'
      obtain ⟨sz, tl, hcut, -, -⟩ := cut_eq_cons (G := G) b n.addr size
      exact ⟨⟨b.addr, sz, false⟩, tl ++ n :: post, by rw [hcut]; rfl, rfl⟩
    | cons e pre =>
      obtain ⟨rfl, -⟩ := List.cons.inj hbs'
      exact ⟨b, _, rfl, rfl⟩

/-- Block addresses after `place` are old ones, or lie `hdr + size` above an old one. -/
theorem place_addr (hp : place G size bs = some (bs', data)) (hb : b ∈ bs') :
    ∃ c ∈ bs, b.addr = c.addr ∨ (b.addr = c.addr + G.hdr + size ∧ c.free = true) := by
  obtain ⟨pre, c, n, post, rfl, -, hfree, -, rfl, -⟩ := place_spec hp
  have hc : c ∈ pre ++ c :: n :: post := by simp
  rcases List.mem_append.mp hb with hb | hb
  · exact ⟨b, by simp [hb], Or.inl rfl⟩
  rcases List.mem_append.mp hb with hb | hb
  · unfold cut at hb
    split at hb
    · rcases List.mem_pair.mp hb with rfl | rfl
      · exact ⟨c, hc, Or.inl rfl⟩
      · exact ⟨c, hc, Or.inr ⟨rfl, hfree⟩⟩
    · rw [List.mem_singleton] at hb
      subst hb
      exact ⟨c, hc, Or.inl rfl⟩
  · exact ⟨b, List.mem_append_right _ (List.mem_cons_of_mem _ hb), Or.inl rfl⟩

/-! ## `release` -/

/-- A free block is followed by another, since the sentinel is allocated. -/
theorem Chain.exists_next_of_free (h : Chain G t (b :: rest)) (hb : b.free = true) :
    ∃ n post, rest = n :: post := by
  cases rest with
  | cons n post => exact ⟨n, post, rfl⟩
  | nil =>
    have hlast := h.last
    simp only [List.getLast?_singleton, Option.some.injEq] at hlast
    rw [hlast] at hb
    cases hb

/-- Merging keeps the rest of the chain, and yields one free block in front of it. -/
theorem mergeNext_spec : ∀ {rest : List Block} {b n : Block} (a : Block), Chain G t (n :: rest) →
    b.addr + G.hdr ≤ n.addr → b.free = true →
    ∃ sz tl, mergeNext G b (a :: n :: rest) = ⟨b.addr, sz, true⟩ :: tl ∧
      Chain G t (⟨b.addr, sz, true⟩ :: tl) ∧ live tl = live (n :: rest) ∧
      tl.Sublist (n :: rest)
  | rest, b, n, a, hn, hbn, hfree => by
    have hgap := G.gap_room b.addr n.addr hbn
    unfold mergeNext
    by_cases hnf : n.free = true
    · rw [if_pos hnf, hfree]
      obtain ⟨k, rest, rfl⟩ := hn.exists_next_of_free hnf
      obtain ⟨hnk, hk⟩ := chain_cons_cons.mp hn
      have hroom := hnk.room
      obtain ⟨sz, tl, heq, hc, hlive, hsub⟩ :=
        mergeNext_spec (b := ⟨b.addr, G.gap b.addr n.addr, true⟩) n hk (by simp only; omega) rfl
      refine ⟨sz, tl, heq, hc, ?_, hsub.cons _⟩
      rw [hlive, live_cons n, if_pos hnf]
    · rw [if_neg hnf, hfree]
      exact ⟨_, _, rfl, chain_cons_cons.mpr ⟨⟨hgap, fun hf => hnf hf.2, Or.inl rfl⟩, hn⟩, rfl,
        List.Sublist.refl _⟩

theorem releaseAt_spec (h : Chain G t (p :: n :: x :: rest)) :
    ∃ sz tl, releaseAt G p n (x :: rest) = ⟨p.addr, sz, p.free⟩ :: tl ∧
      Chain G t (⟨p.addr, sz, p.free⟩ :: tl) ∧ live (⟨p.addr, sz, p.free⟩ :: tl) = live (p :: x :: rest) ∧
      ∀ b ∈ tl, b.addr = n.addr ∨ b ∈ x :: rest := by
  obtain ⟨hpn, h'⟩ := chain_cons_cons.mp h
  obtain ⟨hnx, hx⟩ := chain_cons_cons.mp h'
  have hroom := hpn.room
  have hroom' := hnx.room
  unfold releaseAt
  by_cases hpf : p.free = true
  · rw [if_pos hpf, hpf]
    obtain ⟨sz, tl, heq, hc, hlive, hsub⟩ :=
      mergeNext_spec (b := p) ⟨n.addr, n.size, true⟩ hx (by omega) hpf
    refine ⟨sz, tl, heq, hc, ?_, fun b hb => Or.inr (hsub.subset hb)⟩
    rw [live_cons, if_pos rfl, live_cons p, if_pos hpf, hlive]
  · rw [if_neg hpf]
    dsimp only
    by_cases hxf : x.free = true
    · rw [if_pos hxf]
      obtain ⟨y, rest, rfl⟩ := hx.exists_next_of_free hxf
      obtain ⟨hxy, hy⟩ := chain_cons_cons.mp hx
      have hroom'' := hxy.room
      obtain ⟨sz, tl, heq, hc, hlive, hsub⟩ :=
        mergeNext_spec (b := ⟨n.addr, n.size, true⟩) x hy (by simp only; omega) rfl
      have hlink : Link G t p ⟨n.addr, sz, true⟩ := ⟨hroom, fun hf => hpf hf.1, hpn.size⟩
      refine ⟨p.size, _, by rw [heq], chain_cons_cons.mpr ⟨hlink, hc⟩, ?_, ?_⟩
      · rw [live_cons, live_cons ⟨n.addr, sz, true⟩, if_pos rfl, hlive, live_cons p, live_cons x,
          if_pos hxf]
      · intro b hb
        rcases List.mem_cons.mp hb with rfl | hb
        · exact Or.inl rfl
        · exact Or.inr (List.mem_cons_of_mem _ (hsub.subset hb))
    · rw [if_neg hxf]
      refine ⟨p.size, _, rfl, chain_cons_cons.mpr ⟨⟨hroom, fun hf => hpf hf.1, hpn.size⟩,
        chain_cons_cons.mpr ⟨⟨hroom', fun hf => hxf hf.2, hnx.size⟩, hx⟩⟩, ?_, ?_⟩
      · rw [live_cons, live_cons ⟨n.addr, n.size, true⟩, if_pos rfl, live_cons p]
      · intro b hb
        rcases List.mem_cons.mp hb with rfl | hb
        · exact Or.inl rfl
        · exact Or.inr hb

theorem release_of_mem : ∀ {bs : List Block}, (∃ n ∈ bs.tail, n.addr = addr) →
    ∃ pre p n post, bs = pre ++ p :: n :: post ∧ n.addr = addr ∧
      release G addr bs = pre ++ releaseAt G p n post
  | [], h => by simp at h
  | [_], h => by simp at h
  | p :: n :: rest, h => by
    unfold release
    by_cases hn : n.addr = addr
    · rw [if_pos hn]
      exact ⟨[], p, n, rest, rfl, hn, rfl⟩
    · rw [if_neg hn]
      have h' : ∃ k ∈ (n :: rest).tail, k.addr = addr := by
        obtain ⟨k, hk, hka⟩ := h
        rcases List.mem_cons.mp hk with rfl | hk
        · exact absurd hka hn
        · exact ⟨k, hk, hka⟩
      obtain ⟨pre, q, k, post, hbs, hk, heq⟩ := release_of_mem h'
      exact ⟨p :: pre, q, k, post, by rw [hbs]; rfl, hk, by rw [heq]; rfl⟩

theorem release_of_not_mem : ∀ {bs : List Block}, (∀ n ∈ bs.tail, n.addr ≠ addr) →
    release G addr bs = bs
  | [], _ => rfl
  | [_], _ => rfl
  | p :: n :: rest, h => by
    unfold release
    have ih : release G addr (n :: rest) = n :: rest :=
      release_of_not_mem fun k hk => h k (List.mem_cons_of_mem _ hk)
    rw [if_neg (h n List.mem_cons_self), ih]

/-- A freed block is followed by another, since the sentinel is never freed. -/
theorem Chain.exists_next (h : Chain G t (pre ++ p :: n :: post)) (hn : n.addr ≠ t) :
    ∃ x rest, post = x :: rest := by
  cases post with
  | cons x rest => exact ⟨x, rest, rfl⟩
  | nil =>
    have hlast := h.last
    rw [List.getLast?_append_of_ne_nil _ (List.cons_ne_nil p [n])] at hlast
    simp only [List.getLast?_cons_cons, List.getLast?_singleton, Option.some.injEq] at hlast
    exact absurd (by rw [hlast]) hn

/-- **Release keeps the invariant.** -/
theorem release_chain (h : Chain G t bs) (ht : addr ≠ t) : Chain G t (release G addr bs) := by
  by_cases hmem : ∃ n ∈ bs.tail, n.addr = addr
  · obtain ⟨pre, p, n, post, rfl, hn, heq⟩ := release_of_mem (G := G) hmem
    obtain ⟨x, rest, rfl⟩ := h.exists_next (hn ▸ ht)
    obtain ⟨sz, tl, hr, hc, -, -⟩ := releaseAt_spec h.suffix
    rw [heq, hr]
    exact h.replace hc rfl id
  · rw [release_of_not_mem fun n hn hna => hmem ⟨n, hn, hna⟩]
    exact h

theorem Chain.filter_addr (h : Chain G t (pre ++ n :: post)) :
    (pre ++ n :: post).filter (fun b => b.addr ≠ n.addr) = pre ++ post := by
  have hnd := h.nodup_addr
  rw [List.map_append, List.map_cons, List.nodup_middle, List.nodup_cons, ← List.map_append] at hnd
  have hne : ∀ b ∈ pre ++ post, b.addr ≠ n.addr := fun b hb hbn =>
    hnd.1 (List.mem_map.mpr ⟨b, hb, hbn⟩)
  rw [List.filter_append, List.filter_cons_of_neg (by simp), ← List.filter_append]
  exact List.filter_eq_self.mpr fun b hb => by simpa using hne b hb

/-- **Release removes the freed block from the allocated ones** and leaves the others as they
    were. -/
theorem release_live (h : Chain G t bs) (ht : addr ≠ t) (hhead : ∀ b ∈ bs.head?, b.addr ≠ addr) :
    live (release G addr bs) = (live bs).filter fun b => b.addr ≠ addr := by
  have hcomm : (live bs).filter (fun b => b.addr ≠ addr) =
      live (bs.filter fun b => b.addr ≠ addr) := by
    simp only [live, List.filter_filter, Bool.and_comm]
  rw [hcomm]
  by_cases hmem : ∃ n ∈ bs.tail, n.addr = addr
  · obtain ⟨pre, p, n, post, rfl, rfl, heq⟩ := release_of_mem (G := G) hmem
    obtain ⟨x, rest, rfl⟩ := h.exists_next ht
    obtain ⟨sz, tl, hr, -, hlive, -⟩ := releaseAt_spec h.suffix
    rw [List.append_cons] at h
    rw [heq, hr, live_append, hlive, ← live_append, List.append_cons pre p (n :: _), h.filter_addr,
      ← List.append_cons]
  · rw [release_of_not_mem fun n hn hna => hmem ⟨n, hn, hna⟩, List.filter_eq_self.mpr]
    intro b hb
    cases bs with
    | nil => cases hb
    | cons a bs =>
      rcases List.mem_cons.mp hb with rfl | hb
      · simpa using hhead b rfl
      · simpa using fun hba => hmem ⟨b, hb, hba⟩

/-- `release` keeps the address of the first block. -/
theorem release_cons (h : Chain G t (b :: rest)) (ht : addr ≠ t) :
    ∃ b' rest', release G addr (b :: rest) = b' :: rest' ∧ b'.addr = b.addr := by
  cases rest with
  | nil => exact ⟨b, [], rfl, rfl⟩
  | cons n rest =>
    unfold release
    by_cases hn : n.addr = addr
    · rw [if_pos hn]
      obtain ⟨x, rest, rfl⟩ := Chain.exists_next (show Chain G t ([] ++ b :: n :: rest) from h) (hn ▸ ht)
      obtain ⟨sz, tl, hr, -, -, -⟩ := releaseAt_spec h
      exact ⟨_, _, hr, rfl⟩
    · rw [if_neg hn]
      exact ⟨b, _, rfl, rfl⟩

/-- An allocated first block stays, and so does the address of the second. -/
theorem release_first (ha : a.free = false) (h : Chain G t (a :: b :: rest)) (ht : addr ≠ t) :
    ∃ b' rest', release G addr (a :: b :: rest) = a :: b' :: rest' ∧ b'.addr = b.addr := by
  obtain ⟨hab, hb⟩ := chain_cons_cons.mp h
  unfold release
  by_cases hba : b.addr = addr
  · rw [if_pos hba]
    obtain ⟨x, rest, rfl⟩ := Chain.exists_next (show Chain G t ([] ++ a :: b :: rest) from h) (hba ▸ ht)
    obtain ⟨hbx, hx⟩ := chain_cons_cons.mp hb
    have hroom := hbx.room
    unfold releaseAt
    rw [if_neg (by simp [ha])]
    dsimp only
    by_cases hxf : x.free = true
    · rw [if_pos hxf]
      obtain ⟨y, rest, rfl⟩ := hx.exists_next_of_free hxf
      obtain ⟨hxy, hy⟩ := chain_cons_cons.mp hx
      have hroom' := hxy.room
      obtain ⟨sz, tl, heq, -, -, -⟩ :=
        mergeNext_spec (b := ⟨b.addr, b.size, true⟩) x hy (by simp only; omega) rfl
      exact ⟨⟨b.addr, sz, true⟩, tl, by rw [heq], rfl⟩
    · rw [if_neg hxf]
      exact ⟨_, _, rfl, rfl⟩
  · rw [if_neg hba]
    obtain ⟨b', rest', heq, haddr⟩ := release_cons hb ht
    exact ⟨b', rest', by rw [heq], haddr⟩

/-- `release` makes no new block addresses. -/
theorem release_addr (h : Chain G t bs) (ht : addr ≠ t) (hb : b ∈ release G addr bs) :
    ∃ c ∈ bs, c.addr = b.addr := by
  by_cases hmem : ∃ n ∈ bs.tail, n.addr = addr
  · obtain ⟨pre, p, n, post, rfl, rfl, heq⟩ := release_of_mem (G := G) hmem
    obtain ⟨x, rest, rfl⟩ := h.exists_next ht
    obtain ⟨sz, tl, hr, -, -, haddr⟩ := releaseAt_spec h.suffix
    rw [heq, hr] at hb
    rcases List.mem_append.mp hb with hb | hb
    · exact ⟨b, List.mem_append_left _ hb, rfl⟩
    rcases List.mem_cons.mp hb with rfl | hb
    · exact ⟨p, by simp, rfl⟩
    rcases haddr b hb with hbn | hb
    · exact ⟨n, by simp, hbn.symm⟩
    · exact ⟨b, List.mem_append_right _ (List.mem_cons_of_mem _ (List.mem_cons_of_mem _ hb)), rfl⟩
  · rw [release_of_not_mem fun n hn hna => hmem ⟨n, hn, hna⟩] at hb
    exact ⟨b, hb, rfl⟩

/-! ## Nothing is lost -/

/-- **With only the sentinel allocated, one free block spans the region**, and its recorded size
    is the gap to the sentinel. -/
theorem eq_of_live_eq_nil (h : Chain G t (b :: n :: rest))
    (hlive : ∀ c ∈ b :: n :: rest, c.free = false → c.addr = t) :
    b = ⟨b.addr, G.gap b.addr t, true⟩ ∧ n :: rest = [⟨t, 0, false⟩] := by
  obtain ⟨hbn, hn⟩ := chain_cons_cons.mp h
  have hG := G.hdr_pos
  have hroom := hbn.room
  have hle := hn.addr_le (b := n) List.mem_cons_self
  have hbf : b.free = true := by
    by_contra hbf
    have := hlive b List.mem_cons_self (by simpa using hbf)
    omega
  have hnf : n.free = false := by simpa [hbf] using hbn.coalesced
  have hnt : n.addr = t := hlive n (by simp) hnf
  have hrest : rest = [] := by
    cases rest with
    | nil => rfl
    | cons k rest =>
      obtain ⟨hnk, hk⟩ := chain_cons_cons.mp hn
      have h1 := hnk.room
      have h2 := hk.addr_le (b := k) List.mem_cons_self
      omega
  subst hrest
  have hlast := hn.last
  simp only [List.getLast?_singleton, Option.some.injEq] at hlast
  refine ⟨?_, by rw [hlast]⟩
  have hsize : b.size = G.gap b.addr t := by
    rcases hbn.size with hs | hs
    · rw [hs, hnt]
    · exact absurd hnt hs.2
  rw [← hsize, ← hbf]

end BlockList
