import HryOS.Hlib.List

/-!
# Lists whose nodes share one heap

Several lists with `StoreErased`, each with its pointers and the nodes it has allocated, over the
same nodes.  An operation on one of them writes to nodes of its own only, so the others stay.

* `Grows` — the frame of an operation.
* `Inserts` — what `push_back` and `push_front` have in common.
* `Family.Holds` — every list of the family holds its entries.
* `Family.Holds.setList` — an operation on one list.
-/

set_option autoImplicit false

namespace HryOS.HlibList

open LinkedChain

variable {T : Type} {s s' s₁ : State T} {es fs es' fs' l r : List (ℕ × T)} {e : ℕ × T}
  {value : T} {address n p : ℕ}

/-! ## The frame of an operation -/

/-- From `s` to `s'` at most the node at `address` is allocated, and the nodes that belong to
    neither stay. -/
structure Grows (s s' : State T) (address : ℕ) : Prop where
  allocated : s'.allocated = s.allocated ∨
    s.heap address = none ∧ s'.allocated = s.allocated ++ [address]
  heap : ∀ p ∉ s'.allocated, s'.heap p = s.heap p

theorem Holds.mem_allocated (h : Holds true s es fs) :
    p ∈ s.allocated ↔ p ∈ es.map Prod.fst ∨ p ∈ fs.map Prod.fst := by
  rw [← (h.stored rfl).mem_iff, List.map_append, List.mem_append]

/-- Every node a list has allocated is in the heap. -/
theorem Holds.ne_none (h : Holds true s es fs) (hp : p ∈ s.allocated) : s.heap p ≠ none := by
  rcases h.mem_allocated.mp hp with hes | hfs
  · exact h.linked.ne_none hes
  · exact h.free.ne_none hfs

/-- A list depends on its own nodes only. -/
theorem Holds.congr (h : Holds true s es fs) {heap : Heap ℕ T}
    (heq : ∀ p ∈ s.allocated, heap p = s.heap p) : Holds true { s with heap := heap } es fs where
  head := h.head
  tail := h.tail
  linked := h.linked.congr fun _ hp => heq _ (h.mem_allocated.mpr (Or.inl hp))
  free := h.free.congr fun _ hp => heq _ (h.mem_allocated.mpr (Or.inr hp))
  nodup := h.nodup
  stored := h.stored
  deleted := h.deleted

theorem join_frame {heap heap' : Heap ℕ T} {left right : ℕ}
    (h : join heap left right = some heap') (hleft : p ≠ left) (hright : p ≠ right) :
    heap' p = heap p := by
  unfold join at h
  simp only [Option.bind_eq_bind, Option.bind_eq_some_iff] at h
  obtain ⟨heap₁, h₁, h₂⟩ := h
  rw [setPrev_of_ne h₂ hright, setNext_of_ne h₁ hleft]

/-! ## Pushing -/

/-- The node of a new element was the first of `free_`, or is allocated. -/
theorem getFreeNode_frame (hs : getFreeNode true s value address = some (s₁, n)) :
    (∀ p, p ≠ n → s₁.heap p = s.heap p) ∧ s₁.head = s.head ∧ s₁.tail = s.tail ∧
      (s.free = some n ∧ s₁.allocated = s.allocated ∨
        n = address ∧ s.heap address = none ∧ s₁.allocated = s.allocated ++ [address]) := by
  unfold getFreeNode at hs
  rw [if_pos rfl] at hs
  split at hs
  · rename_i result hfree
    simp only [Option.bind_eq_bind, Option.bind_eq_some_iff] at hs
    obtain ⟨node, -, hs⟩ := hs
    cases hs
    exact ⟨fun p hp => Function.update_of_ne hp .., rfl, rfl, Or.inl ⟨hfree, rfl⟩⟩
  · unfold newNode at hs
    split at hs
    · rename_i hnone
      cases hs
      exact ⟨fun p hp => Function.update_of_ne hp .., rfl, rfl,
        Or.inr ⟨rfl, Option.isNone_iff_eq_none.mp hnone, rfl⟩⟩
    · cases hs

/-- The frame of a push, where `s'` differs from `s₁` at the new node and next to it only. -/
theorem Holds.grows (h : Holds true s es fs)
    (hs : getFreeNode true s value address = some (s₁, n)) (halloc : s'.allocated = s₁.allocated)
    (hheap : ∀ p, p ≠ n → p ∉ es.map Prod.fst → s'.heap p = s₁.heap p) : Grows s s' address := by
  obtain ⟨hframe, -, -, hn⟩ := getFreeNode_frame hs
  have hmem : n ∈ s'.allocated ∧ ∀ p ∈ s.allocated, p ∈ s'.allocated := by
    rcases hn with ⟨hfree, hsame⟩ | ⟨rfl, -, hnew⟩
    · rw [halloc, hsame]
      refine ⟨h.mem_allocated.mpr (Or.inr ?_), fun p hp => hp⟩
      have hyields := h.free
      rw [hfree] at hyields
      cases fs with
      | nil => cases hyields
      | cons e fs =>
        rw [Option.some.inj hyields.1]
        exact List.mem_cons_self
    · rw [halloc, hnew]
      exact ⟨List.mem_append_right _ (List.mem_singleton_self n), fun p hp =>
        List.mem_append_left _ hp⟩
  refine ⟨?_, ?_⟩
  · rw [halloc]
    rcases hn with ⟨-, hsame⟩ | ⟨-, hnone, hnew⟩
    · exact Or.inl hsame
    · exact Or.inr ⟨hnone, hnew⟩
  · intro p hp
    have hne : p ≠ n := fun hpn => hp (hpn ▸ hmem.1)
    have hes : p ∉ es.map Prod.fst := fun hin => hp (hmem.2 p (h.mem_allocated.mpr (Or.inl hin)))
    rw [hheap p hne hes, hframe p hne]

/-- A list method that inserts a value into the sequence the way `insert` does. -/
def Inserts (method : State T → T → ℕ → Option (State T)) (insert : List T → T → List T) : Prop :=
  ∀ (s : State T) (es fs : List (ℕ × T)) (value : T) (address : ℕ), Holds true s es fs →
    s.heap address = none → ∃ s' es' fs', method s value address = some s' ∧
      Holds true s' es' fs' ∧ es'.map Prod.snd = insert (es.map Prod.snd) value ∧
      Grows s s' address

theorem pushBack_inserts :
    Inserts (pushBack true : State T → T → ℕ → Option (State T)) fun xs x => xs ++ [x] := by
  intro s es fs value address h hfree
  obtain ⟨s', n, fs', hs', h', -⟩ := pushBack_spec h value (Or.inl hfree)
  refine ⟨s', _, fs', hs', h', by simp, ?_⟩
  unfold pushBack at hs'
  simp only [Option.bind_eq_bind, Option.bind_eq_some_iff] at hs'
  obtain ⟨⟨s₁, k⟩, hs₁, hs'⟩ := hs'
  obtain ⟨-, -, htail, -⟩ := getFreeNode_frame hs₁
  dsimp only at hs'
  split at hs'
  · cases hs'
    exact h.grows hs₁ rfl fun _ _ _ => rfl
  · rename_i tail hlast
    obtain ⟨heap, hjoin, hs'⟩ := Option.bind_eq_some_iff.mp hs'
    cases hs'
    have hmem := mem_of_last (h.tail.symm.trans (htail.symm.trans hlast))
    refine h.grows hs₁ rfl fun p hne hp => join_frame hjoin ?_ hne
    rintro rfl
    exact hp hmem

theorem pushFront_inserts :
    Inserts (pushFront true : State T → T → ℕ → Option (State T)) fun xs x => x :: xs := by
  intro s es fs value address h hfree
  obtain ⟨s', n, fs', hs', h', -⟩ := pushFront_spec h value (Or.inl hfree)
  refine ⟨s', _, fs', hs', h', by simp, ?_⟩
  unfold pushFront at hs'
  simp only [Option.bind_eq_bind, Option.bind_eq_some_iff] at hs'
  obtain ⟨⟨s₁, k⟩, hs₁, hs'⟩ := hs'
  obtain ⟨-, hhead, -, -⟩ := getFreeNode_frame hs₁
  dsimp only at hs'
  split at hs'
  · cases hs'
    exact h.grows hs₁ rfl fun _ _ _ => rfl
  · rename_i head hfirst
    obtain ⟨heap, hjoin, hs'⟩ := Option.bind_eq_some_iff.mp hs'
    cases hs'
    have hmem := mem_of_first (h.head.symm.trans (hhead.symm.trans hfirst))
    refine h.grows hs₁ rfl fun p hne hp => join_frame hjoin hne ?_
    rintro rfl
    exact hp hmem

/-! ## Erasing -/

theorem erase_frame {node : Node ℕ T} (hs : erase true s (some n) = some s')
    (hnode : s.heap n = some node) (hp : p ≠ n) (hnext : node.next ≠ some p)
    (hprev : node.prev ≠ some p) : s'.heap p = s.heap p := by
  unfold erase at hs
  simp only [Option.bind_eq_bind, Option.bind_some, hnode, Option.bind_eq_some_iff,
    ↓reduceIte] at hs
  obtain ⟨heap₁, h₁, heap₂, h₂, heap₃, h₃, heap₄, h₄, hs⟩ := hs
  cases hs
  show heap₄ p = s.heap p
  rw [setPrev_of_ne h₄ hp, setNext_of_ne h₃ hp, setNextIf_of_ne h₂ hprev, setPrevIf_of_ne h₁ hnext]

/-- `erase` with its frame. -/
theorem erase_grows (h : Holds true s (l ++ e :: r) fs) (address : ℕ) :
    ∃ s', erase true s (some e.1) = some s' ∧ Holds true s' (l ++ r) (e :: fs) ∧
      Grows s s' address := by
  obtain ⟨s', hs', h', halloc⟩ := erase_spec h
  have hnode := (linked_append.mp h.linked).2.1
  refine ⟨s', hs', h', Or.inl halloc, ?_⟩
  intro p hp
  rw [halloc, h.mem_allocated, not_or, List.map_append, List.mem_append, not_or, List.map_cons,
    List.mem_cons, not_or] at hp
  obtain ⟨⟨hl, hne, hr⟩, -⟩ := hp
  exact erase_frame hs' hnode hne (fun hnext => hr (mem_of_first hnext))
    fun hprev => hl (mem_of_last hprev)

/-! ## Families -/

/-- The pointers of one list, and the nodes it has allocated. -/
structure Header where
  head : Option ℕ
  tail : Option ℕ
  free : Option ℕ
  allocated : List ℕ
  deriving DecidableEq, Repr

/-- Lists over the same nodes. -/
structure Family (I T : Type) where
  heap : Heap ℕ T
  header : I → Header

namespace Family

variable {I : Type} {F : Family I T} {es fs : I → List (ℕ × T)} {i j : I}

/-- One list of the family. -/
def list (F : Family I T) (i : I) : State T where
  heap := F.heap
  head := (F.header i).head
  tail := (F.header i).tail
  free := (F.header i).free
  allocated := (F.header i).allocated

/-- The family after an operation on the list `i`. -/
def setList [DecidableEq I] (F : Family I T) (i : I) (s : State T) : Family I T where
  heap := s.heap
  header := Function.update F.header i ⟨s.head, s.tail, s.free, s.allocated⟩

/-- Every list holds its entries, in nodes of its own. -/
structure Holds (F : Family I T) (es fs : I → List (ℕ × T)) : Prop where
  list : ∀ i, HlibList.Holds true (F.list i) (es i) (fs i)
  apart : ∀ i j, i ≠ j → ∀ p ∈ (F.header i).allocated, p ∉ (F.header j).allocated

section

variable [DecidableEq I]

@[simp] theorem setList_list_self : (F.setList i s).list i = s := by
  unfold list setList
  simp

theorem setList_header_of_ne (h : j ≠ i) : (F.setList i s).header j = F.header j :=
  Function.update_of_ne h ..

theorem setList_list_of_ne (h : j ≠ i) :
    (F.setList i s).list j = { F.list j with heap := s.heap } := by
  unfold list
  rw [setList_header_of_ne h]
  rfl

/-- **An operation on one list** leaves the others as they are. -/
theorem Holds.setList (h : F.Holds es fs) (hs : HlibList.Holds true s es' fs')
    (hgrows : Grows (F.list i) s address) :
    (F.setList i s).Holds (Function.update es i es') (Function.update fs i fs') := by
  -- a node of another list is no node of this one, before and after
  have hother : ∀ j, j ≠ i → ∀ p ∈ (F.header j).allocated, p ∉ s.allocated := by
    intro j hj p hp hp'
    rcases hgrows.allocated with hsame | ⟨hnone, hnew⟩
    · rw [hsame] at hp'
      exact h.apart j i hj p hp hp'
    · rw [hnew, List.mem_append, List.mem_singleton] at hp'
      rcases hp' with hp' | rfl
      · exact h.apart j i hj p hp hp'
      · exact (h.list j).ne_none hp hnone
  have hself : ((F.setList i s).header i).allocated = s.allocated := by
    unfold Family.setList
    simp
  refine ⟨?_, ?_⟩
  · intro j
    by_cases hj : j = i
    · subst hj
      rw [setList_list_self, Function.update_self, Function.update_self]
      exact hs
    · rw [setList_list_of_ne hj, Function.update_of_ne hj, Function.update_of_ne hj]
      exact (h.list j).congr fun p hp => hgrows.heap p (hother j hj p hp)
  · intro j k hjk p hp
    by_cases hj : j = i
    · subst hj
      rw [hself] at hp
      rw [setList_header_of_ne (Ne.symm hjk)]
      exact fun hp' => hother k (Ne.symm hjk) p hp' hp
    · rw [setList_header_of_ne hj] at hp
      by_cases hk : k = i
      · subst hk
        rw [hself]
        exact hother j hj p hp
      · rw [setList_header_of_ne hk]
        exact h.apart j k hjk p hp

end

/-- From the `k`-th on, the addresses `new` returns are not in use. -/
def Unused (F : Family I T) (new : ℕ → ℕ) (k : ℕ) : Prop := ∀ n, k ≤ n → F.heap (new n) = none

/-- After an operation on one list, if those from the `k'`-th on are not the address it used. -/
theorem Unused.setList [DecidableEq I] {new : ℕ → ℕ} {k k' : ℕ} (h : F.Unused new k)
    (hF : F.Holds es fs) (hgrows : Grows (F.list i) s address) (hk : k ≤ k')
    (hne : ∀ n, k' ≤ n → new n ≠ address) : (F.setList i s).Unused new k' := by
  intro n hn
  have hnone : F.heap (new n) = none := h n (hk.trans hn)
  have hold : new n ∉ (F.list i).allocated := fun hmem => (hF.list i).ne_none hmem hnone
  refine (hgrows.heap (new n) ?_).trans hnone
  rcases hgrows.allocated with hsame | ⟨-, hadd⟩
  · rw [hsame]
    exact hold
  · rw [hadd, List.mem_append, List.mem_singleton, not_or]
    exact ⟨hold, hne n hn⟩

end Family

end HryOS.HlibList
