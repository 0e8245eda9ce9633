import HryOS.Lib.LinkedChain
import HryOS.Lib.Transition

/-!
# `hlib::list`

The doubly linked list on its nodes.  With `StoreErased` an erased node goes to the chain of
`free_` and `get_free_node` takes it from there; without it the node is deleted.  The addresses
`new` returns come with the operations, so an address that was deleted may come back; a null
dereference and an access to a node that does not exist have no result (`none`).

* `step` — one operation; `apply` — what it does to a sequence.
* `Holds` — the nodes hold the entries `es`, and `free_` the entries `fs`.
* `list_refines_sequence` — after any operations the list is the sequence, forwards and backwards,
  and every node is live or free.
-/

set_option autoImplicit false

namespace HryOS.HlibList

open Transition LinkedChain

variable {T : Type}

/-- `hlib::list`: its three pointers, the nodes, and the addresses `new` returned so far. -/
structure State (T : Type) where
  heap : Heap ℕ T
  head : Option ℕ
  tail : Option ℕ
  free : Option ℕ
  allocated : List ℕ

/-- The empty list. -/
def empty : State T where
  heap := fun _ => none
  head := none
  tail := none
  free := none
  allocated := []

/-- `new node(value)`, at an address where there is no node. -/
def newNode (s : State T) (value : T) (address : ℕ) : Option (State T × ℕ) :=
  if (s.heap address).isNone then
    let heap := Function.update s.heap address (some { value, next := none, prev := none })
    some ({ s with heap, allocated := s.allocated ++ [address] }, address)
  else none

/-- `get_free_node`. -/
def getFreeNode (StoreErased : Bool) (s : State T) (value : T) (address : ℕ) :
    Option (State T × ℕ) :=
  if StoreErased then
    match s.free with
    | some result => do
      let node ← s.heap result
      let heap := Function.update s.heap result (some { value, next := none, prev := none })
      return ({ s with heap, free := node.next }, result)
    | none => newNode s value address
  else newNode s value address

/-- `join`. -/
def join (heap : Heap ℕ T) (left right : ℕ) : Option (Heap ℕ T) := do
  let heap ← setNext heap left (some right)
  setPrev heap right (some left)

/-- `push_back`. -/
def pushBack (StoreErased : Bool) (s : State T) (value : T) (address : ℕ) :
    Option (State T) := do
  let (s, n) ← getFreeNode StoreErased s value address
  match s.tail with
  | none => return { s with head := some n, tail := some n }
  | some tail => do
    let heap ← join s.heap tail n
    return { s with heap, tail := some n }

/-- `push_front`. -/
def pushFront (StoreErased : Bool) (s : State T) (value : T) (address : ℕ) :
    Option (State T) := do
  let (s, n) ← getFreeNode StoreErased s value address
  match s.head with
  | none => return { s with head := some n, tail := some n }
  | some head => do
    let heap ← join s.heap n head
    return { s with heap, head := some n }

/-- `erase`. -/
def erase (StoreErased : Bool) (s : State T) (it : Option ℕ) : Option (State T) := do
  let n ← it
  let node ← s.heap n
  let heap ← setPrevIf s.heap node.next node.prev
  let heap ← setNextIf heap node.prev node.next
  let head := if some n = s.head then node.next else s.head
  let tail := if some n = s.tail then node.prev else s.tail
  if StoreErased then do
    let heap ← setNext heap n s.free
    let heap ← setPrev heap n none
    return { s with heap, head, tail, free := some n }
  else return { s with heap := Function.update heap n none, head, tail }

/-- `pop_front`. -/
def popFront (StoreErased : Bool) (s : State T) : Option (State T) :=
  erase StoreErased s s.head

/-- `pop_back`. -/
def popBack (StoreErased : Bool) (s : State T) : Option (State T) :=
  erase StoreErased s s.tail

/-- `end`. -/
def end_ (s : State T) : Option (Option ℕ) :=
  match s.tail with
  | none => some none
  | some tail => (s.heap tail).map Node.next

/-- `empty`. -/
def isEmpty (s : State T) : Bool := s.head.isNone || s.tail.isNone

/-- `front`. -/
def front (s : State T) : Option T := do
  let n ← s.head
  let node ← s.heap n
  return node.value

/-- The loop of `erase_if`, with the values `func` is called on; no result where more than `rounds`
    rounds are needed. -/
def eraseIfLoop (StoreErased : Bool) (func : T → Bool) :
    ℕ → State T → Option ℕ → Option (State T × List T)
  | 0, _, _ => none
  | rounds + 1, s, it => do
    if it = (← end_ s) then return (s, [])
    let n ← it
    let node ← s.heap n
    -- `it++` comes before `erase(to_delete)`
    let s ← if func node.value then erase StoreErased s it else some s
    let (s, calls) ← eraseIfLoop StoreErased func rounds s node.next
    return (s, node.value :: calls)

/-- `erase_if`, with one round for each node there ever was and one for the last test. -/
def eraseIf (StoreErased : Bool) (s : State T) (func : T → Bool) :
    Option (State T × List T) :=
  eraseIfLoop StoreErased func (s.allocated.length + 1) s s.head

/-- A range-based `for` over the list: the values it visits; no result where more than `rounds`
    rounds are needed. -/
def forEachLoop (s : State T) : ℕ → Option ℕ → Option (List T)
  | 0, _ => none
  | rounds + 1, it => do
    if it = (← end_ s) then return []
    let n ← it
    let node ← s.heap n
    let values ← forEachLoop s rounds node.next
    return node.value :: values

/-- A range-based `for`, with one round for each node there ever was and one for the last test. -/
def forEach (s : State T) : Option (List T) :=
  forEachLoop s (s.allocated.length + 1) s.head

/-- `operator++`, so many times. -/
def advance (heap : Heap ℕ T) (it : Option ℕ) : ℕ → Option (Option ℕ)
  | 0 => some it
  | i + 1 => do
    let n ← it
    let node ← heap n
    advance heap node.next i

/-! ## Operations -/

/-- The operations, with the address that `new` returns if it is called. -/
inductive Op (T : Type)
  | pushBack (value : T) (address : ℕ)
  | pushFront (value : T) (address : ℕ)
  | popFront
  | popBack
  /-- `erase` of the iterator at place `i` -/
  | erase (i : ℕ)
  | eraseIf (func : T → Bool)

/-- One operation on the list. -/
def step (StoreErased : Bool) : Step (State T) (Op T)
  | s, .pushBack value address => pushBack StoreErased s value address
  | s, .pushFront value address => pushFront StoreErased s value address
  | s, .popFront => popFront StoreErased s
  | s, .popBack => popBack StoreErased s
  | s, .erase i => (advance s.heap s.head i).bind (erase StoreErased s)
  | s, .eraseIf func => (eraseIf StoreErased s func).map Prod.fst

/-- One operation on a sequence. -/
def apply (xs : List T) : Op T → List T
  | .pushBack value _ => xs ++ [value]
  | .pushFront value _ => value :: xs
  | .popFront => xs.tail
  | .popBack => xs.dropLast
  | .erase i => xs.eraseIdx i
  | .eraseIf func => xs.filter (!func ·)

/-- What the caller owes to an operation, and the allocator where it is called. -/
def Legal (StoreErased : Bool) (s : State T) (xs : List T) : Op T → Prop
  | .pushBack _ address | .pushFront _ address =>
    s.heap address = none ∨ (StoreErased = true ∧ s.free ≠ none)
  | .popFront | .popBack => xs ≠ []
  | .erase i => i < xs.length
  | .eraseIf _ => True

/-! ## The invariant -/

/-- The live nodes hold `es`, and the chain of `free_` holds `fs`. -/
structure Holds (StoreErased : Bool) (s : State T) (es fs : List (ℕ × T)) : Prop where
  head : s.head = first es none
  tail : s.tail = last none es
  linked : Linked s.heap none es none
  free : Yields Node.next s.heap s.free fs
  nodup : ((es ++ fs).map Prod.fst).Nodup
  stored : StoreErased = true → ((es ++ fs).map Prod.fst).Perm s.allocated
  deleted : StoreErased = false → fs = [] ∧ es.length ≤ s.allocated.length

variable {StoreErased : Bool} {s : State T} {es fs l r : List (ℕ × T)} {e : ℕ × T}

theorem Holds.empty : Holds StoreErased (empty : State T) [] [] where
  head := rfl
  tail := rfl
  linked := trivial
  free := rfl
  nodup := List.nodup_nil
  stored := fun _ => List.Perm.refl _
  deleted := fun _ => ⟨rfl, Nat.le_refl _⟩

/-- No more nodes are live than `new` returned. -/
theorem Holds.length_le (h : Holds StoreErased s es fs) : es.length ≤ s.allocated.length := by
  cases hmode : StoreErased with
  | false => exact (h.deleted hmode).2
  | true =>
    have hperm := (h.stored hmode).length_eq
    simp only [List.length_map, List.length_append] at hperm
    omega

theorem Holds.end_eq (h : Holds StoreErased s es fs) : end_ s = some none := by
  unfold end_
  rw [h.tail]
  cases es using List.reverseRecOn with
  | nil => rfl
  | append_singleton es e =>
    have he := linked_singleton.mp (linked_append.mp h.linked).2
    simp [he]

theorem Holds.isEmpty_eq (h : Holds StoreErased s es fs) : isEmpty s = es.isEmpty := by
  unfold isEmpty
  rw [h.head, h.tail]
  cases es with
  | nil => rfl
  | cons e es =>
    have hlast : last none (e :: es) ≠ none := by simp [last_eq_none_iff]
    rw [first_cons]
    cases hl : last none (e :: es) with
    | none => exact absurd hl hlast
    | some n => rfl

theorem Holds.front_eq (h : Holds StoreErased s (e :: es) fs) : front s = some e.2 := by
  unfold front
  simp [h.head, h.linked.1]

/-! ## Pushing -/

/-- What `get_free_node` returns: a node of its own with null links, taken from `free_` if there
    is one. -/
structure Fresh (StoreErased : Bool) (s s' : State T) (value : T) (n : ℕ)
    (es fs' : List (ℕ × T)) : Prop where
  node : s'.heap n = some { value, next := none, prev := none }
  head : s'.head = s.head
  tail : s'.tail = s.tail
  linked : Linked s'.heap none es none
  free : Yields Node.next s'.heap s'.free fs'
  nodup : (n :: (es ++ fs').map Prod.fst).Nodup
  stored : StoreErased = true → (n :: (es ++ fs').map Prod.fst).Perm s'.allocated
  deleted : StoreErased = false → fs' = [] ∧ es.length + 1 ≤ s'.allocated.length
  grows : s'.allocated = s.allocated ∨ fs' = []

theorem newNode_spec (h : Holds StoreErased s es []) (value : T) {address : ℕ}
    (hfree : s.heap address = none) :
    ∃ s', newNode s value address = some (s', address) ∧
      Fresh StoreErased s s' value address es [] := by
  have hnotin : address ∉ es.map Prod.fst := fun hmem => h.linked.ne_none hmem hfree
  have hcongr : ∀ p ∈ es.map Prod.fst, Function.update s.heap address
      (some { value, next := none, prev := none }) p = s.heap p := by
    intro p hp
    apply Function.update_of_ne
    rintro rfl
    exact hnotin hp
  refine ⟨_, by simp only [newNode, hfree, Option.isNone_none, ↓reduceIte]; rfl, ?_⟩
  refine ⟨Function.update_self _ _ _, rfl, rfl, h.linked.congr hcongr, h.free, ?_, ?_, ?_,
    .inr rfl⟩
  · have hnd := h.nodup
    rw [List.append_nil] at hnd ⊢
    exact List.nodup_cons.mpr ⟨hnotin, hnd⟩
  · intro hmode
    exact ((h.stored hmode).cons address).trans (List.perm_append_singleton address _).symm
  · intro hmode
    have hle := (h.deleted hmode).2
    exact ⟨rfl, by simpa using hle⟩

/-- The first node of `free_` is taken. -/
theorem Holds.reuse (h : Holds StoreErased s es (e :: fs)) (hmode : StoreErased = true)
    (value : T) (address : ℕ) :
    ∃ s', getFreeNode StoreErased s value address = some (s', e.1) ∧
      Fresh StoreErased s s' value e.1 es fs := by
  obtain ⟨hfree, node, hnode, -, hrest⟩ := h.free
  have hperm : ((es ++ e :: fs).map Prod.fst).Perm (e.1 :: (es ++ fs).map Prod.fst) :=
    List.perm_middle.map Prod.fst
  have hnd := hperm.nodup_iff.mp h.nodup
  have hcongr : ∀ p ∈ (es ++ fs).map Prod.fst, Function.update s.heap e.1
      (some { value, next := none, prev := none }) p = s.heap p := by
    intro p hp
    apply Function.update_of_ne
    rintro rfl
    exact (List.nodup_cons.mp hnd).1 hp
  refine ⟨_, by simp only [getFreeNode, hmode, ↓reduceIte, hfree, hnode]; rfl, ?_⟩
  rw [List.map_append] at hcongr
  refine ⟨Function.update_self _ _ _, rfl, rfl,
    h.linked.congr fun p hp => hcongr p (List.mem_append_left _ hp),
    hrest.congr fun p hp => hcongr p (List.mem_append_right _ hp), hnd,
    fun hmode => hperm.symm.trans (h.stored hmode), ?_, .inl rfl⟩
  intro hmode'
  rw [hmode] at hmode'
  cases hmode'

theorem getFreeNode_spec (h : Holds StoreErased s es fs) (value : T) {address : ℕ}
    (hfree : s.heap address = none ∨ (StoreErased = true ∧ s.free ≠ none)) :
    ∃ s' n fs', getFreeNode StoreErased s value address = some (s', n) ∧
      Fresh StoreErased s s' value n es fs' := by
  cases hmode : StoreErased with
  | false =>
    obtain rfl := (h.deleted hmode).1
    have hnone : s.heap address = none := hfree.resolve_right (by simp [hmode])
    obtain ⟨s', hs', hfresh⟩ := newNode_spec h value hnone
    exact ⟨s', address, [], by simp [getFreeNode, hs'], hmode ▸ hfresh⟩
  | true =>
    cases fs with
    | nil =>
      have hempty : s.free = none := h.free
      have hnone : s.heap address = none := hfree.resolve_right (by simp [hempty])
      obtain ⟨s', hs', hfresh⟩ := newNode_spec h value hnone
      exact ⟨s', address, [], by simp [getFreeNode, hs', hempty], hmode ▸ hfresh⟩
    | cons e fs =>
      obtain ⟨s', hs', hfresh⟩ := h.reuse hmode value address
      exact ⟨s', e.1, fs, hmode ▸ hs', hmode ▸ hfresh⟩

/-- The new node joins the chain. -/
theorem Fresh.holds {s₁ s' : State T} {value : T} {n : ℕ} {es' fs' : List (ℕ × T)}
    (hf : Fresh StoreErased s s₁ value n es fs')
    (hperm : (es'.map Prod.fst).Perm (n :: es.map Prod.fst))
    (hlinked : Linked s'.heap none es' none)
    (heq : ∀ p ∉ es'.map Prod.fst, s'.heap p = s₁.heap p) (hhead : s'.head = first es' none)
    (htail : s'.tail = last none es') (hfree : s'.free = s₁.free)
    (halloc : s'.allocated = s₁.allocated) : Holds StoreErased s' es' fs' := by
  have hall : ((es' ++ fs').map Prod.fst).Perm (n :: (es ++ fs').map Prod.fst) := by
    rw [List.map_append, List.map_append]
    exact hperm.append_right _
  have hnd := hall.nodup_iff.mpr hf.nodup
  have hdisj : ∀ p ∈ fs'.map Prod.fst, p ∉ es'.map Prod.fst := by
    rw [List.map_append] at hnd
    exact fun p hp hp' => (List.nodup_append'.mp hnd).2.2 hp' hp
  refine ⟨hhead, htail, hlinked, ?_, hnd, ?_, ?_⟩
  · rw [hfree]
    exact hf.free.congr fun p hp => heq p (hdisj p hp)
  · intro hmode
    rw [halloc]
    exact hall.trans (hf.stored hmode)
  · intro hmode
    have hlen := hperm.length_eq
    simp only [List.length_map, List.length_cons] at hlen
    rw [halloc, hlen]
    exact hf.deleted hmode

/-- `join` makes one chain of two. -/
theorem join_spec {heap : Heap ℕ T} {before after : Option ℕ} {left right : ℕ}
    (hl : Linked heap none l after) (hr : Linked heap before r none)
    (hnd : ((l ++ r).map Prod.fst).Nodup) (hleft : last none l = some left)
    (hright : first r none = some right) :
    ∃ heap', join heap left right = some heap' ∧ Linked heap' none (l ++ r) none ∧
      ∀ p ∉ (l ++ r).map Prod.fst, heap' p = heap p := by
  obtain ⟨heap₁, heap₂, h₁, h₂, hlinked, heq⟩ := hl.join hr hnd
  rw [hleft, hright] at h₁ h₂
  refine ⟨heap₂, ?_, hlinked, heq⟩
  unfold join
  rw [show setNext heap left (some right) = some heap₁ from h₁]
  exact h₂

/-- The addresses of the chain with the new node. -/
theorem Fresh.nodup_cons {s₁ : State T} {value : T} {n : ℕ} {fs' : List (ℕ × T)}
    (hf : Fresh StoreErased s s₁ value n es fs') : (n :: es.map Prod.fst).Nodup := by
  have hnd := hf.nodup
  rw [List.map_append, ← List.cons_append] at hnd
  exact (List.nodup_append'.mp hnd).1

/-- `push_back` puts a node behind the chain. -/
theorem pushBack_spec (h : Holds StoreErased s es fs) (value : T) {address : ℕ}
    (hfree : s.heap address = none ∨ (StoreErased = true ∧ s.free ≠ none)) :
    ∃ s' n fs', pushBack StoreErased s value address = some s' ∧
      Holds StoreErased s' (es ++ [(n, value)]) fs' ∧
      (s'.allocated = s.allocated ∨ fs' = []) := by
  obtain ⟨s₁, n, fs', hs₁, hf⟩ := getFreeNode_spec h value hfree
  have hperm : ((es ++ [(n, value)]).map Prod.fst).Perm (n :: es.map Prod.fst) := by
    rw [List.map_append]
    exact List.perm_append_singleton n _
  have hnew : Linked s₁.heap none [(n, value)] none := linked_singleton.mpr hf.node
  have htail : s₁.tail = last none es := hf.tail.trans h.tail
  have hhead : s₁.head = first es none := hf.head.trans h.head
  unfold pushBack
  rw [hs₁]
  simp only [Option.bind_eq_bind, Option.bind_some]
  cases hlast : last none es with
  | none =>
    obtain rfl := last_eq_none_iff.mp hlast
    rw [htail, hlast]
    exact ⟨_, n, fs', rfl, hf.holds hperm hnew (fun _ _ => rfl) rfl rfl rfl rfl, hf.grows⟩
  | some tail =>
    obtain ⟨heap, hjoin, hlinked, heq⟩ :=
      join_spec hf.linked hnew (hperm.nodup_iff.mpr hf.nodup_cons) hlast rfl
    have hne : es ≠ [] := fun hnil => by simp [hnil] at hlast
    have hfirst : s₁.head = first (es ++ [(n, value)]) none := by
      rw [hhead, first_append]
      cases es with
      | nil => exact absurd rfl hne
      | cons e es => rfl
    rw [htail, hlast]
    simp only [hjoin, Option.bind_some]
    exact ⟨_, n, fs', rfl, hf.holds hperm hlinked heq hfirst (last_concat _ _ (n, value)).symm rfl
      rfl, hf.grows⟩

/-- `push_front` puts a node before the chain. -/
theorem pushFront_spec (h : Holds StoreErased s es fs) (value : T) {address : ℕ}
    (hfree : s.heap address = none ∨ (StoreErased = true ∧ s.free ≠ none)) :
    ∃ s' n fs', pushFront StoreErased s value address = some s' ∧
      Holds StoreErased s' ((n, value) :: es) fs' ∧
      (s'.allocated = s.allocated ∨ fs' = []) := by
  obtain ⟨s₁, n, fs', hs₁, hf⟩ := getFreeNode_spec h value hfree
  have hperm : (((n, value) :: es).map Prod.fst).Perm (n :: es.map Prod.fst) := List.Perm.refl _
  have hnew : Linked s₁.heap none [(n, value)] none := linked_singleton.mpr hf.node
  have htail : s₁.tail = last none es := hf.tail.trans h.tail
  have hhead : s₁.head = first es none := hf.head.trans h.head
  unfold pushFront
  rw [hs₁]
  simp only [Option.bind_eq_bind, Option.bind_some]
  cases hfirst : first es none with
  | none =>
    obtain rfl := first_eq_none_iff.mp hfirst
    rw [hhead, hfirst]
    exact ⟨_, n, fs', rfl, hf.holds hperm hnew (fun _ _ => rfl) rfl rfl rfl rfl, hf.grows⟩
  | some head =>
    have hleft : last none [(n, value)] = some n := rfl
    obtain ⟨heap, hjoin, hlinked, heq⟩ :=
      join_spec hnew hf.linked hf.nodup_cons hleft hfirst
    have hne : es ≠ [] := fun hnil => by simp [hnil] at hfirst
    have hlast : s₁.tail = last none ((n, value) :: es) := by
      rw [htail, last_cons]
      cases es using List.reverseRecOn with
      | nil => exact absurd rfl hne
      | append_singleton es e => rw [last_concat, last_concat]
    rw [hhead, hfirst]
    simp only [hjoin, Option.bind_some]
    exact ⟨_, n, fs', rfl, hf.holds hperm hlinked heq rfl hlast rfl rfl, hf.grows⟩

/-! ## Erasing -/

/-- The place of an erased node: with `StoreErased` at the head of `free_`. -/
def freed (StoreErased : Bool) (e : ℕ × T) (fs : List (ℕ × T)) : List (ℕ × T) :=
  if StoreErased then e :: fs else fs

/-- The head after `erase`. -/
theorem head_erase (hnotin : e.1 ∉ l.map Prod.fst) :
    (if some e.1 = first (l ++ e :: r) none then first r none else first (l ++ e :: r) none) =
      first (l ++ r) none := by
  cases l with
  | nil => simp
  | cons a l =>
    rw [List.map_cons, List.mem_cons, not_or] at hnotin
    simp [hnotin.1]

/-- The tail after `erase`. -/
theorem tail_erase (hnotin : e.1 ∉ r.map Prod.fst) :
    (if some e.1 = last none (l ++ e :: r) then last none l else last none (l ++ e :: r)) =
      last none (l ++ r) := by
  rw [last_append, last_cons, last_append]
  cases r using List.reverseRecOn with
  | nil => simp
  | append_singleton r a =>
    rw [List.map_append, List.mem_append, not_or, List.map_singleton, List.mem_singleton] at hnotin
    simp [hnotin.2]

/-- `erase` takes a node out of the chain. -/
theorem erase_spec (h : Holds StoreErased s (l ++ e :: r) fs) :
    ∃ s', erase StoreErased s (some e.1) = some s' ∧
      Holds StoreErased s' (l ++ r) (freed StoreErased e fs) ∧ s'.allocated = s.allocated := by
  obtain ⟨hl, hnode, hr⟩ := linked_append.mp h.linked
  have hperm : ((l ++ e :: r ++ fs).map Prod.fst).Perm (e.1 :: (l ++ r ++ fs).map Prod.fst) := by
    rw [List.append_assoc, List.append_assoc, List.cons_append]
    exact List.perm_middle.map Prod.fst
  obtain ⟨hnotin, hnd⟩ := List.nodup_cons.mp (hperm.nodup_iff.mp h.nodup)
  rw [List.map_append] at hnotin hnd
  obtain ⟨hndlr, -, hdisj⟩ := List.nodup_append'.mp hnd
  rw [List.mem_append, not_or] at hnotin
  obtain ⟨hlr, hfs⟩ := hnotin
  have hlr' := hlr
  rw [List.map_append, List.mem_append, not_or] at hlr'
  obtain ⟨heap₁, heap₂, h₁, h₂, hlinked, heq⟩ := hl.join_right hr hndlr
  have hheap : ∀ p ∈ (l ++ r).map Prod.fst, ∀ node, Function.update heap₂ e.1 node p = heap₂ p := by
    intro p hp node
    apply Function.update_of_ne
    rintro rfl
    exact hlr hp
  have hfree : ∀ node, Yields Node.next (Function.update heap₂ e.1 node) s.free fs := by
    intro node
    refine h.free.congr ?_
    intro p hp
    rw [Function.update_of_ne (by rintro rfl; exact hfs hp)]
    exact heq p fun hp' => hdisj hp' hp
  unfold erase
  simp only [Option.bind_eq_bind, Option.bind_some, hnode, h₁, h₂, h.head, h.tail,
    head_erase hlr'.1, tail_erase hlr'.2]
  cases hmode : StoreErased with
  | false =>
    obtain ⟨rfl, hle⟩ := h.deleted hmode
    refine ⟨_, rfl, ⟨rfl, rfl, hlinked.congr fun p hp => hheap p hp _, hfree none, ?_,
      fun hmode' => absurd hmode' Bool.false_ne_true, fun _ => ⟨rfl, ?_⟩⟩, rfl⟩
    · simpa [freed] using hndlr
    · simp only [List.length_append, List.length_cons] at hle ⊢
      omega
  | true =>
    have hnode₂ : heap₂ e.1 = some { value := e.2, next := first r none, prev := last none l } :=
      (heq e.1 hlr).trans hnode
    have hback : ((l ++ r ++ e :: fs).map Prod.fst).Perm s.allocated := by
      refine List.Perm.trans ?_ (hperm.symm.trans (h.stored hmode))
      exact List.perm_middle.map Prod.fst
    simp only [↓reduceIte, setNext, setPrev, hnode₂, Option.map_some, Option.bind_some,
      Function.update_self, Function.update_idem]
    refine ⟨_, rfl, ⟨rfl, rfl, hlinked.congr fun p hp => hheap p hp _, ?_, ?_, fun _ => hback,
      fun hmode' => absurd hmode'.symm Bool.false_ne_true⟩, rfl⟩
    · exact ⟨rfl, _, Function.update_self _ _ _, rfl, hfree _⟩
    · exact (hperm.trans (List.perm_middle.map Prod.fst).symm).nodup_iff.mp h.nodup

/-! ## `erase_if` -/

/-- The loop keeps the entries before `it` and calls `func` on those behind. -/
theorem eraseIfLoop_spec (func : T → Bool) {rounds : ℕ} (h : Holds StoreErased s (l ++ r) fs)
    (hrounds : r.length < rounds) :
    ∃ s' fs', eraseIfLoop StoreErased func rounds s (first r none) = some (s', r.map Prod.snd) ∧
      Holds StoreErased s' (l ++ r.filter (!func ·.2)) fs' ∧ s'.allocated = s.allocated := by
  induction r generalizing rounds s l fs with
  | nil =>
    obtain ⟨rounds, rfl⟩ : ∃ n, rounds = n + 1 := ⟨rounds - 1, by simp at hrounds; omega⟩
    exact ⟨s, fs, by simp [eraseIfLoop, h.end_eq], by simpa using h, rfl⟩
  | cons e r ih =>
    obtain ⟨rounds, rfl⟩ : ∃ n, rounds = n + 1 := ⟨rounds - 1, by simp at hrounds; omega⟩
    have hrounds' : r.length < rounds := by simpa using hrounds
    have hnode := (linked_append.mp h.linked).2.1
    unfold eraseIfLoop
    simp only [Option.bind_eq_bind, Option.bind_some, h.end_eq, first_cons, reduceCtorEq,
      ↓reduceIte, hnode]
    cases hfunc : func e.2 with
    | true =>
      -- the iterator has left the node before it is erased
      obtain ⟨s₁, hs₁, h₁, halloc₁⟩ := erase_spec h
      obtain ⟨s', fs', hs', h', halloc⟩ := ih h₁ hrounds'
      refine ⟨s', fs', ?_, by simpa [hfunc] using h', halloc.trans halloc₁⟩
      simp only [↓reduceIte, hs₁, Option.bind_some, hs']
      rfl
    | false =>
      have h₁ : Holds StoreErased s ((l ++ [e]) ++ r) fs := by simpa using h
      obtain ⟨s', fs', hs', h', halloc⟩ := ih h₁ hrounds'
      refine ⟨s', fs', ?_, by simpa [hfunc] using h', halloc⟩
      simp only [Bool.false_eq_true, ↓reduceIte, Option.bind_some, hs']
      rfl

/-- `erase_if` keeps the entries that do not satisfy `func`, which is called once on each. -/
theorem eraseIf_spec (h : Holds StoreErased s es fs) (func : T → Bool) :
    ∃ s' fs', eraseIf StoreErased s func = some (s', es.map Prod.snd) ∧
      Holds StoreErased s' (es.filter (!func ·.2)) fs' ∧ s'.allocated = s.allocated := by
  have hle := h.length_le
  unfold eraseIf
  rw [h.head]
  exact eraseIfLoop_spec (l := []) func h (by omega)

theorem forEachLoop_spec {rounds : ℕ} (h : Holds StoreErased s (l ++ r) fs)
    (hrounds : r.length < rounds) : forEachLoop s rounds (first r none) = some (r.map Prod.snd) := by
  induction r generalizing rounds l with
  | nil =>
    obtain ⟨rounds, rfl⟩ : ∃ n, rounds = n + 1 := ⟨rounds - 1, by simp at hrounds; omega⟩
    simp [forEachLoop, h.end_eq]
  | cons e r ih =>
    obtain ⟨rounds, rfl⟩ : ∃ n, rounds = n + 1 := ⟨rounds - 1, by simp at hrounds; omega⟩
    have hnode := (linked_append.mp h.linked).2.1
    have h₁ : Holds StoreErased s ((l ++ [e]) ++ r) fs := by simpa using h
    have hrest := ih h₁ (by simpa using hrounds)
    unfold forEachLoop
    simp [h.end_eq, hnode, hrest]

/-- A range-based `for` visits the values in order. -/
theorem Holds.forEach_eq (h : Holds StoreErased s es fs) : forEach s = some (es.map Prod.snd) := by
  have hle := h.length_le
  unfold forEach
  rw [h.head]
  exact forEachLoop_spec (l := []) h (by omega)

/-! ## One operation -/

theorem advance_spec {heap : Heap ℕ T} {before : Option ℕ}
    (h : Linked heap before (l ++ e :: r) none) :
    advance heap (first (l ++ e :: r) none) l.length = some (some e.1) := by
  induction l generalizing before with
  | nil => rfl
  | cons a l ih =>
    obtain ⟨ha, hl⟩ := h
    simp only [List.cons_append, first_cons, List.length_cons, advance, Option.bind_eq_bind,
      Option.bind_some, ha]
    exact ih hl

/-- **One operation**: it has a result exactly where it is legal, and it does to the sequence what
    `apply` says; it allocates only while `free_` is empty. -/
theorem step_spec (h : Holds StoreErased s es fs) (op : Op T)
    (hlegal : Legal StoreErased s (es.map Prod.snd) op) :
    ∃ s' es' fs', step StoreErased s op = some s' ∧ Holds StoreErased s' es' fs' ∧
      es'.map Prod.snd = apply (es.map Prod.snd) op ∧
      (s'.allocated = s.allocated ∨ fs' = []) := by
  cases op with
  | pushBack value address =>
    obtain ⟨s', n, fs', hs', h', hgrows⟩ := pushBack_spec h value hlegal
    exact ⟨s', _, fs', hs', h', by simp [apply], hgrows⟩
  | pushFront value address =>
    obtain ⟨s', n, fs', hs', h', hgrows⟩ := pushFront_spec h value hlegal
    exact ⟨s', _, fs', hs', h', by simp [apply], hgrows⟩
  | popFront =>
    have hne : es ≠ [] := by simpa [Legal] using hlegal
    obtain ⟨e, r, rfl⟩ := List.exists_cons_of_ne_nil hne
    obtain ⟨s', hs', h', halloc⟩ := erase_spec (l := []) h
    refine ⟨s', r, _, ?_, h', by simp [apply], .inl halloc⟩
    simp only [step, popFront, h.head]
    exact hs'
  | popBack =>
    have hne : es ≠ [] := by simpa [Legal] using hlegal
    obtain ⟨l, e, rfl⟩ := (List.eq_nil_or_concat' es).resolve_left hne
    obtain ⟨s', hs', h', halloc⟩ := erase_spec (r := []) h
    refine ⟨s', l, _, ?_, by simpa using h', by simp [apply], .inl halloc⟩
    simp only [step, popBack, h.tail, last_concat]
    exact hs'
  | erase i =>
    have hi : i < es.length := by simpa [Legal] using hlegal
    obtain ⟨l, e, r, rfl, rfl⟩ : ∃ l e r, es = l ++ e :: r ∧ l.length = i :=
      ⟨es.take i, es[i], es.drop (i + 1), by simp, by simp; omega⟩
    obtain ⟨s', hs', h', halloc⟩ := erase_spec h
    refine ⟨s', l ++ r, _, ?_, h', ?_, .inl halloc⟩
    · simp only [step, h.head, advance_spec h.linked, Option.bind_some]
      exact hs'
    · simp [apply, List.eraseIdx_append]
  | eraseIf func =>
    obtain ⟨s', fs', hs', h', halloc⟩ := eraseIf_spec h func
    refine ⟨s', _, fs', by simp [step, hs'], h', ?_, .inl halloc⟩
    simp [apply, List.filter_map, Function.comp_def]

theorem getFreeNode_legal {value : T} {address : ℕ} {q : State T × ℕ}
    (hs : getFreeNode StoreErased s value address = some q) :
    s.heap address = none ∨ (StoreErased = true ∧ s.free ≠ none) := by
  have hnew : newNode s value address = some q → s.heap address = none := by
    intro hs
    unfold newNode at hs
    split at hs
    · rename_i hnone
      exact Option.isNone_iff_eq_none.mp hnone
    · cases hs
  unfold getFreeNode at hs
  split at hs
  · rename_i hmode
    split at hs
    · rename_i result hfree
      exact .inr ⟨hmode, by simp [hfree]⟩
    · exact .inl (hnew hs)
  · exact .inl (hnew hs)

/-- Past its end the chain has no iterator to erase. -/
theorem advance_end {heap : Heap ℕ T} {before : Option ℕ} (h : Linked heap before es none) {i : ℕ}
    (hi : es.length ≤ i) {it : Option ℕ} (hit : advance heap (first es none) i = some it) :
    it = none := by
  induction es generalizing before i with
  | nil =>
    cases i with
    | zero => exact (Option.some.inj hit).symm
    | succ i => cases hit
  | cons e es ih =>
    obtain ⟨i, rfl⟩ : ∃ j, i = j + 1 := ⟨i - 1, by simp at hi; omega⟩
    simp only [first_cons, advance, Option.bind_eq_bind, Option.bind_some, h.1] at hit
    exact ih h.2 (by simpa using hi) hit

/-- An operation that is not legal has no result. -/
theorem step_legal (h : Holds StoreErased s es fs) {op : Op T} {s' : State T}
    (hs : step StoreErased s op = some s') : Legal StoreErased s (es.map Prod.snd) op := by
  cases op with
  | pushBack value address =>
    simp only [step, pushBack, Option.bind_eq_bind, Option.bind_eq_some_iff] at hs
    obtain ⟨q, hq, -⟩ := hs
    exact getFreeNode_legal hq
  | pushFront value address =>
    simp only [step, pushFront, Option.bind_eq_bind, Option.bind_eq_some_iff] at hs
    obtain ⟨q, hq, -⟩ := hs
    exact getFreeNode_legal hq
  | popFront =>
    intro hnil
    rw [List.map_eq_nil_iff] at hnil
    subst hnil
    simp [step, popFront, erase, h.head] at hs
  | popBack =>
    intro hnil
    rw [List.map_eq_nil_iff] at hnil
    subst hnil
    simp [step, popBack, erase, h.tail] at hs
  | erase i =>
    by_contra hi
    simp only [step, Option.bind_eq_some_iff, h.head] at hs
    obtain ⟨it, hit, hs⟩ := hs
    obtain rfl := advance_end h.linked (by simpa [Legal] using hi) hit
    cases hs
  | eraseIf func => trivial

/-! ## The list is a sequence -/

/-- The list after the operations `ops`, with the entries `es`, and `fs` in the chain of
    `free_`. -/
structure Refines (StoreErased : Bool) (ops : List (Op T)) (s : State T)
    (es fs : List (ℕ × T)) : Prop where
  values : es.map Prod.snd = ops.foldl apply []
  forwards : Yields Node.next s.heap s.head es
  backwards : Yields Node.prev s.heap s.tail es.reverse
  head_iff : s.head = none ↔ s.tail = none
  tail_iff : s.tail = none ↔ ops.foldl apply [] = []
  /-- every legal operation has a result -/
  enabled : ∀ op, Legal StoreErased s (ops.foldl apply []) op →
    ∃ s', step StoreErased s op = some s'
  /-- `erase_if` calls its function on every element once, in order -/
  calls : ∀ func, ∃ s', eraseIf StoreErased s func = some (s', ops.foldl apply [])
  free : StoreErased = true → Yields Node.next s.heap s.free fs
  nodup : ((es ++ fs).map Prod.fst).Nodup
  /-- every node is live or free -/
  stored : StoreErased = true → ((es ++ fs).map Prod.fst).Perm s.allocated
  /-- no more nodes were allocated than the list had elements at some time -/
  largest : StoreErased = true →
    ∃ pre, pre <+: ops ∧ s.allocated.length ≤ (pre.foldl apply []).length

/-- **The doubly linked list refines a sequence**, with and without `StoreErased`. -/
theorem list_refines_sequence {StoreErased : Bool} {ops : List (Op T)} {s : State T}
    (hrun : run (step StoreErased) empty ops = some s) :
    ∃ es fs, Refines StoreErased ops s es fs := by
  have hinv : ∃ es fs, Holds StoreErased s es fs ∧ es.map Prod.snd = ops.foldl apply [] ∧
      (StoreErased = true →
        ∃ pre, pre <+: ops ∧ s.allocated.length ≤ (pre.foldl apply []).length) := by
    refine run_history (I := fun ops s => ∃ es fs, Holds StoreErased s es fs ∧
      es.map Prod.snd = ops.foldl apply [] ∧ (StoreErased = true →
        ∃ pre, pre <+: ops ∧ s.allocated.length ≤ (pre.foldl apply []).length))
      ⟨[], [], Holds.empty, rfl, fun _ => ⟨[], List.nil_prefix, Nat.le_refl _⟩⟩ ?_ hrun
    rintro ops s op s' ⟨es, fs, h, hvalues, hlargest⟩ hs
    obtain ⟨s'', es', fs', hs', h', hvalues', hgrows⟩ := step_spec h op (step_legal h hs)
    obtain rfl : s' = s'' := Option.some.inj (hs.symm.trans hs')
    have hfold : es'.map Prod.snd = (ops ++ [op]).foldl apply [] := by
      rw [List.foldl_append, List.foldl_cons, List.foldl_nil, ← hvalues, hvalues']
    refine ⟨es', fs', h', hfold, ?_⟩
    intro hmode
    rcases hgrows with halloc | rfl
    · obtain ⟨pre, hpre, hle⟩ := hlargest hmode
      exact ⟨pre, hpre.trans (List.prefix_append _ _), by rw [halloc]; exact hle⟩
    · refine ⟨ops ++ [op], List.prefix_refl _, ?_⟩
      have hlen := (h'.stored hmode).length_eq
      rw [List.append_nil, List.length_map] at hlen
      rw [← hfold, List.length_map, hlen]
  obtain ⟨es, fs, h, hvalues, hlargest⟩ := hinv
  refine ⟨es, fs, hvalues, ?_, ?_, ?_, ?_, ?_, ?_, fun _ => h.free,
    h.nodup, h.stored, hlargest⟩
  · rw [h.head]
    exact h.linked.yields_next
  · rw [h.tail]
    exact h.linked.yields_prev
  · rw [h.head, h.tail, first_eq_none_iff, last_eq_none_iff]
  · rw [h.tail, last_eq_none_iff, ← hvalues, List.map_eq_nil_iff]
  · intro op hop
    obtain ⟨s', -, -, hs', -⟩ := step_spec h op (hvalues ▸ hop)
    exact ⟨s', hs'⟩
  · intro func
    obtain ⟨s', -, hs', -⟩ := eraseIf_spec h func
    exact ⟨s', hvalues ▸ hs'⟩

/-- Three pushes, an `erase_if`, and a push into the node it left. -/
theorem list_refines_sequence_example :
    ∃ s : State ℕ, run (step true) empty [.pushBack 1 100, .pushFront 2 200, .pushBack 3 300,
        .eraseIf (· == 1), .pushBack 4 0, .popFront] = some s ∧
      ∃ es fs, Refines true [.pushBack 1 100, .pushFront 2 200, .pushBack 3 300,
        .eraseIf (· == 1), .pushBack 4 0, .popFront] s es fs := by
  obtain ⟨s, hs⟩ : ∃ s : State ℕ, run (step true) empty [.pushBack 1 100, .pushFront 2 200,
      .pushBack 3 300, .eraseIf (· == 1), .pushBack 4 0, .popFront] = some s := ⟨_, rfl⟩
  exact ⟨s, hs, list_refines_sequence hs⟩

end HryOS.HlibList
