import Mathlib.Data.List.Induction
import Mathlib.Data.List.Nodup
import Mathlib.Logic.Function.Basic

/-!
# Doubly linked chains in a heap

Nodes at addresses, with a value and two links; a chain is the list of its entries, an address and
the value there each.

* `Linked heap before es after` — the nodes of `es` are linked both ways, in order; the first one
  points back to `before`, the last one on to `after`.
* `linked_append` — a chain of two parts and its seam.
* `Linked.setNext`, `Linked.setPrev`, `Linked.join` — redirecting the two ends, and joining two
  chains.
* `Yields` — following one link from a pointer to the null pointer; `Linked.yields_next`,
  `Linked.yields_prev` — a chain yields its entries forwards and backwards.
-/

set_option autoImplicit false

namespace LinkedChain

variable {P T : Type*}

/-- A node. -/
structure Node (P T : Type*) where
  value : T
  next : Option P
  prev : Option P

/-- The nodes at their addresses. -/
abbrev Heap (P T : Type*) := P → Option (Node P T)

/-- The address a chain starts at, or `after` where it is empty. -/
def first (es : List (P × T)) (after : Option P) : Option P :=
  (es.head?.map Prod.fst).or after

/-- The address a chain ends at, or `before` where it is empty. -/
def last (before : Option P) (es : List (P × T)) : Option P :=
  (es.getLast?.map Prod.fst).or before

@[simp] theorem first_nil (after : Option P) : first ([] : List (P × T)) after = after := rfl

@[simp] theorem first_cons (e : P × T) (es : List (P × T)) (after : Option P) :
    first (e :: es) after = some e.1 := rfl

theorem first_append (es fs : List (P × T)) (after : Option P) :
    first (es ++ fs) after = first es (first fs after) := by
  cases es <;> rfl

@[simp] theorem last_nil (before : Option P) : last before ([] : List (P × T)) = before := rfl

@[simp] theorem last_concat (before : Option P) (es : List (P × T)) (e : P × T) :
    last before (es ++ [e]) = some e.1 := by
  simp [last]

theorem last_cons (before : Option P) (e : P × T) (es : List (P × T)) :
    last before (e :: es) = last (some e.1) es := by
  cases es using List.reverseRecOn with
  | nil => rfl
  | append_singleton es f => rw [← List.cons_append, last_concat, last_concat]

theorem last_append (before : Option P) (es fs : List (P × T)) :
    last before (es ++ fs) = last (last before es) fs := by
  cases fs using List.reverseRecOn with
  | nil => simp
  | append_singleton fs f => rw [← List.append_assoc, last_concat, last_concat]

theorem first_eq_none_iff {es : List (P × T)} : first es none = none ↔ es = [] := by
  cases es <;> simp

theorem last_eq_none_iff {es : List (P × T)} : last none es = none ↔ es = [] := by
  cases es using List.reverseRecOn <;> simp

theorem mem_of_first {es : List (P × T)} {p : P} (h : first es none = some p) :
    p ∈ es.map Prod.fst := by
  cases es with
  | nil => cases h
  | cons e es => simp [Option.some.inj h]

theorem mem_of_last {es : List (P × T)} {p : P} (h : last none es = some p) :
    p ∈ es.map Prod.fst := by
  cases es using List.reverseRecOn with
  | nil => cases h
  | append_singleton es e =>
    rw [last_concat] at h
    simp [Option.some.inj h]

/-! ## Chains -/

/-- The nodes of `es` are linked both ways. -/
def Linked (heap : Heap P T) : Option P → List (P × T) → Option P → Prop
  | _, [], _ => True
  | before, e :: es, after =>
    heap e.1 = some { value := e.2, next := first es after, prev := before } ∧
      Linked heap (some e.1) es after

variable {heap heap' : Heap P T} {before after : Option P} {es fs : List (P × T)} {e : P × T}

theorem linked_append : Linked heap before (es ++ fs) after ↔
    Linked heap before es (first fs after) ∧ Linked heap (last before es) fs after := by
  induction es generalizing before with
  | nil => simp [Linked]
  | cons e es ih => simp only [List.cons_append, Linked, first_append, last_cons, ih, and_assoc]

theorem linked_singleton : Linked heap before [e] after ↔
    heap e.1 = some { value := e.2, next := after, prev := before } := by
  simp [Linked]

/-- A chain depends on its own nodes only. -/
theorem Linked.congr (h : Linked heap before es after)
    (heq : ∀ p ∈ es.map Prod.fst, heap' p = heap p) : Linked heap' before es after := by
  induction es generalizing before with
  | nil => trivial
  | cons e es ih =>
    refine ⟨(heq e.1 (by simp)).trans h.1, ih h.2 fun p hp => heq p ?_⟩
    rw [List.map_cons]
    exact List.mem_cons_of_mem _ hp

/-- Every node of a chain is in the heap. -/
theorem Linked.ne_none (h : Linked heap before es after) {p : P} (hp : p ∈ es.map Prod.fst) :
    heap p ≠ none := by
  induction es generalizing before with
  | nil => simp at hp
  | cons e es ih =>
    rw [List.map_cons, List.mem_cons] at hp
    rcases hp with rfl | hp
    · simp [h.1]
    · exact ih h.2 hp

/-! ## Redirecting the ends -/

section Update

variable [DecidableEq P]

/-- `p->next = x`; there is no result where there is no node. -/
def setNext (heap : Heap P T) (p : P) (x : Option P) : Option (Heap P T) :=
  (heap p).map fun node => Function.update heap p (some { node with next := x })

/-- `p->prev = x`. -/
def setPrev (heap : Heap P T) (p : P) (x : Option P) : Option (Heap P T) :=
  (heap p).map fun node => Function.update heap p (some { node with prev := x })

/-- `if (p) p->next = x`. -/
def setNextIf (heap : Heap P T) : Option P → Option P → Option (Heap P T)
  | none, _ => some heap
  | some p, x => setNext heap p x

/-- `if (p) p->prev = x`. -/
def setPrevIf (heap : Heap P T) : Option P → Option P → Option (Heap P T)
  | none, _ => some heap
  | some p, x => setPrev heap p x

/-- No other node changes. -/
theorem setNext_of_ne {p q : P} {x : Option P} (h : setNext heap p x = some heap') (hq : q ≠ p) :
    heap' q = heap q := by
  obtain ⟨node, -, rfl⟩ := Option.map_eq_some_iff.mp h
  exact Function.update_of_ne hq ..

theorem setPrev_of_ne {p q : P} {x : Option P} (h : setPrev heap p x = some heap') (hq : q ≠ p) :
    heap' q = heap q := by
  obtain ⟨node, -, rfl⟩ := Option.map_eq_some_iff.mp h
  exact Function.update_of_ne hq ..

theorem setNextIf_of_ne {p x : Option P} {q : P} (h : setNextIf heap p x = some heap')
    (hq : p ≠ some q) : heap' q = heap q := by
  cases p with
  | none =>
    cases h
    rfl
  | some p => exact setNext_of_ne h fun hqp => hq (congrArg some hqp.symm)

theorem setPrevIf_of_ne {p x : Option P} {q : P} (h : setPrevIf heap p x = some heap')
    (hq : p ≠ some q) : heap' q = heap q := by
  cases p with
  | none =>
    cases h
    rfl
  | some p => exact setPrev_of_ne h fun hqp => hq (congrArg some hqp.symm)

/-- The last node of a chain is redirected; other nodes stay. -/
theorem Linked.setNext (h : Linked heap none es after) (hnd : (es.map Prod.fst).Nodup)
    (x : Option P) :
    ∃ heap', setNextIf heap (last none es) x = some heap' ∧ Linked heap' none es x ∧
      ∀ p ∉ es.map Prod.fst, heap' p = heap p := by
  cases es using List.reverseRecOn with
  | nil => exact ⟨heap, rfl, trivial, fun _ _ => rfl⟩
  | append_singleton es e =>
    obtain ⟨hes, he⟩ := linked_append.mp h
    rw [linked_singleton] at he
    rw [List.map_append, List.map_singleton, List.nodup_append] at hnd
    rw [last_concat]
    refine ⟨_, by simp only [setNextIf, LinkedChain.setNext, he]; rfl, ?_, ?_⟩
    · rw [linked_append, linked_singleton]
      refine ⟨hes.congr fun p hp => Function.update_of_ne ?_ _ _, Function.update_self _ _ _⟩
      exact hnd.2.2 p hp e.1 (by simp)
    · intro p hp
      refine Function.update_of_ne ?_ _ _
      rintro rfl
      simp at hp

/-- The first node of a chain is redirected; other nodes stay. -/
theorem Linked.setPrev (h : Linked heap before es none) (hnd : (es.map Prod.fst).Nodup)
    (x : Option P) :
    ∃ heap', setPrevIf heap (first es none) x = some heap' ∧ Linked heap' x es none ∧
      ∀ p ∉ es.map Prod.fst, heap' p = heap p := by
  cases es with
  | nil => exact ⟨heap, rfl, trivial, fun _ _ => rfl⟩
  | cons e es =>
    rw [List.map_cons, List.nodup_cons] at hnd
    refine ⟨_, by simp only [setPrevIf, first_cons, LinkedChain.setPrev, h.1]; rfl, ?_, ?_⟩
    · refine ⟨Function.update_self _ _ _, h.2.congr fun p hp => Function.update_of_ne ?_ _ _⟩
      rintro rfl
      exact hnd.1 hp
    · intro p hp
      refine Function.update_of_ne ?_ _ _
      rintro rfl
      simp at hp

/-- **Joining two chains**, the left one first: `l` and `r` become one chain, and other nodes
    stay. -/
theorem Linked.join {l r : List (P × T)} (hl : Linked heap none l after)
    (hr : Linked heap before r none) (hnd : ((l ++ r).map Prod.fst).Nodup) :
    ∃ heap₁ heap₂, setNextIf heap (last none l) (first r none) = some heap₁ ∧
      setPrevIf heap₁ (first r none) (last none l) = some heap₂ ∧
      Linked heap₂ none (l ++ r) none ∧ ∀ p ∉ (l ++ r).map Prod.fst, heap₂ p = heap p := by
  rw [List.map_append, List.nodup_append'] at hnd
  obtain ⟨hndl, hndr, hdisj⟩ := hnd
  obtain ⟨heap₁, h₁, hl₁, heq₁⟩ := hl.setNext hndl (first r none)
  have hr₁ : Linked heap₁ before r none := hr.congr fun p hp => heq₁ p fun hp' => hdisj hp' hp
  obtain ⟨heap₂, h₂, hr₂, heq₂⟩ := hr₁.setPrev hndr (last none l)
  have hl₂ : Linked heap₂ none l (first r none) := hl₁.congr fun p hp => heq₂ p (hdisj hp)
  refine ⟨heap₁, heap₂, h₁, h₂, linked_append.mpr ⟨hl₂, hr₂⟩, ?_⟩
  intro p hp
  rw [List.map_append, List.mem_append, not_or] at hp
  exact (heq₂ p hp.2).trans (heq₁ p hp.1)

/-- Joining two chains, the right one first. -/
theorem Linked.join_right {l r : List (P × T)} (hl : Linked heap none l after)
    (hr : Linked heap before r none) (hnd : ((l ++ r).map Prod.fst).Nodup) :
    ∃ heap₁ heap₂, setPrevIf heap (first r none) (last none l) = some heap₁ ∧
      setNextIf heap₁ (last none l) (first r none) = some heap₂ ∧
      Linked heap₂ none (l ++ r) none ∧ ∀ p ∉ (l ++ r).map Prod.fst, heap₂ p = heap p := by
  rw [List.map_append, List.nodup_append'] at hnd
  obtain ⟨hndl, hndr, hdisj⟩ := hnd
  obtain ⟨heap₁, h₁, hr₁, heq₁⟩ := hr.setPrev hndr (last none l)
  have hl₁ : Linked heap₁ none l after := hl.congr fun p hp => heq₁ p (hdisj hp)
  obtain ⟨heap₂, h₂, hl₂, heq₂⟩ := hl₁.setNext hndl (first r none)
  have hr₂ : Linked heap₂ (last none l) r none :=
    hr₁.congr fun p hp => heq₂ p fun hp' => hdisj hp' hp
  refine ⟨heap₁, heap₂, h₁, h₂, linked_append.mpr ⟨hl₂, hr₂⟩, ?_⟩
  intro p hp
  rw [List.map_append, List.mem_append, not_or] at hp
  exact (heq₂ p hp.1).trans (heq₁ p hp.2)

end Update

/-! ## Following a link -/

/-- Following `link` from `p` passes the entries and ends at the null pointer. -/
def Yields (link : Node P T → Option P) (heap : Heap P T) : Option P → List (P × T) → Prop
  | p, [] => p = none
  | p, e :: es => p = some e.1 ∧
      ∃ node, heap e.1 = some node ∧ node.value = e.2 ∧ Yields link heap (link node) es

variable {link : Node P T → Option P} {p : Option P}

theorem Yields.congr (h : Yields link heap p es)
    (heq : ∀ q ∈ es.map Prod.fst, heap' q = heap q) : Yields link heap' p es := by
  induction es generalizing p with
  | nil => exact h
  | cons e es ih =>
    obtain ⟨hp, node, hnode, hvalue, hes⟩ := h
    refine ⟨hp, node, (heq e.1 (by simp)).trans hnode, hvalue, ih hes fun q hq => heq q ?_⟩
    rw [List.map_cons]
    exact List.mem_cons_of_mem _ hq

/-- Every node passed is in the heap. -/
theorem Yields.ne_none (h : Yields link heap p es) {q : P} (hq : q ∈ es.map Prod.fst) :
    heap q ≠ none := by
  induction es generalizing p with
  | nil => simp at hq
  | cons e es ih =>
    obtain ⟨-, node, hnode, -, hes⟩ := h
    rw [List.map_cons, List.mem_cons] at hq
    rcases hq with rfl | hq
    · simp [hnode]
    · exact ih hes hq

/-- Following `next` yields a chain. -/
theorem Linked.yields_next (h : Linked heap before es none) :
    Yields Node.next heap (first es none) es := by
  induction es generalizing before with
  | nil => rfl
  | cons e es ih => exact ⟨rfl, _, h.1, rfl, ih h.2⟩

/-- Following `prev` yields a chain backwards. -/
theorem Linked.yields_prev (h : Linked heap none es after) :
    Yields Node.prev heap (last none es) es.reverse := by
  induction es using List.reverseRecOn generalizing after with
  | nil => rfl
  | append_singleton es e ih =>
    obtain ⟨hes, he⟩ := linked_append.mp h
    rw [linked_singleton] at he
    rw [last_concat, List.reverse_append]
    exact ⟨rfl, _, he, rfl, ih hes⟩

end LinkedChain
