import HryOS.Hlib.ListFamily
import HryOS.Scheduler.Moves

/-!
# `move_to_if` on the nodes of the state lists

The function passed to `erase_if` pushes to one list while the loop stands on a node of another.
Here both lists are the nodes and pointers of `hlib::list`, in one heap; an erased node is taken
again by a later push to the same list.

* `Nodes.moveToIf` — the walk on the nodes.
* `moveToIf_refines` — it does to the sequences what the walk over a sequence does.
* `move_to_if_partitions` — so it is a stable partition, where no process is moved twice.
-/

set_option autoImplicit false

namespace HryOS.Scheduler

open HlibList LinkedChain

/-- The state lists on their nodes, the process objects, and how many pushes there were. -/
structure Nodes where
  lists : Family ProcState Ptr
  proc : Ptr → Process
  pushes : ℕ

/-- `push_back` or `push_front`, with the address that `new` returns if it is called. -/
abbrev ListMethod := State Ptr → Ptr → ℕ → Option (State Ptr)

namespace Nodes

/-- The function that `move_to_if` passes to `erase_if`. -/
def callback (new : ℕ → ℕ) (source target : ProcState) (predicate : Ptr → Process → Bool)
    (method : ListMethod) (n : Nodes) (p : Ptr) : Option (Bool × Nodes) :=
  if (n.proc p).state = source ∧ predicate p (n.proc p) then do
    let proc := Function.update n.proc p { n.proc p with state := target }
    let list ← method (n.lists.list target) p (new n.pushes)
    return (true, { lists := n.lists.setList target list, proc, pushes := n.pushes + 1 })
  else some (false, n)

/-- The loop of `erase_if` on the list `source`; no result where more than `rounds` rounds are
    needed. -/
def eraseIfLoop (source : ProcState) (func : Nodes → Ptr → Option (Bool × Nodes)) :
    ℕ → Nodes → Option ℕ → Option Nodes
  | 0, _, _ => none
  | rounds + 1, n, it => do
    if it = (← end_ (n.lists.list source)) then return n
    let address ← it
    let node ← n.lists.heap address
    let (erased, n) ← func n node.value
    -- `it++` follows the link the node has now, and comes before `erase(to_delete)`
    let node ← n.lists.heap address
    let n ← if erased then
      (erase true (n.lists.list source) it).map fun list =>
        { n with lists := n.lists.setList source list }
      else some n
    eraseIfLoop source func rounds n node.next

/-- `move_to_if`. -/
def moveToIf (new : ℕ → ℕ) (n : Nodes) (source target : ProcState)
    (predicate : Ptr → Process → Bool) (method : ListMethod) : Option Nodes :=
  eraseIfLoop source (callback new source target predicate method)
    ((n.lists.header source).allocated.length + 1) n (n.lists.header source).head

/-- `move_to_back_if`. -/
def moveToBackIf (new : ℕ → ℕ) (n : Nodes) (source target : ProcState)
    (predicate : Ptr → Process → Bool) : Option Nodes :=
  moveToIf new n source target predicate (HlibList.pushBack true)

/-- `move_to_front_if`. -/
def moveToFrontIf (new : ℕ → ℕ) (n : Nodes) (source target : ProcState)
    (predicate : Ptr → Process → Bool) : Option Nodes :=
  moveToIf new n source target predicate (HlibList.pushFront true)

end Nodes

/-- The entries of each list. -/
abbrev Entries := ProcState → List (ℕ × Ptr)

/-- The processes on a list, in order. -/
def Entries.values (es : Entries) (st : ProcState) : List Ptr := (es st).map Prod.snd

/-- `n` holds the processes and the lists of `s`, but for the list `source`; what `new` returns
    from now on is not in use. -/
structure Walk (new : ℕ → ℕ) (source : ProcState) (n : Nodes) (es fs : Entries) (s : Sched) :
    Prop where
  holds : n.lists.Holds es fs
  unused : n.lists.Unused new n.pushes
  proc_eq : s.proc = n.proc
  lists_eq : ∀ st, st ≠ source → s.lists st = es.values st

/-- The lists other than `source` and `target` are the same, node for node. -/
structure SameOthers (source target : ProcState) (n n' : Nodes) (es fs es' fs' : Entries) :
    Prop where
  header : ∀ st, st ≠ source → st ≠ target → n'.lists.header st = n.lists.header st
  live : ∀ st, st ≠ source → st ≠ target → es' st = es st
  free : ∀ st, st ≠ source → st ≠ target → fs' st = fs st

variable {new : ℕ → ℕ} {source target : ProcState} {predicate : Ptr → Process → Bool}
  {method : ListMethod} {insert : List Ptr → Ptr → List Ptr} {n n' n'' : Nodes}
  {es fs es' fs' es'' fs'' : Entries} {s : Sched} {l r : List (ℕ × Ptr)} {e : ℕ × Ptr}

theorem SameOthers.refl : SameOthers source target n n es fs es fs :=
  ⟨fun _ _ _ => rfl, fun _ _ _ => rfl, fun _ _ _ => rfl⟩

theorem SameOthers.trans (h : SameOthers source target n n' es fs es' fs')
    (h' : SameOthers source target n' n'' es' fs' es'' fs'') :
    SameOthers source target n n'' es fs es'' fs'' where
  header st h1 h2 := (h'.header st h1 h2).trans (h.header st h1 h2)
  live st h1 h2 := (h'.live st h1 h2).trans (h.live st h1 h2)
  free st h1 h2 := (h'.free st h1 h2).trans (h.free st h1 h2)

/-- An operation on `source` or `target`. -/
theorem SameOthers.update {st : ProcState} {list : State Ptr}
    (hst : st = source ∨ st = target) (hlists : n'.lists = n.lists.setList st list) :
    SameOthers source target n n' es fs (Function.update es st l) (Function.update fs st r) := by
  have hne : ∀ st', st' ≠ source → st' ≠ target → st' ≠ st := by
    rintro st' h1 h2 rfl
    exact hst.elim h1 h2
  refine ⟨?_, ?_, ?_⟩
  · intro st' h1 h2
    rw [hlists, Family.setList_header_of_ne (hne st' h1 h2)]
  · exact fun st' h1 h2 => Function.update_of_ne (hne st' h1 h2) ..
  · exact fun st' h1 h2 => Function.update_of_ne (hne st' h1 h2) ..

/-! ## The function passed to `erase_if` -/

/-- It does to the other list what it does to a sequence, and nothing to the list it is called
    from. -/
theorem Walk.callback (h : Walk new source n es fs s) (hne : source ≠ target)
    (hmethod : Inserts method insert) (hnew : new.Injective) (predicate : Ptr → Process → Bool)
    (p : Ptr) : ∃ n' es' fs', n.callback new source target predicate method p =
        some ((moveOne source target predicate insert s p).1, n') ∧
      Walk new source n' es' fs' (moveOne source target predicate insert s p).2 ∧
      es' source = es source ∧ SameOthers source target n n' es fs es' fs' := by
  unfold Nodes.callback moveOne
  rw [h.proc_eq]
  split
  · obtain ⟨list, ts, us, hlist, hholds, hvalues, hgrows⟩ :=
      hmethod _ _ _ p _ (h.holds.list target) (h.unused n.pushes (Nat.le_refl _))
    have hunused : (n.lists.setList target list).Unused new (n.pushes + 1) := by
      refine h.unused.setList h.holds hgrows (Nat.le_succ _) ?_
      intro k hk heq
      have := hnew heq
      omega
    simp only [hlist, Option.bind_eq_bind, Option.bind_some]
    refine ⟨_, Function.update es target ts, Function.update fs target us, rfl, ?_, ?_, ?_⟩
    · refine ⟨h.holds.setList hholds hgrows, hunused, ?_, ?_⟩
      · show Function.update s.proc p { s.proc p with state := target } = _
        rw [h.proc_eq]
      · intro st hst
        unfold Entries.values
        by_cases htarget : st = target
        · subst htarget
          rw [Sched.setList_lists_self, Function.update_self, hvalues]
          exact congrArg (insert · p) (h.lists_eq st hst)
        · rw [Sched.setList_lists_of_ne _ _ _ htarget, Function.update_of_ne htarget]
          exact h.lists_eq st hst
    · exact Function.update_of_ne hne ..
    · exact SameOthers.update (Or.inr rfl) rfl
  · exact ⟨n, es, fs, rfl, h, rfl, SameOthers.refl⟩

/-- Erasing the node the loop stands on. -/
theorem Walk.erase (h : Walk new source n es fs s) (hes : es source = l ++ e :: r) :
    ∃ list, erase true (n.lists.list source) (some e.1) = some list ∧
      Walk new source { n with lists := n.lists.setList source list }
        (Function.update es source (l ++ r)) (Function.update fs source (e :: fs source)) s := by
  have hlist := h.holds.list source
  rw [hes] at hlist
  obtain ⟨list, herase, hholds, hgrows⟩ := erase_grows hlist e.1
  have hexists : n.lists.heap e.1 ≠ none := by
    apply hlist.linked.ne_none
    simp
  refine ⟨list, herase, h.holds.setList hholds hgrows, ?_, h.proc_eq, ?_⟩
  · refine h.unused.setList h.holds hgrows (Nat.le_refl _) ?_
    intro k hk heq
    exact hexists (heq ▸ h.unused k hk)
  · intro st hst
    unfold Entries.values
    rw [Function.update_of_ne hst]
    exact h.lists_eq st hst

/-! ## The loop -/

/-- **The loop** on the nodes is the walk over the sequence, from any node of the list on. -/
theorem Walk.eraseIfLoop (hne : source ≠ target) (hmethod : Inserts method insert)
    (hnew : new.Injective) (predicate : Ptr → Process → Bool) {rounds : ℕ}
    (h : Walk new source n es fs s) (hes : es source = l ++ r) (hrounds : r.length < rounds) :
    let walked := eraseIf (moveOne source target predicate insert) s (r.map Prod.snd)
    ∃ n' es' fs', Nodes.eraseIfLoop source (Nodes.callback new source target predicate method)
        rounds n (first r none) = some n' ∧ Walk new source n' es' fs' walked.2 ∧
      es'.values source = l.map Prod.snd ++ walked.1 ∧
      SameOthers source target n n' es fs es' fs' := by
  induction r generalizing rounds n es fs s l with
  | nil =>
    obtain ⟨rounds, rfl⟩ : ∃ k, rounds = k + 1 := ⟨rounds - 1, by simp at hrounds; omega⟩
    refine ⟨n, es, fs, ?_, h, ?_, SameOthers.refl⟩
    · simp [Nodes.eraseIfLoop, (h.holds.list source).end_eq]
    · simp [Entries.values, hes, eraseIf]
  | cons e r ih =>
    obtain ⟨rounds, rfl⟩ : ∃ k, rounds = k + 1 := ⟨rounds - 1, by simp at hrounds; omega⟩
    have hrounds' : r.length < rounds := by simpa using hrounds
    obtain ⟨n₁, es₁, fs₁, hcall, h₁, hsource, hothers⟩ :=
      h.callback hne hmethod hnew predicate e.2
    have hlist := h.holds.list source
    have hlist₁ := h₁.holds.list source
    rw [hes] at hlist
    rw [hsource, hes] at hlist₁
    have hnode : n.lists.heap e.1 = _ := (linked_append.mp hlist.linked).2.1
    have hnode₁ : n₁.lists.heap e.1 = _ := (linked_append.mp hlist₁.linked).2.1
    unfold Nodes.eraseIfLoop
    simp only [Option.bind_eq_bind, Option.bind_some, hlist.end_eq, first_cons, reduceCtorEq,
      ↓reduceIte, hnode, hcall, hnode₁]
    simp only [List.map_cons, eraseIf]
    cases hmoved : (moveOne source target predicate insert s e.2).1 with
    | true =>
      obtain ⟨list, herase, h₂⟩ := h₁.erase (hsource.trans hes)
      obtain ⟨n', es', fs', hloop, h', hvalues, hothers'⟩ :=
        ih h₂ (l := l) (Function.update_self ..) hrounds'
      simp only [↓reduceIte, herase, Option.map_some, Option.bind_some, hloop]
      exact ⟨n', es', fs', rfl, h', hvalues,
        (hothers.trans (SameOthers.update (Or.inl rfl) rfl)).trans hothers'⟩
    | false =>
      obtain ⟨n', es', fs', hloop, h', hvalues, hothers'⟩ :=
        ih h₁ (l := l ++ [e]) (by rw [hsource, hes, List.append_cons]) hrounds'
      simp only [Bool.false_eq_true, ↓reduceIte, hloop]
      refine ⟨n', es', fs', rfl, h', ?_, hothers.trans hothers'⟩
      rw [hvalues]
      simp

/-! ## `move_to_if` -/

/-- `n` holds the processes and the lists of `s`. -/
structure Represents (new : ℕ → ℕ) (n : Nodes) (es fs : Entries) (s : Sched) : Prop where
  holds : n.lists.Holds es fs
  unused : n.lists.Unused new n.pushes
  proc_eq : s.proc = n.proc
  lists_eq : ∀ st, s.lists st = es.values st

/-- What the walk over the whole list leaves. -/
theorem Represents.walked (h : Represents new n es fs s) (hne : source ≠ target)
    (hmethod : Inserts method insert) (hnew : new.Injective)
    (predicate : Ptr → Process → Bool) :
    let walked := eraseIf (moveOne source target predicate insert) s (s.lists source)
    ∃ n' es' fs', Nodes.moveToIf new n source target predicate method = some n' ∧
      Represents new n' es' fs' (walked.2.setList source walked.1) ∧
      SameOthers source target n n' es fs es' fs' := by
  intro walked
  have hwalk : Walk new source n es fs s :=
    ⟨h.holds, h.unused, h.proc_eq, fun st _ => h.lists_eq st⟩
  have hhead : (n.lists.header source).head = first (es source) none := (h.holds.list source).head
  have hle : (es source).length ≤ (n.lists.header source).allocated.length :=
    (h.holds.list source).length_le
  obtain ⟨n', es', fs', hloop, h', hvalues, hothers⟩ :=
    hwalk.eraseIfLoop hne hmethod hnew predicate (List.nil_append (es source)).symm
      (Nat.lt_succ_of_le hle)
  rw [show (es source).map Prod.snd = s.lists source from (h.lists_eq source).symm] at h' hvalues
  refine ⟨n', es', fs', ?_, ⟨h'.holds, h'.unused, h'.proc_eq, ?_⟩, hothers⟩
  · unfold Nodes.moveToIf
    rw [hhead]
    exact hloop
  · intro st
    by_cases hst : st = source
    · subst hst
      rw [Sched.setList_lists_self]
      exact hvalues.symm
    · rw [Sched.setList_lists_of_ne _ _ _ hst]
      exact h'.lists_eq st hst

/-- **`move_to_if` on the nodes** is `move_to_if` on the sequences. -/
theorem moveToIf_refines (h : Represents new n es fs s) (hne : source ≠ target)
    (hmethod : Inserts method insert) (hnew : new.Injective) (predicate : Process → Bool) :
    ∃ n' es' fs', Nodes.moveToIf new n source target (fun _ => predicate) method = some n' ∧
      Represents new n' es' fs' (moveToIf s source target predicate insert) ∧
      SameOthers source target n n' es fs es' fs' :=
  h.walked hne hmethod hnew fun _ => predicate

/-- The processes on the list `source` that `predicate` selects. -/
def Nodes.selected (n : Nodes) (es : Entries) (source : ProcState)
    (predicate : Ptr → Process → Bool) : List Ptr :=
  (es.values source).filter fun p => predicate p (n.proc p)

/-- From `n` to `n'` the selected processes went from `source` to `target`, whose list is `l`
    now. -/
structure Partitioned (new : ℕ → ℕ) (source target : ProcState)
    (predicate : Ptr → Process → Bool) (n n' : Nodes) (es fs es' fs' : Entries) (l : List Ptr) :
    Prop where
  holds : n'.lists.Holds es' fs'
  unused : n'.lists.Unused new n'.pushes
  source_eq : es'.values source = (es.values source).filter fun p => !predicate p (n.proc p)
  target_eq : es'.values target = l
  proc : ∀ p, n'.proc p = if p ∈ n.selected es source predicate then
    { n.proc p with state := target } else n.proc p
  others : SameOthers source target n n' es fs es' fs'

/-- The processes that are moved go through `insert`, in order. -/
theorem moveToIf_partitions (hne : source ≠ target) (hmethod : Inserts method insert)
    (hnew : new.Injective) (h : n.lists.Holds es fs) (hunused : n.lists.Unused new n.pushes)
    (hstate : ∀ p ∈ es.values source, (n.proc p).state = source)
    (hnodup : (n.selected es source predicate).Nodup) :
    ∃ n' es' fs', Nodes.moveToIf new n source target predicate method = some n' ∧
      Partitioned new source target predicate n n' es fs es' fs'
        ((n.selected es source predicate).foldl insert (es.values target)) := by
  let s : Sched := ⟨true, [], es.values, none, n.proc, 0, 0⟩
  have hs : Represents new n es fs s := ⟨h, hunused, rfl, fun _ => rfl⟩
  obtain ⟨n', es', fs', hmove, h', hothers⟩ := hs.walked hne hmethod hnew predicate
  have heq : eraseIf (moveOne source target predicate insert) s (s.lists source) = _ :=
    eraseIf_moveOne (s := s) hstate hnodup
  rw [heq] at h'
  refine ⟨n', es', fs', hmove, h'.holds, h'.unused, ?_, ?_, ?_, hothers⟩
  · rw [← h'.lists_eq, Sched.setList_lists_self]
  · rw [← h'.lists_eq, Sched.setList_lists_of_ne _ _ _ hne.symm]
    exact Function.update_self ..
  · intro p
    rw [← h'.proc_eq]
    rfl

/-- **Moving is a stable partition**, at either end of the other list, where no selected process is
    on the list twice. -/
theorem move_to_if_partitions (hne : source ≠ target) (hnew : new.Injective)
    (h : n.lists.Holds es fs) (hunused : n.lists.Unused new n.pushes)
    (hstate : ∀ p ∈ es.values source, (n.proc p).state = source)
    (hnodup : (n.selected es source predicate).Nodup) :
    (∃ n' es' fs', n.moveToBackIf new source target predicate = some n' ∧
      Partitioned new source target predicate n n' es fs es' fs'
        (es.values target ++ n.selected es source predicate)) ∧
    ∃ n' es' fs', n.moveToFrontIf new source target predicate = some n' ∧
      Partitioned new source target predicate n n' es fs es' fs'
        ((n.selected es source predicate).reverse ++ es.values target) := by
  have hback : ∀ ps l : List Ptr, ps.foldl (fun l p => l ++ [p]) l = l ++ ps := by
    simp [← List.flatMap_def]
  have hfront : ∀ ps l : List Ptr, ps.foldl (fun l p => p :: l) l = ps.reverse ++ l := by simp
  constructor
  · rw [← hback]
    exact moveToIf_partitions hne pushBack_inserts hnew h hunused hstate hnodup
  · rw [← hfront]
    exact moveToIf_partitions hne pushFront_inserts hnew h hunused hstate hnodup

/-! ## Recycled nodes, and a process that is on a list twice -/

/-- `a` and `b` sleep, in the nodes 100 and 101, and `c` is ready, in the node 200; both lists have
    a node to take again. -/
def recycling (a b c : Ptr) : Nodes where
  lists :=
    { heap := fun
        | 100 => some ⟨a, some 101, none⟩
        | 101 => some ⟨b, none, some 100⟩
        | 102 => some ⟨0, none, none⟩
        | 200 => some ⟨c, none, none⟩
        | 201 => some ⟨0, none, none⟩
        | _ => none
      header := fun
        | .sleeping => ⟨some 100, some 101, some 102, [100, 101, 102]⟩
        | .ready => ⟨some 200, some 200, some 201, [200, 201]⟩
        | _ => ⟨none, none, none, []⟩ }
  proc := fun p => ⟨p, if p = a ∨ p = b then .sleeping else .ready, .none, .function 0, 0⟩
  pushes := 0

def recyclingLive (a b c : Ptr) : Entries
  | .sleeping => [(100, a), (101, b)]
  | .ready => [(200, c)]
  | _ => []

def recyclingFree : Entries
  | .sleeping => [(102, 0)]
  | .ready => [(201, 0)]
  | _ => []

theorem recycling_holds (a b c : Ptr) :
    (recycling a b c).lists.Holds (recyclingLive a b c) recyclingFree := by
  constructor
  · intro st
    cases st with
    | sleeping =>
      exact ⟨rfl, rfl, ⟨rfl, rfl, trivial⟩, ⟨rfl, _, rfl, rfl, rfl⟩, by simp [recyclingLive,
        recyclingFree], fun _ => List.Perm.refl _, fun h => by cases h⟩
    | ready =>
      exact ⟨rfl, rfl, ⟨rfl, trivial⟩, ⟨rfl, _, rfl, rfl, rfl⟩, by simp [recyclingLive,
        recyclingFree], fun _ => List.Perm.refl _, fun h => by cases h⟩
    | _ =>
      exact ⟨rfl, rfl, trivial, rfl, List.nodup_nil, fun _ => List.Perm.refl _, fun h => by cases h⟩
  · intro i j hij p hp
    cases i <;> cases j <;> simp_all [recycling]
    · omega
    · omega

theorem recycling_unused (a b c : Ptr) : (recycling a b c).lists.Unused (· + 300) 0 := by
  intro k _
  show (recycling a b c).lists.heap (k + 300) = none
  rfl

/-- The sleepers 1 and 2 are woken in front of 3. -/
theorem move_to_if_partitions_example :
    let n := recycling 1 2 3
    let es := recyclingLive 1 2 3
    (∃ n' es' fs', n.moveToBackIf (· + 300) .sleeping .ready (fun _ _ => true) = some n' ∧
      Partitioned (· + 300) .sleeping .ready (fun _ _ => true) n n' es recyclingFree es' fs'
        (es.values .ready ++ n.selected es .sleeping fun _ _ => true)) ∧
    ∃ n' es' fs', n.moveToFrontIf (· + 300) .sleeping .ready (fun _ _ => true) = some n' ∧
      Partitioned (· + 300) .sleeping .ready (fun _ _ => true) n n' es recyclingFree es' fs'
        ((n.selected es .sleeping fun _ _ => true).reverse ++ es.values .ready) := by
  refine move_to_if_partitions (by simp) (fun _ _ => Nat.add_right_cancel) (recycling_holds 1 2 3)
    (recycling_unused 1 2 3) ?_ ?_
  · intro p hp
    have hp' : p ∈ [1, 2] := hp
    simp only [List.mem_cons, List.not_mem_nil, or_false] at hp'
    exact if_pos hp'
  · show [1, 2].Nodup
    simp

/-- A process that is on the list twice is moved once: its state is the target's when the walk
    meets it again, and that node stays. -/
theorem moved_twice_stays :
    let n := recycling 1 1 3
    let es := recyclingLive 1 1 3
    n.lists.Holds es recyclingFree ∧ n.lists.Unused (· + 300) n.pushes ∧
      (∀ p ∈ es.values .sleeping, (n.proc p).state = .sleeping) ∧
      ¬∃ (n' : Nodes) (es' fs' : Entries),
        n.moveToBackIf (· + 300) .sleeping .ready (fun _ _ => true) = some n' ∧
        n'.lists.Holds es' fs' ∧
        es'.values .sleeping = (es.values .sleeping).filter fun _ => !true := by
  refine ⟨recycling_holds 1 1 3, recycling_unused 1 1 3, ?_, ?_⟩
  · intro p hp
    have hp' : p ∈ [1, 1] := hp
    simp only [List.mem_cons, List.not_mem_nil, or_false] at hp'
    exact if_pos hp'
  · rintro ⟨n', es', fs', hmove, hholds, hvalues⟩
    have hstays : (Nodes.moveToBackIf (· + 300) (recycling 1 1 3) .sleeping .ready
        fun _ _ => true).map (fun n => (n.lists.header .sleeping).head) = some (some 101) := rfl
    rw [hmove] at hstays
    have hhead := (hholds.list .sleeping).head
    have hnil : es' .sleeping = [] := List.map_eq_nil_iff.mp hvalues
    rw [hnil] at hhead
    have hnone : (n'.lists.header .sleeping).head = none := hhead
    simp [hnone] at hstays

end HryOS.Scheduler
