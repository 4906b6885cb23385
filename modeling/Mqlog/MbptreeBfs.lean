/-
  Breadth-first iteration over the nodes of a tree.

  `mbptree_bfs_first` and `mbptree_bfs_iterator_next` fill a queue in two places: the children of
  the root go in with the root, those of any other node when the node comes to the head.  The queue
  is an array that is never checked for overflow, so here a slot outside the allocation is `none`.

  1. **The queue** — `Queued it done pending`: `done` has been taken, `pending` is in front, and the
     slots after it are as `calloc` left them.  In particular the slot at the tail, which
     `mbptree_bfs_iterator_next` reads on its last step, is `NULL`.
  2. **The loop** (`bfsLoop_spec`) — it takes the nodes in the order of a search with a first-in
     first-out queue (`Lib.Fifo`), as long as there are fewer nodes than slots.
  3. **The order** — on a stored tree that search goes level by level (`UTree.fifo_levels`).
  4. **The nodes** — what a tree holds at a level is what the heap holds that many child links below
     the root (`levelUnder_spec`, `below_iff_level`), and no node is there twice.

  The queue is allocated for `QUEUE_SIZE` node records and used for pointers to them, so it has more
  slots than its name says (`queueSlots`); the property is about trees with fewer than `QUEUE_SIZE`
  nodes, which the code was written for.

  Slots are never used twice: the head and the tail only grow.  So the queue must have room for
  every node of the tree, and one slot more, which is read and not used.

  `BfsCompletes` is stated over the heap: the nodes of each level from left to right, the levels
  from the root down, and each node once.
-/
import Mqlog.MbptreeShape
import Mqlog.Lib.LevelOrder
import Mathlib.Data.Set.Card

namespace Mqlog

open Lib (Heap UTree Spine Fifo)
open Lib.UTree (leaf mk label labels leaves children payload level levels Offspring)

/-! ## Data model -/

/-- `QUEUE_SIZE`. -/
def QUEUE_SIZE : Nat := 1024

/-- `sizeof(struct mbptree_node)`: two `int`s and a pointer. -/
def sizeofMbptreeNode : Nat := 16

/-- `sizeof(struct mbptree_node*)`. -/
def sizeofNodePtr : Nat := 8

/-- The slots of the queue: room for `QUEUE_SIZE` node records, used for pointers. -/
def queueSlots : Nat := QUEUE_SIZE * sizeofMbptreeNode / sizeofNodePtr

/-- `struct mbptree_bfs_iterator`. -/
structure BfsIterator where
  head : Nat
  tail : Nat
  queue : List Nat
deriving DecidableEq, Repr

/-- `iterator->queue[iterator->tail++] = a`. -/
def BfsIterator.push (it : BfsIterator) (a : Nat) : Option BfsIterator :=
  if it.tail < it.queue.length then
    some { it with tail := it.tail + 1, queue := it.queue.set it.tail a }
  else none

/-- The loop that both functions have over the children `i, i + 1, …` of `n` (`r` of them are
    left). -/
def enqueueChildren (n : Node) : Nat → Nat → BfsIterator → Option BfsIterator
  | 0, _, it => some it
  | r + 1, i, it => do
    let d ← n.data[i]?
    let it ← it.push d.value
    enqueueChildren n r (i + 1) it

/-- `mbptree_bfs_first`: `none` inside the result is the `NULL` of a failed allocation. -/
def mbptreeBfsFirst (t : Mbptree) : Option (Option BfsIterator × Mbptree) :=
  match t.allocs with
  | false :: rest => some (none, { t with allocs := rest })
  | allocs => do
    let t := { t with allocs := allocs.tail }
    let it : BfsIterator := { head := 0, tail := 0, queue := List.replicate queueSlots 0 }
    let it ← it.push t.root
    let a ← it.queue[it.head]?
    let n ← t.node a
    let it ← if n.leaf then some it else enqueueChildren n (n.size + 1) 0 it
    pure (some it, t)

/-- `mbptree_bfs_iterator_next`. -/
def mbptreeBfsIteratorNext (t : Mbptree) (it : BfsIterator) : Option BfsIterator := do
  let it := { it with head := it.head + 1 }
  let a ← it.queue[it.head]?
  if a = 0 then pure it
  else do
    let n ← t.node a
    if n.leaf then pure it else enqueueChildren n (n.size + 1) 0 it

/-- `mbptree_bfs_iterator_valid`. -/
def mbptreeBfsIteratorValid (it : BfsIterator) : Bool := decide (it.head < it.tail)

/-- The loop that runs while `mbptree_bfs_iterator_valid` holds and goes on with
    `mbptree_bfs_iterator_next`, for at most the given number of rounds: the nodes at the head. -/
def bfsLoop (t : Mbptree) : Nat → BfsIterator → Option (List Nat)
  | 0, it => if mbptreeBfsIteratorValid it then none else some []
  | fuel + 1, it =>
    if mbptreeBfsIteratorValid it then do
      let a ← it.queue[it.head]?
      let it ← mbptreeBfsIteratorNext t it
      let rest ← bfsLoop t fuel it
      pure (a :: rest)
    else some []

/-! ## What the heap holds -/

/-- The nodes of the tree. -/
def treeNodes (t : Mbptree) : Set Nat := {x | ∃ d, Below t.heap d t.root x}

/-- The nodes `e` child links below the node at `a`, from left to right. -/
def levelUnder (h : Heap Node) : Nat → Nat → Option (List Nat)
  | 0, a => some [a]
  | e + 1, a => do
    let n ← h.get a
    if n.leaf then pure []
    else
      let kids ← ((n.data.take (n.size + 1)).map Data.value).mapM (levelUnder h e)
      pure kids.flatten

/-- The children that the loops enqueue for the node at `x`. -/
inductive Expands (h : Heap Node) (x : Nat) : List Nat → Prop where
  | leaf {n : Node} : h.get x = some n → n.leaf = true → Expands h x []
  | inner {n : Node} : h.get x = some n → n.leaf = false → n.size < n.data.length →
      Expands h x ((n.data.take (n.size + 1)).map Data.value)

/-! ## The queue -/

/-- The iterator has taken `done` and has `pending` in front. -/
structure Queued (it : BfsIterator) (done pending : List Nat) : Prop where
  head : it.head = done.length
  tail : it.tail = done.length + pending.length
  slots : it.queue.length = queueSlots
  taken : ∀ i, i < (done ++ pending).length → it.queue[i]? = (done ++ pending)[i]?
  free : ∀ i, (done ++ pending).length ≤ i → i < queueSlots → it.queue[i]? = some 0

namespace Queued

variable {it : BfsIterator} {done pending : List Nat}

/-- The slot at the head. -/
theorem at_head {x : Nat} (h : Queued it done (x :: pending)) : it.queue[it.head]? = some x := by
  rw [h.head, h.taken _ (by simp), List.getElem?_append_right (Nat.le_refl _), Nat.sub_self]
  rfl

theorem valid_iff (h : Queued it done pending) :
    mbptreeBfsIteratorValid it = true ↔ pending ≠ [] := by
  unfold mbptreeBfsIteratorValid
  rw [decide_eq_true_eq, h.head, h.tail, ← List.length_pos_iff]
  omega

/-- The node at the head is done with. -/
theorem advance {x : Nat} (h : Queued it done (x :: pending)) :
    Queued { it with head := it.head + 1 } (done ++ [x]) pending := by
  have hlist : done ++ [x] ++ pending = done ++ x :: pending := by simp
  refine ⟨?_, ?_, h.slots, ?_, ?_⟩
  · rw [List.length_append, List.length_singleton, ← h.head]
  · have htail := h.tail
    rw [List.length_cons] at htail
    show it.tail = _
    rw [List.length_append, List.length_singleton]
    omega
  · rw [hlist]
    exact h.taken
  · rw [hlist]
    exact h.free

theorem push (h : Queued it done pending) (hroom : done.length + pending.length < queueSlots)
    (a : Nat) : ∃ it', it.push a = some it' ∧ Queued it' done (pending ++ [a]) := by
  have htail := h.tail
  have hslots := h.slots
  refine ⟨{ it with tail := it.tail + 1, queue := it.queue.set it.tail a }, ?_, h.head, ?_, ?_,
    ?_, ?_⟩
  · rw [BfsIterator.push, if_pos (by omega)]
  · show it.tail + 1 = _
    rw [List.length_append, List.length_singleton]
    omega
  · rw [List.length_set, hslots]
  · intro i hi
    rw [← List.append_assoc, List.length_append, List.length_singleton] at hi
    rw [← List.append_assoc]
    rcases Nat.lt_or_ge i (done ++ pending).length with hlt | hge
    · rw [List.length_append] at hlt
      rw [List.getElem?_set_ne (by omega), List.getElem?_append_left (by simp; omega)]
      exact h.taken i (by simp; omega)
    · have hi' : i = (done ++ pending).length := by omega
      rw [hi', List.getElem?_concat_length, htail, ← List.length_append]
      refine List.getElem?_set_self ?_
      rw [List.length_append]
      omega
  · intro i hi hib
    rw [← List.append_assoc, List.length_append, List.length_singleton, List.length_append] at hi
    rw [List.getElem?_set_ne (by omega)]
    exact h.free i (by simp; omega) hib

/-- The loop over the children. -/
theorem enqueue {n : Node} : ∀ (r i : Nat) {it : BfsIterator} {pending : List Nat},
    Queued it done pending → i + r ≤ n.data.length →
    done.length + pending.length + r ≤ queueSlots →
    ∃ it', enqueueChildren n r i it = some it' ∧
      Queued it' done (pending ++ ((n.data.drop i).take r).map Data.value)
  | 0, i, it, pending, h, _, _ => ⟨it, rfl, by simpa using h⟩
  | r + 1, i, it, pending, h, hslots, hroom => by
    have hi : i < n.data.length := by omega
    obtain ⟨it₁, hpush, h₁⟩ := h.push (by omega) n.data[i].value
    obtain ⟨it₂, hrest, h₂⟩ := enqueue (n := n) r (i + 1) h₁ (by omega) (by
      rw [List.length_append, List.length_singleton]
      omega)
    refine ⟨it₂, ?_, ?_⟩
    · rw [enqueueChildren, List.getElem?_eq_getElem hi]
      simp only [Option.bind_eq_bind, Option.bind_some, hpush]
      exact hrest
    · rw [List.drop_eq_getElem_cons hi, List.take_succ_cons, List.map_cons]
      rwa [List.append_assoc, List.singleton_append] at h₂

/-- What follows once the node at the head is known: its children go to the end of the queue. -/
theorem expand {t : Mbptree} {x : Nat} {ks : List Nat} (h : Queued it done pending)
    (hx : Expands t.heap x ks) (hroom : done.length + pending.length + ks.length ≤ queueSlots) :
    ∃ n it', t.node x = some n ∧
      (if n.leaf then some it else enqueueChildren n (n.size + 1) 0 it) = some it' ∧
      Queued it' done (pending ++ ks) := by
  cases hx with
  | @leaf n hn hleaf =>
    refine ⟨n, it, hn, by rw [if_pos hleaf], ?_⟩
    rwa [List.append_nil]
  | @inner n hn hleaf hfits =>
    rw [List.length_map, List.length_take, Nat.min_eq_left hfits] at hroom
    obtain ⟨it', hit, h'⟩ := h.enqueue (n := n) (n.size + 1) 0 (by omega) hroom
    refine ⟨n, it', hn, ?_, ?_⟩
    · rw [hleaf, if_neg Bool.false_ne_true, hit]
    · rwa [List.drop_zero] at h'

/-- `mbptree_bfs_iterator_next`, with another node behind the one at the head. -/
theorem next {t : Mbptree} {x y : Nat} {ks : List Nat} (h : Queued it done (x :: y :: pending))
    (hy : Expands t.heap y ks)
    (hroom : done.length + pending.length + ks.length + 2 ≤ queueSlots) :
    ∃ it', mbptreeBfsIteratorNext t it = some it' ∧
      Queued it' (done ++ [x]) (y :: pending ++ ks) := by
  have hadv := h.advance
  obtain ⟨n, it', hn, hexpand, h'⟩ := hadv.expand hy (by
    rw [List.length_append, List.length_singleton, List.length_cons]
    omega)
  have hne : y ≠ 0 := Heap.ne_null hn
  refine ⟨it', ?_, h'⟩
  have hslot := hadv.at_head
  rw [mbptreeBfsIteratorNext]
  dsimp only at hslot ⊢
  simp only [hslot, Option.bind_eq_bind, Option.bind_some, hne, if_false, hn]
  exact hexpand

/-- `mbptree_bfs_iterator_next` at the last node: the slot at the tail is read, and it is `NULL`. -/
theorem next_last {t : Mbptree} {x : Nat} (h : Queued it done [x])
    (hroom : done.length + 1 < queueSlots) :
    ∃ it', mbptreeBfsIteratorNext t it = some it' ∧ Queued it' (done ++ [x]) [] := by
  have hadv := h.advance
  have hfree := hadv.free (it.head + 1) (by rw [h.head]; simp) (by rw [h.head]; exact hroom)
  refine ⟨{ it with head := it.head + 1 }, ?_, hadv⟩
  rw [mbptreeBfsIteratorNext]
  dsimp only at hfree ⊢
  simp only [hfree, Option.bind_eq_bind, Option.bind_some, if_true]
  rfl

end Queued

/-! ## The loop -/

/-- **The loop takes the nodes in first-in first-out order** and stops behind the last one.  At its
    start the node at the head has its children in the queue already. -/
theorem bfsLoop_spec {t : Mbptree} {q vs : List Nat} (hfifo : Fifo (Expands t.heap) q vs) :
    ∀ {it : BfsIterator} {done : List Nat} {x : Nat}, Queued it done (x :: q) →
      done.length + 1 + vs.length < queueSlots → bfsLoop t (vs.length + 1) it = some (x :: vs) := by
  induction hfifo with
  | nil =>
    intro it done x h hroom
    obtain ⟨it', hnext, h'⟩ := h.next_last (t := t) hroom
    have hstop : ¬ mbptreeBfsIteratorValid it' = true := fun hv => h'.valid_iff.mp hv rfl
    rw [List.length_nil, bfsLoop, if_pos (h.valid_iff.mpr (List.cons_ne_nil _ _))]
    simp only [h.at_head, Option.bind_eq_bind, Option.bind_some, hnext, bfsLoop, hstop]
    rfl
  | @cons y ks q vs hy hrest ih =>
    intro it done x h hroom
    have hlen := hrest.length_le
    rw [List.length_append] at hlen
    rw [List.length_cons] at hroom
    obtain ⟨it', hnext, h'⟩ := h.next hy (by omega)
    have hloop := ih h' (by
      rw [List.length_append, List.length_singleton]
      omega)
    rw [List.length_cons, bfsLoop, if_pos (h.valid_iff.mpr (List.cons_ne_nil _ _))]
    simp only [h.at_head, Option.bind_eq_bind, Option.bind_some, hnext, hloop]
    rfl

/-- From `mbptree_bfs_first` on, the loop takes what a search from the root takes. -/
theorem bfsFirst_spec {t : Mbptree} {vs : List Nat} (hal : t.allocs = [])
    (hfifo : Fifo (Expands t.heap) [t.root] vs) (hroom : vs.length < queueSlots) :
    ∃ it, mbptreeBfsFirst t = some (some it, t) ∧ bfsLoop t vs.length it = some vs := by
  cases hfifo with
  | @cons _ ks q vs hroot hrest =>
    rw [List.nil_append] at hrest
    have hlen := hrest.length_le
    rw [List.length_cons] at hroom ⊢
    have hempty : Queued ⟨0, 0, List.replicate queueSlots 0⟩ [] [] := by
      refine ⟨rfl, rfl, List.length_replicate, fun i hi => absurd hi (Nat.not_lt_zero _),
        fun i _ hi => ?_⟩
      rw [List.getElem?_replicate, if_pos hi]
    obtain ⟨it₁, hpush, h₁⟩ := hempty.push (show 0 + 0 < queueSlots by decide) t.root
    obtain ⟨n, it₂, hn, hexpand, h₂⟩ := h₁.expand hroot (by
      rw [List.length_nil, List.length_append, List.length_singleton, List.length_nil]
      omega)
    refine ⟨it₂, ?_, bfsLoop_spec hrest h₂ (by rw [List.length_nil]; omega)⟩
    have hsame : { t with allocs := t.allocs.tail } = t := by rw [hal]; cases t; cases hal; rfl
    unfold mbptreeBfsFirst
    split
    · next rest hcase =>
      rw [hal] at hcase
      nomatch hcase
    · rw [hsame]
      simp only [hpush, Option.bind_eq_bind, Option.bind_some, h₁.at_head, hn]
      by_cases hleaf : n.leaf = true
      · rw [if_pos hleaf] at hexpand ⊢
        rw [Option.some.inj hexpand]
        rfl
      · rw [if_neg hleaf] at hexpand ⊢
        rw [hexpand]
        rfl

/-! ## A stored tree -/

/-- The children of an inner node, as the loops enqueue them. -/
theorem NodeIs.expands {h : Heap Node} {b p x : Nat} {n : Node} {ks cs : List Nat}
    (hnode : NodeIs b n p ks cs) (hn : h.get x = some n) : Expands h x cs := by
  have hkids := hnode.kids_length
  have hfits := hnode.fits
  rw [← hnode.take_values]
  refine Expands.inner hn hnode.leaf ?_
  rw [hnode.size, hnode.length]
  omega

theorem Rep.offspring {h : Heap Node} {b : Nat} : {d p : Nat} → {t : UTree LeafData d} →
    Rep h b p t → Offspring (Expands h) t
  | 0, _, _, ht => Expands.leaf ht rfl
  | _ + 1, _, _, ht => by
    obtain ⟨⟨n, hn, hnode⟩, hcs⟩ := ht
    exact ⟨hnode.expands hn, fun c hc => (hcs c hc).offspring⟩

theorem levelUnder_spec {h : Heap Node} {b : Nat} : {d p : Nat} → {t : UTree LeafData d} →
    Rep h b p t → ∀ e, levelUnder h e (label t) = some (level e t)
  | _, _, t, _, 0 => by rw [levelUnder, UTree.level_zero]
  | 0, p, t, ht, e + 1 => by
    have hget : h.get (label t) = some (leafNode b p (payload t).entries (payload t).next) := ht
    rw [levelUnder, hget]
    rfl
  | d + 1, p, t, ht, e + 1 => by
    obtain ⟨⟨n, hn, hnode⟩, hcs⟩ := ht
    have hkids : ((children t).map label).mapM (levelUnder h e) =
        some ((children t).map fun c => level e c) := by
      rw [List.mapM_map]
      exact mapM_some _ fun c hc => levelUnder_spec (hcs c hc) e
    rw [levelUnder, hn]
    simp only [Option.bind_eq_bind, Option.bind_some, hnode.leaf, Bool.false_eq_true, if_false,
      hnode.take_values, hkids]
    rw [UTree.level_succ, List.flatMap]
    rfl

/-- **Levels and child links**: a level of a stored tree is what lies that many links below. -/
theorem below_iff_level {h : Heap Node} {b : Nat} : {d p : Nat} → {t : UTree LeafData d} →
    Rep h b p t → ∀ {e x : Nat}, Below h e (label t) x ↔ x ∈ level e t
  | _, _, t, _, 0, x => by
    rw [UTree.level_zero, List.mem_singleton]
    constructor
    · intro hbelow
      cases hbelow
      rfl
    · rintro rfl
      exact Below.self _
  | 0, p, t, ht, e + 1, x => by
    constructor
    · intro hbelow
      cases hbelow with
      | child hn hleaf => exact absurd (ht.pos_of_inner hn hleaf) (Nat.lt_irrefl 0)
    · exact fun hx => absurd hx List.not_mem_nil
  | d + 1, p, t, ht, e + 1, x => by
    obtain ⟨⟨n, hn, hnode⟩, hcs⟩ := ht
    have hlen : ((children t).map label).length = n.size + 1 := by
      rw [hnode.kids_length, hnode.size]
    rw [UTree.level_succ, List.mem_flatMap]
    constructor
    · intro hbelow
      cases hbelow with
      | @child _ _ c _ i n' hn' hleaf hi hv hrest =>
        rw [hn, Option.some.injEq] at hn'
        subst hn'
        rw [hnode.kid i (by omega), List.getElem?_map] at hv
        obtain ⟨c', hc', rfl⟩ := Option.map_eq_some_iff.mp hv
        have hmem := List.mem_of_getElem? hc'
        exact ⟨c', hmem, (below_iff_level (hcs c' hmem)).mp hrest⟩
    · rintro ⟨c, hc, hx⟩
      obtain ⟨i, hi, rfl⟩ := List.getElem_of_mem hc
      rw [List.length_map] at hlen
      refine Below.child hn hnode.leaf (show i ≤ n.size by omega) ?_
        ((below_iff_level (hcs _ hc)).mpr hx)
      rw [hnode.kid i (by rw [List.length_map]; exact hi), List.getElem?_map,
        List.getElem?_eq_getElem hi]
      rfl

/-- The nodes of the tree are the labels of the tree it stores. -/
theorem TreeInv.mem_treeNodes {b D : Nat} {t : Mbptree} {sp : Spine LeafData 0 D} {l : LeafData}
    (h : TreeInv b t sp l) {x : Nat} :
    x ∈ treeNodes t ↔ x ∈ (levels (sp.plug (leaf t.lastLeaf l))).flatten := by
  rw [levels, List.mem_flatten, treeNodes, Set.mem_ofPred_eq, h.root]
  constructor
  · rintro ⟨e, hbelow⟩
    have hx := (below_iff_level h.rep).mp hbelow
    refine ⟨_, List.mem_map.mpr ⟨e, List.mem_range.mpr ?_, rfl⟩, hx⟩
    rcases Nat.lt_or_ge e (D + 1) with hlt | hge
    · exact hlt
    · rw [UTree.level_of_lt e _ hge] at hx
      exact absurd hx List.not_mem_nil
  · rintro ⟨l', hl', hx⟩
    obtain ⟨e, -, rfl⟩ := List.mem_map.mp hl'
    exact ⟨e, (below_iff_level h.rep).mpr hx⟩

/-- No address stands at two places of the tree. -/
theorem TreeInv.levels_nodup {b D : Nat} {t : Mbptree} {sp : Spine LeafData 0 D} {l : LeafData}
    (h : TreeInv b t sp l) : (levels (sp.plug (leaf t.lastLeaf l))).flatten.Nodup := by
  have hnd : (labels (sp.plug (leaf t.lastLeaf l))).Nodup :=
    (Spine.labels_plug sp _).nodup_iff.mpr h.nodup
  exact (UTree.levels_perm _).nodup_iff.mpr hnd

/-- As many addresses as the tree has nodes. -/
theorem TreeInv.levels_length {b D : Nat} {t : Mbptree} {sp : Spine LeafData 0 D} {l : LeafData}
    (h : TreeInv b t sp l) :
    (levels (sp.plug (leaf t.lastLeaf l))).flatten.length = (treeNodes t).ncard := by
  have hset : treeNodes t = ((levels (sp.plug (leaf t.lastLeaf l))).flatten.toFinset :
      Set Nat) := by
    ext x
    rw [h.mem_treeNodes, Finset.mem_coe, List.mem_toFinset]
  rw [hset, Set.ncard_coe_finset, List.toFinset_card_of_nodup h.levels_nodup]

/-! ## Breadth-first iteration -/

/-- Iteration from `mbptree_bfs_first` on visits every node of the tree once, level by level and
    from left to right, in as many steps as there are nodes. -/
def BfsCompletes (t : Mbptree) : Prop :=
  ∃ (it : BfsIterator) (ls : List (List Nat)), mbptreeBfsFirst t = some (some it, t) ∧
    bfsLoop t (treeNodes t).ncard it = some ls.flatten ∧
    ls.flatten.length = (treeNodes t).ncard ∧ ls.flatten.Nodup ∧
    (∀ x, x ∈ ls.flatten ↔ x ∈ treeNodes t) ∧
    ∀ e, levelUnder t.heap e t.root = some (ls.getD e [])

/-- The iteration needs one slot more than the tree has nodes. -/
theorem TreeHolds.bfs {b : Nat} {t : Mbptree} {es : List Data} (h : TreeHolds b t es)
    (hfew : (treeNodes t).ncard < queueSlots) : BfsCompletes t := by
  obtain ⟨-, D, sp, l, hinv, -⟩ := h
  have hlen := hinv.levels_length
  have hfifo := UTree.fifo_levels hinv.rep.offspring
  rw [← hinv.root] at hfifo
  obtain ⟨it, hfirst, hloop⟩ := bfsFirst_spec hinv.allocs hfifo (by omega)
  refine ⟨it, _, hfirst, ?_, hlen, hinv.levels_nodup, fun x => hinv.mem_treeNodes.symm, fun e => ?_⟩
  · rwa [hlen] at hloop
  · rw [hinv.root, levelUnder_spec hinv.rep, UTree.levels_getD]

/-- The addresses handed out so far bound the number of nodes. -/
theorem TreeHolds.treeNodes_le {b : Nat} {t : Mbptree} {es : List Data} (h : TreeHolds b t es) :
    (treeNodes t).ncard ≤ t.heap.next := by
  obtain ⟨-, D, sp, l, hinv, -⟩ := h
  have hsub : treeNodes t ⊆ (Finset.range t.heap.next : Set Nat) := by
    intro x hx
    have hlabel := (UTree.levels_perm _).subset (hinv.mem_treeNodes.mp hx)
    obtain ⟨n, hn⟩ := hinv.rep.alloc x hlabel
    exact Finset.mem_coe.mpr (Finset.mem_range.mpr (Heap.lt_next hn))
  have hle := Set.ncard_le_ncard hsub (Finset.finite_toSet _)
  rwa [Set.ncard_coe_finset, Finset.card_range] at hle

/-- **Breadth-first iteration is complete** after every run of appends, whatever the keys, on a tree
    with fewer than `QUEUE_SIZE` nodes. -/
theorem bfs_complete {b : Nat} (hb : 3 ≤ b) (calls : List (Nat × Nat)) :
    ∃ t₀ rcs t, mbptreeInit b [] = some t₀ ∧ appendAll t₀ calls = some (rcs, t) ∧
      ((treeNodes t).ncard < QUEUE_SIZE → BfsCompletes t) := by
  obtain ⟨t₀, t, hinit, hrun, h⟩ := init_appendAll hb calls
  exact ⟨t₀, _, t, hinit, hrun, fun hfew => h.bfs (Nat.lt_trans hfew (by decide))⟩

/-- Nine keys, which make a tree of three levels. -/
theorem bfs_complete_of_nine :
    3 ≤ 3 ∧ ∃ t₀ rcs t, mbptreeInit 3 [] = some t₀ ∧
      appendAll t₀ ([1, 2, 5, 6, 10, 12, 15, 20, 22].map fun k => (k, k)) = some (rcs, t) ∧
      (treeNodes t).ncard < QUEUE_SIZE ∧ BfsCompletes t := by
  obtain ⟨t₀, rcs, t, hinit, hrun, hcomplete⟩ :=
    bfs_complete (b := 3) (by decide) ([1, 2, 5, 6, 10, 12, 15, 20, 22].map fun k => (k, k))
  have hfew : (treeNodes t).ncard < QUEUE_SIZE := by
    obtain ⟨t₀', t', hinit', hrun', h⟩ :=
      init_appendAll (b := 3) (by decide) ([1, 2, 5, 6, 10, 12, 15, 20, 22].map fun k => (k, k))
    rw [hinit'] at hinit
    cases hinit
    rw [hrun'] at hrun
    cases hrun
    have hnext : (appendAll t₀ ([1, 2, 5, 6, 10, 12, 15, 20, 22].map fun k => (k, k))).map
        (fun r => r.2.heap.next) = some 9 := by
      cases hinit'
      decide +kernel
    rw [hrun'] at hnext
    have hheap : t.heap.next = 9 := Option.some.inj hnext
    exact Nat.lt_of_le_of_lt h.treeNodes_le (by rw [hheap]; decide)
  exact ⟨by decide, t₀, rcs, t, hinit, hrun, hfew, hcomplete hfew⟩

end Mqlog
