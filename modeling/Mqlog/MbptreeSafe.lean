/-
  The tree code does not fault.

  In the model a failed `assert`, a read or write through `NULL`, an access outside the slots of a
  node and a recursion that goes on for too long are all `none`.  So there are two things to show.

  1. **Slots** (`Slots`) — every node has exactly `branch_factor` slots, at every point of every
     call:  `calloc` makes them so and no store changes their number (`KeepsSlots`).  An index that
     the model accepts is therefore one between `0` and `branch_factor - 1`.
  2. **Runs** (`TreeSession.step_inv`) — no call of `mbptree_append`, `mbptree_leaf_floor`,
     `mbptree_last_value` or `mbptree_leaf_iterator_next` on a valid iterator is `none`.  The
     invariant is that the tree holds some entries and that each iterator is exhausted or stands at
     one of them.

  The first part goes through the functions of the tree, each by the lemmas about those that it
  calls.  It says nothing about what the nodes hold, and needs no invariant: `KeepsSlots` is a
  relation between the trees before and after, closed under sequencing.  A node that is freed has no
  slots.

  The second part is about a session: a tree, and the iterators that its searches have returned,
  which are all still in use.  An append moves no entry, so an iterator stays at one
  (`TreeSession.append_inv`); a search makes one more; a step of an iterator changes that one.

  No allocation fails in the second part.  Where one does, there is a fault
  (`append_faults_without_leaf`).
-/
import Mqlog.MbptreeStable

namespace Mqlog

open Lib (Heap)

/-! ## Slots -/

/-- Every node has the slots it was allocated with. -/
def Slots (t : Mbptree) : Prop := ∀ a n, t.heap.get a = some n → n.data.length = t.branchFactor

/-- From `t` to `t'` no node gets more or fewer slots. -/
structure KeepsSlots (t t' : Mbptree) : Prop where
  factor : t'.branchFactor = t.branchFactor
  slots : Slots t → Slots t'

namespace KeepsSlots

variable {t t' t'' : Mbptree} {a : Nat}

theorem refl (t : Mbptree) : KeepsSlots t t := ⟨rfl, id⟩

theorem trans (h₁ : KeepsSlots t t') (h₂ : KeepsSlots t' t'') : KeepsSlots t t'' :=
  ⟨h₂.factor.trans h₁.factor, fun hs => h₂.slots (h₁.slots hs)⟩

/-- A store into a node. -/
theorem modify {f : Node → Option Node} (h : t.modify a f = some t')
    (hf : ∀ n n', f n = some n' → n'.data.length = n.data.length) : KeepsSlots t t' := by
  simp only [Mbptree.modify, Option.bind_eq_bind, Option.bind_eq_some_iff] at h
  obtain ⟨n, hn, n', hn', h⟩ := h
  cases h
  refine ⟨rfl, fun hs x m hm => ?_⟩
  have hm' : (t.heap.set a n').get x = some m := hm
  rw [Heap.get_set] at hm'
  by_cases hx : x = a
  · rw [if_pos hx, show t.heap.get a = some n from hn] at hm'
    cases hm'
    exact (hf n n' hn').trans (hs a n hn)
  · rw [if_neg hx] at hm'
    exact hs x m hm'

/-- A new node has all its slots. -/
theorem calloc {n : Node} (hn : n.data.length = t.branchFactor) : KeepsSlots t (t.calloc n).2 := by
  unfold Mbptree.calloc
  split
  · exact ⟨rfl, id⟩
  · refine ⟨rfl, fun hs x m hm => ?_⟩
    have hm' : (t.heap.alloc n).get x = some m := hm
    rw [Heap.get_alloc] at hm'
    by_cases hx : x = t.heap.next
    · rw [if_pos hx] at hm'
      cases hm'
      exact hn
    · rw [if_neg hx] at hm'
      exact hs x m hm'

/-- A new inner node has all its slots. -/
theorem createNode (p : Nat) : KeepsSlots t (mbptreeCreateNode t p).2 :=
  calloc List.length_replicate

/-- A new leaf has all its slots. -/
theorem createLeaf (p : Nat) : KeepsSlots t (mbptreeCreateLeaf t p).2 :=
  calloc List.length_replicate

end KeepsSlots

/-! ## Stores into a node -/

namespace Node

variable {n n' : Node} {i k v : Nat}

/-- Storing a key leaves the number of slots as it is. -/
theorem setKey_slots (h : n.setKey i k = some n') : n'.data.length = n.data.length := by
  unfold setKey at h
  split at h
  · cases h
    exact length_withKey n i k
  · cases h

/-- Storing a value leaves the number of slots as it is. -/
theorem setValue_slots (h : n.setValue i v = some n') : n'.data.length = n.data.length := by
  unfold setValue at h
  split at h
  · cases h
    exact length_withValue n i v
  · cases h

/-- Appending a key leaves the number of slots as it is. -/
theorem pushKey_slots (h : n.pushKey k = some n') : n'.data.length = n.data.length := by
  rw [pushKey, Option.map_eq_some_iff] at h
  obtain ⟨n₁, hn₁, rfl⟩ := h
  show n₁.data.length = _
  exact setKey_slots hn₁

/-- Appending a key with its child leaves the number of slots as it is. -/
theorem push_slots (h : n.push k v = some n') : n'.data.length = n.data.length := by
  unfold push at h
  split at h
  · cases h
    exact List.length_set
  · cases h

end Node

/-! ## The functions of the tree -/

namespace KeepsSlots

variable {t t' : Mbptree} {lhs rhs key child r : Nat}

theorem setKey {a i k : Nat} (h : t.modify a (Node.setKey i k) = some t') : KeepsSlots t t' :=
  modify h fun _ _ => Node.setKey_slots

theorem setValue {a i v : Nat} (h : t.modify a (Node.setValue i v) = some t') : KeepsSlots t t' :=
  modify h fun _ _ => Node.setValue_slots

theorem setLast {a v : Nat} (h : t.modify a (Node.setLast v) = some t') : KeepsSlots t t' :=
  modify h fun _ _ => Node.setValue_slots

theorem pushKey {a k : Nat} (h : t.modify a (Node.pushKey k) = some t') : KeepsSlots t t' :=
  modify h fun _ _ => Node.pushKey_slots

theorem push {a k v : Nat} (h : t.modify a (Node.push k v) = some t') : KeepsSlots t t' :=
  modify h fun _ _ => Node.push_slots

theorem setParent {a p : Nat} (h : t.modify a (Node.setParent p) = some t') : KeepsSlots t t' :=
  modify h fun _ _ hn => by cases hn; rfl

theorem setSize {a s : Nat} (h : t.modify a (Node.setSize s) = some t') : KeepsSlots t t' :=
  modify h fun _ _ hn => by cases hn; rfl

/-- `mbptree_move_half_node` moves the keys. -/
theorem moveKeys : ∀ (r i : Nat) {t t' : Mbptree}, Mqlog.moveKeys lhs rhs r i t = some t' →
    KeepsSlots t t'
  | 0, _, t, t', h => by
    cases h
    exact refl t
  | r + 1, i, t, t', h => by
    simp only [Mqlog.moveKeys, Option.bind_eq_bind, Option.bind_eq_some_iff] at h
    obtain ⟨l, -, d, -, t₁, h₁, t₂, h₂, h⟩ := h
    exact (pushKey h₁).trans ((setKey h₂).trans (moveKeys r (i + 1) h))

/-- `mbptree_move_half_node` moves the children. -/
theorem moveValues : ∀ (r i j : Nat) {t t' : Mbptree}, Mqlog.moveValues lhs rhs r i j t = some t' →
    KeepsSlots t t'
  | 0, _, _, t, t', h => by
    cases h
    exact refl t
  | r + 1, i, j, t, t', h => by
    simp only [Mqlog.moveValues, Option.bind_eq_bind, Option.bind_eq_some_iff] at h
    obtain ⟨l, -, d, -, t₁, h₁, t₂, h₂, n, -, moved, -, t₃, h₃, h⟩ := h
    exact (setValue h₁).trans ((setValue h₂).trans ((setParent h₃).trans
      (moveValues r (i + 1) (j + 1) h)))

/-- `mbptree_move_half_node`. -/
theorem moveHalf (h : mbptreeMoveHalfNode t lhs rhs = some (key, t')) : KeepsSlots t t' := by
  simp only [mbptreeMoveHalfNode, Option.bind_eq_bind, Option.bind_eq_some_iff] at h
  obtain ⟨l, -, n, -, -, -, -, -, -, -, m, -, t₁, h₁, t₂, h₂, t₃, h₃, h⟩ := h
  cases h
  exact (moveKeys _ _ h₁).trans ((moveValues _ _ _ h₂).trans (setSize h₃))

/-- Half of a node moves to another one, and the new child goes behind it. -/
theorem moveHalfAndAdd (h : Mqlog.moveHalfAndAdd t lhs rhs key child = some (r, t')) :
    KeepsSlots t t' := by
  simp only [Mqlog.moveHalfAndAdd, Option.bind_eq_bind, Option.bind_eq_some_iff] at h
  obtain ⟨⟨midKey, t₁⟩, h₁, t₂, h₂, t₃, h₃, t₄, h₄, h⟩ := h
  cases h
  exact (moveHalf h₁).trans ((pushKey h₂).trans ((setLast h₃).trans (setParent h₄)))

/-- `mbptree_split_root`. -/
theorem splitRoot {root : Nat} (h : mbptreeSplitRoot t root key child = some (r, t')) :
    KeepsSlots t t' := by
  simp only [mbptreeSplitRoot, Option.bind_eq_bind, Option.bind_eq_some_iff] at h
  obtain ⟨-, -, h⟩ := h
  have hroot := createNode (t := t) 0
  split at h
  · cases h
    exact hroot
  · have hnode := hroot.trans (createNode (mbptreeCreateNode t 0).1)
    split at h
    · cases h
      exact hnode
    · simp only [Option.bind_eq_some_iff] at h
      obtain ⟨t₁, h₁, ⟨midKey, t₂⟩, h₂, t₃, h₃, t₄, h₄, t₅, h₅, h⟩ := h
      cases h
      exact hnode.trans ((setParent h₁).trans ((moveHalfAndAdd h₂).trans ((setLast h₃).trans
        ((pushKey h₄).trans ((setLast h₅).trans ⟨rfl, id⟩)))))

/-- Both callers of `addToParent` keep the slots when the split does. -/
theorem addToParent {splitNode : Mbptree → Nat → Nat → Nat → Option (Nat × Mbptree)} {parent : Nat}
    (hsplit : ∀ {t t' : Mbptree} {p k c r : Nat}, splitNode t p k c = some (r, t') →
      KeepsSlots t t')
    (h : Mqlog.addToParent splitNode t parent key child = some (r, t')) : KeepsSlots t t' := by
  simp only [Mqlog.addToParent, Option.bind_eq_bind, Option.bind_eq_some_iff] at h
  obtain ⟨full, -, h⟩ := h
  split at h
  · simp only [Option.bind_eq_some_iff] at h
    obtain ⟨t₁, h₁, t₂, h₂, h⟩ := h
    cases h
    exact (pushKey h₁).trans (setLast h₂)
  · simp only [Option.bind_eq_some_iff] at h
    obtain ⟨isRoot, -, h⟩ := h
    split at h
    · exact splitRoot h
    · exact hsplit h

/-- The cascade, by induction on the fuel. -/
theorem splitNode : ∀ (fuel : Nat) {t t' : Mbptree} {p k c r : Nat},
    mbptreeSplitNode fuel t p k c = some (r, t') → KeepsSlots t t'
  | 0, t, t', p, k, c, r, h => by
    rw [mbptreeSplitNode] at h
    cases h
  | fuel + 1, t, t', p, k, c, r, h => by
    simp only [mbptreeSplitNode, Option.bind_eq_bind, Option.bind_eq_some_iff] at h
    obtain ⟨full, -, -, -, isRoot, -, -, -, n, -, h⟩ := h
    have hnode := createNode (t := t) n.parent
    split at h
    · cases h
      exact hnode
    · simp only [Option.bind_eq_some_iff] at h
      obtain ⟨⟨midKey, t₁⟩, h₁, h⟩ := h
      refine hnode.trans ((moveHalfAndAdd h₁).trans ?_)
      -- `mbptree_append_node` goes on one level up
      cases fuel with
      | zero =>
        rw [mbptreeAppendNode] at h
        cases h
      | succ fuel =>
        simp only [mbptreeAppendNode, Option.bind_eq_bind, Option.bind_eq_some_iff] at h
        obtain ⟨m, -, -, -, h⟩ := h
        exact addToParent (fun hsplit => splitNode fuel hsplit) h

/-- `mbptree_append_leaf`. -/
theorem appendLeaf {newLeaf : Nat} (h : mbptreeAppendLeaf t newLeaf = some (r, t')) :
    KeepsSlots t t' := by
  simp only [mbptreeAppendLeaf, Option.bind_eq_bind, Option.bind_eq_some_iff] at h
  obtain ⟨last, -, new, -, -, -, -, -, link, -, -, -, -, -, first, -, ⟨root, t₁⟩, h₁, h⟩ := h
  cases h
  exact (addToParent (fun hsplit => splitNode _ hsplit) h₁).trans ⟨rfl, id⟩

/-- `mbptree_new_leaf`. -/
theorem newLeaf {a : Nat} (h : mbptreeNewLeaf t a = some (r, t')) : KeepsSlots t t' := by
  simp only [mbptreeNewLeaf, Option.bind_eq_bind, Option.bind_eq_some_iff] at h
  obtain ⟨n, -, -, -, h⟩ := h
  have hleaf := createLeaf (t := t) n.parent
  split at h
  · cases h
    exact hleaf
  · simp only [Option.bind_eq_some_iff] at h
    obtain ⟨t₁, h₁, h⟩ := h
    cases h
    exact hleaf.trans (setLast h₁)

/-- A node that is freed has no slots any more. -/
theorem free {a : Nat} : KeepsSlots t { t with heap := t.heap.free a } := by
  refine ⟨rfl, fun hs x n hn => ?_⟩
  have hn' : (t.heap.free a).get x = some n := hn
  rw [Heap.get_free] at hn'
  split at hn'
  · cases hn'
  · exact hs x n hn'

/-- `mbptree_free_node` frees the children of a node. -/
theorem freeChildren {freeNode : Mbptree → Nat → Option Mbptree} {n : Node}
    (hfree : ∀ {t t' : Mbptree} {a : Nat}, freeNode t a = some t' → KeepsSlots t t') :
    ∀ (r i : Nat) {t t' : Mbptree}, Mqlog.freeChildren freeNode n r i t = some t' → KeepsSlots t t'
  | 0, _, t, t', h => by
    cases h
    exact refl t
  | r + 1, i, t, t', h => by
    simp only [Mqlog.freeChildren, Option.bind_eq_bind, Option.bind_eq_some_iff] at h
    obtain ⟨d, -, h⟩ := h
    split at h
    · simp only [Option.bind_eq_some_iff] at h
      obtain ⟨t₁, h₁, h⟩ := h
      exact (hfree h₁).trans (freeChildren hfree r (i + 1) h)
    · simp only [Option.bind_some] at h
      exact freeChildren hfree r (i + 1) h

/-- `mbptree_free_node`. -/
theorem freeNode : ∀ (fuel : Nat) {t t' : Mbptree} {a : Nat},
    mbptreeFreeNode fuel t a = some t' → KeepsSlots t t'
  | 0, t, t', a, h => by
    rw [mbptreeFreeNode] at h
    cases h
  | fuel + 1, t, t', a, h => by
    simp only [mbptreeFreeNode, Option.bind_eq_bind, Option.bind_eq_some_iff] at h
    obtain ⟨n, -, h⟩ := h
    split at h
    · simp only [Option.bind_some] at h
      cases h
      exact free
    · simp only [Option.bind_eq_some_iff] at h
      obtain ⟨t₁, h₁, h⟩ := h
      cases h
      exact (freeChildren (fun hfree => freeNode fuel hfree) _ _ h₁).trans free

/-- `mbptree_tryappend` once it has tried to make the new leaf: both ways to the new leaf go on like
    this. -/
theorem afterNewLeaf {leaf newRoot newLeaf value : Nat} {rc : Int}
    (h : (if newLeaf = 0 then
        (t.modify leaf (Node.setParent 0)).bind fun t =>
          (mbptreeFreeNode t.heap.next t newRoot).bind fun t => pure (ELALLC, t)
      else
        (t.modify newLeaf (Node.push key value)).bind fun t =>
          if newRoot ≠ 0 then
            (t.node newLeaf).bind fun n => (n.data[0]?).bind fun first =>
              (t.modify newRoot (Node.push first.key leaf)).bind fun t =>
                (t.modify newRoot (Node.setLast newLeaf)).bind fun t =>
                  pure (0, { t with lastLeaf := newLeaf, root := newRoot })
          else
            (mbptreeAppendLeaf t newLeaf).bind fun x =>
              if x.1 = 0 then pure (ELIDXPC, x.2) else pure (0, { x.2 with root := x.1 })) =
      some (rc, t')) : KeepsSlots t t' := by
  split at h
  · simp only [Option.bind_eq_some_iff] at h
    obtain ⟨t₁, h₁, t₂, h₂, h⟩ := h
    cases h
    exact (setParent h₁).trans (freeNode _ h₂)
  · simp only [Option.bind_eq_some_iff] at h
    obtain ⟨t₁, h₁, h⟩ := h
    refine (push h₁).trans ?_
    split at h
    · simp only [Option.bind_eq_some_iff] at h
      obtain ⟨n, -, first, -, t₂, h₂, t₃, h₃, h⟩ := h
      cases h
      exact (push h₂).trans ((setLast h₃).trans ⟨rfl, id⟩)
    · simp only [Option.bind_eq_some_iff] at h
      obtain ⟨⟨root, t₂⟩, h₂, h⟩ := h
      refine (appendLeaf h₂).trans ?_
      split at h
      · cases h
        exact refl _
      · cases h
        exact ⟨rfl, id⟩

/-- `mbptree_tryappend` on a full leaf. -/
theorem tryappendFull {value : Nat} {rc : Int}
    (h : mbptreeTryappendFull t key value = some (rc, t')) : KeepsSlots t t' := by
  simp only [mbptreeTryappendFull, Option.bind_eq_bind, Option.bind_eq_some_iff] at h
  obtain ⟨isRoot, -, h⟩ := h
  have hroot : KeepsSlots t (if isRoot = true then mbptreeCreateNode t 0 else (0, t)).2 := by
    split
    · exact createNode 0
    · exact refl t
  generalize (if isRoot = true then mbptreeCreateNode t 0 else (0, t)) = made at h hroot
  by_cases hnone : isRoot = true ∧ made.1 = 0
  · rw [if_pos hnone] at h
    cases h
    exact hroot
  · rw [if_neg hnone] at h
    by_cases hisRoot : isRoot = true
    · rw [if_pos hisRoot, Option.bind_eq_some_iff] at h
      obtain ⟨t₁, h₁, h⟩ := h
      rw [Option.bind_eq_some_iff] at h
      obtain ⟨⟨leaf, t₂⟩, h₂, h⟩ := h
      exact hroot.trans ((setParent h₁).trans ((newLeaf h₂).trans (afterNewLeaf h)))
    · rw [if_neg hisRoot, Option.bind_some, Option.bind_eq_some_iff] at h
      obtain ⟨⟨leaf, t₂⟩, h₂, h⟩ := h
      exact hroot.trans ((newLeaf h₂).trans (afterNewLeaf h))

/-- `mbptree_tryappend`. -/
theorem tryappend {value : Nat} {rc : Int} (h : mbptreeTryappend t key value = some (rc, t')) :
    KeepsSlots t t' := by
  simp only [mbptreeTryappend, Option.bind_eq_bind, Option.bind_eq_some_iff] at h
  obtain ⟨leaf, -, h⟩ := h
  -- what follows once `tooLow` is known
  have hrest : ∀ tooLow : Bool, (if tooLow = true then pure (ELIDXNM, t)
      else (mbptreeNodeFull t t.lastLeaf).bind fun full =>
        if full = false then (t.modify t.lastLeaf (Node.push key value)).bind fun t => pure (0, t)
        else mbptreeTryappendFull t key value) = some (rc, t') → KeepsSlots t t' := by
    intro tooLow h
    split at h
    · cases h
      exact refl t
    · rw [Option.bind_eq_some_iff] at h
      obtain ⟨full, -, h⟩ := h
      split at h
      · rw [Option.bind_eq_some_iff] at h
        obtain ⟨t₁, h₁, h⟩ := h
        cases h
        exact push h₁
      · exact tryappendFull h
  by_cases hpos : 0 < leaf.size
  · rw [if_pos hpos, Option.bind_eq_some_iff] at h
    obtain ⟨d, -, h⟩ := h
    exact hrest _ h
  · rw [if_neg hpos] at h
    exact hrest false h

/-- `mbptree_append`. -/
theorem append {value : Nat} {rc : Int} (h : mbptreeAppend t key value = some (rc, t')) :
    KeepsSlots t t' := by
  unfold mbptreeAppend at h
  split at h
  · cases h
    exact refl t
  · simp only [Option.bind_eq_bind, Option.bind_eq_some_iff] at h
    obtain ⟨⟨rc', t₁⟩, h₁, h⟩ := h
    cases h
    have hinner := tryappend h₁
    exact ⟨hinner.factor, hinner.slots⟩

end KeepsSlots

/-- The nodes of a new tree have their slots. -/
theorem mbptreeInit_slots {b : Nat} {t : Mbptree} (h : mbptreeInit b [] = some t) : Slots t := by
  cases h
  have hempty : Slots ⟨b, ⟨0, 0⟩, 0, 0, Heap.empty, []⟩ := fun a n hn => by
    rw [Heap.get_empty] at hn
    cases hn
  exact (KeepsSlots.createLeaf 0).slots hempty

/-! ## Sessions -/

/-- The calls on a tree and on the iterators taken from it. -/
inductive TreeCall where
  | append (key value : Nat)
  | floor (key : Nat)
  | lastValue
  | next (i : Nat)
deriving DecidableEq, Repr

/-- A tree and the iterators that floor searches have returned. -/
structure TreeSession where
  tree : Mbptree
  iterators : List LeafIterator

/-- One call; `mbptree_leaf_iterator_next` is called on a valid iterator only. -/
def TreeSession.step (s : TreeSession) : TreeCall → Option TreeSession
  | .append key value => do
    let (_, t) ← mbptreeAppend s.tree key value
    pure { s with tree := t }
  | .floor key => do
    let (_, it, t) ← mbptreeLeafFloor s.tree key
    pure { tree := t, iterators := s.iterators ++ it.toList }
  | .lastValue => do
    let _ ← mbptreeLastValue s.tree
    pure s
  | .next i =>
    match s.iterators[i]? with
    | none => some s
    | some it => do
      if (← mbptreeLeafIteratorValid s.tree it) then
        let it ← mbptreeLeafIteratorNext s.tree it
        pure { s with iterators := s.iterators.set i it }
      else pure s

/-- The iterator is exhausted or stands at an entry of the tree. -/
def InTree (b : Nat) (t : Mbptree) (it : LeafIterator) : Prop :=
  it.leaf = 0 ∨ ∃ before after, Stands b t it before after

/-- What holds between calls. -/
structure TreeSessionInv (b : Nat) (s : TreeSession) : Prop where
  holds : ∃ es, TreeHolds b s.tree es
  slots : Slots s.tree
  iterators : ∀ it ∈ s.iterators, InTree b s.tree it

namespace TreeSession

variable {b : Nat} {s : TreeSession}

/-- `mbptree_append` goes through. -/
theorem append_inv (hb : 3 ≤ b) (h : TreeSessionInv b s) (key value : Nat) :
    ∃ s', s.step (.append key value) = some s' ∧ TreeSessionInv b s' := by
  obtain ⟨es, hholds⟩ := h.holds
  obtain ⟨t', happend, hholds', -⟩ := mbptreeAppend_spec hb hholds key value
  refine ⟨{ s with tree := t' }, by rw [step, happend]; rfl, ⟨_, hholds'⟩,
    (KeepsSlots.append happend).slots h.slots, fun it hit => ?_⟩
  rcases h.iterators it hit with hnull | ⟨before, after, hstands⟩
  · exact Or.inl hnull
  · obtain ⟨rc, t'', new, happend', hstands'⟩ := hstands.append hb key value
    rw [happend] at happend'
    cases happend'
    exact Or.inr ⟨before, _, hstands'⟩

/-- `mbptree_leaf_floor` goes through. -/
theorem floor_inv (hb : 3 ≤ b) (h : TreeSessionInv b s) (key : Nat) :
    ∃ s', s.step (.floor key) = some s' ∧ TreeSessionInv b s' := by
  obtain ⟨es, hholds⟩ := h.holds
  obtain ⟨it, hfloor, hcases⟩ := mbptreeLeafFloor_stands hb hholds key
  refine ⟨⟨s.tree, s.iterators ++ [it]⟩, by rw [step, hfloor]; rfl, ⟨es, hholds⟩, h.slots,
    fun it' hit' => ?_⟩
  rcases List.mem_append.mp hit' with hit' | hit'
  · exact h.iterators it' hit'
  · rw [List.mem_singleton.mp hit']
    rcases hcases with ⟨-, rfl⟩ | ⟨before, d, post, -, -, -, hstands⟩
    · exact Or.inl rfl
    · exact Or.inr ⟨before, d :: post, hstands⟩

/-- `mbptree_leaf_iterator_next` goes through. -/
theorem next_inv (hb : 3 ≤ b) (h : TreeSessionInv b s) (i : Nat) :
    ∃ s', s.step (.next i) = some s' ∧ TreeSessionInv b s' := by
  rw [step]
  cases hi : s.iterators[i]? with
  | none => exact ⟨s, rfl, h⟩
  | some it =>
    rcases h.iterators it (List.mem_of_getElem? hi) with hnull | ⟨before, after, hstands⟩
    · refine ⟨s, ?_, h⟩
      dsimp only
      rw [valid_null hnull]
      rfl
    · obtain ⟨d, rest, rfl⟩ := hstands.exists_cons
      obtain ⟨it', hnext, hcases⟩ := hstands.next hb
      refine ⟨{ s with iterators := s.iterators.set i it' }, ?_, h.holds, h.slots, fun x hx => ?_⟩
      · dsimp only
        rw [(hstands.cursor hb).valid_cons, hnext]
        rfl
      · rcases List.mem_or_eq_of_mem_set hx with hx | rfl
        · exact h.iterators x hx
        · exact hcases.imp And.right fun hstands' => ⟨_, _, hstands'⟩

/-- **Every call goes through**, and the invariant holds after it. -/
theorem step_inv (hb : 3 ≤ b) (h : TreeSessionInv b s) (c : TreeCall) :
    ∃ s', s.step c = some s' ∧ TreeSessionInv b s' := by
  cases c with
  | append key value => exact append_inv hb h key value
  | floor key => exact floor_inv hb h key
  | lastValue =>
    obtain ⟨es, hholds⟩ := h.holds
    refine ⟨s, ?_, h⟩
    rw [step, mbptreeLastValue_spec hholds]
    rfl
  | next i => exact next_inv hb h i

end TreeSession

/-- **The tree code does not fault**: every run of calls on a fresh tree goes through, and all nodes
    have `branch_factor` slots after each of them. -/
theorem tree_safe {b : Nat} (hb : 3 ≤ b) (cs : List TreeCall) :
    ∃ t₀ s, mbptreeInit b [] = some t₀ ∧ Lib.run TreeSession.step ⟨t₀, []⟩ cs = some s ∧
      ∀ a n, s.tree.heap.get a = some n → n.data.length = b := by
  obtain ⟨t₀, hinit, hholds⟩ := mbptreeInit_spec hb
  have hstart : TreeSessionInv b ⟨t₀, []⟩ :=
    ⟨⟨[], hholds⟩, mbptreeInit_slots hinit, fun it hit => absurd hit List.not_mem_nil⟩
  obtain ⟨s, hrun, hs⟩ :=
    Lib.run_progress_all (fun _ c hs => TreeSession.step_inv hb hs c) hstart cs
  refine ⟨t₀, s, hinit, hrun, fun a n hn => ?_⟩
  obtain ⟨es, -, D, sp, l, hinv, -⟩ := hs.holds
  rw [hs.slots a n hn, hinv.factor]

/-- Branch factor 3: appends that split the root, with a search and steps of its iterator between
    them. -/
theorem tree_safe_of_calls :
    3 ≤ 3 ∧ ∃ t₀ s, mbptreeInit 3 [] = some t₀ ∧
      Lib.run TreeSession.step ⟨t₀, []⟩ ([.lastValue, .append 1 10, .floor 1] ++
        ((List.range 12).flatMap fun i => [.append (2 + i) i, .next 0]) ++ [.lastValue]) = some s ∧
      ∀ a n, s.tree.heap.get a = some n → n.data.length = 3 :=
  ⟨by decide, tree_safe (b := 3) (by decide) _⟩

end Mqlog
