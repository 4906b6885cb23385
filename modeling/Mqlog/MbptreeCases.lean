/-
  What `mbptree_tryappend` does, branch by branch.

  The lemmas of this file run the code once, on a heap of which only the nodes that it touches are
  known: the last leaf, the node above it and the nodes it allocates.  Which trees such a heap
  stores, and which of them an append keeps, is left to those who use them: a B+tree and any
  allocation succeeding, or a tree that lost nodes to failed allocations.

  A full last leaf gets a new one behind it.  If it has a parent, the split cascade does the rest
  (`tryappendFull_underParent`); if it is the root, a new root is made over the two leaves
  (`tryappendFull_newRoot`), or taken back (`tryappendFull_overLeaf`).

      key too low                         `tryappend_low`: refused, nothing is touched
      the leaf has room                   `tryappend_high`, and then one store
      full, under a parent, new leaf      `tryappendFull_underParent`
      full, the root, both allocations    `tryappendFull_newRoot`
      full, the root, only the root       `tryappendFull_overLeaf`: undone

  The old leaf is put under the new root before the new leaf is allocated, so that a failing
  allocation finds the tree half changed: its parent is cleared again and the new root is freed.
  The same lines are reached by a leaf that had a parent all along; then the parent is lost, and
  what is freed is `NULL`.
-/
import Mqlog.MbptreeAppend

namespace Mqlog

open Lib (Heap)

/-- The key is not above the last one. -/
def KeyTooLow (n : Node) (key : Nat) : Prop :=
  ∃ d, 0 < n.size ∧ n.data[n.size - 1]? = some d ∧ key ≤ d.key

section Append

variable {b : Nat} {t : Mbptree} {n : Node}

/-- `mbptree_tryappend` refuses a key that is too low. -/
theorem tryappend_low {key : Nat} (value : Nat) (hn : t.heap.get t.lastLeaf = some n)
    (hlow : KeyTooLow n key) : mbptreeTryappend t key value = some (ELIDXNM, t) := by
  obtain ⟨d, hpos, hd, hle⟩ := hlow
  rw [mbptreeTryappend, Mbptree.node, hn]
  simp only [Option.bind_eq_bind, Option.bind_some, if_pos hpos, hd, decide_eq_true hle]
  rfl

/-- What `mbptree_tryappend` does with a key that is not too low. -/
theorem tryappend_high {key : Nat} (value : Nat) (hbf : t.branchFactor = b)
    (hn : t.heap.get t.lastLeaf = some n) (hlen : n.data.length = b) (hsize : n.size < b)
    (hhigh : ¬ KeyTooLow n key) :
    mbptreeTryappend t key value =
      if n.size < b - 1 then (t.modify t.lastLeaf (Node.push key value)).map fun t => (0, t)
      else mbptreeTryappendFull t key value := by
  have hfull : mbptreeNodeFull t t.lastLeaf = some (decide (b - 1 ≤ n.size)) := by
    rw [mbptreeNodeFull_eq hn (by omega), hbf]
  have hrest : (if decide (b - 1 ≤ n.size) = false then
      (t.modify t.lastLeaf (Node.push key value)).bind fun t => some ((0 : Int), t)
    else mbptreeTryappendFull t key value) =
      if n.size < b - 1 then (t.modify t.lastLeaf (Node.push key value)).map fun t => (0, t)
      else mbptreeTryappendFull t key value := by
    by_cases hfit : n.size < b - 1
    · rw [if_pos hfit, if_pos (decide_eq_false (by omega))]
      cases t.modify t.lastLeaf (Node.push key value) with
      | none => rfl
      | some t' => rfl
    · rw [if_neg hfit, if_neg (by rw [decide_eq_false_iff_not]; omega)]
  rw [mbptreeTryappend, Mbptree.node, hn]
  simp only [Option.bind_eq_bind, Option.bind_some, Option.pure_def, hfull]
  by_cases hpos : 0 < n.size
  · have hd : n.data[n.size - 1]? = some n.data[n.size - 1] := List.getElem?_eq_getElem (by omega)
    have hlt : ¬ key ≤ n.data[n.size - 1].key := fun hle => hhigh ⟨_, hpos, hd, hle⟩
    rw [if_pos hpos, hd]
    simp only [Option.bind_some, decide_eq_false hlt, Bool.false_eq_true, if_false]
    exact hrest
  · rw [if_neg hpos]
    simp only [Bool.false_eq_true, if_false]
    exact hrest

/-! ## New nodes -/

theorem createLeaf_eq (hb : 0 < b) (hbf : t.branchFactor = b) (p : Nat) :
    mbptreeCreateLeaf t p =
      if t.allocs.headD true then
        (t.heap.next, { t with heap := t.heap.alloc (leafNode b p [] 0), allocs := t.allocs.tail })
      else (0, { t with allocs := t.allocs.tail }) := by
  subst hbf
  rw [leafNode_nil hb]
  exact t.calloc_eq _

/-- A new leaf behind the one at `a`, with one entry. -/
theorem newLeaf_eq {a : Nat} (hb : 3 ≤ b) (hbf : t.branchFactor = b) (hn : t.heap.get a = some n)
    (hleaf : n.leaf = true) (hlen : n.data.length = b) (hsize : n.size < b)
    (hok : t.allocs.headD true = true) (key value : Nat) :
    ∃ h₁ h₂, mbptreeNewLeaf t a =
      some (t.heap.next, { t with heap := h₁, allocs := t.allocs.tail }) ∧
      Mbptree.modify { t with heap := h₁, allocs := t.allocs.tail } t.heap.next
        (Node.push key value) =
        some { t with heap := h₂, allocs := t.allocs.tail } ∧
      h₂.next = t.heap.next + 1 ∧ h₂.get a = some (n.withValue n.size t.heap.next) ∧
      h₂.get t.heap.next = some (leafNode b n.parent [⟨key, value⟩] 0) ∧
      ∀ y, y ≠ a → y ≠ t.heap.next → h₂.get y = t.heap.get y := by
  have hlt : a < t.heap.next := Heap.lt_next hn
  have ha₁ : (t.heap.alloc (leafNode b n.parent [] 0)).get a = some n := Heap.get_alloc_of_get hn
  have hset : n.setLast t.heap.next = some (n.withValue n.size t.heap.next) := by
    rw [Node.setLast, Node.setValue, if_pos (by omega)]
  have hnew : ((t.heap.alloc (leafNode b n.parent [] 0)).set a (n.withValue n.size t.heap.next)).get
      t.heap.next = some (leafNode b n.parent [] 0) := by
    rw [Heap.get_set_of_ne (by omega), Heap.get_alloc_self]
  have hpush : (leafNode b n.parent [] 0).push key value =
      some (leafNode b n.parent ([] ++ [⟨key, value⟩]) 0) :=
    leafNode_push (show 0 + 1 < b by omega) key value
  refine ⟨(t.heap.alloc (leafNode b n.parent [] 0)).set a (n.withValue n.size t.heap.next),
    ((t.heap.alloc (leafNode b n.parent [] 0)).set a (n.withValue n.size t.heap.next)).set
      t.heap.next
      (leafNode b n.parent ([] ++ [⟨key, value⟩]) 0), ?_, ?_, rfl, ?_, ?_, ?_⟩
  · rw [mbptreeNewLeaf, Mbptree.node, hn]
    simp only [Option.bind_eq_bind, Option.bind_some]
    rw [assert_pos hleaf, createLeaf_eq (by omega) hbf, if_pos hok]
    simp only [Option.bind_some, Nat.ne_of_gt t.heap.pos, if_false]
    rw [Mbptree.modify_eq ha₁ hset]
    rfl
  · exact Mbptree.modify_eq hnew hpush
  · rw [Heap.get_set_of_ne (by omega), Heap.get_set_self ha₁]
  · exact Heap.get_set_self hnew
  · intro y hya hyn
    rw [Heap.get_set_of_ne hyn, Heap.get_set_of_ne hya, Heap.get_alloc, if_neg hyn]

/-- No new leaf behind the one at `a`. -/
theorem newLeaf_failed {a : Nat} (hb : 0 < b) (hbf : t.branchFactor = b)
    (hn : t.heap.get a = some n) (hleaf : n.leaf = true) (hok : ¬ t.allocs.headD true = true) :
    mbptreeNewLeaf t a = some (0, { t with allocs := t.allocs.tail }) := by
  rw [mbptreeNewLeaf, Mbptree.node, hn]
  simp only [Option.bind_eq_bind, Option.bind_some]
  rw [assert_pos hleaf, createLeaf_eq hb hbf, if_neg hok]
  rfl

/-- How `mbptree_tryappend` fills the new root over two leaves. -/
theorem blankNode_push {b : Nat} (hb : 2 ≤ b) (p x k y : Nat) :
    ∃ n₁ n₂, (blankNode b p).push k x = some n₁ ∧ n₁.setLast y = some n₂ ∧
      NodeIs b n₂ p [k] [x, y] := by
  obtain ⟨b', rfl⟩ : ∃ b', b = b' + 2 := ⟨b - 2, by omega⟩
  refine ⟨⟨false, 1, p, ⟨k, x⟩ :: Data.zero :: List.replicate b' Data.zero⟩,
    ⟨false, 1, p, ⟨k, x⟩ :: ⟨0, y⟩ :: List.replicate b' Data.zero⟩, rfl, rfl, rfl, rfl, rfl,
      ?_, rfl,
    by simp, ?_, ?_, ?_⟩
  · simp
  · intro i hi
    obtain rfl : i = 0 := Nat.lt_one_iff.mp hi
    rfl
  · intro i hi
    obtain rfl | rfl : i = 0 ∨ i = 1 := by
      rw [List.length_cons, List.length_singleton] at hi
      omega
    · rfl
    · rfl
  · intro i hi hib
    rw [List.length_cons, List.length_singleton] at hi
    obtain ⟨j, rfl⟩ : ∃ j, i = j + 2 := ⟨i - 2, by omega⟩
    show ((List.replicate b' Data.zero)[j]?).map Data.value = some 0
    rw [List.getElem?_replicate, if_pos (by omega)]
    rfl

/-! ## The full last leaf has a parent -/

/-- `mbptree_append_leaf`, once the new leaf is linked behind the last one. -/
theorem appendLeaf_eq {a : Nat} {m : Node} {link first : Data} (hn : t.heap.get t.lastLeaf = some n)
    (hm : t.heap.get a = some m) (hne : t.lastLeaf ≠ a) (hfull : n.size = t.branchFactor - 1)
    (hlink : n.data[n.size]? = some link) (hvalue : link.value = a) (hparent : n.parent = m.parent)
    (hfirst : m.data[0]? = some first) :
    mbptreeAppendLeaf t a =
      (addToParent (mbptreeSplitNode t.heap.next) t n.parent first.key a).map fun r =>
        (r.1, { r.2 with lastLeaf := a }) := by
  rw [mbptreeAppendLeaf]
  simp only [Mbptree.node, hn, hm, Option.bind_eq_bind, Option.bind_some]
  rw [assert_pos hne, assert_pos hfull, hlink, hfirst]
  simp only [Option.bind_some]
  rw [assert_pos hvalue, assert_pos hparent]
  exact Option.map_eq_bind.symm

/-- The new leaf is there: the cascade decides. -/
theorem tryappendFull_underParent (hb : 3 ≤ b) (hbf : t.branchFactor = b)
    (hn : t.heap.get t.lastLeaf = some n) (hleaf : n.leaf = true) (hlen : n.data.length = b)
    (hfull : n.size = b - 1) (hpar : n.parent ≠ 0) (hok : t.allocs.headD true = true)
    (key value : Nat) :
    ∃ h', h'.next = t.heap.next + 1 ∧
      h'.get t.lastLeaf = some (n.withValue n.size t.heap.next) ∧
      h'.get t.heap.next = some (leafNode b n.parent [⟨key, value⟩] 0) ∧
      (∀ x, x ≠ t.lastLeaf → x ≠ t.heap.next → h'.get x = t.heap.get x) ∧
      mbptreeTryappendFull t key value =
        (addToParent (mbptreeSplitNode h'.next) { t with heap := h', allocs := t.allocs.tail }
          n.parent
          key t.heap.next).map fun r =>
            if r.1 = 0 then (ELIDXPC, { r.2 with lastLeaf := t.heap.next })
            else (0, { r.2 with lastLeaf := t.heap.next, root := r.1 }) := by
  have hlt : t.lastLeaf < t.heap.next := Heap.lt_next hn
  obtain ⟨h₁, h', hnewLeaf, hpush, hnext, hlast, hnew, hget⟩ :=
    newLeaf_eq hb hbf hn hleaf hlen (by omega) hok key value
  have hsize : (n.withValue n.size t.heap.next).size = t.branchFactor - 1 := by
    rw [hbf]
    exact hfull
  have hlink : (n.withValue n.size t.heap.next).data[(n.withValue n.size t.heap.next).size]? =
      some ⟨n.data[n.size].key, t.heap.next⟩ := by
    show (n.data.modify n.size _)[n.size]? = _
    rw [List.getElem?_modify_eq, List.getElem?_eq_getElem (by omega)]
    rfl
  have hfirst : (leafNode b n.parent [⟨key, value⟩] 0).data[0]? = some ⟨key, value⟩ := rfl
  have happend := appendLeaf_eq (t := { t with heap := h', allocs := t.allocs.tail }) hlast hnew
    (Nat.ne_of_lt hlt) hsize hlink rfl rfl hfirst
  refine ⟨h', hnext, hlast, hnew, hget, ?_⟩
  rw [mbptreeTryappendFull, mbptreeIsRoot_eq hn, decide_eq_false hpar]
  simp only [Option.bind_eq_bind, Option.bind_some, Bool.false_eq_true, false_and, if_false,
    hnewLeaf, Nat.ne_of_gt t.heap.pos, hpush, ne_eq, not_true_eq_false, happend, Option.bind_map]
  rw [Option.map_eq_bind]
  congr 1
  funext r
  by_cases hr : r.1 = 0
  · simp only [Function.comp_apply, if_pos hr]
    rfl
  · simp only [Function.comp_apply, if_neg hr]
    rfl

/-! ## The full last leaf is the root -/

/-- The heap with a blank root over the last leaf `p`. -/
theorem exists_overLeaf {h : Heap Node} {p : Nat} (b : Nat) (hn : h.get p = some n) :
    ∃ H, (h.alloc (blankNode b 0)).set p { n with parent := h.next } = H ∧ H.next = h.next + 1 ∧
      H.get p = some { n with parent := h.next } ∧ H.get h.next = some (blankNode b 0) ∧
      ∀ x, x ≠ p → x ≠ h.next → H.get x = h.get x := by
  have hlt : p < h.next := Heap.lt_next hn
  refine ⟨_, rfl, rfl, ?_, ?_, ?_⟩
  · exact Heap.get_set_self (Heap.get_alloc_of_get hn)
  · rw [Heap.get_set_of_ne (by omega), Heap.get_alloc_self]
  · intro x hx hxr
    rw [Heap.get_set_of_ne hx, Heap.get_alloc, if_neg hxr]

/-- What is left to do when the full last leaf is the root and has got a root above it. -/
theorem tryappendFull_overLeaf (hbf : t.branchFactor = b) (hn : t.heap.get t.lastLeaf = some n)
    (hroot : n.parent = 0) (hok : t.allocs.headD true = true) (key value : Nat) {H : Heap Node}
    (hH : (t.heap.alloc (blankNode b 0)).set t.lastLeaf { n with parent := t.heap.next } = H) :
    mbptreeTryappendFull t key value =
      ((mbptreeNewLeaf { t with heap := H, allocs := t.allocs.tail } t.lastLeaf).bind fun r =>
        if r.1 = 0 then do
          let t' ← r.2.modify t.lastLeaf (Node.setParent 0)
          let t' ← mbptreeFreeNode t'.heap.next t' t.heap.next
          pure (ELALLC, t')
        else do
          let t' ← r.2.modify r.1 (Node.push key value)
          let first ← (← t'.node r.1).data[0]?
          let t' ← t'.modify t.heap.next (Node.push first.key t.lastLeaf)
          let t' ← t'.modify t.heap.next (Node.setLast r.1)
          pure (0, { t' with lastLeaf := r.1, root := t.heap.next })) := by
  have hpos : t.heap.next ≠ 0 := Nat.ne_of_gt t.heap.pos
  have hn₁ : (t.heap.alloc (blankNode b 0)).get t.lastLeaf = some n := Heap.get_alloc_of_get hn
  have hsetPar : Node.setParent t.heap.next n = some { n with parent := t.heap.next } := rfl
  have hmod := Mbptree.modify_eq (t := { t with
    heap := t.heap.alloc (blankNode b 0), allocs := t.allocs.tail }) hn₁ hsetPar
  rw [mbptreeTryappendFull, mbptreeIsRoot_eq hn, decide_eq_true hroot]
  simp only [Option.bind_eq_bind, Option.bind_some, if_true, createNode_eq hbf, if_pos hok, hpos,
    and_false, if_false]
  rw [hmod, Option.bind_some, hH]
  simp only [ne_eq, hpos, not_false_eq_true, if_true]

/-- Both allocations succeed: a new root over two leaves. -/
theorem tryappendFull_newRoot (hb : 3 ≤ b) (hbf : t.branchFactor = b)
    (hn : t.heap.get t.lastLeaf = some n) (hleaf : n.leaf = true) (hlen : n.data.length = b)
    (hsize : n.size < b) (hroot : n.parent = 0) (hok : t.allocs.headD true = true)
    (hok' : t.allocs.tail.headD true = true) (key value : Nat) :
    ∃ h' r, mbptreeTryappendFull t key value = some (0, { t with
        heap := h', allocs := t.allocs.tail.tail, lastLeaf := t.heap.next + 1, root :=
  t.heap.next }) ∧
      h'.next = t.heap.next + 2 ∧
      h'.get t.lastLeaf =
        some (Node.withValue n.size (t.heap.next + 1) { n with parent := t.heap.next }) ∧
      h'.get (t.heap.next + 1) = some (leafNode b t.heap.next [⟨key, value⟩] 0) ∧
      h'.get t.heap.next = some r ∧ NodeIs b r 0 [key] [t.lastLeaf, t.heap.next + 1] ∧
      ∀ x, x ≠ t.lastLeaf → x ≠ t.heap.next → x ≠ t.heap.next + 1 → h'.get x = t.heap.get x := by
  have hlt : t.lastLeaf < t.heap.next := Heap.lt_next hn
  obtain ⟨H, hH, hHnext, hHlast, hHroot, hHget⟩ := exists_overLeaf b hn
  obtain ⟨h₁, h₂, hnewLeaf, hpush, hnext, hlast, hnew, hget⟩ := newLeaf_eq
    (t := { t with heap := H, allocs := t.allocs.tail }) hb hbf hHlast hleaf hlen hsize hok'
      key value
  simp only [hHnext] at hnewLeaf hpush hnext hlast hnew hget
  -- the two slots of the new root
  obtain ⟨r₁, r₂, hr₁, hr₂, hnode⟩ := blankNode_push (b := b) (by omega) 0 t.lastLeaf key
    (t.heap.next + 1)
  have hblank : h₂.get t.heap.next = some (blankNode b 0) :=
    (hget _ (by omega) (by omega)).trans hHroot
  have hone : (h₂.set t.heap.next r₁).get t.heap.next = some r₁ := Heap.get_set_self hblank
  have hkeep : ∀ x, x ≠ t.heap.next →
      ((h₂.set t.heap.next r₁).set t.heap.next r₂).get x = h₂.get x := fun x hx => by
    rw [Heap.get_set_of_ne hx, Heap.get_set_of_ne hx]
  refine ⟨(h₂.set t.heap.next r₁).set t.heap.next r₂, r₂, ?_, hnext,
    (hkeep _ (by omega)).trans hlast, (hkeep _ (by omega)).trans hnew, Heap.get_set_self hone,
      hnode, fun x hxl hxr hxn => ?_⟩
  · rw [tryappendFull_overLeaf hbf hn hroot hok key value hH, hnewLeaf]
    simp only [Option.bind_eq_bind, Option.bind_some, Nat.add_one_ne_zero, if_false, hpush,
      Mbptree.node, hnew]
    have hfirst : (leafNode b t.heap.next [⟨key, value⟩] 0).data[0]? = some ⟨key, value⟩ := rfl
    rw [hfirst, Option.bind_some, Mbptree.modify_eq hblank hr₁, Option.bind_some,
      Mbptree.modify_eq hone hr₂]
    rfl
  · rw [hkeep x hxr, hget x hxl hxn]
    exact hHget x hxl hxr

end Append

end Mqlog
