/-
  `mbptree_free` releases every node of the tree once.

  The walk looks at a node, frees its children and then the node itself.  Along the children the
  invariant is that the ones still to come are stored as before, which holds because no two subtrees
  share a node (`freeChildren_spec`); over the height of the tree this gives that exactly the nodes
  of the tree are gone (`mbptreeFreeNode_spec`).

  `FreedFrom h xs h'` is the state in between: `h'` is `h` without the nodes in `xs`, and as before
  everywhere else.  It composes (`FreedFrom.append`), and leaves every subtree stored that has no
  node in `xs` (`FreedFrom.rep`).

  A node that was freed twice, or looked at after it was freed, would be a fault of the model.  That
  the walk succeeds says that there is none, and that no node is left is said where allocations are
  counted (`MbptreeAllocs`).
-/
import Mqlog.MbptreeChain

namespace Mqlog

open Lib Lib.UTree

/-- The node `t` of which the walk has freed exactly the nodes in `xs`. -/
def FreedFrom (h h' : Heap Node) (xs : List Nat) : Prop :=
  ∀ x, h'.get x = if x ∈ xs then none else h.get x

theorem FreedFrom.nil (h : Heap Node) : FreedFrom h h [] := fun _ => (if_neg List.not_mem_nil).symm

theorem FreedFrom.append {h h' h'' : Heap Node} {xs ys : List Nat} (hx : FreedFrom h h' xs)
    (hy : FreedFrom h' h'' ys) : FreedFrom h h'' (xs ++ ys) := by
  intro x
  rw [hy x, hx x]
  by_cases hmem : x ∈ ys
  · rw [if_pos hmem, if_pos (List.mem_append_right _ hmem)]
  · rw [if_neg hmem]
    by_cases hmem' : x ∈ xs
    · rw [if_pos hmem', if_pos (List.mem_append_left _ hmem')]
    · rw [if_neg hmem', if_neg fun happ => (List.mem_append.mp happ).elim hmem' hmem]

/-- Subtrees without a freed node are stored as before. -/
theorem FreedFrom.rep {h h' : Heap Node} {xs : List Nat} (hf : FreedFrom h h' xs) {b d p : Nat}
    {t : UTree LeafData d} (ht : Rep h b p t) (hdis : ∀ x ∈ labels t, x ∉ xs) : Rep h' b p t :=
  Rep.congr (fun x hx => (hf x).trans (if_neg (hdis x hx))) ht

/-- The loop over the children. -/
theorem freeChildren_spec {freeNode : Mbptree → Nat → Option Mbptree} {b d a : Nat} {n : Node}
    (hfree : ∀ (t : Mbptree) (c : UTree LeafData d), (labels c).Nodup → Rep t.heap b a c →
      ∃ t', freeNode t (label c) = some t' ∧ FreedFrom t.heap t'.heap (labels c)) :
    ∀ (cs : List (UTree LeafData d)) (i : Nat) (t : Mbptree), (cs.flatMap labels).Nodup →
      (∀ c ∈ cs, Rep t.heap b a c) →
        (∀ j, (h : j < cs.length) → n.val? (i + j) = some (label cs[j])) →
      ∃ t', freeChildren freeNode n cs.length i t = some t' ∧
        FreedFrom t.heap t'.heap (cs.flatMap labels)
  | [], i, t, _, _, _ => ⟨t, rfl, FreedFrom.nil t.heap⟩
  | c :: cs, i, t, hnd, hrep, hval => by
    rw [List.flatMap_cons] at hnd
    obtain ⟨hnd, hndcs, hdis⟩ := List.nodup_append.mp hnd
    obtain ⟨d', hd', hlabel⟩ := Option.map_eq_some_iff.mp (hval 0 (Nat.succ_pos _))
    have hc := hrep c List.mem_cons_self
    have hne : d'.value ≠ 0 := by
      obtain ⟨m, hm, -⟩ := hc.root_alloc
      rw [hlabel]
      exact Heap.ne_null hm
    obtain ⟨t₁, ht₁, hfreed₁⟩ := hfree t c hnd hc
    obtain ⟨t₂, ht₂, hfreed₂⟩ := freeChildren_spec hfree cs (i + 1) t₁ hndcs
      (fun c' hc' => hfreed₁.rep (hrep c' (List.mem_cons_of_mem _ hc')) fun x hx hx' =>
        hdis x hx' x (List.mem_flatMap.mpr ⟨c', hc', hx⟩) rfl)
      (fun j hj => by
        have hj' := hval (j + 1) (Nat.succ_lt_succ hj)
        rwa [show i + (j + 1) = i + 1 + j by omega] at hj')
    refine ⟨t₂, ?_, hfreed₁.append hfreed₂⟩
    rw [Nat.add_zero] at hd'
    rw [List.length_cons, freeChildren, hd', Option.bind_eq_bind, Option.bind_some, if_pos hne,
      hlabel, List.getElem_cons_zero, ht₁, Option.bind_eq_bind, Option.bind_some]
    exact ht₂

/-- **A stored subtree is freed**: its nodes are released, and nothing else. -/
theorem mbptreeFreeNode_spec {b : Nat} : {d p : Nat} → (s : UTree LeafData d) → (fuel : Nat) →
    d < fuel → (t : Mbptree) → (labels s).Nodup → Rep t.heap b p s →
    ∃ t', mbptreeFreeNode fuel t (label s) = some t' ∧ FreedFrom t.heap t'.heap (labels s)
  | _, _, _, 0, hd, _, _, _ => absurd hd (Nat.not_lt_zero _)
  | 0, p, s, fuel + 1, _, t, _, hrep => by
    have hget : t.node (label s) = some (leafNode b p (payload s).entries (payload s).next) := hrep
    refine ⟨_, by rw [mbptreeFreeNode, hget]; rfl, fun x => ?_⟩
    rw [show labels s = [label s] from rfl, Heap.get_free]
    simp only [List.mem_singleton]
  | d + 1, p, s, fuel + 1, hd, t, hnd, hrep => by
    obtain ⟨⟨n, hn, hnode⟩, hcs⟩ := hrep
    have hget : t.node (label s) = some n := hn
    have hnd' : (label s :: (children s).flatMap labels).Nodup := hnd
    have hsize : n.size + 1 = (children s).length := by
      have hkids := hnode.kids_length
      rw [hnode.size, ← hkids, List.length_map]
    obtain ⟨t', ht', hfreed⟩ := freeChildren_spec (n := n)
      (fun t c hc hrep => mbptreeFreeNode_spec c fuel (Nat.lt_of_succ_lt_succ hd) t hc hrep)
      (children s) 0 t (List.nodup_cons.mp hnd').2 hcs fun j hj => by
        have hkid := hnode.kid j (by rwa [List.length_map])
        rw [Nat.zero_add, hkid, List.getElem?_map, List.getElem?_eq_getElem hj]
        rfl
    refine ⟨{ t' with heap := t'.heap.free (label s) }, ?_, fun x => ?_⟩
    · rw [mbptreeFreeNode, hget, Option.bind_eq_bind, Option.bind_some, hnode.leaf,
        if_neg Bool.false_ne_true, hsize, ht']
      rfl
    · rw [show labels s = label s :: (children s).flatMap labels from rfl]
      show (t'.heap.free (label s)).get x = _
      rw [Heap.get_free, hfreed x]
      simp only [List.mem_cons]
      by_cases hx : x = label s
      · rw [if_pos hx, if_pos (Or.inl hx)]
      · rw [if_neg hx]
        exact if_congr ⟨Or.inr, fun h => h.resolve_left hx⟩ rfl rfl

/-- **`mbptree_free` succeeds** on every tree that `mbptree_append` builds. -/
theorem mbptreeFree_spec {b : Nat} (hb : 3 ≤ b) {t : Mbptree} {es : List Data}
    (h : TreeHolds b t es) : ∃ t', mbptreeFree t = some (0, t') := by
  obtain ⟨-, D, sp, l, hinv, -⟩ := h
  have hnd : (labels (sp.plug (leaf t.lastLeaf l))).Nodup :=
    (Spine.labels_plug sp _).nodup_iff.mpr hinv.nodup
  obtain ⟨t', ht', -⟩ := mbptreeFreeNode_spec _ t.heap.next (hinv.height hb) t hnd hinv.rep
  refine ⟨t', ?_⟩
  rw [mbptreeFree, hinv.root, ht']
  rfl

end Mqlog
