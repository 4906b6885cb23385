/-
  Reading the tree through its links, and the tree as an append-only sorted list.

  `leavesUnder` collects the leaves below a node through the child links, left to right;
  `leftmostLeaf` follows the first child links; `leafChain` follows `data[size].value.addr` from a
  leaf until it is `NULL`.  All three read the heap only, so what they return is what a traversal of
  the C structure would return.

  `chain_spec` says that they agree on every tree that satisfies the invariant: the chain from the
  leftmost leaf visits the leaves of the tree from left to right and ends at the last leaf.  Behind
  it are three facts.

    * The leaves of the abstract tree lie in the heap, with their entries and links
      (`Rep.leaf_mem`), and the traversal by child links finds them in order (`leavesUnder_spec`).
    * The leftmost leaf is the first of them (`leftmostLeaf_spec`).
    * Linked leaves are followed one by one (`leafChain_spec`); there are fewer of them than
      addresses, so the fuel lasts.

  The traversals are not functions of the source.  They are how its data structure is read from the
  outside, by the invariant of `MbptreeShape` and by results about what a tree holds
  (`chainEntries_spec`, `mbptreeLastValue_spec`).
-/
import Mqlog.MbptreeInv

namespace Mqlog

open Lib (Heap UTree Spine)
open Lib.UTree (leaf mk label labels leaves children payload)

/-! ## Traversals -/

/-- The leaves below the node at `a`, from left to right. -/
def leavesUnder (h : Heap Node) : Nat → Nat → Option (List Nat)
  | 0, _ => none
  | fuel + 1, a => do
    let n ← h.get a
    if n.leaf then pure [a]
    else
      let kids ← ((n.data.take (n.size + 1)).map Data.value).mapM (leavesUnder h fuel)
      pure kids.flatten

/-- The leaf reached from `a` by always taking the first child. -/
def leftmostLeaf (h : Heap Node) : Nat → Nat → Option Nat
  | 0, _ => none
  | fuel + 1, a => do
    let n ← h.get a
    if n.leaf then pure a
    else
      let d ← n.data[0]?
      leftmostLeaf h fuel d.value

/-- The leaves reached from the leaf `a` along `data[size].value.addr`, until it is `NULL`. -/
def leafChain (h : Heap Node) : Nat → Nat → Option (List Nat)
  | 0, _ => none
  | fuel + 1, a => do
    let n ← h.get a
    let d ← n.data[n.size]?
    if d.value = 0 then pure [a]
    else
      let rest ← leafChain h fuel d.value
      pure (a :: rest)

/-- The entries of the leaf at `a`. -/
def leafEntries (h : Heap Node) (a : Nat) : Option (List Data) := do
  let n ← h.get a
  pure (n.data.take n.size)

/-- All entries of the tree, read along the leaf chain. -/
def chainEntries (t : Mbptree) : Option (List Data) := do
  let first ← leftmostLeaf t.heap t.heap.next t.root
  let chain ← leafChain t.heap t.heap.next first
  let entries ← chain.mapM (leafEntries t.heap)
  pure entries.flatten

/-! ## Traversals of a stored tree -/

/-- The children of an inner node, as the traversals read them. -/
theorem NodeIs.take_values {b p : Nat} {n : Node} {ks cs : List Nat} (h : NodeIs b n p ks cs) :
    (n.data.take (n.size + 1)).map Data.value = cs := by
  have hlen := h.length
  have hkids := h.kids_length
  have hfits := h.fits
  refine List.ext_getElem? fun i => ?_
  rw [List.getElem?_map, List.getElem?_take, h.size, ← hkids]
  by_cases hi : i < cs.length
  · rw [if_pos hi, ← h.kid i hi]
    rfl
  · rw [if_neg hi, List.getElem?_eq_none (by omega)]
    rfl

/-- Every leaf of a stored tree lies in the heap. -/
theorem Rep.leaf_mem {h : Heap Node} {b : Nat} : {d p : Nat} → {t : UTree LeafData d} →
    Rep h b p t → ∀ x ∈ leaves t, ∃ q, h.get x.1 = some (leafNode b q x.2.entries x.2.next)
  | 0, p, t, ht, x, hx => by
    rw [show leaves t = [(label t, payload t)] from rfl, List.mem_singleton] at hx
    rw [hx]; exact ⟨p, ht⟩
  | d + 1, _, t, ht, x, hx => by
    obtain ⟨c, hc, hxc⟩ := List.mem_flatMap.mp (show x ∈ (children t).flatMap leaves from hx)
    exact Rep.leaf_mem (ht.2 c hc) x hxc

theorem mapM_some {α β : Type} {f : α → Option β} {g : α → β} : (l : List α) →
    (∀ x ∈ l, f x = some (g x)) → l.mapM f = some (l.map g)
  | [], _ => rfl
  | x :: xs, h => by
    rw [List.mapM_cons, h x List.mem_cons_self,
      mapM_some xs fun y hy => h y (List.mem_cons_of_mem x hy)]
    rfl

theorem leavesUnder_spec {h : Heap Node} {b : Nat} : {d p : Nat} → {t : UTree LeafData d} →
    Rep h b p t → ∀ fuel, d + 1 ≤ fuel →
    leavesUnder h fuel (label t) = some ((leaves t).map Prod.fst)
  | 0, p, t, ht, fuel, hfuel => by
    obtain ⟨f, rfl⟩ := Nat.exists_eq_succ_of_ne_zero (Nat.ne_of_gt hfuel)
    have hget : h.get (label t) = some (leafNode b p (payload t).entries (payload t).next) := ht
    rw [leavesUnder, hget]
    rfl
  | d + 1, p, t, ht, fuel, hfuel => by
    obtain ⟨f, rfl⟩ : ∃ f, fuel = f + 1 := ⟨fuel - 1, by omega⟩
    obtain ⟨⟨n, hn, hnode⟩, hcs⟩ := ht
    have hkids : ((children t).map label).mapM (leavesUnder h f) =
        some ((children t).map fun c => (leaves c).map Prod.fst) := by
      rw [List.mapM_map]
      exact mapM_some _ fun c hc => leavesUnder_spec (hcs c hc) f (by omega)
    rw [leavesUnder, hn]
    simp only [Option.bind_eq_bind, Option.bind_some, hnode.leaf, Bool.false_eq_true, if_false,
      hnode.take_values, hkids]
    rw [← UTree.mk_eta t, UTree.leaves_mk, List.map_flatMap, List.flatMap]
    rfl

theorem leftmostLeaf_spec {h : Heap Node} {b : Nat} : {d p r m : Nat} → {t : UTree LeafData d} →
    Rep h b p t → 1 ≤ r → 1 ≤ m → UTree.Wide r m b t → ∀ fuel, d + 1 ≤ fuel →
    ∃ x ls, leaves t = x :: ls ∧ leftmostLeaf h fuel (label t) = some x.1
  | 0, p, _, _, t, ht, _, _, _, fuel, hfuel => by
    obtain ⟨f, rfl⟩ := Nat.exists_eq_succ_of_ne_zero (Nat.ne_of_gt hfuel)
    have hget : h.get (label t) = some (leafNode b p (payload t).entries (payload t).next) := ht
    refine ⟨(label t, payload t), [], rfl, ?_⟩
    rw [leftmostLeaf, hget]
    rfl
  | d + 1, p, _, _, t, ht, hr, hm, hw, fuel, hfuel => by
    obtain ⟨f, rfl⟩ : ∃ f, fuel = f + 1 := ⟨fuel - 1, by omega⟩
    obtain ⟨⟨n, hn, hnode⟩, hcs⟩ := ht
    obtain ⟨hlo, -, hwc⟩ := hw
    obtain ⟨c, cs, hch⟩ := List.exists_cons_of_ne_nil (l := children t) (by
      intro hnil
      rw [hnil, List.length_nil] at hlo
      omega)
    have hc : c ∈ children t := by rw [hch]; exact List.mem_cons_self
    obtain ⟨x, ls, hx, hleft⟩ := leftmostLeaf_spec (hcs c hc) hm hm (hwc c hc) f (by omega)
    have hkid := hnode.kid 0 (by rw [hch]; exact Nat.succ_pos _)
    rw [hch, List.map_cons, List.getElem?_cons_zero] at hkid
    obtain ⟨e, he, hev⟩ := Option.map_eq_some_iff.mp hkid
    refine ⟨x, ls ++ cs.flatMap leaves, ?_, ?_⟩
    · rw [← UTree.mk_eta t, UTree.leaves_mk, hch, List.flatMap_cons, hx]
      rfl
    · rw [leftmostLeaf, hn]
      simp only [Option.bind_eq_bind, Option.bind_some, hnode.leaf, Bool.false_eq_true,
        if_false, he, hev, hleft]

/-! ## The chain of leaves -/

/-- Following the links of linked leaves visits exactly these leaves. -/
theorem leafChain_spec {h : Heap Node} {b : Nat} : (ls : List (Nat × LeafData)) →
    (last : Nat × LeafData) →
    (∀ x ∈ ls ++ [last], ∃ q, h.get x.1 = some (leafNode b q x.2.entries x.2.next)) →
    Linked b ls last.1 → last.2.next = 0 → ∀ fuel, ls.length + 1 ≤ fuel →
    leafChain h fuel (((ls ++ [last]).map Prod.fst).headD 0) = some ((ls ++ [last]).map Prod.fst)
  | [], last, hmem, _, hstop, fuel, hfuel => by
    obtain ⟨f, rfl⟩ : ∃ f, fuel = f + 1 := ⟨fuel - 1, by omega⟩
    obtain ⟨q, hq⟩ := hmem last (List.mem_singleton.mpr rfl)
    rw [hstop] at hq
    have hlink : (leafNode b q last.2.entries 0).data[(leafNode b q last.2.entries 0).size]? =
        some ⟨0, 0⟩ := leafNode_link
    show leafChain h (f + 1) last.1 = some [last.1]
    rw [leafChain, hq]
    simp only [Option.bind_eq_bind, Option.bind_some, hlink, if_true]
    rfl
  | x :: ls, last, hmem, ⟨_, hnext, hrest⟩, hstop, fuel, hfuel => by
    obtain ⟨f, rfl⟩ : ∃ f, fuel = f + 1 := ⟨fuel - 1, by omega⟩
    obtain ⟨q, hq⟩ := hmem x List.mem_cons_self
    have hmem' : ∀ y ∈ ls ++ [last], ∃ q, h.get y.1 = some (leafNode b q y.2.entries y.2.next) :=
      fun y hy => hmem y (List.mem_cons_of_mem x hy)
    have ih := leafChain_spec ls last hmem' hrest hstop f (by rw [List.length_cons] at hfuel; omega)
    have hlink : (leafNode b q x.2.entries x.2.next).data[
        (leafNode b q x.2.entries x.2.next).size]? = some ⟨0, x.2.next⟩ := leafNode_link
    -- the link of `x` is the address of the leaf after it
    have hhead : x.2.next = ((ls ++ [last]).map Prod.fst).headD 0 := by
      rw [hnext]
      cases ls <;> rfl
    have hne : x.2.next ≠ 0 := by
      cases hls : ls ++ [last] with
      | nil => exact absurd hls (List.append_ne_nil_of_right_ne_nil _ (List.cons_ne_nil _ _))
      | cons y ys =>
        obtain ⟨r, hr⟩ := hmem' y (by rw [hls]; exact List.mem_cons_self)
        rw [hhead, hls]
        exact Heap.ne_null hr
    show leafChain h (f + 1) x.1 = some (x.1 :: (ls ++ [last]).map Prod.fst)
    rw [leafChain, hq]
    simp only [Option.bind_eq_bind, Option.bind_some, hlink, hne, if_false]
    rw [hhead, ih]
    rfl

namespace TreeInv

variable {b D : Nat} {t : Mbptree} {sp : Spine LeafData 0 D} {l : LeafData}

theorem leaves_eq (sp : Spine LeafData 0 D) (a : Nat) (l : LeafData) :
    leaves (sp.plug (leaf a l)) = sp.leaves ++ [(a, l)] := by
  rw [Spine.leaves_plug, UTree.leaves_leaf]

theorem leaf_mem (h : TreeInv b t sp l) : ∀ x ∈ sp.leaves ++ [(t.lastLeaf, l)],
    ∃ q, t.heap.get x.1 = some (leafNode b q x.2.entries x.2.next) := by
  rw [← leaves_eq]
  exact h.rep.leaf_mem

theorem tree_wide (h : TreeInv b t sp l) :
    UTree.Wide 2 ((b + 1) / 2) b (sp.plug (leaf t.lastLeaf l)) :=
  (Spine.wide_plug sp _).mpr ⟨h.wide, UTree.wide_leaf _ _ _ _ _⟩

theorem height (h : TreeInv b t sp l) (hb : 3 ≤ b) : D + 1 ≤ t.heap.next := by
  have hfuel := h.fuel hb
  have hheight := Spine.height_eq sp
  omega

/-- The leaves are distinct addresses in use, so there are fewer than the heap has handed out. -/
theorem leaves_length (h : TreeInv b t sp l) : sp.leaves.length + 1 ≤ t.heap.next := by
  have hnd : (labels (sp.plug (leaf t.lastLeaf l))).Nodup :=
    (Spine.labels_plug sp _).nodup_iff.mpr h.nodup
  have hsub : ∀ {d : Nat} (s : UTree LeafData d),
      ((leaves s).map Prod.fst).Sublist (labels s) := by
    intro d
    induction d with
    | zero => exact fun s => List.Sublist.refl _
    | succ d ih =>
      intro s
      rw [← UTree.mk_eta s, UTree.leaves_mk, UTree.labels_mk]
      refine List.Sublist.cons _ ?_
      induction children s with
      | nil => exact List.Sublist.refl _
      | cons c cs ihcs =>
        rw [List.flatMap_cons, List.flatMap_cons, List.map_append]
        exact (ih c).append ihcs
  have hnd' := hnd.sublist (hsub _)
  have hlt : (leaves (sp.plug (leaf t.lastLeaf l))).map Prod.fst ⊆ List.range t.heap.next := by
    intro x hx
    obtain ⟨y, hy, rfl⟩ := List.mem_map.mp hx
    obtain ⟨q, hq⟩ := h.rep.leaf_mem y hy
    exact List.mem_range.mpr (Heap.lt_next hq)
  have hle := (List.subperm_of_subset hnd' hlt).length_le
  rw [List.length_map, List.length_range, leaves_eq, List.length_append,
    List.length_singleton] at hle
  exact hle

/-- **The three traversals agree**: the chain from the leftmost leaf visits the leaves of the tree
    from left to right and ends at the last leaf. -/
theorem chain_spec (h : TreeInv b t sp l) (hb : 3 ≤ b) :
    ∃ first, leavesUnder t.heap t.heap.next t.root =
        some ((sp.leaves ++ [(t.lastLeaf, l)]).map Prod.fst) ∧
      leftmostLeaf t.heap t.heap.next t.root = some first ∧
      leafChain t.heap t.heap.next first =
        some ((sp.leaves ++ [(t.lastLeaf, l)]).map Prod.fst) := by
  obtain ⟨x, ls, hx, hleft⟩ := leftmostLeaf_spec h.rep (by omega) (by omega) h.tree_wide t.heap.next
    (h.height hb)
  rw [leaves_eq] at hx
  have hunder := leavesUnder_spec h.rep t.heap.next (h.height hb)
  rw [leaves_eq] at hunder
  have hchain := leafChain_spec sp.leaves (t.lastLeaf, l) h.leaf_mem h.linked h.stop t.heap.next
    h.leaves_length
  refine ⟨x.1, ?_, ?_, ?_⟩
  · rw [h.root, hunder]
  · rw [h.root, hleft]
  · rw [hx] at hchain ⊢
    exact hchain

end TreeInv

/-- The entries read along the leaf chain are those the tree holds. -/
theorem chainEntries_spec {b : Nat} (hb : 3 ≤ b) {t : Mbptree} {es : List Data}
    (h : TreeHolds b t es) : chainEntries t = some es := by
  obtain ⟨-, D, sp, l, hinv, rfl⟩ := h
  obtain ⟨first, -, hfirst, hchain⟩ := hinv.chain_spec hb
  have hentries : ((sp.leaves ++ [(t.lastLeaf, l)]).map Prod.fst).mapM (leafEntries t.heap) =
      some ((sp.leaves ++ [(t.lastLeaf, l)]).map fun x => x.2.entries) := by
    rw [List.mapM_map]
    refine mapM_some _ fun x hx => ?_
    obtain ⟨q, hq⟩ := hinv.leaf_mem x hx
    show leafEntries t.heap x.1 = some x.2.entries
    rw [leafEntries, hq]
    exact congrArg some (List.take_left ..)
  rw [chainEntries, hfirst]
  simp only [Option.bind_eq_bind, Option.bind_some, hchain, hentries]
  rw [spineEntries, List.map_append, List.flatten_append]
  simp [List.flatMap]

/-- The last value is that of the last entry. -/
theorem mbptreeLastValue_spec {b : Nat} {t : Mbptree} {es : List Data} (h : TreeHolds b t es) :
    mbptreeLastValue t = some (es.getLast?.map Data.value) := by
  obtain ⟨-, D, sp, l, hinv, rfl⟩ := h
  rw [hinv.getLast?_eq, mbptreeLastValue, Mbptree.node, hinv.lastNode]
  simp only [Option.bind_eq_bind, Option.bind_some]
  rw [show (leafNode b sp.top l.entries 0).size = l.entries.length from rfl]
  by_cases hnil : l.entries = []
  · rw [hnil]
    rfl
  · have hpos : 0 < l.entries.length := List.length_pos_iff.mpr hnil
    rw [if_neg (by omega), leafNode_entry (by omega), ← List.getLast?_eq_getElem?,
      List.getLast?_eq_some_getLast hnil]
    rfl

end Mqlog
