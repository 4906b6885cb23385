/-
  The representation invariant of the B+tree, stated over the heap alone.

  `BplusTree b t` mentions no abstract tree: it speaks about the nodes reached from `tree->root`
  over child links (`Below`), the keys found in them (`KeyBelow`) and the traversals of
  `MbptreeChain`.  `BplusTree.of_holds` derives it from the invariant that the operations keep, by
  descending along `Below`: whatever is reached from the root of a stored tree is again the root of
  a stored tree (`Below.descend`), so each clause has to be checked for one node only.

  The clauses, for every node that is reached from the root:

    * all leaves lie at one depth;
    * a node has its slots and fewer keys than slots; an inner node has a key, and its children are
      in the first `size + 1` slots;
    * the keys of a node increase, and each is the smallest one below the child behind it and above
      all those below the child in front of it;
    * the children of a node have it as their parent, and the root has none.

  Besides, the leaves are linked from left to right, and the last one is `tree->last_leaf`.

  `Subtree` is what is handed down along a path: a stored subtree with its bounds, its order, and
  leaves that are neither empty nor overfull.  The keys below a node are the keys of the entries
  below it (`Subtree.keyBelow_iff`), because each separator is the first key of a leaf; so the order
  of the entries gives the order of the keys.

  `appendAll_bplusTree` is the result about runs: the invariant holds after any sequence of appends,
  for every branch factor from 3 on.
-/
import Mqlog.MbptreeList

namespace Mqlog

open Lib (Heap UTree Spine)
open Lib.UTree (leaf mk label labels leaves children payload)

/-! ## The invariant -/

/-- `x` is reached from `a` over `d` child links. -/
inductive Below (h : Heap Node) : Nat → Nat → Nat → Prop where
  | self (a : Nat) : Below h 0 a a
  | child {d a c x i : Nat} {n : Node} : h.get a = some n → n.leaf = false → i ≤ n.size →
      n.val? i = some c → Below h d c x → Below h (d + 1) a x

/-- `k` is a key of a node at or below `a`. -/
def KeyBelow (h : Heap Node) (a k : Nat) : Prop :=
  ∃ d x n i, Below h d a x ∧ h.get x = some n ∧ i < n.size ∧ n.key? i = some k

/-- What holds of a single node `n` at the address `a`. -/
structure NodeOk (h : Heap Node) (b a : Nat) (n : Node) : Prop where
  slots : n.data.length = b
  size_le : n.size ≤ b - 1
  keys_increasing : ∀ i j k k', i < j → j < n.size → n.key? i = some k → n.key? j = some k' → k < k'
  /-- An internal node has a key. -/
  size_pos : n.leaf = false → 1 ≤ n.size
  /-- The slots of an internal node that hold a child are the first `size + 1`. -/
  kids : n.leaf = false → ∀ i c, n.val? i = some c → (c ≠ 0 ↔ i ≤ n.size)
  /-- Every child points back to its parent. -/
  parents : n.leaf = false → ∀ i c, i ≤ n.size → n.val? i = some c →
    ∃ m, h.get c = some m ∧ m.parent = a
  /-- The `i`-th key is the smallest one below child `i + 1` and above all those below child `i`. -/
  separators : n.leaf = false → ∀ i k l r, i < n.size → n.key? i = some k → n.val? i = some l →
    n.val? (i + 1) = some r →
    (KeyBelow h r k ∧ ∀ k', KeyBelow h r k' → k ≤ k') ∧ ∀ k', KeyBelow h l k' → k' < k

/-- The representation invariant of `struct mbptree`. -/
structure BplusTree (b : Nat) (t : Mbptree) : Prop where
  nodes : ∀ d x, Below t.heap d t.root x → ∃ n, t.heap.get x = some n ∧ NodeOk t.heap b x n
  /-- All leaves have the same depth. -/
  depth : ∃ D, ∀ d x n, Below t.heap d t.root x → t.heap.get x = some n → n.leaf = true → d = D
  root_parent : ∃ n, t.heap.get t.root = some n ∧ n.parent = 0
  /-- The chain from the leftmost leaf visits the leaves from left to right, ends with `NULL`, and
      its last leaf is `last_leaf`. -/
  chain : ∃ first ls, leavesUnder t.heap t.heap.next t.root = some ls ∧
    leftmostLeaf t.heap t.heap.next t.root = some first ∧
    leafChain t.heap t.heap.next first = some ls ∧ ls.getLast? = some t.lastLeaf

/-! ## Subtrees of a stored tree -/

theorem entries_mk {d : Nat} (a : Nat) (cs : List (UTree LeafData d)) :
    entries (mk a cs) = cs.flatMap entries := List.flatMap_assoc

theorem entries_child {d : Nat} {s : UTree LeafData (d + 1)} {c : UTree LeafData d}
    (hc : c ∈ children s) {y : Data} (hy : y ∈ entries c) : y ∈ entries s := by
  rw [← UTree.mk_eta s, entries_mk]
  exact List.mem_flatMap.mpr ⟨c, hc, hy⟩

/-- **Descent**: what implies that a tree is stored, and passes from a tree to its children, holds
    of a tree at every node that is reached. -/
theorem Below.descend {h : Heap Node} {b : Nat} {P : {d : Nat} → Nat → UTree LeafData d → Prop}
    (hrep : ∀ {d q : Nat} {s : UTree LeafData d}, P q s → Rep h b q s)
    (hchild : ∀ {d q : Nat} {s : UTree LeafData (d + 1)} {c : UTree LeafData d}, P q s →
      c ∈ children s → P (label s) c)
    {e a x : Nat} (hbelow : Below h e a x) : ∀ {d q : Nat} {s : UTree LeafData d}, P q s →
    label s = a → ∃ (d' q' : Nat) (s' : UTree LeafData d'), d = e + d' ∧ P q' s' ∧
      label s' = x := by
  induction hbelow with
  | self a =>
    intro d q s hs hlabel
    exact ⟨d, q, s, (Nat.zero_add d).symm, hs, hlabel⟩
  | @child e a c x i n hn hleaf hi hv _ ih =>
    intro d q s hs hlabel
    subst hlabel
    have hpos := (hrep hs).pos_of_inner hn hleaf
    cases d with
    | zero => exact absurd hpos (Nat.lt_irrefl 0)
    | succ d =>
      have hnode := (hrep hs).node_get hn
      have hlt : i < ((children s).map label).length := by
        rw [hnode.kids_length, ← hnode.size]; omega
      rw [hnode.kid i hlt, List.getElem?_map] at hv
      obtain ⟨c', hc', rfl⟩ := Option.map_eq_some_iff.mp hv
      obtain ⟨d', q', s', hd, hs', hx⟩ := ih (hchild hs (List.mem_of_getElem? hc')) rfl
      exact ⟨d', q', s', by omega, hs', hx⟩

/-- A stored subtree with everything its nodes need: bounds, order, and leaves that are neither
    empty (below an inner node) nor overfull. -/
structure Subtree (h : Heap Node) (b q : Nat) {d : Nat} (s : UTree LeafData d) : Prop where
  rep : Rep h b q s
  wide : UTree.Wide 2 ((b + 1) / 2) b s
  sorted : Sorted (entries s)
  filled : 1 ≤ d → ∀ x ∈ leaves s, x.2.entries ≠ []
  fits : ∀ x ∈ leaves s, x.2.entries.length ≤ b - 1

namespace Subtree

variable {h : Heap Node} {b q d : Nat}

theorem child (hb : 3 ≤ b) {s : UTree LeafData (d + 1)} (hs : Subtree h b q s)
    {c : UTree LeafData d} (hc : c ∈ children s) : Subtree h b (label s) c := by
  have hmem : ∀ x ∈ leaves c, x ∈ leaves s := fun x hx => List.mem_flatMap.mpr ⟨c, hc, hx⟩
  refine ⟨hs.rep.2 c hc, UTree.Wide.mono (by omega) (hs.wide.2.2 c hc), ?_, fun _ x hx => ?_,
    fun x hx => hs.fits x (hmem x hx)⟩
  · have hsorted := hs.sorted
    rw [← UTree.mk_eta s, entries_mk, Sorted, List.pairwise_flatMap] at hsorted
    exact hsorted.1 c hc
  · exact hs.filled (Nat.succ_pos d) x (hmem x hx)

/-- The first entry below a node whose leaves are filled has the smallest key `lo`. -/
theorem entries_head (hb : 3 ≤ b) : {d q : Nat} → {s : UTree LeafData d} → Subtree h b q s →
    (∀ x ∈ leaves s, x.2.entries ≠ []) → ∃ e es, entries s = e :: es ∧ e.key = lo s
  | 0, _, s, _, hfilled => by
    obtain ⟨e, es, hes⟩ := List.exists_cons_of_ne_nil
      (hfilled (label s, payload s) (List.mem_singleton.mpr rfl))
    have hentries : entries s = (payload s).entries := List.append_nil _
    refine ⟨e, es, hentries.trans hes, ?_⟩
    rw [show lo s = ((payload s).entries.map Data.key).headD 0 from rfl,
      show (payload s).entries = e :: es from hes]
    rfl
  | d + 1, _, s, hs, hfilled => by
    obtain ⟨c, cs, hch⟩ := List.exists_cons_of_ne_nil (l := children s) (by
      intro hnil
      have hlo := hs.wide.1
      rw [hnil, List.length_nil] at hlo
      omega)
    have hc : c ∈ children s := by rw [hch]; exact List.mem_cons_self
    obtain ⟨e, es, hes, hkey⟩ := entries_head hb (hs.child hb hc)
      fun x hx => hfilled x (List.mem_flatMap.mpr ⟨c, hc, hx⟩)
    refine ⟨e, es ++ cs.flatMap entries, ?_, ?_⟩
    · rw [← UTree.mk_eta s, entries_mk, hch, List.flatMap_cons, hes]
      rfl
    · rw [hkey, ← UTree.mk_eta s, lo_mk, hch]
      rfl

/-- The smallest key below a child is the key of one of its entries, and not above the others. -/
theorem lo_child (hb : 3 ≤ b) {s : UTree LeafData (d + 1)} (hs : Subtree h b q s)
    {c : UTree LeafData d} (hc : c ∈ children s) :
    (∃ e ∈ entries c, e.key = lo c) ∧ ∀ e ∈ entries c, lo c ≤ e.key := by
  obtain ⟨e, es, hes, hkey⟩ := entries_head hb (hs.child hb hc)
    fun x hx => hs.filled (Nat.succ_pos d) x (List.mem_flatMap.mpr ⟨c, hc, hx⟩)
  have hsorted := (hs.child hb hc).sorted
  rw [hes, Sorted, List.pairwise_cons] at hsorted
  refine ⟨⟨e, by rw [hes]; exact List.mem_cons_self, hkey⟩, fun e' he' => ?_⟩
  rw [hes] at he'
  rcases List.mem_cons.mp he' with rfl | he'
  · exact Nat.le_of_eq hkey.symm
  · rw [← hkey]
    exact Nat.le_of_lt (hsorted.1 e' he')

/-- An entry below a child comes before every entry below a later child. -/
theorem entries_lt {s : UTree LeafData (d + 1)} (hs : Subtree h b q s) {i j : Nat} (hij : i < j)
    {c c' : UTree LeafData d} (hc : (children s)[i]? = some c) (hc' : (children s)[j]? = some c') :
    ∀ e ∈ entries c, ∀ e' ∈ entries c', e.key < e'.key := by
  have hsorted := hs.sorted
  rw [← UTree.mk_eta s, entries_mk, Sorted, List.pairwise_flatMap] at hsorted
  obtain ⟨hi, rfl⟩ := List.getElem?_eq_some_iff.mp hc
  obtain ⟨hj, rfl⟩ := List.getElem?_eq_some_iff.mp hc'
  exact List.pairwise_iff_getElem.mp hsorted.2 i j hi hj hij

/-- The root of an inner tree, as it lies in the heap: its `i`-th child and key. -/
theorem node {s : UTree LeafData (d + 1)} (hs : Subtree h b q s) {n : Node}
    (hn : h.get (label s) = some n) :
    NodeIs b n q ((children s).map lo).tail ((children s).map label) := hs.rep.node_get hn

theorem val {s : UTree LeafData (d + 1)} (hs : Subtree h b q s) {n : Node}
    (hn : h.get (label s) = some n) {i v : Nat} (hi : i ≤ n.size) (hv : n.val? i = some v) :
    ∃ c, (children s)[i]? = some c ∧ label c = v := by
  have hnode := hs.node hn
  have hlt : i < ((children s).map label).length := by
    rw [hnode.kids_length, ← hnode.size]; omega
  rw [hnode.kid i hlt, List.getElem?_map] at hv
  exact Option.map_eq_some_iff.mp hv

theorem key {s : UTree LeafData (d + 1)} (hs : Subtree h b q s) {n : Node}
    (hn : h.get (label s) = some n) {i k : Nat} (hi : i < n.size) (hk : n.key? i = some k) :
    ∃ c, (children s)[i + 1]? = some c ∧ lo c = k := by
  have hnode := hs.node hn
  rw [hnode.key i (by rw [← hnode.size]; exact hi), List.getElem?_tail, List.getElem?_map] at hk
  exact Option.map_eq_some_iff.mp hk

/-- The root of a tree of height `0` is a leaf record. -/
theorem leafNode_get {s : UTree LeafData 0} (hs : Subtree h b q s) {n : Node}
    (hn : h.get (label s) = some n) : n = leafNode b q (payload s).entries (payload s).next :=
  hs.rep.leafNode_get hn

/-- What is reached from the root of a stored tree is the root of a stored tree, whose entries are
    entries of the whole. -/
theorem below (hb : 3 ≤ b) {a x e : Nat} (hbelow : Below h e a x) {s : UTree LeafData d}
    (hs : Subtree h b q s) (hlabel : label s = a) :
    ∃ (d' q' : Nat) (s' : UTree LeafData d'), d = e + d' ∧ Subtree h b q' s' ∧ label s' = x ∧
      ∀ y ∈ entries s', y ∈ entries s := by
  obtain ⟨d', q', s', hd, ⟨hs', hsub⟩, hx⟩ := hbelow.descend (b := b)
    (P := fun q' s' => Subtree h b q' s' ∧ ∀ y ∈ entries s', y ∈ entries s)
    (fun hs' => hs'.1.rep)
    (fun hs' hc => ⟨hs'.1.child hb hc, fun y hy => hs'.2 y (entries_child hc hy)⟩)
    ⟨hs, fun y hy => hy⟩ hlabel
  exact ⟨d', q', s', hd, hs', hx, hsub⟩

/-! ## The keys below a node are the keys of the entries below it -/

/-- A key of the root is the key of an entry. -/
theorem key_root (hb : 3 ≤ b) : {d q : Nat} → {s : UTree LeafData d} → Subtree h b q s →
    {n : Node} → h.get (label s) = some n → {i k : Nat} → i < n.size → n.key? i = some k →
    ∃ e ∈ entries s, e.key = k
  | 0, _, s, hs, n, hn, i, k, hi, hk => by
    rw [hs.leafNode_get hn] at hi hk
    rw [Node.key?, leafNode_entry (show i < (payload s).entries.length from hi)] at hk
    obtain ⟨e, he, hek⟩ := Option.map_eq_some_iff.mp hk
    refine ⟨e, ?_, hek⟩
    rw [show entries s = (payload s).entries from List.append_nil _]
    exact List.mem_of_getElem? he
  | d + 1, _, s, hs, n, hn, i, k, hi, hk => by
    obtain ⟨c, hc, rfl⟩ := hs.key hn hi hk
    obtain ⟨⟨e, he, hek⟩, -⟩ := hs.lo_child hb (List.mem_of_getElem? hc)
    exact ⟨e, entries_child (List.mem_of_getElem? hc) he, hek⟩

theorem keyBelow_of_entry (hb : 3 ≤ b) : {d q : Nat} → {s : UTree LeafData d} → Subtree h b q s →
    {e : Data} → e ∈ entries s → KeyBelow h (label s) e.key
  | 0, q, s, hs, e, he => by
    rw [show entries s = (payload s).entries from List.append_nil _] at he
    obtain ⟨i, hi, rfl⟩ := List.getElem_of_mem he
    refine ⟨0, label s, _, i, Below.self _, hs.rep, hi, ?_⟩
    rw [Node.key?, leafNode_entry hi, List.getElem?_eq_getElem hi]
    rfl
  | d + 1, q, s, hs, e, he => by
    rw [← UTree.mk_eta s, entries_mk] at he
    obtain ⟨c, hc, hec⟩ := List.mem_flatMap.mp he
    obtain ⟨e', x, n, i, hbelow, hx, hi, hk⟩ := keyBelow_of_entry hb (hs.child hb hc) hec
    obtain ⟨⟨n', hn', hnode⟩, -⟩ := hs.rep
    obtain ⟨j, hj, rfl⟩ := List.getElem_of_mem hc
    have hlen : ((children s).map label).length = n'.size + 1 := by
      rw [hnode.kids_length, hnode.size]
    rw [List.length_map] at hlen
    refine ⟨e' + 1, x, n, i, Below.child hn' hnode.leaf (show j ≤ n'.size by omega) ?_ hbelow,
      hx, hi, hk⟩
    rw [hnode.kid j (by rw [List.length_map]; exact hj), List.getElem?_map,
      List.getElem?_eq_getElem hj]
    rfl

theorem keyBelow_iff (hb : 3 ≤ b) {s : UTree LeafData d} (hs : Subtree h b q s) {k : Nat} :
    KeyBelow h (label s) k ↔ ∃ e ∈ entries s, e.key = k := by
  constructor
  · rintro ⟨e, x, n, i, hbelow, hx, hi, hk⟩
    obtain ⟨d', q', s', -, hs', rfl, hsub⟩ := below hb hbelow hs rfl
    obtain ⟨y, hy, hyk⟩ := hs'.key_root hb hx hi hk
    exact ⟨y, hsub y hy, hyk⟩
  · rintro ⟨e, he, rfl⟩
    exact keyBelow_of_entry hb hs he

/-! ## One node -/

theorem nodeOk_leaf (hb : 3 ≤ b) {s : UTree LeafData 0} (hs : Subtree h b q s) :
    NodeOk h b (label s) (leafNode b q (payload s).entries (payload s).next) := by
  have hfits : (payload s).entries.length ≤ b - 1 :=
    hs.fits (label s, payload s) (List.mem_singleton.mpr rfl)
  have hleaf : ¬ (leafNode b q (payload s).entries (payload s).next).leaf = false :=
    Bool.noConfusion
  refine ⟨leafNode_length (by omega), hfits, ?_, fun hf => absurd hf hleaf,
    fun hf => absurd hf hleaf, fun hf => absurd hf hleaf, fun hf => absurd hf hleaf⟩
  intro i j k k' hij hj hk hk'
  have hj' : j < (payload s).entries.length := hj
  have hsorted := hs.sorted
  rw [show entries s = (payload s).entries from List.append_nil _, Sorted] at hsorted
  rw [Node.key?, leafNode_entry (by omega), List.getElem?_eq_getElem (by omega)] at hk
  rw [Node.key?, leafNode_entry hj', List.getElem?_eq_getElem hj'] at hk'
  cases hk
  cases hk'
  exact List.pairwise_iff_getElem.mp hsorted i j (by omega) hj' hij

theorem nodeOk_inner (hb : 3 ≤ b) {s : UTree LeafData (d + 1)} (hs : Subtree h b q s) {n : Node}
    (hn : h.get (label s) = some n) : NodeOk h b (label s) n := by
  have hnode := hs.node hn
  have hfits := hnode.fits
  have hkids := hnode.kids_length
  have hsize := hnode.size
  have hwide := hs.wide.1
  have hlen : ((children s).map label).length = (children s).length := List.length_map ..
  -- a child's address is not `NULL`, and its record points back
  have hchild : ∀ {i v : Nat}, i ≤ n.size → n.val? i = some v →
      ∃ m, h.get v = some m ∧ m.parent = label s := by
    intro i v hi hv
    obtain ⟨c, hc, rfl⟩ := hs.val hn hi hv
    exact (hs.child hb (List.mem_of_getElem? hc)).rep.root_alloc
  refine ⟨hnode.length, by omega, ?_, fun _ => by omega,
    fun _ i v hv => ⟨fun hne => ?_, fun hi => ?_⟩, fun _ i v hi hv => hchild hi hv,
      fun _ i k l r hi hk hl hr => ⟨⟨?_, fun k' hk' => ?_⟩, fun k' hk' => ?_⟩⟩
  · intro i j k k' hij hj hk hk'
    obtain ⟨c, hc, rfl⟩ := hs.key hn (by omega) hk
    obtain ⟨c', hc', rfl⟩ := hs.key hn hj hk'
    obtain ⟨⟨e, he, hek⟩, -⟩ := hs.lo_child hb (List.mem_of_getElem? hc)
    obtain ⟨⟨e', he', hek'⟩, -⟩ := hs.lo_child hb (List.mem_of_getElem? hc')
    rw [← hek, ← hek']
    exact hs.entries_lt (by omega) hc hc' e he e' he'
  · -- a slot past the last child is `NULL`
    rcases Nat.lt_or_ge n.size i with hlt | hle
    · have hib : i < b := by
        rcases Nat.lt_or_ge i b with hib | hib
        · exact hib
        · rw [Node.val?, List.getElem?_eq_none (by rw [hnode.length]; exact hib)] at hv
          simp at hv
      rw [hnode.blank i (by omega) hib] at hv
      exact absurd (Option.some.inj hv).symm hne
    · exact hle
  · obtain ⟨m, hm, -⟩ := hchild hi hv
    exact Heap.ne_null hm
  · obtain ⟨c, hc, rfl⟩ := hs.key hn hi hk
    obtain ⟨c', hc', rfl⟩ := hs.val hn (by omega) hr
    rw [hc] at hc'
    cases hc'
    have hmem := List.mem_of_getElem? hc
    exact ((hs.child hb hmem).keyBelow_iff hb).mpr (hs.lo_child hb hmem).1
  · obtain ⟨c, hc, rfl⟩ := hs.key hn hi hk
    obtain ⟨c', hc', rfl⟩ := hs.val hn (by omega) hr
    rw [hc] at hc'
    cases hc'
    have hmem := List.mem_of_getElem? hc
    obtain ⟨e, he, rfl⟩ := ((hs.child hb hmem).keyBelow_iff hb).mp hk'
    exact (hs.lo_child hb hmem).2 e he
  · obtain ⟨c, hc, rfl⟩ := hs.key hn hi hk
    obtain ⟨c', hc', rfl⟩ := hs.val hn (by omega) hl
    obtain ⟨e', he', rfl⟩ := ((hs.child hb (List.mem_of_getElem? hc')).keyBelow_iff hb).mp hk'
    obtain ⟨⟨e, he, hek⟩, -⟩ := hs.lo_child hb (List.mem_of_getElem? hc)
    rw [← hek]
    exact hs.entries_lt (Nat.lt_succ_self i) hc' hc e' he' e he

end Subtree

/-! ## The whole tree -/

/-- A tree that satisfies the invariant of the operations is, as a whole, a stored subtree. -/
theorem TreeInv.subtree {b D : Nat} {t : Mbptree} {sp : Spine LeafData 0 D} {l : LeafData}
    (hb : 3 ≤ b) (h : TreeInv b t sp l) :
    Subtree t.heap b 0 (sp.plug (leaf t.lastLeaf l)) := by
  have hfull := h.linked.full
  refine ⟨h.rep, h.tree_wide, ?_, fun hD x hx => ?_, fun x hx => ?_⟩
  · have hsorted := h.sorted
    rw [spineEntries] at hsorted
    rw [entries, TreeInv.leaves_eq, List.flatMap_append]
    simpa using hsorted
  · rw [TreeInv.leaves_eq] at hx
    rcases List.mem_append.mp hx with hx | hx
    · intro hnil
      have := hfull x hx
      rw [hnil, List.length_nil] at this
      omega
    · rw [List.mem_singleton.mp hx]
      cases sp with
      | root => exact absurd hD (by decide)
      | up a left rest => exact h.nonempty (Spine.leaves_ne_nil (by omega) h.wide)
  · rw [TreeInv.leaves_eq] at hx
    rcases List.mem_append.mp hx with hx | hx
    · exact Nat.le_of_eq (hfull x hx)
    · rw [List.mem_singleton.mp hx]
      exact h.room

theorem BplusTree.of_holds {b : Nat} (hb : 3 ≤ b) {t : Mbptree} {es : List Data}
    (h : TreeHolds b t es) : BplusTree b t := by
  obtain ⟨-, D, sp, l, hinv, -⟩ := h
  have hsub := hinv.subtree hb
  refine ⟨fun d x hbelow => ?_, ⟨D, fun d x n hbelow hn hleaf => ?_⟩, ?_, ?_⟩
  · obtain ⟨d', q', s', -, hs', rfl, -⟩ := hsub.below hb hbelow hinv.root.symm
    obtain ⟨n, hn, -⟩ := hs'.rep.root_alloc
    refine ⟨n, hn, ?_⟩
    cases d' with
    | zero =>
      rw [hs'.leafNode_get hn]
      exact hs'.nodeOk_leaf hb
    | succ d' => exact hs'.nodeOk_inner hb hn
  · obtain ⟨d', q', s', hd, hs', rfl, -⟩ := hsub.below hb hbelow hinv.root.symm
    cases d' with
    | zero => exact hd.symm
    | succ d' =>
      rw [(hs'.node hn).leaf] at hleaf
      nomatch hleaf
  · obtain ⟨n, hn, hparent⟩ := hsub.rep.root_alloc
    exact ⟨n, hinv.root ▸ hn, hparent⟩
  · obtain ⟨first, hunder, hfirst, hchain⟩ := hinv.chain_spec hb
    refine ⟨first, _, hunder, hfirst, hchain, ?_⟩
    rw [List.map_append, List.map_singleton, List.getLast?_concat]

/-- **The representation invariant holds after every run** of appends on a fresh tree, whatever the
    keys and for every branch factor from `3` on. -/
theorem appendAll_bplusTree {b : Nat} (hb : 3 ≤ b) (calls : List (Nat × Nat)) :
    ∃ t₀ rcs t, mbptreeInit b [] = some t₀ ∧ appendAll t₀ calls = some (rcs, t) ∧
      BplusTree b t := by
  obtain ⟨t₀, t, hinit, hrun, h⟩ := init_appendAll hb calls
  exact ⟨t₀, _, t, hinit, hrun, BplusTree.of_holds hb h⟩

/-- Branch factor 4 and thirty increasing keys: leaves, inner nodes and the root are split. -/
theorem appendAll_bplusTree_of_thirty :
    3 ≤ 4 ∧ ∃ t₀ rcs t, mbptreeInit 4 [] = some t₀ ∧
      appendAll t₀ ((List.range 30).map fun i => (i, 100 + i)) = some (rcs, t) ∧ BplusTree 4 t :=
  ⟨by decide, appendAll_bplusTree (b := 4) (by decide) _⟩

end Mqlog
