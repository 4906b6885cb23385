/-
  Which heap of nodes represents which abstract tree.

  The abstract side is a `UTree LeafData d`: a tree of uniform height whose labels are the addresses
  of its nodes and whose leaf payloads are the entries of a leaf together with the address it links
  to.  `Rep h b p t` says that the heap `h` stores `t`, with `p` as the `parent` of its root:

  * a leaf is stored exactly: its entries, then the link, then untouched slots (`leafNode`);
  * an inner node is stored up to what `mbptree_move_half_node` leaves behind in the slots past its
    `size` (`NodeIs`): its children are the roots of the subtrees, and its keys are the smallest
    keys (`lo`) of all subtrees but the first.

  `SpineRep` is the same for a spine: everything but the subtree at its lower end, of which only the
  address and the smallest key matter to the nodes above.  `rep_plug` takes a represented tree apart
  into the two, and the frame lemmas (`Rep.congr`, `SpineRep.congr`, `Rep.reparent`) say which
  writes to the heap leave a representation alone.

  The slots of a node are looked up with `key?` and `val?`, which are `none` outside the array, so
  that a statement about a slot says that the slot exists.  A node with `size` keys has one child
  more than keys; a leaf with `size` entries has its link in the slot behind them, and so a leaf is
  full with one entry less than it has slots.

  No sharing is excluded here: that the addresses of a tree are different is a fact about its
  labels, which the invariant has and the representation does not.
-/
import Mqlog.Mbptree
import Mqlog.Lib.UniformTree

namespace Mqlog

open Lib (Heap UTree Spine)
open Lib.UTree (leaf mk label labels leaves children payload)

/-! ## The fields of a node -/

namespace Node

/-- The key of slot `i`, if the slot exists. -/
def key? (n : Node) (i : Nat) : Option Nat := (n.data[i]?).map Data.key

/-- The value of slot `i`, if the slot exists. -/
def val? (n : Node) (i : Nat) : Option Nat := (n.data[i]?).map Data.value

/-- The keys of a node with one key replaced. -/
theorem key?_withKey (n : Node) (i k j : Nat) :
    (n.withKey i k).key? j = if i = j then (n.key? j).map (fun _ => k) else n.key? j := by
  simp only [withKey, key?, List.getElem?_modify]
  split <;> cases n.data[j]? <;> rfl

/-- Replacing a key leaves the values alone. -/
theorem val?_withKey (n : Node) (i k j : Nat) : (n.withKey i k).val? j = n.val? j := by
  simp only [withKey, val?, List.getElem?_modify]
  split <;> cases n.data[j]? <;> rfl

/-- Replacing a value leaves the keys alone. -/
theorem key?_withValue (n : Node) (i v j : Nat) : (n.withValue i v).key? j = n.key? j := by
  simp only [withValue, key?, List.getElem?_modify]
  split <;> cases n.data[j]? <;> rfl

/-- The values of a node with one value replaced. -/
theorem val?_withValue (n : Node) (i v j : Nat) :
    (n.withValue i v).val? j = if i = j then (n.val? j).map (fun _ => v) else n.val? j := by
  simp only [withValue, val?, List.getElem?_modify]
  split <;> cases n.data[j]? <;> rfl

@[simp] theorem length_withKey (n : Node) (i k : Nat) :
    (n.withKey i k).data.length = n.data.length := List.length_modify ..

@[simp] theorem length_withValue (n : Node) (i v : Nat) :
    (n.withValue i v).data.length = n.data.length := List.length_modify ..

/-- Every slot has a key. -/
theorem key?_eq_some {n : Node} {i : Nat} (h : i < n.data.length) : ∃ k, n.key? i = some k :=
  ⟨n.data[i].key, by rw [key?, List.getElem?_eq_getElem h]; rfl⟩

/-- Every slot has a value. -/
theorem val?_eq_some {n : Node} {i : Nat} (h : i < n.data.length) : ∃ v, n.val? i = some v :=
  ⟨n.data[i].value, by rw [val?, List.getElem?_eq_getElem h]; rfl⟩

end Node

/-- An inner node under `parent`, with the given keys and children, in `b` slots. -/
structure NodeIs (b : Nat) (n : Node) (parent : Nat) (keys kids : List Nat) : Prop where
  leaf : n.leaf = false
  parent : n.parent = parent
  size : n.size = keys.length
  length : n.data.length = b
  kids_length : kids.length = keys.length + 1
  fits : kids.length ≤ b
  key : ∀ i, i < keys.length → n.key? i = keys[i]?
  kid : ∀ i, i < kids.length → n.val? i = kids[i]?
  blank : ∀ i, kids.length ≤ i → i < b → n.val? i = some 0

/-- An inner node as `mbptree_create_node` makes it. -/
def blankNode (b parent : Nat) : Node :=
  { leaf := false, size := 0, parent := parent, data := List.replicate b Data.zero }

/-- `calloc` clears the values. -/
theorem blankNode_val {b p i : Nat} (hi : i < b) : (blankNode b p).val? i = some 0 := by
  rw [Node.val?, blankNode, List.getElem?_replicate, if_pos hi]
  rfl

/-- A leaf with the given entries and link. -/
def leafNode (b parent : Nat) (entries : List Data) (next : Nat) : Node :=
  { leaf := true, size := entries.length, parent := parent,
    data := entries ++ ⟨0, next⟩ :: List.replicate (b - 1 - entries.length) Data.zero }

/-- A node may be moved to another parent. -/
theorem NodeIs.setParent {b : Nat} {n : Node} {p : Nat} {ks cs : List Nat} (h : NodeIs b n p ks cs)
    (q : Nat) : NodeIs b { n with parent := q } q ks cs where
  leaf := h.leaf
  parent := rfl
  size := h.size
  length := h.length
  kids_length := h.kids_length
  fits := h.fits
  key := h.key
  kid := h.kid
  blank := h.blank

/-- A node with a free slot takes one more key and child. -/
theorem NodeIs.add {b : Nat} {n : Node} {p : Nat} {ks cs : List Nat} (h : NodeIs b n p ks cs)
    (hfit : cs.length < b) (k c : Nat) :
    ∃ n₁ n₂, n.pushKey k = some n₁ ∧ n₁.setLast c = some n₂ ∧
      NodeIs b n₂ p (ks ++ [k]) (cs ++ [c]) := by
  have hks := h.kids_length
  have hlen := h.length
  refine ⟨{ n.withKey n.size k with size := n.size + 1 },
    { (n.withKey n.size k).withValue (n.size + 1) c with size := n.size + 1 }, ?_, ?_, ?_⟩
  · rw [Node.pushKey, Node.setKey, if_pos (by rw [h.size, hlen]; omega)]
    rfl
  · rw [Node.setLast, Node.setValue, if_pos]
    · rfl
    · show n.size + 1 < (n.withKey n.size k).data.length
      rw [Node.length_withKey, h.size, hlen]
      omega
  · refine ⟨h.leaf, h.parent, ?_, ?_, ?_, ?_, ?_, ?_, ?_⟩
    · simp [h.size]
    · show ((n.withKey n.size k).withValue (n.size + 1) c).data.length = b
      rw [Node.length_withValue, Node.length_withKey, hlen]
    · simp [hks]
    · simp only [List.length_append, List.length_singleton]; omega
    · intro i hi
      rw [List.length_append, List.length_singleton] at hi
      show ((n.withKey n.size k).withValue (n.size + 1) c).key? i = _
      rw [Node.key?_withValue, Node.key?_withKey, h.size]
      by_cases hi' : ks.length = i
      · subst hi'
        obtain ⟨k', hk'⟩ := Node.key?_eq_some (n := n) (i := ks.length) (by omega)
        rw [if_pos rfl, hk', List.getElem?_concat_length]
        rfl
      · rw [if_neg hi', h.key i (by omega), List.getElem?_append_left (by omega)]
    · intro i hi
      rw [List.length_append, List.length_singleton] at hi
      show ((n.withKey n.size k).withValue (n.size + 1) c).val? i = _
      rw [Node.val?_withValue, Node.val?_withKey, h.size]
      by_cases hi' : ks.length + 1 = i
      · subst hi'
        obtain ⟨v, hv⟩ := Node.val?_eq_some (n := n) (i := ks.length + 1) (by omega)
        rw [if_pos rfl, hv, ← hks, List.getElem?_concat_length]
        rfl
      · rw [if_neg hi', h.kid i (by omega), List.getElem?_append_left (by omega)]
    · intro i hi hib
      rw [List.length_append, List.length_singleton] at hi
      show ((n.withKey n.size k).withValue (n.size + 1) c).val? i = _
      rw [Node.val?_withValue, Node.val?_withKey, h.size, if_neg (by omega),
        h.blank i (by omega) hib]

/-! ## The slots of a leaf -/

section LeafNode

variable {b p x : Nat} {es : List Data}

/-- A leaf has all its slots. -/
theorem leafNode_length (h : es.length < b) : (leafNode b p es x).data.length = b := by
  simp only [leafNode, List.length_append, List.length_cons, List.length_replicate]
  omega

/-- The entries of a leaf come first. -/
theorem leafNode_entry {i : Nat} (hi : i < es.length) : (leafNode b p es x).data[i]? = es[i]? :=
  List.getElem?_append_left hi

/-- Behind its entries a leaf has the link to the next one. -/
theorem leafNode_link : (leafNode b p es x).data[es.length]? = some ⟨0, x⟩ := by
  rw [leafNode, List.getElem?_append_right (Nat.le_refl _), Nat.sub_self]
  rfl

/-- An empty leaf, as `mbptree_create_leaf` makes it. -/
theorem leafNode_nil (hb : 0 < b) :
    leafNode b p [] 0 =
      { leaf := true, size := 0, parent := p, data := List.replicate b Data.zero } := by
  obtain ⟨b', rfl⟩ := Nat.exists_eq_succ_of_ne_zero (Nat.ne_of_gt hb)
  rfl

/-- A leaf with two free slots takes one more entry; the second is kept for the link. -/
theorem leafNode_push (h : es.length + 1 < b) (k v : Nat) :
    (leafNode b p es 0).push k v = some (leafNode b p (es ++ [⟨k, v⟩]) 0) := by
  have hlen : (leafNode b p es 0).data.length = b := leafNode_length (by omega)
  have hfree : b - 1 - es.length = b - 1 - (es ++ [Data.mk k v]).length + 1 := by
    rw [List.length_append, List.length_singleton]
    omega
  rw [Node.push, if_pos (by rw [hlen]; show es.length < b; omega)]
  simp only [leafNode, hfree, List.replicate_succ, List.set_append_right _ _ (Nat.le_refl _),
    Nat.sub_self, List.set_cons_zero, List.length_append, List.length_singleton, List.append_assoc]
  rfl

/-- Linking a leaf to the next one. -/
theorem leafNode_withValue (v : Nat) :
    (leafNode b p es x).withValue es.length v = leafNode b p es v := by
  have hmodify := List.modifyTailIdx_add (List.modifyHead fun d => { d with value := v }) 0 es
    (⟨0, x⟩ :: List.replicate (b - 1 - es.length) Data.zero)
  exact congrArg (fun data => ({ leafNode b p es x with data := data } : Node)) hmodify

end LeafNode

/-! ## The representation -/

/-- The payload of a leaf: its entries, and the address of the next leaf. -/
structure LeafData where
  entries : List Data
  next : Nat

/-- The smallest key below a node. -/
def lo : {d : Nat} → UTree LeafData d → Nat
  | 0, t => ((payload t).entries.map Data.key).headD 0
  | _ + 1, t => ((children t).map lo).headD 0

@[simp] theorem lo_mk {d : Nat} (a : Nat) (cs : List (UTree LeafData d)) :
    lo (mk a cs) = (cs.map lo).headD 0 := rfl

@[simp] theorem lo_leaf (a : Nat) (l : LeafData) :
    lo (leaf a l) = (l.entries.map Data.key).headD 0 := rfl

/-- All entries below a node, from left to right. -/
def entries {d : Nat} (t : UTree LeafData d) : List Data := (leaves t).flatMap (·.2.entries)

/-- The heap `h` stores the tree `t` with `p` as the parent of its root. -/
def Rep (h : Heap Node) (b : Nat) : {d : Nat} → (p : Nat) → UTree LeafData d → Prop
  | 0, p, t => h.get (label t) = some (leafNode b p (payload t).entries (payload t).next)
  | _ + 1, p, t =>
    (∃ n, h.get (label t) = some n ∧
      NodeIs b n p ((children t).map lo).tail ((children t).map label)) ∧
    ∀ c ∈ children t, Rep h b (label t) c

/-- How an inner node is stored. -/
theorem rep_mk {h : Heap Node} {b d p a : Nat} {cs : List (UTree LeafData d)} :
    Rep h b p (mk a cs) ↔
      (∃ n, h.get a = some n ∧ NodeIs b n p (cs.map lo).tail (cs.map label)) ∧
      ∀ c ∈ cs, Rep h b a c := Iff.rfl

/-- How a leaf is stored. -/
theorem rep_leaf {h : Heap Node} {b p a : Nat} {l : LeafData} :
    Rep h b p (leaf a l) ↔ h.get a = some (leafNode b p l.entries l.next) := Iff.rfl

/-- The record at the root of a stored leaf. -/
theorem Rep.leafNode_get {h : Heap Node} {b p : Nat} {t : UTree LeafData 0} {n : Node}
    (ht : Rep h b p t) (hn : h.get (label t) = some n) :
    n = leafNode b p (payload t).entries (payload t).next := by
  have hget : h.get (label t) = some (leafNode b p (payload t).entries (payload t).next) := ht
  rw [hn] at hget
  exact Option.some.inj hget

/-- The record at the root of a stored inner tree. -/
theorem Rep.node_get {h : Heap Node} {b d p : Nat} {t : UTree LeafData (d + 1)} {n : Node}
    (ht : Rep h b p t) (hn : h.get (label t) = some n) :
    NodeIs b n p ((children t).map lo).tail ((children t).map label) := by
  obtain ⟨⟨n', hn', hnode⟩, -⟩ := ht
  rw [hn] at hn'
  cases hn'
  exact hnode

/-- Stored trees whose root is an inner node have a height. -/
theorem Rep.pos_of_inner {h : Heap Node} {b d p : Nat} {t : UTree LeafData d} {n : Node}
    (ht : Rep h b p t) (hn : h.get (label t) = some n) (hleaf : n.leaf = false) : 1 ≤ d := by
  cases d with
  | zero =>
    rw [ht.leafNode_get hn] at hleaf
    nomatch hleaf
  | succ d => exact Nat.succ_pos d

/-- The heap `h` stores the spine `sp`, whose lower end is a node at `x` with smallest key `l`. -/
def SpineRep (h : Heap Node) (b : Nat) :
    {d D : Nat} → Spine LeafData d D → (x l : Nat) → Prop
  | _, _, .root, _, _ => True
  | _, _, .up a left rest, x, l =>
    (∃ n, h.get a = some n ∧
      NodeIs b n rest.top (left.map lo ++ [l]).tail (left.map label ++ [x])) ∧
    (∀ c ∈ left, Rep h b a c) ∧ SpineRep h b rest a ((left.map lo ++ [l]).headD 0)

/-- A stored tree is a stored spine and a stored subtree. -/
theorem rep_plug {h : Heap Node} {b : Nat} : {d D : Nat} → (sp : Spine LeafData d D) →
    (c : UTree LeafData d) →
    (Rep h b 0 (sp.plug c) ↔ SpineRep h b sp (label c) (lo c) ∧ Rep h b sp.top c)
  | _, _, .root, c => (true_and _).to_iff.symm
  | _, _, .up a left rest, c => by
    rw [Spine.plug, rep_plug rest, rep_mk, SpineRep, Spine.top]
    simp only [UTree.label_mk, lo_mk, List.map_append, List.map_cons, List.map_nil, List.mem_append,
      List.mem_singleton]
    constructor
    · rintro ⟨hsp, hn, hcs⟩
      exact ⟨⟨hn, fun x hx => hcs x (Or.inl hx), hsp⟩, hcs c (Or.inr rfl)⟩
    · rintro ⟨⟨hn, hleft, hsp⟩, hc⟩
      refine ⟨hsp, hn, ?_⟩
      rintro x (hx | rfl)
      · exact hleft x hx
      · exact hc

/-! ## Frames -/

/-- The root of a stored tree is allocated. -/
theorem Rep.root_alloc {h : Heap Node} {b : Nat} : {d p : Nat} → {t : UTree LeafData d} →
    Rep h b p t → ∃ n, h.get (label t) = some n ∧ n.parent = p
  | 0, _, _, ht => ⟨_, ht, rfl⟩
  | _ + 1, _, _, ht => by
    obtain ⟨⟨n, hn, hnode⟩, -⟩ := ht
    exact ⟨n, hn, hnode.parent⟩

/-- Every node of a stored tree is allocated. -/
theorem Rep.alloc {h : Heap Node} {b : Nat} : {d p : Nat} → {t : UTree LeafData d} →
    Rep h b p t → ∀ x ∈ labels t, ∃ n, h.get x = some n
  | 0, _, t, ht, x, hx => by
    rw [show labels t = [label t] from rfl, List.mem_singleton] at hx
    rw [hx]; exact ⟨_, ht⟩
  | d + 1, p, t, ht, x, hx => by
    rcases List.mem_cons.mp (show x ∈ label t :: (children t).flatMap labels from hx) with rfl | hx
    · obtain ⟨n, hn, -⟩ := ht.root_alloc
      exact ⟨n, hn⟩
    · obtain ⟨c, hc, hxc⟩ := List.mem_flatMap.mp hx
      exact Rep.alloc (ht.2 c hc) x hxc

/-- The nodes of a tree live below the next address. -/
theorem Rep.lt_next {h : Heap Node} {b d p : Nat} {t : UTree LeafData d} (ht : Rep h b p t) :
    ∀ x ∈ labels t, x < h.next := by
  intro x hx
  obtain ⟨n, hn⟩ := ht.alloc x hx
  exact Heap.lt_next hn

/-- Writes outside a stored tree leave it stored. -/
theorem Rep.congr {h h' : Heap Node} {b : Nat} : {d p : Nat} → {t : UTree LeafData d} →
    (∀ x ∈ labels t, h'.get x = h.get x) → Rep h b p t → Rep h' b p t
  | 0, _, t, heq, ht => (heq _ (UTree.label_mem_labels t)).trans ht
  | d + 1, p, t, heq, ht => by
    obtain ⟨⟨n, hn, hnode⟩, hcs⟩ := ht
    refine ⟨⟨n, (heq _ (UTree.label_mem_labels t)).trans hn, hnode⟩, fun c hc => ?_⟩
    exact Rep.congr (fun x hx => heq x (UTree.mem_labels_of_child hc hx)) (hcs c hc)

/-- Changing the `parent` of the root of a stored tree, and nothing else in it. -/
theorem Rep.reparent {h h' : Heap Node} {b q : Nat} : {d p : Nat} → {t : UTree LeafData d} →
    (labels t).Nodup →
    (∀ n, h.get (label t) = some n → h'.get (label t) = some { n with parent := q }) →
    (∀ x ∈ labels t, x ≠ label t → h'.get x = h.get x) → Rep h b p t → Rep h' b q t
  | 0, _, t, _, hroot, _, ht => hroot _ ht
  | d + 1, p, t, hnd, hroot, heq, ht => by
    obtain ⟨⟨n, hn, hnode⟩, hcs⟩ := ht
    refine ⟨⟨_, hroot n hn, hnode.setParent q⟩, fun c hc => ?_⟩
    refine Rep.congr (fun x hx => ?_) (hcs c hc)
    refine heq x (UTree.mem_labels_of_child hc hx) ?_
    rintro rfl
    have hnd' : (label t :: (children t).flatMap labels).Nodup := hnd
    exact (List.nodup_cons.mp hnd').1 (List.mem_flatMap.mpr ⟨c, hc, hx⟩)

/-- Writes outside a stored spine leave it stored. -/
theorem SpineRep.congr {h h' : Heap Node} {b : Nat} : {d D : Nat} → {sp : Spine LeafData d D} →
    {x l : Nat} → (∀ y ∈ sp.labels, h'.get y = h.get y) → SpineRep h b sp x l →
    SpineRep h' b sp x l
  | _, _, .root, _, _, _, _ => trivial
  | _, _, .up a left rest, x, l, heq, hsp => by
    obtain ⟨⟨n, hn, hnode⟩, hleft, hrest⟩ := hsp
    have hmem : ∀ y, y ∈ (Spine.up a left rest).labels ↔
        y = a ∨ y ∈ left.flatMap labels ∨ y ∈ rest.labels := by
      intro y
      simp only [Spine.labels, List.cons_append, List.mem_cons, List.mem_append]
    refine ⟨⟨n, (heq a ((hmem a).mpr (Or.inl rfl))).trans hn, hnode⟩, fun c hc => ?_, ?_⟩
    · refine Rep.congr (fun y hy => heq y ((hmem y).mpr (Or.inr (Or.inl ?_)))) (hleft c hc)
      exact List.mem_flatMap.mpr ⟨c, hc, hy⟩
    · exact SpineRep.congr (fun y hy => heq y ((hmem y).mpr (Or.inr (Or.inr hy)))) hrest

end Mqlog
