/-
  The split cascade of `mbptree_append_node` / `mbptree_split_node` / `mbptree_split_root` simulates
  `Spine.grow`.

  The C code climbs the `parent` links from the last leaf; the abstract `grow` recurses over the
  spine from its lower end.  One level of the climb is `addToParent`, and `addToParent_spec` is an
  induction on the spine with one case per branch of the code: the parent has room, the parent is a
  full root, the parent is full and has a parent itself.  `moveHalfAndAdd_rep` is the heap-level
  fact behind the last two: after the split both halves are stored trees again.

    1. Addresses of the children.  A split finds out by address which children have moved, so the
       proofs need that no address is used twice (`eq_label_of_mem`).
    2. One split.  `Rehung` says what moving some trees from one node to another does to the heap:
       their roots get another parent, and nothing else in them changes.  So trees that are not
       moved are stored as before (`Rehung.rep_kept`), and those that are hang under the new node
       (`Rehung.rep_moved`).
    3. The two splits, run with the outcomes of their allocations, including those that fail: a root
       that was allocated is lost when the right half is not (`mbptreeSplitRoot_lost`).
    4. The cascade.  In the induction the lower end of the spine moves up: what was the parent is
       split into itself and a new node, and these two take the places of the leaf and the new leaf
       (`mbptreeSplitNode_rep`).

  The crux is in the induction: the statement is about hanging ANY stored tree to the right of
  another one, under the node at the lower end of a spine.  Stated for leaves only it could not be
  applied one level up.

  The fuel of the recursion is the number of addresses handed out, and each level of the climb uses
  one node of the spine, so it does not run out.
-/
import Mathlib.Data.List.Nodup
import Mathlib.Data.List.TakeDrop
import Mqlog.MbptreeSplit

namespace Mqlog

open Lib (Heap UTree Spine)
open Lib.UTree (leaf mk label labels leaves children payload)

/-! ## Addresses of the children -/

theorem map_label_sublist {d : Nat} (cs : List (UTree LeafData d)) :
    (cs.map label).Sublist (cs.flatMap labels) := by
  induction cs with
  | nil => exact List.Sublist.refl _
  | cons c cs ih =>
    rw [List.map_cons, List.flatMap_cons]
    exact (List.singleton_sublist.mpr (UTree.label_mem_labels c)).append ih

/-- With no address used twice, a child's root is an address of that child only. -/
theorem eq_label_of_mem {d : Nat} {cs : List (UTree LeafData d)} (hnd : (cs.flatMap labels).Nodup)
    {x z : UTree LeafData d} (hx : x ∈ cs) (hz : z ∈ cs) {y : Nat} (hy : y ∈ labels x)
    (hyz : y = label z) : y = label x := by
  by_cases hxz : x = z
  · rw [hyz, hxz]
  · have hpair := (List.nodup_flatMap.mp hnd).2
    have hsymm : Std.Symm (Function.onFun List.Disjoint (labels (L := LeafData) (d := d))) :=
      ⟨fun _ _ h _ hx hz => h hz hx⟩
    have hdisj := hpair.forall hx hz hxz
    exact absurd (hyz ▸ UTree.label_mem_labels z) (fun hmem => hdisj hy hmem)

theorem headD_map_append {α : Type} {f : α → Nat} {l : List α} (hl : l ≠ []) (m : List α) :
    ((l ++ m).map f).headD 0 = (l.map f).headD 0 := by
  obtain ⟨x, xs, rfl⟩ := List.exists_cons_of_ne_nil hl
  rfl

theorem tail_map_append {α : Type} {f : α → Nat} {l : List α} (hl : l ≠ []) (m : List α) :
    ((l ++ m).map f).tail = (l.map f).tail ++ m.map f := by
  obtain ⟨x, xs, rfl⟩ := List.exists_cons_of_ne_nil hl
  simp

/-! ## One split -/

/-- What moving the trees `xs` from the node at `a` to the one at `rhs` does to the heap: their
    roots get another parent, and nothing else changes but the two nodes. -/
structure Rehung (h h' : Heap Node) (a rhs : Nat) {d : Nat} (xs : List (UTree LeafData d)) :
    Prop where
  root : ∀ x ∈ xs, ∀ m, h.get (label x) = some m → h'.get (label x) = some { m with parent := rhs }
  frame : ∀ y, y ≠ a → y ≠ rhs → (∀ x ∈ xs, y ≠ label x) → h'.get y = h.get y

namespace Rehung

variable {h h' : Heap Node} {a rhs b d : Nat} {cs xs : List (UTree LeafData d)}

/-- The trees lie apart from the two nodes. -/
theorem apart (hnd : (a :: rhs :: cs.flatMap labels).Nodup) {x : UTree LeafData d} (hx : x ∈ cs)
    {y : Nat} (hy : y ∈ labels x) : y ≠ a ∧ y ≠ rhs := by
  obtain ⟨ha, hnd'⟩ := List.nodup_cons.mp hnd
  obtain ⟨hr, -⟩ := List.nodup_cons.mp hnd'
  have hmem : y ∈ cs.flatMap labels := List.mem_flatMap.mpr ⟨x, hx, hy⟩
  exact ⟨fun heq => ha (List.mem_cons_of_mem _ (heq ▸ hmem)), fun heq => hr (heq ▸ hmem)⟩

/-- A tree that is not moved is stored as before. -/
theorem rep_kept (hre : Rehung h h' a rhs xs) (hnd : (a :: rhs :: (cs ++ xs).flatMap labels).Nodup)
    {x : UTree LeafData d} (hx : x ∈ cs) {q : Nat} (hq : Rep h b q x) : Rep h' b q x := by
  refine Rep.congr (fun y hy => ?_) hq
  obtain ⟨hya, hyr⟩ := apart hnd (List.mem_append_left xs hx) hy
  refine hre.frame y hya hyr fun z hz heq => ?_
  have hdisj : (cs.flatMap labels ++ xs.flatMap labels).Nodup := by
    rw [← List.flatMap_append]
    exact (List.nodup_cons.mp (List.nodup_cons.mp hnd).2).2
  exact (List.nodup_append.mp hdisj).2.2 y (List.mem_flatMap.mpr ⟨x, hx, hy⟩) y
    (List.mem_flatMap.mpr ⟨z, hz, heq ▸ UTree.label_mem_labels z⟩) rfl

/-- A tree that is moved hangs under `rhs`. -/
theorem rep_moved (hre : Rehung h h' a rhs xs) (hnd : (a :: rhs :: xs.flatMap labels).Nodup)
    {x : UTree LeafData d} (hx : x ∈ xs) {q : Nat} (hq : Rep h b q x) : Rep h' b rhs x := by
  have hnd' := (List.nodup_cons.mp (List.nodup_cons.mp hnd).2).2
  refine Rep.reparent ((List.nodup_flatMap.mp hnd').1 x hx) (hre.root x hx) (fun y hy hyx => ?_) hq
  obtain ⟨hya, hyr⟩ := apart hnd hx hy
  exact hre.frame y hya hyr fun z hz heq => hyx (eq_label_of_mem hnd' hx hz hy heq)

end Rehung

/-- After `moveHalfAndAdd`, both halves of the full node at `a` are stored trees. -/
theorem moveHalfAndAdd_rep {t : Mbptree} {b d a rhs p q : Nat} {cs : List (UTree LeafData d)}
    {n : UTree LeafData d} {na : Node} (hbf : t.branchFactor = b) (hb : 3 ≤ b)
    (hna : t.heap.get a = some na) (hnode : NodeIs b na p (cs.map lo).tail (cs.map label))
    (hfull : cs.length = b) (hrhs : t.heap.get rhs = some (blankNode b p))
    (hcs : ∀ c ∈ cs, Rep t.heap b a c) (hn : Rep t.heap b q n)
    (hnd : (a :: rhs :: (cs ++ [n]).flatMap labels).Nodup) :
    ∃ h', moveHalfAndAdd t a rhs (lo n) (label n) =
        some (lo (mk rhs (cs.drop (b / 2 + 1) ++ [n])), { t with heap := h' }) ∧
      h'.next = t.heap.next ∧ Rep h' b p (mk a (cs.take (b / 2 + 1))) ∧
      Rep h' b p (mk rhs (cs.drop (b / 2 + 1) ++ [n])) ∧
      ∀ y, y ∉ a :: rhs :: (cs ++ [n]).flatMap labels → h'.get y = t.heap.get y := by
  subst hbf
  generalize hk : t.branchFactor / 2 = k at *
  have hne : a ≠ rhs := fun heq => (List.nodup_cons.mp hnd).1 (heq ▸ List.mem_cons_self)
  have hkids : ∀ c ∈ cs ++ [n], label c ≠ a ∧ label c ≠ rhs := fun c hc =>
    Rehung.apart hnd hc (UTree.label_mem_labels c)
  have hndmap : ((cs ++ [n]).map label).Nodup :=
    (List.nodup_cons.mp (List.nodup_cons.mp hnd).2).2.sublist (map_label_sublist _)
  rw [List.map_append, List.map_singleton] at hndmap
  have hnotin : label n ∉ cs.map label := fun hmem =>
    (List.nodup_append.mp hndmap).2.2 _ hmem _ (List.mem_singleton.mpr rfl) rfl
  obtain ⟨m, hm, -⟩ := hn.root_alloc
  have hnmem : n ∈ cs ++ [n] := List.mem_append_right _ (List.mem_singleton.mpr rfl)
  obtain ⟨h', l', r', heq, hnext, hl', hr', hlis, hris, hmov, hframe⟩ :=
    moveHalfAndAdd_spec (lo n) hb hna hnode (by rw [List.length_map]; exact hfull) hrhs hne
      (List.nodup_append.mp hndmap).1
      (by
        intro c hc
        obtain ⟨x, hx, rfl⟩ := List.mem_map.mp hc
        obtain ⟨mx, hmx, -⟩ := (hcs x hx).root_alloc
        obtain ⟨hxa, hxr⟩ := hkids x (List.mem_append_left _ hx)
        exact ⟨hxa, hxr, mx, hmx⟩)
      hm (hkids n hnmem).1 (hkids n hnmem).2 hnotin
  rw [hk] at heq hlis hris hmov hframe
  have hdropne : cs.drop (k + 1) ≠ [] := by
    intro hnil
    have := congrArg List.length hnil
    rw [List.length_drop, List.length_nil] at this
    omega
  -- the moved children, and those that stay
  have hxs : (cs.map label).drop (k + 1) ++ [label n] = (cs.drop (k + 1) ++ [n]).map label := by
    rw [List.map_append, List.map_drop, List.map_singleton]
  rw [hxs] at hris hmov hframe
  have hsplit : cs ++ [n] = cs.take (k + 1) ++ (cs.drop (k + 1) ++ [n]) := by
    rw [← List.append_assoc, List.take_append_drop]
  have hre : Rehung t.heap h' a rhs (cs.drop (k + 1) ++ [n]) := by
    refine ⟨fun x hx => hmov _ (List.mem_map_of_mem hx), fun y hya hyr hy => hframe y hya hyr ?_⟩
    intro hmem
    obtain ⟨x, hx, heq⟩ := List.mem_map.mp hmem
    exact hy x hx heq.symm
  have hnd' := hnd
  rw [hsplit] at hnd'
  refine ⟨h', ?_, hnext, rep_mk.mpr ⟨⟨l', hl', ?_⟩, fun x hx => ?_⟩,
    rep_mk.mpr ⟨⟨r', hr', ?_⟩, fun x hx => ?_⟩, fun y hy => ?_⟩
  · rw [heq, lo_mk, headD_map_append hdropne, List.map_drop, List.headD_eq_head?_getD,
      List.head?_drop, List.getElem?_tail]
  · rw [List.map_take, List.map_take, List.tail_take_eq_take_tail, Nat.add_sub_cancel]
    exact hlis
  · exact hre.rep_kept hnd' hx (hcs x (List.mem_of_mem_take hx))
  · rw [tail_map_append hdropne, List.map_drop, List.map_singleton, List.tail_drop_eq_drop_tail]
    exact hris
  · have hndx : (a :: rhs :: (cs.drop (k + 1) ++ [n]).flatMap labels).Nodup := by
      rw [List.flatMap_append] at hnd'
      exact hnd'.sublist
        (List.Sublist.cons_cons a (List.Sublist.cons_cons rhs (List.sublist_append_right _ _)))
    rcases List.mem_append.mp hx with hxd | hxn
    · exact hre.rep_moved hndx hx (hcs x (List.mem_of_mem_drop hxd))
    · rw [List.mem_singleton.mp hxn] at hx ⊢
      exact hre.rep_moved hndx hx hn
  · rw [List.mem_cons, List.mem_cons, not_or, not_or] at hy
    refine hre.frame y hy.1 hy.2.1 fun x hx heq => hy.2.2 ?_
    rw [hsplit]
    exact List.mem_flatMap.mpr
      ⟨x, List.mem_append_right _ hx, heq ▸ UTree.label_mem_labels x⟩

/-! ## The small steps around a split -/

theorem Mbptree.calloc_eq (t : Mbptree) (n : Node) :
    t.calloc n =
      if t.allocs.headD true then
        (t.heap.next, { t with heap := t.heap.alloc n, allocs := t.allocs.tail })
      else (0, { t with allocs := t.allocs.tail }) := by
  obtain ⟨b, lock, root, lastLeaf, heap, allocs⟩ := t
  rcases allocs with _ | ⟨_ | _, allocs⟩
  · rfl
  · rfl
  · rfl

theorem createNode_eq {t : Mbptree} {b : Nat} (hbf : t.branchFactor = b) (p : Nat) :
    mbptreeCreateNode t p =
      if t.allocs.headD true then
        (t.heap.next, { t with heap := t.heap.alloc (blankNode b p), allocs := t.allocs.tail })
      else (0, { t with allocs := t.allocs.tail }) := by
  subst hbf
  exact t.calloc_eq _

theorem mbptreeNodeFull_eq {t : Mbptree} {a : Nat} {n : Node} (hn : t.heap.get a = some n)
    (hlt : n.size < t.branchFactor) :
    mbptreeNodeFull t a = some (decide (t.branchFactor - 1 ≤ n.size)) := by
  rw [mbptreeNodeFull, Mbptree.node, hn]
  simp only [Option.bind_eq_bind, Option.bind_some, assert_pos hlt]
  rfl

theorem mbptreeIsRoot_eq {t : Mbptree} {a : Nat} {n : Node} (hn : t.heap.get a = some n) :
    mbptreeIsRoot t a = some (decide (n.parent = 0)) := by
  rw [mbptreeIsRoot, Mbptree.node, hn]
  rfl

/-- A node is full when it has as many children as slots. -/
theorem NodeIs.nodeFull {t : Mbptree} {b a p : Nat} {n : Node} {ks cs : List Nat}
    (hnode : NodeIs b n p ks cs) (hbf : t.branchFactor = b) (hn : t.heap.get a = some n) :
    mbptreeNodeFull t a = some (decide (cs.length = b)) := by
  have hlen := hnode.kids_length
  have hfits := hnode.fits
  have hsize := hnode.size
  rw [mbptreeNodeFull_eq hn (by omega)]
  exact congrArg some (decide_eq_decide.mpr (by omega))

/-- A parent that has room takes the key and the child. -/
theorem addToParent_of_room {splitNode : Mbptree → Nat → Nat → Nat → Option (Nat × Mbptree)}
    {t : Mbptree} {b a p : Nat} {n : Node} {ks cs : List Nat} (key child : Nat)
    (hbf : t.branchFactor = b) (hn : t.heap.get a = some n) (hnode : NodeIs b n p ks cs)
    (hfit : cs.length < b) :
    ∃ h' n', addToParent splitNode t a key child = some (t.root, { t with heap := h' }) ∧
      h'.next = t.heap.next ∧ h'.get a = some n' ∧ NodeIs b n' p (ks ++ [key]) (cs ++ [child]) ∧
      ∀ x, x ≠ a → h'.get x = t.heap.get x := by
  obtain ⟨n₁, n₂, hpush, hlast, hadd⟩ := hnode.add hfit key child
  have hn₁ : (t.heap.set a n₁).get a = some n₁ := Heap.get_set_self hn
  refine ⟨(t.heap.set a n₁).set a n₂, n₂, ?_, rfl, Heap.get_set_self hn₁, hadd, fun x hx => ?_⟩
  · rw [addToParent, hnode.nodeFull hbf hn, decide_eq_false (Nat.ne_of_lt hfit)]
    simp only [Option.bind_eq_bind, Option.bind_some, if_true, Mbptree.modify_eq hn hpush]
    rw [Mbptree.modify_eq hn₁ hlast]
    rfl
  · rw [Heap.get_set_of_ne hx, Heap.get_set_of_ne hx]

/-- A full parent is split, as the root or as a node that has a parent itself. -/
theorem addToParent_of_full (splitNode : Mbptree → Nat → Nat → Nat → Option (Nat × Mbptree))
    {t : Mbptree} {b a p : Nat} {n : Node} {ks cs : List Nat} (key child : Nat)
    (hbf : t.branchFactor = b) (hn : t.heap.get a = some n) (hnode : NodeIs b n p ks cs)
    (hfull : cs.length = b) :
    addToParent splitNode t a key child =
      if p = 0 then mbptreeSplitRoot t a key child else splitNode t a key child := by
  rw [addToParent, hnode.nodeFull hbf hn, mbptreeIsRoot_eq hn, decide_eq_true hfull, hnode.parent]
  simp only [Option.bind_eq_bind, Option.bind_some, Bool.true_eq_false, if_false, decide_eq_true_eq]

/-- A blank node takes a child, a key and a second child: how a new root is filled. -/
theorem blankNode_pair {b : Nat} (hb : 2 ≤ b) (p x k y : Nat) :
    ∃ n₁ n₂ n₃, (blankNode b p).setLast x = some n₁ ∧ n₁.pushKey k = some n₂ ∧
      n₂.setLast y = some n₃ ∧ NodeIs b n₃ p [k] [x, y] := by
  have hlen : (blankNode b p).data.length = b := List.length_replicate
  have hone : NodeIs b ((blankNode b p).withValue 0 x) p [] [x] := by
    refine ⟨rfl, rfl, rfl, ?_, rfl, ?_, fun i hi => absurd hi (Nat.not_lt_zero i), fun i hi => ?_,
      fun i hi hib => ?_⟩
    · rw [Node.length_withValue, hlen]
    · rw [List.length_singleton]; omega
    · rw [List.length_singleton, Nat.lt_one_iff] at hi
      obtain ⟨v, hv⟩ := Node.val?_eq_some (n := blankNode b p) (i := 0) (by omega)
      rw [hi, Node.val?_withValue, if_pos rfl, hv]
      rfl
    · rw [List.length_singleton] at hi
      rw [Node.val?_withValue, if_neg (by omega), blankNode_val hib]
  obtain ⟨n₂, n₃, hpush, hlast, hn₃⟩ := hone.add (by rw [List.length_singleton]; omega) k y
  refine ⟨(blankNode b p).withValue 0 x, n₂, n₃, ?_, hpush, hlast, hn₃⟩
  rw [Node.setLast, Node.setValue, if_pos (by rw [hlen]; show 0 < b; omega)]
  rfl

/-- The root of a closed spine depends only on the root of the subtree that closes it. -/
theorem label_plug_congr : {d D : Nat} → (sp : Spine LeafData d D) → {c c' : UTree LeafData d} →
    label c = label c' → label (sp.plug c) = label (sp.plug c')
  | _, _, .root, _, _, h => h
  | _, _, .up a left rest, c, c', _ => by
    rw [Spine.plug, Spine.plug]
    exact label_plug_congr rest rfl

/-- Every node of a stored spine, and of the trees to its left, is allocated. -/
theorem SpineRep.alloc {h : Heap Node} {b : Nat} : {d D : Nat} → {sp : Spine LeafData d D} →
    {x l : Nat} → SpineRep h b sp x l → ∀ y ∈ sp.labels, ∃ n, h.get y = some n
  | _, _, .root, _, _, _, y, hy => absurd hy List.not_mem_nil
  | _, _, .up a left rest, x, l, hsp, y, hy => by
    obtain ⟨⟨n, hn, -⟩, hleft, hrest⟩ := hsp
    simp only [Spine.labels, List.cons_append, List.mem_cons, List.mem_append] at hy
    rcases hy with rfl | hy | hy
    · exact ⟨n, hn⟩
    · obtain ⟨c, hc, hyc⟩ := List.mem_flatMap.mp hy
      exact (hleft c hc).alloc y hyc
    · exact hrest.alloc y hy

/-! ## The two splits, after their allocations -/

/-- The heap in which `mbptree_split_root` halves the old root `p`: the new root and the new node
    are blank, and `p` is under the new root. -/
theorem exists_rootHeap {h : Heap Node} {p : Nat} {n : Node} (b : Nat) (hn : h.get p = some n) :
    ∃ H, ((h.alloc (blankNode b 0)).alloc (blankNode b h.next)).set p { n with parent := h.next } =
      H ∧
      H.next = h.next + 2 ∧ H.get p = some { n with parent := h.next } ∧
      H.get h.next = some (blankNode b 0) ∧ H.get (h.next + 1) = some (blankNode b h.next) ∧
      ∀ x, x < h.next → x ≠ p → H.get x = h.get x := by
  have hlt : p < h.next := Heap.lt_next hn
  refine ⟨_, rfl, rfl, ?_, ?_, ?_, ?_⟩
  · exact Heap.get_set_self (Heap.get_alloc_of_get (Heap.get_alloc_of_get hn))
  · rw [Heap.get_set_of_ne (by omega), Heap.get_alloc, if_neg (by rw [Heap.next_alloc]; omega)]
    exact Heap.get_alloc_self _ _
  · rw [Heap.get_set_of_ne (by omega)]
    exact Heap.get_alloc_self _ _
  · intro x hx hxp
    rw [Heap.get_set_of_ne hxp, Heap.get_alloc, if_neg (by rw [Heap.next_alloc]; omega),
      Heap.get_alloc, if_neg (by omega)]

/-- `mbptree_split_root`, when its allocations succeed: the new root is put over the halves. -/
theorem mbptreeSplitRoot_eq {t : Mbptree} {b p key child midKey : Nat} {n : Node} {H h' : Heap Node}
    (hb : 2 ≤ b) (hbf : t.branchFactor = b) (hroot : t.root = p) (hn : t.heap.get p = some n)
    (hok : t.allocs.headD true = true) (hok' : t.allocs.tail.headD true = true)
    (hH : ((t.heap.alloc (blankNode b 0)).alloc (blankNode b t.heap.next)).set p
      { n with parent := t.heap.next } = H)
    (hmove : moveHalfAndAdd { t with heap := H, allocs := t.allocs.tail.tail } p (t.heap.next + 1) key
      child = some (midKey, { t with heap := h', allocs := t.allocs.tail.tail }))
    (hr : h'.get t.heap.next = some (blankNode b 0)) :
    ∃ h'' r, mbptreeSplitRoot t p key child = some (t.heap.next,
        { t with heap := h'', allocs := t.allocs.tail.tail, root := t.heap.next }) ∧
      h''.next = h'.next ∧ h''.get t.heap.next = some r ∧
      NodeIs b r 0 [midKey] [p, t.heap.next + 1] ∧ ∀ x, x ≠ t.heap.next → h''.get x = h'.get x := by
  subst hbf
  have hpos : t.heap.next ≠ 0 := Nat.ne_of_gt t.heap.pos
  obtain ⟨n₁, n₂, n₃, hset₁, hset₂, hset₃, hpair⟩ := blankNode_pair hb 0 p midKey (t.heap.next + 1)
  have hr₁ : (h'.set t.heap.next n₁).get t.heap.next = some n₁ := Heap.get_set_self hr
  have hr₂ : ((h'.set t.heap.next n₁).set t.heap.next n₂).get t.heap.next = some n₂ :=
    Heap.get_set_self hr₁
  refine ⟨((h'.set t.heap.next n₁).set t.heap.next n₂).set t.heap.next n₃, n₃, ?_, rfl,
    Heap.get_set_self hr₂, hpair, fun x hx => ?_⟩
  · have hn₂ : ((t.heap.alloc (blankNode t.branchFactor 0)).alloc
        (blankNode t.branchFactor t.heap.next)).get p = some n :=
      Heap.get_alloc_of_get (Heap.get_alloc_of_get hn)
    have hpar : Node.setParent t.heap.next n = some { n with parent := t.heap.next } := rfl
    have hmod := Mbptree.modify_eq (t := { t with
      heap := (t.heap.alloc (blankNode t.branchFactor 0)).alloc (blankNode t.branchFactor t.heap.next)
      allocs := t.allocs.tail.tail }) hn₂ hpar
    rw [mbptreeSplitRoot, assert_pos hroot]
    simp only [Option.bind_eq_bind, Option.bind_some, createNode_eq rfl, if_pos hok, hpos, if_false,
      if_pos hok', Heap.next_alloc, Nat.add_one_ne_zero]
    rw [hmod, Option.bind_some, hH, hmove, Option.bind_some, Mbptree.modify_eq hr hset₁,
      Option.bind_some, Mbptree.modify_eq hr₁ hset₂, Option.bind_some, Mbptree.modify_eq hr₂ hset₃]
    rfl
  · rw [Heap.get_set_of_ne hx, Heap.get_set_of_ne hx, Heap.get_set_of_ne hx]

/-- `mbptree_split_root`, when the new root cannot be allocated. -/
theorem mbptreeSplitRoot_noRoot {t : Mbptree} {p : Nat} (key child : Nat) (hroot : t.root = p)
    (hfail : ¬ t.allocs.headD true = true) :
    mbptreeSplitRoot t p key child = some (0, { t with allocs := t.allocs.tail }) := by
  rw [mbptreeSplitRoot, assert_pos hroot]
  simp only [Option.bind_eq_bind, Option.bind_some, createNode_eq rfl, if_neg hfail, if_true]
  rfl

/-- `mbptree_split_root`, when the right half cannot be allocated: the new root is lost. -/
theorem mbptreeSplitRoot_lost {t : Mbptree} {p : Nat} (key child : Nat) (hroot : t.root = p)
    (hok : t.allocs.headD true = true) (hfail : ¬ t.allocs.tail.headD true = true) :
    mbptreeSplitRoot t p key child = some (0, { t with
      heap := t.heap.alloc (blankNode t.branchFactor 0), allocs := t.allocs.tail.tail }) := by
  rw [mbptreeSplitRoot, assert_pos hroot]
  simp only [Option.bind_eq_bind, Option.bind_some, createNode_eq rfl, if_pos hok,
    Nat.ne_of_gt t.heap.pos, if_false, if_neg hfail, if_true]
  rfl

/-- `mbptree_split_node`, when its allocation succeeds: the new node goes one level up. -/
theorem mbptreeSplitNode_eq {t : Mbptree} {b p key child midKey : Nat} {n r : Node} {h' : Heap Node}
    (fuel : Nat) (hbf : t.branchFactor = b) (hn : t.heap.get p = some n)
    (hfull : mbptreeNodeFull t p = some true) (hparent : n.parent ≠ 0)
    (hok : t.allocs.headD true = true)
    (hmove : moveHalfAndAdd { t with heap := t.heap.alloc (blankNode b n.parent)
                                     allocs := t.allocs.tail } p t.heap.next key child =
      some (midKey, { t with heap := h', allocs := t.allocs.tail }))
    (hr : h'.get t.heap.next = some r) (hrp : r.parent = n.parent) :
    mbptreeSplitNode (fuel + 2) t p key child =
      addToParent (mbptreeSplitNode fuel) { t with heap := h', allocs := t.allocs.tail } n.parent midKey
        t.heap.next := by
  rw [mbptreeSplitNode, hfull, mbptreeIsRoot_eq hn, decide_eq_false hparent]
  simp only [Option.bind_eq_bind, Option.bind_some, assert_pos, Mbptree.node, hn]
  rw [createNode_eq hbf, if_pos hok]
  simp only [Nat.ne_of_gt t.heap.pos, if_false, hmove, Option.bind_some]
  rw [mbptreeAppendNode, Mbptree.node, show h'.get t.heap.next = some r from hr]
  simp only [Option.bind_eq_bind, Option.bind_some]
  rw [assert_pos (by rw [hrp]; exact hparent), Option.bind_some, hrp]

/-- `mbptree_split_node`, when its allocation fails. -/
theorem mbptreeSplitNode_failed {t : Mbptree} {b p : Nat} {n : Node} (fuel key child : Nat)
    (hbf : t.branchFactor = b) (hn : t.heap.get p = some n) (hfull : mbptreeNodeFull t p = some true)
    (hparent : n.parent ≠ 0) (hfail : ¬ t.allocs.headD true = true) :
    mbptreeSplitNode (fuel + 2) t p key child = some (0, { t with allocs := t.allocs.tail }) := by
  rw [mbptreeSplitNode, hfull, mbptreeIsRoot_eq hn, decide_eq_false hparent]
  simp only [Option.bind_eq_bind, Option.bind_some, assert_pos, Mbptree.node, hn]
  rw [createNode_eq hbf, if_neg hfail]
  rfl

/-! ## The cascade -/

/-- The keys and children of the node at the lower end of a spine, as those of its children. -/
theorem up_keys {d : Nat} (left : List (UTree LeafData d)) (c : UTree LeafData d) :
    left.map lo ++ [lo c] = (left ++ [c]).map lo ∧
      left.map label ++ [label c] = (left ++ [c]).map label := by
  simp

/-- The parent has room: it takes the new child, and nothing else changes. -/
theorem addToParent_room {b d D a : Nat} {left : List (UTree LeafData d)}
    {rest : Spine LeafData (d + 1) D} {c n : UTree LeafData d} {t : Mbptree} (fuel : Nat)
    (hbf : t.branchFactor = b) (hroot : t.root = label (rest.plug (mk a (left ++ [c]))))
    (hsp : SpineRep t.heap b (.up a left rest) (label c) (lo c)) (hc : Rep t.heap b a c)
    (hn : Rep t.heap b a n)
    (hnd : (a :: ((left ++ [c] ++ [n]).flatMap labels ++ rest.labels)).Nodup)
    (hfit : left.length + 1 < b) :
    ∃ h', addToParent (mbptreeSplitNode fuel) t a (lo n) (label n) =
        some (t.root, { t with heap := h' }) ∧
      Rep h' b 0 (rest.plug (mk a (left ++ [c, n]))) := by
  obtain ⟨⟨na, hna, hnode⟩, hleft, hrest⟩ := hsp
  rw [(up_keys left c).1, (up_keys left c).2] at hnode
  rw [(up_keys left c).1] at hrest
  obtain ⟨h', n', heq, -, hn', hadd, hget⟩ := addToParent_of_room (lo n) (label n) hbf hna hnode
    (by rw [List.length_map, List.length_append, List.length_singleton]; exact hfit)
  obtain ⟨ha, -⟩ := List.nodup_cons.mp hnd
  have hnotin : ∀ x ∈ left ++ [c] ++ [n], ∀ y ∈ labels x, y ≠ a := by
    rintro x hx y hy rfl
    exact ha (List.mem_append_left _ (List.mem_flatMap.mpr ⟨x, hx, hy⟩))
  have hne : left ++ [c] ≠ [] := List.append_ne_nil_of_right_ne_nil _ (List.cons_ne_nil _ _)
  have hsplit : left ++ [c, n] = (left ++ [c]) ++ [n] := by rw [List.append_assoc]; rfl
  refine ⟨h', heq, (rep_plug rest _).mpr ⟨?_, rep_mk.mpr ⟨⟨n', hn', ?_⟩, fun x hx => ?_⟩⟩⟩
  · rw [UTree.label_mk, lo_mk, hsplit, headD_map_append hne]
    refine SpineRep.congr (fun y hy => hget y ?_) hrest
    rintro rfl
    exact ha (List.mem_append_right _ hy)
  · have hkids : (left ++ [c] ++ [n]).map label = (left ++ [c]).map label ++ [label n] := by
      rw [List.map_append, List.map_singleton]
    rw [hsplit, tail_map_append hne, List.map_singleton, hkids]
    exact hadd
  · rw [hsplit] at hx
    refine Rep.congr (fun y hy => hget y (hnotin x hx y hy)) ?_
    rcases List.mem_append.mp hx with hx | hx
    · rcases List.mem_append.mp hx with hx | hx
      · exact hleft x hx
      · rw [List.mem_singleton.mp hx]; exact hc
    · rw [List.mem_singleton.mp hx]; exact hn

/-- The parent is a full root: it is halved, and a new root is made over the two halves. -/
theorem mbptreeSplitRoot_spec {b d a q : Nat} (hb : 3 ≤ b) {cs : List (UTree LeafData d)}
    {n : UTree LeafData d} {t : Mbptree} {na : Node} (hbf : t.branchFactor = b)
    (hal : t.allocs = []) (hroot : t.root = a) (hna : t.heap.get a = some na)
    (hnode : NodeIs b na 0 (cs.map lo).tail (cs.map label)) (hfull : cs.length = b)
    (hcs : ∀ c ∈ cs, Rep t.heap b a c) (hn : Rep t.heap b q n)
    (hnd : (a :: (cs ++ [n]).flatMap labels).Nodup) :
    ∃ h', mbptreeSplitRoot t a (lo n) (label n) =
        some (t.heap.next, { t with heap := h', root := t.heap.next }) ∧
      Rep h' b 0 (mk t.heap.next [mk a (cs.take (b / 2 + 1)),
        mk (t.heap.next + 1) (cs.drop (b / 2 + 1) ++ [n])]) := by
  have hlta : a < t.heap.next := Heap.lt_next hna
  have hlt : ∀ x ∈ cs ++ [n], ∀ y ∈ labels x, y < t.heap.next := by
    intro x hx
    rcases List.mem_append.mp hx with hx | hx
    · exact (hcs x hx).lt_next
    · rw [List.mem_singleton.mp hx]
      exact hn.lt_next
  have hfresh : ∀ k, t.heap.next ≤ k → k ∉ (cs ++ [n]).flatMap labels := by
    intro k hk hmem
    obtain ⟨x, hx, hkx⟩ := List.mem_flatMap.mp hmem
    exact absurd (hlt x hx k hkx) (by omega)
  obtain ⟨ha, hnd'⟩ := List.nodup_cons.mp hnd
  -- the two allocations, and `root->parent = new_root`
  obtain ⟨H, hH, -, hHa, hHroot, hHnew, hHget⟩ := exists_rootHeap b hna
  have hrepx : ∀ x ∈ cs ++ [n], ∀ p, Rep t.heap b p x → Rep H b p x := by
    intro x hx p hp
    refine Rep.congr (fun y hy => hHget y (hlt x hx y hy) ?_) hp
    rintro rfl
    exact ha (List.mem_flatMap.mpr ⟨x, hx, hy⟩)
  -- the split
  obtain ⟨h', heq, -, hrepl, hrepr, hframe⟩ := moveHalfAndAdd_rep
    (t := { t with heap := H, allocs := t.allocs.tail.tail }) hbf hb hHa
    (hnode.setParent t.heap.next) hfull hHnew
    (fun x hx => hrepx x (List.mem_append_left _ hx) a (hcs x hx))
    (hrepx n (List.mem_append_right _ (List.mem_singleton.mpr rfl)) q hn)
    (by
      refine List.nodup_cons.mpr ⟨?_, List.nodup_cons.mpr ⟨hfresh _ (by omega), hnd'⟩⟩
      rw [List.mem_cons, not_or]
      exact ⟨by omega, ha⟩)
  -- the new root
  have hr : h'.get t.heap.next = some (blankNode b 0) := by
    refine (hframe _ ?_).trans hHroot
    rw [List.mem_cons, List.mem_cons, not_or, not_or]
    exact ⟨by omega, by omega, hfresh _ (Nat.le_refl _)⟩
  have hok : t.allocs.headD true = true := by
    rw [hal]
    rfl
  have hok' : t.allocs.tail.headD true = true := by
    rw [hal]
    rfl
  obtain ⟨h'', r, hrun, -, hr'', hpair, hget⟩ :=
    mbptreeSplitRoot_eq (by omega) hbf hroot hna hok hok' hH heq hr
  refine ⟨h'', ?_, rep_mk.mpr ⟨⟨r, hr'', hpair⟩, ?_⟩⟩
  · rw [hrun, hal, List.tail_nil, List.tail_nil]
  · intro x hx
    have hnotin : ∀ zs : List (UTree LeafData d), zs ⊆ cs ++ [n] →
        t.heap.next ∉ zs.flatMap labels := by
      intro zs hzs hz
      obtain ⟨z, hz, hyz⟩ := List.mem_flatMap.mp hz
      exact hfresh _ (Nat.le_refl _) (List.mem_flatMap.mpr ⟨z, hzs hz, hyz⟩)
    have hkeep : t.heap.next ∉ labels x → Rep h' b t.heap.next x → Rep h'' b t.heap.next x :=
      fun hnext hrep => Rep.congr (fun y hy => hget y fun h => hnext (h ▸ hy)) hrep
    rcases List.mem_cons.mp hx with rfl | hx
    · refine hkeep ?_ hrepl
      rw [UTree.labels_mk, List.mem_cons, not_or]
      exact ⟨by omega, hnotin _ fun z hz => List.mem_append_left _ (List.mem_of_mem_take hz)⟩
    · obtain rfl := List.mem_singleton.mp hx
      refine hkeep ?_ hrepr
      rw [UTree.labels_mk, List.mem_cons, not_or]
      refine ⟨by omega, hnotin _ fun z hz => ?_⟩
      rcases List.mem_append.mp hz with hz | hz
      · exact List.mem_append_left _ (List.mem_of_mem_drop hz)
      · exact List.mem_append_right _ hz

/-- The addresses below and on a stored spine, and those of a new node, all lie below `next`. -/
theorem addresses_lt {b d D a p q : Nat} {left : List (UTree LeafData d)}
    {rest : Spine LeafData (d + 1) D} {c n : UTree LeafData d} {h : Heap Node} {l x : Nat}
    (hleft : ∀ x ∈ left, Rep h b a x) (hrest : SpineRep h b rest x l) (hc : Rep h b p c)
    (hn : Rep h b q n) :
    ∀ y ∈ (left ++ [c] ++ [n]).flatMap labels ++ rest.labels, y < h.next := by
  intro y hy
  rcases List.mem_append.mp hy with hy | hy
  · obtain ⟨z, hz, hyz⟩ := List.mem_flatMap.mp hy
    rcases List.mem_append.mp hz with hz | hz
    · rcases List.mem_append.mp hz with hz | hz
      · exact (hleft z hz).lt_next y hyz
      · exact hc.lt_next y (List.mem_singleton.mp hz ▸ hyz)
    · exact hn.lt_next y (List.mem_singleton.mp hz ▸ hyz)
  · obtain ⟨m, hm⟩ := hrest.alloc y hy
    exact Heap.lt_next hm

/-- The addresses in play one level up, after the node at `a` was split into itself and `new`. -/
theorem split_addresses_perm {d D a a₂ new k : Nat} (left : List (UTree LeafData d))
    (c n : UTree LeafData d) (left₂ : List (UTree LeafData (d + 1)))
    (rest₂ : Spine LeafData (d + 2) D) :
    (a₂ :: ((left₂ ++ [mk a ((left ++ [c]).take k)] ++
        [mk new ((left ++ [c]).drop k ++ [n])]).flatMap labels ++ rest₂.labels)).Perm
      (new :: a :: ((left ++ [c] ++ [n]).flatMap labels ++ (Spine.up a₂ left₂ rest₂).labels)) := by
  have hsplit : (left ++ [c]).flatMap labels =
      ((left ++ [c]).take k).flatMap labels ++ ((left ++ [c]).drop k).flatMap labels := by
    rw [← List.flatMap_append, List.take_append_drop]
  rw [List.perm_iff_count]
  intro x
  have hcount := congrArg (List.count x) hsplit
  simp only [List.flatMap_append, List.flatMap_cons, List.flatMap_nil, List.append_nil,
    UTree.labels_mk, Spine.labels, List.count_append, List.count_cons] at hcount ⊢
  omega

/-- **One level of the climb**: the full node at `a` is halved, and what is left to do is to hang its
    right half, which took `n`, under the node at `a₂`. -/
theorem mbptreeSplitNode_rep {b d D a a₂ : Nat} (hb : 3 ≤ b) {left : List (UTree LeafData d)}
    {left₂ : List (UTree LeafData (d + 1))} {rest₂ : Spine LeafData (d + 2) D}
    {c n : UTree LeafData d} {t : Mbptree} (fuel : Nat) (hbf : t.branchFactor = b)
    (hal : t.allocs = [])
    (hsp : SpineRep t.heap b (.up a left (.up a₂ left₂ rest₂)) (label c) (lo c))
    (hc : Rep t.heap b a c) (hn : Rep t.heap b a n)
    (hnd : (a :: ((left ++ [c] ++ [n]).flatMap labels ++ (Spine.up a₂ left₂ rest₂).labels)).Nodup)
    (hfull : (left ++ [c]).length = b) :
    ∃ h', mbptreeSplitNode (fuel + 2) t a (lo n) (label n) =
        addToParent (mbptreeSplitNode fuel) { t with heap := h' } a₂
          (lo (mk t.heap.next ((left ++ [c]).drop (b / 2 + 1) ++ [n]))) t.heap.next ∧
      h'.next = t.heap.next + 1 ∧
      SpineRep h' b (.up a₂ left₂ rest₂) (label (mk a ((left ++ [c]).take (b / 2 + 1))))
        (lo (mk a ((left ++ [c]).take (b / 2 + 1)))) ∧
      Rep h' b a₂ (mk a ((left ++ [c]).take (b / 2 + 1))) ∧
      Rep h' b a₂ (mk t.heap.next ((left ++ [c]).drop (b / 2 + 1) ++ [n])) ∧
      (a₂ :: ((left₂ ++ [mk a ((left ++ [c]).take (b / 2 + 1))] ++
        [mk t.heap.next ((left ++ [c]).drop (b / 2 + 1) ++ [n])]).flatMap labels ++
          rest₂.labels)).Nodup := by
  obtain ⟨⟨na, hna, hnode⟩, hleft, hrest⟩ := hsp
  rw [(up_keys left c).1, (up_keys left c).2] at hnode
  rw [(up_keys left c).1] at hrest
  have hcs : ∀ x ∈ left ++ [c], Rep t.heap b a x := by
    intro x hx
    rcases List.mem_append.mp hx with hx | hx
    · exact hleft x hx
    · rw [List.mem_singleton.mp hx]
      exact hc
  have hlt := addresses_lt hleft hrest hc hn
  obtain ⟨⟨n₂, hn₂, hnode₂⟩, hleft₂, hrest₂⟩ := hrest
  have ha₂ : a₂ ≠ 0 := Heap.ne_null hn₂
  have hlta : a < t.heap.next := Heap.lt_next hna
  have hfresh : t.heap.next ∉ a :: ((left ++ [c] ++ [n]).flatMap labels ++
      (Spine.up a₂ left₂ rest₂).labels) := by
    intro hmem
    rcases List.mem_cons.mp hmem with heq | hmem
    · omega
    · exact absurd (hlt _ hmem) (by omega)
  -- the new node
  have hkeep : ∀ y, y ≠ t.heap.next → (t.heap.alloc (blankNode b a₂)).get y = t.heap.get y := by
    intro y hy
    rw [Heap.get_alloc, if_neg hy]
  have hkeepRep : ∀ x ∈ left ++ [c] ++ [n], ∀ p, Rep t.heap b p x →
      Rep (t.heap.alloc (blankNode b a₂)) b p x := by
    intro x hx p hp
    refine Rep.congr (fun y hy => hkeep y ?_) hp
    rintro rfl
    exact hfresh (List.mem_cons_of_mem _ (List.mem_append_left _ (List.mem_flatMap.mpr ⟨x, hx, hy⟩)))
  have hsub : (a :: (left ++ [c] ++ [n]).flatMap labels).Sublist
      (a :: ((left ++ [c] ++ [n]).flatMap labels ++ (Spine.up a₂ left₂ rest₂).labels)) :=
    (List.sublist_append_left _ _).cons_cons a
  obtain ⟨h', heq, hnext, hrepl, hrepr, hframe⟩ := moveHalfAndAdd_rep
    (t := { t with heap := t.heap.alloc (blankNode b a₂), allocs := t.allocs.tail }) hbf hb
    (Heap.get_alloc_of_get hna) hnode hfull (Heap.get_alloc_self _ _)
    (fun x hx => hkeepRep x (List.mem_append_left _ hx) a (hcs x hx))
    (hkeepRep n (List.mem_append_right _ (List.mem_singleton.mpr rfl)) a hn)
    (by
      have hnd' : (t.heap.next :: a :: (left ++ [c] ++ [n]).flatMap labels).Nodup :=
        List.nodup_cons.mpr ⟨fun hmem => hfresh (hsub.subset hmem), hnd.sublist hsub⟩
      exact (List.Perm.swap _ _ _).nodup_iff.mp hnd')
  obtain ⟨r, hr, hrp⟩ := hrepr.root_alloc
  have hna' : na.parent = a₂ := hnode.parent
  have hok : t.allocs.headD true = true := by
    rw [hal]
    rfl
  have hfull' : mbptreeNodeFull t a = some true := by
    rw [hnode.nodeFull hbf hna, decide_eq_true (by rw [List.length_map]; exact hfull)]
  -- the addresses one level up are not touched by the split
  have hup : ∀ y ∈ (Spine.up a₂ left₂ rest₂).labels, h'.get y = t.heap.get y := by
    intro y hy
    have hmem : y ∈ a :: ((left ++ [c] ++ [n]).flatMap labels ++
        (Spine.up a₂ left₂ rest₂).labels) :=
      List.mem_cons_of_mem _ (List.mem_append_right _ hy)
    have hne : y ≠ t.heap.next := fun h => hfresh (h ▸ hmem)
    obtain ⟨hna₀, hnd₀⟩ := List.nodup_cons.mp hnd
    refine (hframe y fun hin => ?_).trans (hkeep y hne)
    rcases List.mem_cons.mp hin with rfl | hin
    · exact hna₀ (List.mem_append_right _ hy)
    · rcases List.mem_cons.mp hin with rfl | hin
      · exact hne rfl
      · exact (List.nodup_append.mp hnd₀).2.2 y hin y hy rfl
  have hlo : lo (mk a ((left ++ [c]).take (b / 2 + 1))) = ((left ++ [c]).map lo).headD 0 := by
    rw [lo_mk, List.map_take]
    cases left with
    | nil => rfl
    | cons _ _ => rfl
  have hsp₂ : SpineRep t.heap b (.up a₂ left₂ rest₂)
      (label (mk a ((left ++ [c]).take (b / 2 + 1))))
      (lo (mk a ((left ++ [c]).take (b / 2 + 1)))) := by
    rw [hlo]
    exact ⟨⟨n₂, hn₂, hnode₂⟩, hleft₂, hrest₂⟩
  refine ⟨h', ?_, hnext, SpineRep.congr hup hsp₂, hrepl, hrepr, ?_⟩
  · have hrun := mbptreeSplitNode_eq (b := b) fuel hbf hna hfull' (by rwa [hna']) hok
      (by rw [hna']; exact heq) hr (hrp.trans hna'.symm)
    rw [hrun, hna', hal, List.tail_nil]
  · exact (split_addresses_perm left c n left₂ rest₂).nodup_iff.mpr
      (List.nodup_cons.mpr ⟨hfresh, hnd⟩)

/-- **The cascade simulates `Spine.grow`**: hanging the stored tree `n` to the right of `c` under
    the node at `a` succeeds, yields the root of the grown tree, and leaves that tree stored.
    Each level of the climb uses two units of fuel. -/
theorem addToParent_spec {b : Nat} (hb : 3 ≤ b) : {d D : Nat} → (a : Nat) →
    (left : List (UTree LeafData d)) → (rest : Spine LeafData (d + 1) D) →
    (c n : UTree LeafData d) → (fuel : Nat) → (t : Mbptree) → t.branchFactor = b →
    t.allocs = [] → 2 * rest.length ≤ fuel →
    t.root = label (rest.plug (mk a (left ++ [c]))) →
    SpineRep t.heap b (.up a left rest) (label c) (lo c) → Rep t.heap b a c → Rep t.heap b a n →
    (a :: ((left ++ [c] ++ [n]).flatMap labels ++ rest.labels)).Nodup →
    ∃ h', addToParent (mbptreeSplitNode fuel) t a (lo n) (label n) =
        some (label ((Spine.up a left rest).grow b c n t.heap.next).2,
          { t with heap := h',
                   root := label ((Spine.up a left rest).grow b c n t.heap.next).2 }) ∧
      Rep h' b 0 ((Spine.up a left rest).grow b c n t.heap.next).2
  | d, D, a, left, rest, c, n, fuel, t, hbf, hal, hfuel, hroot, hsp, hc, hn, hnd => by
    by_cases hfit : left.length + 1 < b
    · obtain ⟨h', heq, hrep⟩ :=
        addToParent_room fuel hbf hroot hsp hc hn hnd hfit
      rw [Spine.grow_of_lt hfit]
      have hlabel : label (rest.plug (mk a (left ++ [c, n]))) = t.root := by
        rw [hroot]
        exact label_plug_congr rest
          (show label (mk a (left ++ [c, n])) = label (mk a (left ++ [c])) from rfl)
      refine ⟨h', ?_, hrep⟩
      rw [heq]
      show some (t.root, { t with heap := h' }) = some (label (rest.plug (mk a (left ++ [c, n]))),
        { t with heap := h', root := label (rest.plug (mk a (left ++ [c, n]))) })
      rw [hlabel]
    · have hup := hsp
      obtain ⟨⟨na, hna, hnode⟩, hleft, -⟩ := hup
      rw [(up_keys left c).1, (up_keys left c).2] at hnode
      have hfull : (left ++ [c]).length = b := by
        have hfits := hnode.fits
        rw [List.length_map] at hfits
        rw [List.length_append, List.length_singleton] at hfits ⊢
        omega
      have hcs : ∀ x ∈ left ++ [c], Rep t.heap b a x := by
        intro x hx
        rcases List.mem_append.mp hx with hx | hx
        · exact hleft x hx
        · rw [List.mem_singleton.mp hx]; exact hc
      rw [Spine.grow_of_ge hfit, addToParent_of_full _ (lo n) (label n) hbf hna hnode
        (by rw [List.length_map]; exact hfull)]
      match rest with
      | .root =>
        -- the full parent is the root
        obtain ⟨h', heq, hrep⟩ := mbptreeSplitRoot_spec hb hbf hal hroot hna hnode hfull hcs hn
          (hnd.sublist ((List.sublist_append_left _ _).cons_cons a))
        rw [Spine.top, if_pos rfl]
        exact ⟨h', heq, hrep⟩
      | .up a₂ left₂ rest₂ =>
        -- the full parent has a parent: split it, and climb
        obtain ⟨f, rfl⟩ : ∃ f, fuel = f + 2 :=
          ⟨fuel - 2, by rw [Spine.length] at hfuel; omega⟩
        rw [Spine.length] at hfuel
        have ha₂ : a₂ ≠ 0 := by
          obtain ⟨⟨n₂, hn₂, -⟩, -⟩ := hsp.2.2
          exact Heap.ne_null hn₂
        obtain ⟨h₁, heq₁, hnext₁, hsp₁, hrepl, hrepr, hnd₁⟩ :=
          mbptreeSplitNode_rep hb f hbf hal hsp hc hn hnd hfull
        obtain ⟨h', heq, hrep⟩ := addToParent_spec hb a₂ left₂ rest₂
          (mk a ((left ++ [c]).take (b / 2 + 1)))
          (mk t.heap.next ((left ++ [c]).drop (b / 2 + 1) ++ [n])) f { t with heap := h₁ } hbf hal
          (by omega)
          (hroot.trans (label_plug_congr (.up a₂ left₂ rest₂) (show label (mk a (left ++ [c])) =
            label (mk a ((left ++ [c]).take (b / 2 + 1))) from rfl)))
          hsp₁ hrepl hrepr hnd₁
        rw [show ({ t with heap := h₁ } : Mbptree).heap.next = t.heap.next + 1 from hnext₁] at heq hrep
        refine ⟨h', ?_, hrep⟩
        rw [Spine.top, if_neg ha₂, heq₁]
        exact heq

end Mqlog
