/-
  Every node that the tree has allocated is in the tree, and `mbptree_free` releases them all.

  Where no allocation fails, a cascade allocates as many nodes as the tree grows by
  (`addToParent_next`).  So after any number of appends there are as many nodes in the tree as have
  been allocated (`Accounted`), and since none is there twice, none is missing.

    1. What is allocated.  Each function of the cascade is followed with a count (`Allocates`),
       which adds up along the calls (`Allocates.trans`); the stores in between allocate nothing.
    2. The number on the other side is `Spine.growCount`: one node for each level that is split, and
       one more for a new root.
    3. Counting is enough.  A tree has no label twice, all labels lie below the next address, and
       there are as many of them as addresses have been handed out: so every address is one of a
       node of the tree (`mem_of_length`).
    4. Freeing the tree frees its nodes (`mbptreeFree_spec`), and these are all that were allocated
       (`tree_freed`).

  That a tree is stored under a root in one way only (`Rep.labels_eq`) is needed because the
  invariant hides the shape of the tree: the tree before an append and the one after it are known by
  what they hold, and the count has to be one of the heap.
-/
import Mqlog.MbptreeFree
import Mqlog.MbptreeList

namespace Mqlog

open Lib Lib.UTree
open Lib (Heap UTree Spine)

/-! ## What is allocated -/

/-- The second tree has allocated `k` more nodes than the first one. -/
def Allocates (k : Nat) (t t' : Mbptree) : Prop :=
  t'.heap.next = t.heap.next + k ∧ (t.allocs = [] → t'.allocs = [])

theorem Allocates.trans {k k' : Nat} {t t' t'' : Mbptree} (h : Allocates k t t')
    (h' : Allocates k' t' t'') :
    Allocates (k + k') t t'' :=
  ⟨by rw [h'.1, h.1, Nat.add_assoc], fun hal => h'.2 (h.2 hal)⟩

theorem modify_allocates {t t' : Mbptree} {a : Nat} {f : Node → Option Node}
    (h : t.modify a f = some t') :
    Allocates 0 t t' := by
  simp only [Mbptree.modify, Option.bind_eq_bind, Option.bind_eq_some_iff, Option.pure_def] at h
  obtain ⟨n, -, n', -, h⟩ := h
  cases h
  exact ⟨rfl, id⟩

theorem moveKeys_allocates {lhs rhs : Nat} : ∀ (r k : Nat) {t t' : Mbptree},
    moveKeys lhs rhs r k t = some t' → Allocates 0 t t'
  | 0, k, t, t', h => by
    cases h
    exact ⟨rfl, id⟩
  | r + 1, k, t, t', h => by
    simp only [moveKeys, Option.bind_eq_bind, Option.bind_eq_some_iff] at h
    obtain ⟨l, -, d, -, t₁, h₁, t₂, h₂, h⟩ := h
    exact ((modify_allocates h₁).trans (modify_allocates h₂)).trans (moveKeys_allocates r _ h)

theorem moveValues_allocates {lhs rhs : Nat} : ∀ (r v j : Nat) {t t' : Mbptree},
    moveValues lhs rhs r v j t = some t' → Allocates 0 t t'
  | 0, v, j, t, t', h => by
    cases h
    exact ⟨rfl, id⟩
  | r + 1, v, j, t, t', h => by
    simp only [moveValues, Option.bind_eq_bind, Option.bind_eq_some_iff] at h
    obtain ⟨l, -, d, -, t₁, h₁, t₂, h₂, n, -, m, -, t₃, h₃, h⟩ := h
    exact (((modify_allocates h₁).trans (modify_allocates h₂)).trans (modify_allocates h₃)).trans
      (moveValues_allocates r _ _ h)

theorem moveHalfAndAdd_allocates {t t' : Mbptree} {lhs rhs key child mid : Nat}
    (h : moveHalfAndAdd t lhs rhs key child = some (mid, t')) : Allocates 0 t t' := by
  simp only [moveHalfAndAdd, mbptreeMoveHalfNode, Option.bind_eq_bind, Option.bind_eq_some_iff,
    Option.pure_def, Prod.exists] at h
  obtain ⟨k, t₄, ⟨l, -, r, -, -, -, -, -, -, -, m, -, t₁, h₁, t₂, h₂, t₃, h₃, heq⟩, t₅, h₅, t₆, h₆,
    t₇, h₇, heq'⟩ := h
  cases heq
  cases heq'
  exact (((((moveKeys_allocates _ _ h₁).trans (moveValues_allocates _ _ _ h₂)).trans
    (modify_allocates h₃)).trans (modify_allocates h₅)).trans (modify_allocates h₆)).trans
      (modify_allocates h₇)

/-- A new root and a new node. -/
theorem mbptreeSplitRoot_allocates {t t' : Mbptree} {root key child r : Nat} (hal : t.allocs = [])
    (h : mbptreeSplitRoot t root key child = some (r, t')) : Allocates 2 t t' := by
  have hpos := t.heap.pos
  simp only [mbptreeSplitRoot, mbptreeCreateNode, Mbptree.calloc, hal, List.tail_nil,
    Option.bind_eq_bind, Option.bind_eq_some_iff, Heap.next_alloc, Nat.ne_of_gt hpos, if_false,
      Nat.succ_ne_zero, Option.pure_def,
    Prod.exists] at h
  obtain ⟨-, -, t₁, h₁, mid, t₂, h₂, t₃, h₃, t₄, h₄, t₅, h₅, heq⟩ := h
  cases heq
  have hall :=
    (((((modify_allocates h₁).trans (moveHalfAndAdd_allocates h₂)).trans
    (modify_allocates h₃)).trans
    (modify_allocates h₄)).trans (modify_allocates h₅))
  exact ⟨hall.1, fun _ => hall.2 rfl⟩

/-- **A cascade allocates as many nodes as the spine grows by.** -/
theorem addToParent_next {b : Nat} (hb : 3 ≤ b) : {d D : Nat} → (a : Nat) →
    (left : List (UTree LeafData d)) → (rest : Spine LeafData (d + 1) D) →
    (c n : UTree LeafData d) → (fuel : Nat) → (t : Mbptree) → t.branchFactor = b →
    t.allocs = [] → 2 * rest.length ≤ fuel →
    SpineRep t.heap b (.up a left rest) (label c) (lo c) → Rep t.heap b a c → Rep t.heap b a n →
    (a :: ((left ++ [c] ++ [n]).flatMap labels ++ rest.labels)).Nodup → {r : Nat} → {t' : Mbptree} →
    addToParent (mbptreeSplitNode fuel) t a (lo n) (label n) = some (r, t') →
    t'.heap.next = t.heap.next + (Spine.up a left rest).growCount b
  | d, D, a, left, rest, c, n, fuel, t, hbf, hal, hfuel, hsp, hc, hn, hnd, r, t', heq => by
    have hup := hsp
    obtain ⟨⟨na, hna, hnode⟩, hleft, -⟩ := hup
    rw [(up_keys left c).1, (up_keys left c).2] at hnode
    have hlength : (left ++ [c]).length = left.length + 1 := by
      rw [List.length_append, List.length_singleton]
    by_cases hfit : left.length + 1 < b
    · obtain ⟨h', n', heq', hnext, -⟩ := addToParent_of_room (lo n) (label n) hbf hna hnode
        (by rw [List.length_map, hlength]; exact hfit)
      rw [heq] at heq'
      cases heq'
      rw [Spine.growCount, if_pos hfit]
      exact hnext
    · have hfull : (left ++ [c]).length = b := by
        have hfits := hnode.fits
        rw [List.length_map] at hfits
        omega
      rw [addToParent_of_full _ (lo n) (label n) hbf hna hnode
        (by rw [List.length_map]; exact hfull)] at heq
      rw [Spine.growCount, if_neg hfit]
      cases rest with
      | root =>
        -- the full parent is the root
        rw [Spine.top, if_pos rfl] at heq
        exact (mbptreeSplitRoot_allocates hal heq).1
      | up a₂ left₂ rest₂ =>
        -- the full parent has a parent: split it, and climb
        obtain ⟨f, rfl⟩ : ∃ f, fuel = f + 2 := ⟨fuel - 2, by rw [Spine.length] at hfuel; omega⟩
        rw [Spine.length] at hfuel
        have ha₂ : a₂ ≠ 0 := by
          obtain ⟨⟨n₂, hn₂, -⟩, -⟩ := hsp.2.2
          exact Heap.ne_null hn₂
        obtain ⟨h₁, heq₁, hnext₁, hsp₁, hrepl, hrepr, hnd₁⟩ :=
          mbptreeSplitNode_rep hb f hbf hal hsp hc hn hnd hfull
        rw [Spine.top, if_neg ha₂, heq₁] at heq
        have hclimb := addToParent_next hb a₂ left₂ rest₂
          (mk a ((left ++ [c]).take (b / 2 + 1)))
          (mk t.heap.next ((left ++ [c]).drop (b / 2 + 1) ++ [n])) f { t with heap := h₁ } hbf hal
          (by omega) hsp₁ hrepl hrepr hnd₁ heq
        rw [hclimb, show ({ t with heap := h₁ } : Mbptree).heap.next = t.heap.next + 1 from hnext₁]
        omega

/-! ## A stored tree has one list of labels -/

/-- The children of a node are known from the node. -/
theorem NodeIs.kids_eq {b : Nat} {n : Node} {p p' : Nat} {ks ks' cs cs' : List Nat}
    (h : NodeIs b n p ks cs) (h' : NodeIs b n p' ks' cs') : cs = cs' := by
  have hlength : cs.length = cs'.length := by
    rw [h.kids_length, h'.kids_length, ← h.size, ← h'.size]
  refine List.ext_getElem? fun i => ?_
  rcases Nat.lt_or_ge i cs.length with hlt | hge
  · rw [← h.kid i hlt, ← h'.kid i (hlength ▸ hlt)]
  · rw [List.getElem?_eq_none hge, List.getElem?_eq_none (hlength ▸ hge)]

/-- Subtrees with the same roots have the same labels, when each two of them do. -/
theorem flatMap_labels_eq {d d' : Nat} :
    ∀ {cs : List (UTree LeafData d)} {cs' : List (UTree LeafData d')}, cs.map label =
      cs'.map label → (∀ c ∈ cs, ∀ c' ∈ cs', label c = label c' → labels c = labels c') →
    cs.flatMap labels = cs'.flatMap labels
  | [], [], _, _ => rfl
  | [], c' :: cs', h, _ => by cases h
  | c :: cs, [], h, _ => by cases h
  | c :: cs, c' :: cs', h, hall => by
    rw [List.map_cons, List.map_cons] at h
    obtain ⟨hhead, htail⟩ := List.cons.inj h
    rw [List.flatMap_cons, List.flatMap_cons, hall c List.mem_cons_self c' List.mem_cons_self hhead,
      flatMap_labels_eq htail fun x hx x' hx' =>
        hall x (List.mem_cons_of_mem _ hx) x' (List.mem_cons_of_mem _ hx')]

/-- **Two trees stored under one root** have the same nodes. -/
theorem Rep.labels_eq {h : Heap Node} {b : Nat} : {d d' p p' : Nat} → {s : UTree LeafData d} →
    {s' : UTree LeafData d'} → Rep h b p s → Rep h b p' s' → label s = label s' →
    labels s = labels s'
  | 0, 0, _, _, s, s', _, _, heq => congrArg (fun a => [a]) heq
  | 0, d' + 1, p, _, s, s', hs, hs', heq => by
    obtain ⟨⟨n, hn, hnode⟩, -⟩ := hs'
    rw [← heq] at hn
    have hleaf := hnode.leaf
    rw [Rep.leafNode_get hs hn] at hleaf
    cases hleaf
  | d + 1, 0, _, p', s, s', hs, hs', heq => by
    obtain ⟨⟨n, hn, hnode⟩, -⟩ := hs
    rw [heq] at hn
    have hleaf := hnode.leaf
    rw [Rep.leafNode_get hs' hn] at hleaf
    cases hleaf
  | d + 1, d' + 1, _, _, s, s', hs, hs', heq => by
    obtain ⟨⟨n, hn, hnode⟩, hcs⟩ := hs
    obtain ⟨⟨n', hn', hnode'⟩, hcs'⟩ := hs'
    rw [← heq, hn] at hn'
    cases hn'
    have hkids := flatMap_labels_eq (hnode.kids_eq hnode') fun c hc c' hc' hlabel =>
      Rep.labels_eq (hcs c hc) (hcs' c' hc') hlabel
    show label s :: (children s).flatMap labels = label s' :: (children s').flatMap labels
    rw [heq, hkids]

/-! ## Appends -/

/-- There are as many nodes in the tree as have been allocated. -/
def Accounted (b : Nat) (t : Mbptree) : Prop :=
  ∃ (D : Nat) (s : UTree LeafData D), Rep t.heap b 0 s ∧ label s = t.root ∧
    (labels s).length + 1 = t.heap.next

section Append

variable {b D : Nat} {t : Mbptree} {sp : Spine LeafData 0 D} {l : LeafData}

theorem length_labels_plug (sp : Spine LeafData 0 D) (a : Nat) (l : LeafData) :
    (labels (sp.plug (leaf a l))).length = sp.labels.length + 1 := by
  rw [(Spine.labels_plug sp _).length_eq, List.length_append, UTree.labels_leaf,
    List.length_singleton]

theorem TreeInv.next_eq (h : TreeInv b t sp l) (ha : Accounted b t) :
    t.heap.next = sp.labels.length + 2 := by
  obtain ⟨D', s, hs, hlabel, hnext⟩ := ha
  rw [← hnext, Rep.labels_eq hs h.rep (hlabel.trans h.root), length_labels_plug]

/-- The last leaf has room: nothing is allocated. -/
theorem TreeInv.accounted_room (h : TreeInv b t sp l) (hb : 3 ≤ b) (ha : Accounted b t)
    {key value : Nat} (hkey : ∀ d ∈ spineEntries sp l, d.key < key)
    (hfit : l.entries.length < b - 1) {t' : Mbptree}
    (heq : t.modify t.lastLeaf (Node.push key value) = some t') : Accounted b t' := by
  obtain ⟨h', hmodify, hinv⟩ := mbptreeTryappend_room hb h value hkey hfit
  rw [heq] at hmodify
  cases hmodify
  refine ⟨D, _, hinv.rep, hinv.root.symm, ?_⟩
  have hnext : h'.next = t.heap.next + 0 := (modify_allocates heq).1
  have hcount := h.next_eq ha
  rw [length_labels_plug]
  show _ = h'.next
  omega

/-- The full last leaf is the root: a root and a leaf are allocated. -/
theorem TreeInv.accounted_root {l : LeafData} (h : TreeInv b t (Spine.root : Spine LeafData 0 0) l)
    (hb : 3 ≤ b) (ha : Accounted b t) {key value : Nat} {t' : Mbptree}
    (heq : mbptreeTryappendFull t key value = some (0, t')) : Accounted b t' := by
  have hroom := h.room
  have hsize : l.entries.length < b := by omega
  have hlast : t.heap.get t.lastLeaf = some (leafNode b 0 l.entries 0) := h.lastNode
  have hal := h.allocs
  obtain ⟨h₁, r, heq₁, hnext, -⟩ :=
    tryappendFull_newRoot hb h.factor hlast rfl (leafNode_length hsize) hsize rfl
    (by rw [hal]; rfl) (by rw [hal]; rfl) key value
  obtain ⟨h', heq', hrep⟩ := mbptreeTryappendFull_root hb h key value
  rw [heq] at heq₁ heq'
  cases heq'
  have hheap : h' = h₁ := congrArg (fun r => r.2.heap) (Option.some.inj heq₁)
  refine ⟨1, _, hrep, rfl, ?_⟩
  have hcount := h.next_eq ha
  rw [← hheap] at hnext
  show 3 + 1 = h'.next
  rw [hnext, hcount]
  rfl

/-- The full last leaf hangs under a node: a leaf is allocated, and what the cascade needs. -/
theorem TreeInv.accounted_up {a : Nat} {left : List (UTree LeafData 0)} {rest : Spine LeafData 1 D}
    (h : TreeInv b t (.up a left rest) l) (hb : 3 ≤ b) (ha : Accounted b t)
    (hfull : l.entries.length = b - 1) {key value : Nat} {t' : Mbptree}
    (heq : mbptreeTryappendFull t key value = some (0, t')) : Accounted b t' := by
  have hal := h.allocs
  obtain ⟨h₂, hnext₂, hfuel, hsp, hlinked, hnew₂, hnodup, heq₂⟩ :=
    h.newLeaf_linked hb hfull key value
  rw [heq] at heq₂
  obtain ⟨⟨r, t₁⟩, hcascade, hresult⟩ := Option.map_eq_some_iff.mp heq₂.symm
  have hnext := addToParent_next hb a left rest (leaf t.lastLeaf ⟨l.entries, t.heap.next⟩)
    (leaf t.heap.next ⟨[⟨key, value⟩], 0⟩) h₂.next { t with heap := h₂, allocs := t.allocs.tail }
      h.factor
    (by rw [hal]; rfl) hfuel hsp hlinked hnew₂ hnodup hcascade
  have hheap : t'.heap = t₁.heap := by
    split at hresult
    · exact absurd (Prod.mk.inj hresult).1 (by decide)
    · cases hresult
      rfl
  obtain ⟨h', heq', hrep⟩ := mbptreeTryappendFull_up hb h hfull key value
  rw [heq] at heq'
  cases heq'
  refine ⟨_, _, hrep, rfl, ?_⟩
  have hgrown := (Spine.labels_grow b (.up a left rest) (leaf t.lastLeaf ⟨l.entries, t.heap.next⟩)
    (leaf t.heap.next ⟨[⟨key, value⟩], 0⟩) t.heap.next).length_eq
  have hcount := h.next_eq ha
  simp only [List.length_append, UTree.labels_leaf, List.length_singleton, List.length_range',
    Spine.supply]
    at hgrown
  have hnext' : h'.next = h₂.next + (Spine.up a left rest).growCount b :=
    (congrArg Heap.next hheap).trans hnext
  show _ = h'.next
  omega

/-- One append. -/
theorem mbptreeAppend_accounted (hb : 3 ≤ b) {es : List Data} (h : TreeHolds b t es)
    (ha : Accounted b t) {key value : Nat} {rc : Int} {t' : Mbptree}
    (heq : mbptreeAppend t key value = some (rc, t')) :
    Accounted b t' := by
  obtain ⟨hlock, D, sp, l, hinv, rfl⟩ := h
  have hlocked := hinv.withLock lockExclusive
  have hla : Accounted b { t with lock := lockExclusive } := ha
  rw [mbptreeAppend, if_neg (not_not.mpr hlock)] at heq
  by_cases hkey : ∀ d ∈ spineEntries sp l, d.key < key
  · obtain ⟨t₁, D', sp', l', heq₁, -⟩ := mbptreeTryappend_grows hb hlocked value hkey
    rw [heq₁] at heq
    cases heq
    show Accounted b t₁
    rw [mbptreeTryappend_eq hb hlocked, if_pos hkey] at heq₁
    by_cases hfit : l.entries.length < b - 1
    · rw [if_pos hfit] at heq₁
      obtain ⟨t₂, hmodify, ht₂⟩ := Option.map_eq_some_iff.mp heq₁
      cases ht₂
      exact hlocked.accounted_room hb hla hkey hfit hmodify
    · have hroom := hinv.room
      rw [if_neg hfit] at heq₁
      cases sp with
      | root => exact hlocked.accounted_root hb hla heq₁
      | up a left rest => exact hlocked.accounted_up hb hla (by omega) heq₁
  · rw [mbptreeTryappend_eq hb hlocked, if_neg hkey] at heq
    cases heq
    exact ha

/-- Any number of appends. -/
theorem appendAll_accounted (hb : 3 ≤ b) :
    ∀ (calls : List (Nat × Nat)) {t : Mbptree} {es : List Data}, TreeHolds b t es → Accounted b t →
      ∀ {rcs : List Int} {t' : Mbptree},
    appendAll t calls = some (rcs, t') → Accounted b t'
  | [], t, es, _, ha, rcs, t', heq => by
    cases heq
    exact ha
  | (key, value) :: calls, t, es, h, ha, rcs, t', heq => by
    obtain ⟨t₁, hstep, h₁, -⟩ := mbptreeAppend_spec hb h key value
    simp only [appendAll, hstep, Option.bind_eq_bind, Option.bind_some, Option.bind_eq_some_iff,
      Option.pure_def, Prod.exists] at heq
    obtain ⟨rcs', t₂, hrest, hresult⟩ := heq
    cases hresult
    exact appendAll_accounted hb calls h₁ (mbptreeAppend_accounted hb h ha hstep) hrest

end Append

/-! ## Freeing the tree -/

/-- No address is missing among as many different ones as have been handed out. -/
theorem mem_of_length {next : Nat} {xs : List Nat} (hnodup : xs.Nodup)
    (hlt : ∀ x ∈ xs, 0 < x ∧ x < next) (hlength : xs.length + 1 = next) {a : Nat}
    (ha : 0 < a ∧ a < next) : a ∈ xs := by
  have hsubset : xs ⊆ List.range' 1 (next - 1) := fun x hx =>
    List.mem_range'_1.mpr ⟨(hlt x hx).1, by have := (hlt x hx).2; omega⟩
  have hperm : xs.Perm (List.range' 1 (next - 1)) :=
    (List.subperm_of_subset hnodup hsubset).perm_of_length_le (by rw [List.length_range']; omega)
  exact hperm.mem_iff.mpr (List.mem_range'_1.mpr ⟨ha.1, by omega⟩)

/-- **Every node that is allocated is in the tree.** -/
theorem TreeInv.allocated {b D : Nat} {t : Mbptree} {sp : Spine LeafData 0 D} {l : LeafData}
    (h : TreeInv b t sp l) (ha : Accounted b t) {a : Nat} {n : Node} (hn : t.heap.get a = some n) :
    a ∈ labels (sp.plug (leaf t.lastLeaf l)) := by
  have hnodup : (labels (sp.plug (leaf t.lastLeaf l))).Nodup :=
    (Spine.labels_plug sp _).nodup_iff.mpr h.nodup
  refine mem_of_length hnodup (fun x hx => ⟨?_, Rep.lt_next h.rep x hx⟩) ?_
    ⟨Nat.pos_of_ne_zero (Heap.ne_null hn), Heap.lt_next hn⟩
  · obtain ⟨m, hm⟩ := Rep.alloc h.rep x hx
    exact Nat.pos_of_ne_zero (Heap.ne_null hm)
  · rw [length_labels_plug, h.next_eq ha]

/-- A new tree is one leaf. -/
theorem accounted_init {b : Nat} (hb : 3 ≤ b) {t : Mbptree} (hinit : mbptreeInit b [] = some t) :
    Accounted b t := by
  cases hinit
  refine ⟨0, leaf 1 ⟨[], 0⟩, rep_leaf.mpr ?_, rfl, rfl⟩
  rw [leafNode_nil (by omega)]
  rfl

/-- **`mbptree_free` leaves nothing behind**: after any appends to a new tree it succeeds, and no
    node that was allocated for the tree is left. -/
theorem tree_freed {b : Nat} (hb : 3 ≤ b) (calls : List (Nat × Nat)) :
    ∃ t₀ rcs t t', mbptreeInit b [] = some t₀ ∧ appendAll t₀ calls = some (rcs, t) ∧
      mbptreeFree t = some (0, t') ∧ ∀ a, t'.heap.get a = none := by
  obtain ⟨t₀, hinit, h₀⟩ := mbptreeInit_spec hb
  obtain ⟨t, hrun, -, D, sp, l, hinv, -⟩ := appendAll_spec hb calls h₀
  have ha := appendAll_accounted hb calls h₀ (accounted_init hb hinit) hrun
  have hnodup : (labels (sp.plug (leaf t.lastLeaf l))).Nodup :=
    (Spine.labels_plug sp _).nodup_iff.mpr hinv.nodup
  obtain ⟨t', hfree, hfreed⟩ :=
    mbptreeFreeNode_spec _ t.heap.next (hinv.height hb) t hnodup hinv.rep
  refine ⟨t₀, _, t, t', hinit, hrun, ?_, fun a => ?_⟩
  · rw [mbptreeFree, hinv.root, hfree]
    rfl
  · rw [hfreed a]
    split
    · rfl
    · rename_i hnot
      rw [Option.eq_none_iff_forall_ne_some]
      exact fun n hn => hnot (hinv.allocated ha hn)

/-- Branch factor 4 and thirty increasing keys. -/
theorem tree_freed_of_thirty :
    3 ≤ 4 ∧ ∃ t₀ rcs t t', mbptreeInit 4 [] = some t₀ ∧
      appendAll t₀ ((List.range 30).map fun i => (i, 100 + i)) = some (rcs, t) ∧
      mbptreeFree t = some (0, t') ∧ ∀ a, t'.heap.get a = none :=
  ⟨by decide, tree_freed (b := 4) (by decide) _⟩

end Mqlog
