/-
  The invariant of the B+tree, and what one `mbptree_append` does to it.

  `TreeInv b t sp l` says that the tree `t` stores the spine `sp` closed by its last leaf `l`:  the
  heap represents the abstract tree, all nodes keep their bounds, every leaf but the last is full
  and links to the next, and the entries are strictly increasing.  `TreeHolds b t es` hides the
  shape and keeps what a client of the tree sees: the list `es` of its entries.

  `mbptreeAppend_spec` is the single step.  A key above all stored ones is added at the end of the
  list; any other key is refused and the tree is the one of before.  The success case has the three
  branches of the code: the last leaf has room, it is full and the root, it is full and hangs under
  a parent.

  Each of the three has its lemma, and each leads back to the invariant by the same road: say which
  spine and which last leaf the tree stores afterwards, and check that

    1. the heap stores them (from `MbptreeAppend`, or by a frame lemma where one node has changed);
    2. no address is used twice, and all of them lie below the next one;
    3. the bounds are kept (`Spine.wide_grow`);
    4. the leaves are linked, and all but the last are full (`Linked`).

  `TreeInv.grow` does this for the two branches that add a leaf.

  The abstract side of the step is `sortedAppend`, an append-only list with strictly increasing
  keys.  The monotonicity check of the code compares with the last entry of the last leaf only; that
  this is the greatest key of the tree is the sortedness in the invariant (`TreeInv.keyTooLow_iff`).

  `LeavesKept` is what the step says about the leaves beside: each keeps its address, its place, and
  its entries in front of a new one.  Iterators rely on it.
-/
import Mqlog.MbptreeCases

namespace Mqlog

open Lib (Heap UTree Spine)
open Lib.UTree (leaf mk label labels leaves children payload)

/-- Every leaf of the list is full and links to the one after it, the last one to `stop`. -/
def Linked (b : Nat) : List (Nat × LeafData) → Nat → Prop
  | [], _ => True
  | x :: rest, stop =>
    x.2.entries.length = b - 1 ∧ x.2.next = (rest.head?.map Prod.fst).getD stop ∧ Linked b rest stop

theorem linked_concat {b : Nat} {x : Nat × LeafData} {stop : Nat} : (ls : List (Nat × LeafData)) →
    Linked b ls x.1 → x.2.entries.length = b - 1 → x.2.next = stop → Linked b (ls ++ [x]) stop
  | [], _, hfull, hnext => ⟨hfull, hnext, trivial⟩
  | [_], ⟨hfull', hnext', _⟩, hfull, hnext => ⟨hfull', hnext', hfull, hnext, trivial⟩
  | _ :: _ :: _, ⟨hfull', hnext', hrest⟩, hfull, hnext =>
    ⟨hfull', hnext', linked_concat _ hrest hfull hnext⟩

/-- Every leaf in front of the last one is full. -/
theorem Linked.full {b : Nat} : {ls : List (Nat × LeafData)} → {stop : Nat} → Linked b ls stop →
    ∀ x ∈ ls, x.2.entries.length = b - 1
  | _ :: _, _, ⟨hfull, _, hrest⟩, x, hx => by
    rcases List.mem_cons.mp hx with rfl | hx
    · exact hfull
    · exact hrest.full x hx

/-- The link of a leaf leads to the leaf behind it; that of the last one is `NULL`. -/
theorem Linked.next_leaf {b : Nat} {last : Nat × LeafData} (hstop : last.2.next = 0) :
    {ls : List (Nat × LeafData)} → Linked b ls last.1 → ∀ {pre post : List (Nat × LeafData)}
    {x : Nat × LeafData}, ls ++ [last] = pre ++ x :: post →
    x.2.next = (post.head?.map Prod.fst).getD 0
  | [], _, pre, post, x, heq => by
    obtain ⟨rfl, hx⟩ := List.append_eq_singleton_iff.mp heq.symm |>.resolve_right (fun h => by
      nomatch h.2)
    obtain ⟨rfl, rfl⟩ := List.cons.inj hx
    exact hstop
  | y :: ls, ⟨_, hnext, hrest⟩, pre, post, x, heq => by
    cases pre with
    | nil =>
      obtain ⟨rfl, rfl⟩ := List.cons.inj heq
      rw [hnext]
      cases ls <;> rfl
    | cons z pre => exact hrest.next_leaf hstop (List.cons.inj heq).2

/-- Every leaf keeps its address, its place among the leaves and, in front, its entries. -/
def LeavesKept (ls ls' : List (Nat × LeafData)) : Prop :=
  ∀ pre x post, ls = pre ++ x :: post →
    ∃ x' post', ls' = pre ++ x' :: post' ∧ x'.1 = x.1 ∧ x.2.entries <+: x'.2.entries

theorem LeavesKept.refl (ls : List (Nat × LeafData)) : LeavesKept ls ls := fun _ x post heq =>
  ⟨x, post, heq, rfl, List.prefix_rfl⟩

/-- What an append does: the last leaf gets an entry, or another leaf behind it. -/
theorem leavesKept_last {init rest : List (Nat × LeafData)} {x x' : Nat × LeafData}
    (haddr : x'.1 = x.1) (hes : x.2.entries <+: x'.2.entries) :
    LeavesKept (init ++ [x]) (init ++ x' :: rest) := by
  intro pre y post heq
  rcases List.eq_nil_or_concat post with rfl | ⟨post', z, rfl⟩
  · obtain ⟨rfl, hxy⟩ := List.append_inj' heq rfl
    obtain rfl := List.singleton_inj.mp hxy
    exact ⟨x', rest, rfl, haddr, hes⟩
  · rw [List.concat_eq_append, ← List.cons_append, ← List.append_assoc] at heq
    obtain ⟨rfl, -⟩ := List.append_inj' heq rfl
    exact ⟨y, post' ++ x' :: rest, by simp, rfl, List.prefix_rfl⟩

/-- The entries of a spine closed by the leaf `l`, from left to right. -/
def spineEntries {D : Nat} (sp : Spine LeafData 0 D) (l : LeafData) : List Data :=
  sp.leaves.flatMap (·.2.entries) ++ l.entries

/-- Entries with strictly increasing keys. -/
def Sorted (es : List Data) : Prop := es.Pairwise fun x y => x.key < y.key

/-- `t` stores the spine `sp` closed by the last leaf `l`. -/
structure TreeInv (b : Nat) (t : Mbptree) {D : Nat} (sp : Spine LeafData 0 D) (l : LeafData) :
    Prop where
  factor : t.branchFactor = b
  allocs : t.allocs = []
  rep : Rep t.heap b 0 (sp.plug (leaf t.lastLeaf l))
  root : t.root = label (sp.plug (leaf t.lastLeaf l))
  nodup : (sp.labels ++ [t.lastLeaf]).Nodup
  wide : sp.Wide ((b + 1) / 2) b
  linked : Linked b sp.leaves t.lastLeaf
  stop : l.next = 0
  room : l.entries.length ≤ b - 1
  nonempty : sp.leaves ≠ [] → l.entries ≠ []
  sorted : Sorted (spineEntries sp l)

/-- The tree `t`, whose lock is free, holds the entries `es`. -/
def TreeHolds (b : Nat) (t : Mbptree) (es : List Data) : Prop :=
  t.lock = lockFree ∧
    ∃ (D : Nat) (sp : Spine LeafData 0 D) (l : LeafData), TreeInv b t sp l ∧ spineEntries sp l = es

theorem TreeHolds.sorted {b : Nat} {t : Mbptree} {es : List Data} (h : TreeHolds b t es) :
    Sorted es := by
  obtain ⟨-, D, sp, l, hinv, rfl⟩ := h
  exact hinv.sorted

/-! ## Reading the invariant -/

namespace TreeInv

variable {b D : Nat} {t : Mbptree} {sp : Spine LeafData 0 D} {l : LeafData}

/-- The last leaf, as it lies in the heap. -/
theorem lastNode (h : TreeInv b t sp l) :
    t.heap.get t.lastLeaf = some (leafNode b sp.top l.entries 0) := by
  have hleaf := rep_leaf.mp ((rep_plug sp _).mp h.rep).2
  rwa [h.stop] at hleaf

theorem spineRep (h : TreeInv b t sp l) :
    SpineRep t.heap b sp t.lastLeaf ((l.entries.map Data.key).headD 0) :=
  ((rep_plug sp _).mp h.rep).1

/-- All addresses in use lie below the next one to be handed out. -/
theorem lt_next (h : TreeInv b t sp l) : ∀ x ∈ sp.labels ++ [t.lastLeaf], x < t.heap.next := by
  intro x hx
  rcases List.mem_append.mp hx with hx | hx
  · obtain ⟨n, hn⟩ := h.spineRep.alloc x hx
    exact Heap.lt_next hn
  · rw [List.mem_singleton.mp hx]
    exact Heap.lt_next h.lastNode

/-- The addresses handed out so far bound the length of the spine. -/
theorem fuel (h : TreeInv b t sp l) (hb : 3 ≤ b) : 2 * sp.length + 1 ≤ t.heap.next := by
  have hlen := Spine.two_mul_length_le (by omega) sp h.wide
  have hsub : sp.labels ++ [t.lastLeaf] ⊆ List.range t.heap.next := fun x hx =>
    List.mem_range.mpr (h.lt_next x hx)
  have hle := (List.subperm_of_subset h.nodup hsub).length_le
  rw [List.length_append, List.length_singleton, List.length_range] at hle
  omega

/-- A tree without an entry in its last leaf is a bare, empty leaf. -/
theorem leaves_nil (h : TreeInv b t sp l) (hl : l.entries = []) : sp.leaves = [] := by
  by_cases hne : sp.leaves = []
  · exact hne
  · exact absurd hl (h.nonempty hne)

/-- The last entry of the tree is the last entry of its last leaf. -/
theorem getLast?_eq (h : TreeInv b t sp l) : (spineEntries sp l).getLast? = l.entries.getLast? := by
  rw [spineEntries, List.getLast?_append]
  cases hl : l.entries.getLast? with
  | some d => rfl
  | none =>
    rw [h.leaves_nil (List.getLast?_eq_none_iff.mp hl)]
    rfl

end TreeInv

/-! ## The monotonicity check -/

/-- In a sorted list a key is above all keys when it is above the last one. -/
theorem above_last_iff {es : List Data} (hs : Sorted es) (key : Nat) :
    (∀ d ∈ es.getLast?, d.key < key) ↔ ∀ d ∈ es, d.key < key := by
  rcases List.eq_nil_or_concat es with rfl | ⟨xs, x, rfl⟩
  · simp
  · rw [List.concat_eq_append, List.getLast?_concat]
    rw [List.concat_eq_append, Sorted, List.pairwise_append] at hs
    constructor
    · intro h d hd
      have hx : x.key < key := h x rfl
      rcases List.mem_append.mp hd with hd | hd
      · exact Nat.lt_trans (hs.2.2 d hd x (List.mem_singleton.mpr rfl)) hx
      · rw [List.mem_singleton.mp hd]; exact hx
    · intro h d hd
      exact h d (List.mem_append_right _ (List.mem_singleton.mpr (Option.some.inj hd).symm))

/-- A greater key behind a sorted list keeps it sorted. -/
theorem sorted_concat {es : List Data} (hs : Sorted es) {d : Data} (hd : ∀ e ∈ es, e.key < d.key) :
    Sorted (es ++ [d]) := by
  refine List.pairwise_append.mpr ⟨hs, List.pairwise_singleton _ _, fun x hx y hy => ?_⟩
  rw [List.mem_singleton.mp hy]
  exact hd x hx

/-- A key is too low for the last leaf when it is not above all keys of the tree. -/
theorem TreeInv.keyTooLow_iff {b D : Nat} {t : Mbptree} {sp : Spine LeafData 0 D} {l : LeafData}
    (h : TreeInv b t sp l) (key : Nat) :
    KeyTooLow (leafNode b sp.top l.entries 0) key ↔ ¬ ∀ d ∈ spineEntries sp l, d.key < key := by
  rw [← above_last_iff h.sorted key, h.getLast?_eq]
  constructor
  · rintro ⟨d, hpos, hd, hle⟩ habove
    have hlt : l.entries.length - 1 < l.entries.length := Nat.sub_lt hpos Nat.one_pos
    refine absurd (habove d ?_) (Nat.not_lt.mpr hle)
    rw [List.getLast?_eq_getElem?]
    exact (leafNode_entry hlt).symm.trans hd
  · intro hnot
    simp only [not_forall, Nat.not_lt] at hnot
    obtain ⟨d, hd, hle⟩ := hnot
    have hpos : 0 < l.entries.length := List.length_pos_of_mem (List.mem_of_getLast? hd)
    refine ⟨d, hpos, (leafNode_entry (Nat.sub_lt hpos Nat.one_pos)).trans ?_, hle⟩
    rw [← List.getLast?_eq_getElem?]
    exact hd

/-- `mbptree_tryappend` up to its first branch: the key is compared with the last entry. -/
theorem mbptreeTryappend_eq {b D : Nat} {t : Mbptree} {sp : Spine LeafData 0 D} {l : LeafData}
    (hb : 3 ≤ b) (h : TreeInv b t sp l) (key value : Nat) :
    mbptreeTryappend t key value =
      if ∀ d ∈ spineEntries sp l, d.key < key then
        if l.entries.length < b - 1 then
          (t.modify t.lastLeaf (Node.push key value)).map fun t => (0, t)
        else mbptreeTryappendFull t key value
      else some (ELIDXNM, t) := by
  have hroom := h.room
  have hsize : l.entries.length < b := by omega
  by_cases hkey : ∀ d ∈ spineEntries sp l, d.key < key
  · rw [if_pos hkey]
    exact tryappend_high value h.factor h.lastNode (leafNode_length hsize) hsize fun hlow =>
      (h.keyTooLow_iff key).mp hlow hkey
  · rw [if_neg hkey]
    exact tryappend_low value h.lastNode ((h.keyTooLow_iff key).mpr hkey)

/-! ## The last leaf has room -/

/-- A leaf with room takes the key, and the leaf is all that changes. -/
theorem mbptreeTryappend_room {b D : Nat} {t : Mbptree} {sp : Spine LeafData 0 D} {l : LeafData}
    (hb : 3 ≤ b) (h : TreeInv b t sp l) {key : Nat} (value : Nat)
    (hkey : ∀ d ∈ spineEntries sp l, d.key < key) (hfit : l.entries.length < b - 1) :
    ∃ h', t.modify t.lastLeaf (Node.push key value) = some { t with heap := h' } ∧
      TreeInv b { t with heap := h' } sp { l with entries := l.entries ++ [⟨key, value⟩] } := by
  have hpush : (leafNode b sp.top l.entries 0).push key value =
      some (leafNode b sp.top (l.entries ++ [⟨key, value⟩]) 0) := leafNode_push (by omega) key value
  have hlast : t.lastLeaf ∉ sp.labels := fun hmem =>
    (List.nodup_append.mp h.nodup).2.2 _ hmem _ (List.mem_singleton.mpr rfl) rfl
  refine ⟨_, Mbptree.modify_eq h.lastNode hpush, h.factor, h.allocs, ?_, ?_, h.nodup, h.wide,
    h.linked, h.stop, ?_, fun _ => List.append_ne_nil_of_right_ne_nil _ (List.cons_ne_nil _ _), ?_⟩
  · refine (rep_plug sp _).mpr ⟨?_, ?_⟩
    · have hkeep : SpineRep (t.heap.set t.lastLeaf
          (leafNode b sp.top (l.entries ++ [⟨key, value⟩]) 0)) b sp t.lastLeaf
          ((l.entries.map Data.key).headD 0) := by
        refine SpineRep.congr (fun y hy => Heap.get_set_of_ne ?_) h.spineRep
        rintro rfl
        exact hlast hy
      cases hl : l.entries with
      | nil =>
        -- an empty last leaf is the whole tree
        cases sp with
        | root => trivial
        | up a left rest =>
          exact absurd (h.leaves_nil hl) (Spine.leaves_ne_nil (by omega) h.wide)
      | cons d ds =>
        rw [hl] at hkeep
        exact hkeep
    · refine rep_leaf.mpr ?_
      rw [h.stop]
      exact Heap.get_set_self h.lastNode
  · exact h.root.trans (label_plug_congr sp rfl)
  · rw [List.length_append, List.length_singleton]
    omega
  · have hsorted := sorted_concat h.sorted (d := ⟨key, value⟩) hkey
    rwa [spineEntries, List.append_assoc] at hsorted

/-! ## The last leaf is full -/

/-- A tree that stores the grown spine satisfies the invariant again: its last leaf is the new
    one, and the old last leaf joins the leaves before it. -/
theorem TreeInv.grow {b D : Nat} {t : Mbptree} {sp : Spine LeafData 0 D} {l : LeafData}
    (hb : 3 ≤ b) (h : TreeInv b t sp l) (t' : Mbptree) {key value : Nat}
    (hkey : ∀ d ∈ spineEntries sp l, d.key < key) (hfull : l.entries.length = b - 1)
    (hfactor : t'.branchFactor = b) (hallocs : t'.allocs = [])
    (hlast : t'.lastLeaf = sp.sibling t.heap.next)
    (hroot : t'.root = label (sp.grow b (leaf t.lastLeaf ⟨l.entries, sp.sibling t.heap.next⟩)
      (leaf (sp.sibling t.heap.next) ⟨[⟨key, value⟩], 0⟩) (sp.supply t.heap.next)).2)
    (hrep : Rep t'.heap b 0 (sp.grow b (leaf t.lastLeaf ⟨l.entries, sp.sibling t.heap.next⟩)
      (leaf (sp.sibling t.heap.next) ⟨[⟨key, value⟩], 0⟩) (sp.supply t.heap.next)).2) :
    ∃ (D' : Nat) (sp' : Spine LeafData 0 D') (l' : LeafData), TreeInv b t' sp' l' ∧
      spineEntries sp' l' = spineEntries sp l ++ [⟨key, value⟩] ∧
      LeavesKept (sp.leaves ++ [(t.lastLeaf, l)]) (sp'.leaves ++ [(t'.lastLeaf, l')]) := by
  have hleaves := Spine.leaves_grow b sp (leaf t.lastLeaf ⟨l.entries, sp.sibling t.heap.next⟩)
    (leaf (sp.sibling t.heap.next) ⟨[⟨key, value⟩], 0⟩) (sp.supply t.heap.next)
  have hwide := Spine.wide_grow (m := (b + 1) / 2) (by omega) (Nat.le_refl _) sp
    (leaf t.lastLeaf ⟨l.entries, sp.sibling t.heap.next⟩)
    (leaf (sp.sibling t.heap.next) ⟨[⟨key, value⟩], 0⟩) (sp.supply t.heap.next) h.wide
    (UTree.wide_leaf _ _ _ _ _) (UTree.wide_leaf _ _ _ _ _)
  have hnodup := Spine.nodup_grow b t.heap.next sp
    (c := leaf t.lastLeaf ⟨l.entries, sp.sibling t.heap.next⟩)
    (n := leaf (sp.sibling t.heap.next) ⟨[⟨key, value⟩], 0⟩) h.nodup h.lt_next rfl
  generalize sp.grow b (leaf t.lastLeaf ⟨l.entries, sp.sibling t.heap.next⟩)
    (leaf (sp.sibling t.heap.next) ⟨[⟨key, value⟩], 0⟩) (sp.supply t.heap.next) = grown at *
  obtain ⟨D', tree⟩ := grown
  obtain ⟨sp', a', l', rfl⟩ := Spine.exists_spine (by omega) tree hwide
  -- the leaves of both descriptions of the grown tree
  rw [Spine.leaves_plug, Spine.leaves_plug, UTree.leaves_leaf, UTree.leaves_leaf,
    UTree.leaves_leaf] at hleaves
  obtain ⟨hleaves', hnew⟩ := List.append_inj' hleaves rfl
  obtain ⟨rfl, rfl⟩ := Prod.mk.inj (List.singleton_inj.mp hnew)
  have hentries : spineEntries sp' ⟨[⟨key, value⟩], 0⟩ = spineEntries sp l ++ [⟨key, value⟩] := by
    simp only [spineEntries, hleaves', List.flatMap_append, List.flatMap_cons, List.flatMap_nil,
      List.append_nil]
  refine ⟨D', sp', ⟨[⟨key, value⟩], 0⟩, ⟨hfactor, hallocs, ?_, ?_, ?_, ?_, ?_, rfl, ?_, ?_, ?_⟩,
    hentries, ?_⟩
  · rw [hlast]; exact hrep
  · rw [hlast]; exact hroot
  · rw [hlast]
    exact (Spine.labels_plug sp' _).nodup_iff.mp hnodup
  · exact ((Spine.wide_plug sp' _).mp hwide).1
  · rw [hleaves', hlast]
    exact linked_concat _ h.linked hfull rfl
  · simp only [List.length_singleton]; omega
  · exact fun _ => List.cons_ne_nil _ _
  · rw [hentries]
    exact sorted_concat h.sorted hkey
  · rw [hleaves', List.append_assoc]
    exact leavesKept_last rfl List.prefix_rfl

/-- The full last leaf is the root: a new root is made over it and the new leaf. -/
theorem mbptreeTryappendFull_root {b : Nat} {t : Mbptree} {l : LeafData} (hb : 3 ≤ b)
    (h : TreeInv b t (Spine.root : Spine LeafData 0 0) l) (key value : Nat) :
    ∃ h', mbptreeTryappendFull t key value =
        some (0, { t with heap := h', lastLeaf := t.heap.next + 1, root := t.heap.next }) ∧
      Rep h' b 0 (mk t.heap.next [leaf t.lastLeaf ⟨l.entries, t.heap.next + 1⟩,
        leaf (t.heap.next + 1) ⟨[⟨key, value⟩], 0⟩]) := by
  have hroom := h.room
  have hsize : l.entries.length < b := by omega
  have hlast : t.heap.get t.lastLeaf = some (leafNode b 0 l.entries 0) := h.lastNode
  have hal := h.allocs
  obtain ⟨h', r, heq, -, hlast', hnew, hr, hnode, -⟩ := tryappendFull_newRoot hb h.factor hlast rfl
    (leafNode_length hsize) hsize rfl (by rw [hal]; rfl) (by rw [hal]; rfl) key value
  have hlinked : h'.get t.lastLeaf = some (leafNode b t.heap.next l.entries (t.heap.next + 1)) :=
    hlast'.trans (congrArg some (leafNode_withValue _))
  refine ⟨h', ?_, rep_mk.mpr ⟨⟨r, hr, hnode⟩, fun c hc => ?_⟩⟩
  · rw [heq, hal, List.tail_nil, List.tail_nil]
  · rcases List.mem_cons.mp hc with rfl | hc
    · exact rep_leaf.mpr hlinked
    · rw [List.mem_singleton.mp hc]
      exact rep_leaf.mpr hnew

/-- The addresses in play when the new leaf is hung under the parent of the last one. -/
theorem newLeaf_addresses_nodup {D a last new : Nat} {left : List (UTree LeafData 0)}
    {rest : Spine LeafData 1 D} {x y : LeafData}
    (hnd : ((Spine.up a left rest).labels ++ [last]).Nodup)
    (hnew : new ∉ (Spine.up a left rest).labels ++ [last]) :
    (a :: ((left ++ [leaf last x] ++ [leaf new y]).flatMap labels ++ rest.labels)).Nodup := by
  have hnd' : ((Spine.up a left rest).labels ++ [last] ++ [new]).Nodup :=
    List.nodup_append.mpr ⟨hnd, List.nodup_singleton _, fun z hz w hw hzw =>
      hnew (List.mem_singleton.mp hw ▸ hzw ▸ hz)⟩
  refine List.Perm.nodup_iff ?_ |>.mp hnd'
  rw [List.perm_iff_count]
  intro z
  simp only [Spine.labels, List.flatMap_append, List.flatMap_cons, List.flatMap_nil,
    List.append_nil, UTree.labels_leaf, List.count_append, List.count_cons]
  omega

/-- The full last leaf hangs under a node: the new leaf is linked in, and the cascade starts. -/
theorem TreeInv.newLeaf_linked {b D a : Nat} {t : Mbptree} {left : List (UTree LeafData 0)}
    {rest : Spine LeafData 1 D} {l : LeafData} (hb : 3 ≤ b)
    (h : TreeInv b t (.up a left rest) l) (hfull : l.entries.length = b - 1) (key value : Nat) :
    ∃ h₂, h₂.next = t.heap.next + 1 ∧ 2 * rest.length ≤ h₂.next ∧
      SpineRep h₂ b (.up a left rest) t.lastLeaf ((l.entries.map Data.key).headD 0) ∧
      Rep h₂ b a (leaf t.lastLeaf ⟨l.entries, t.heap.next⟩) ∧
      Rep h₂ b a (leaf t.heap.next ⟨[⟨key, value⟩], 0⟩) ∧
      (a :: ((left ++ [leaf t.lastLeaf (⟨l.entries, t.heap.next⟩ : LeafData)] ++
        [leaf t.heap.next (⟨[⟨key, value⟩], 0⟩ : LeafData)]).flatMap labels ++ rest.labels)).Nodup ∧
      mbptreeTryappendFull t key value =
        (addToParent (mbptreeSplitNode h₂.next) { t with heap := h₂, allocs := t.allocs.tail } a
          key t.heap.next).map fun r =>
            if r.1 = 0 then (ELIDXPC, { r.2 with lastLeaf := t.heap.next })
            else (0, { r.2 with lastLeaf := t.heap.next, root := r.1 }) := by
  have hlast : t.heap.get t.lastLeaf = some (leafNode b a l.entries 0) := h.lastNode
  have hsize : l.entries.length < b := by omega
  have ha : a ≠ 0 := by
    obtain ⟨⟨n, hn, -⟩, -⟩ := h.spineRep
    exact Heap.ne_null hn
  obtain ⟨h₂, hnext, hlast₂, hnew, hget, heq⟩ := tryappendFull_underParent hb h.factor hlast rfl
    (leafNode_length hsize) hfull ha (by rw [h.allocs]; rfl) key value
  have hlinked : h₂.get t.lastLeaf = some (leafNode b a l.entries t.heap.next) :=
    hlast₂.trans (congrArg some (leafNode_withValue _))
  have hfresh : t.heap.next ∉ (Spine.up a left rest).labels ++ [t.lastLeaf] := fun hmem =>
    absurd (h.lt_next _ hmem) (Nat.lt_irrefl _)
  refine ⟨h₂, hnext, ?_, ?_, rep_leaf.mpr hlinked, rep_leaf.mpr hnew,
    newLeaf_addresses_nodup h.nodup hfresh, heq⟩
  · have hle := h.fuel hb
    rw [Spine.length] at hle
    omega
  · -- the nodes above the leaves are those of before
    refine SpineRep.congr (fun y hy => hget y (fun heq => ?_) fun heq => ?_) h.spineRep
    · exact (List.nodup_append.mp h.nodup).2.2 y hy _ (List.mem_singleton.mpr rfl) heq
    · exact hfresh (heq ▸ List.mem_append_left _ hy)

/-- The full last leaf hangs under a node: the new leaf is linked in by the cascade. -/
theorem mbptreeTryappendFull_up {b D a : Nat} {t : Mbptree} {left : List (UTree LeafData 0)}
    {rest : Spine LeafData 1 D} {l : LeafData} (hb : 3 ≤ b)
    (h : TreeInv b t (.up a left rest) l) (hfull : l.entries.length = b - 1) (key value : Nat) :
    ∃ h', mbptreeTryappendFull t key value =
        some (0, { t with
          heap := h'
          lastLeaf := t.heap.next
          root := label ((Spine.up a left rest).grow b (leaf t.lastLeaf ⟨l.entries, t.heap.next⟩)
            (leaf t.heap.next ⟨[⟨key, value⟩], 0⟩) (t.heap.next + 1)).2 }) ∧
      Rep h' b 0 ((Spine.up a left rest).grow b (leaf t.lastLeaf ⟨l.entries, t.heap.next⟩)
        (leaf t.heap.next ⟨[⟨key, value⟩], 0⟩) (t.heap.next + 1)).2 := by
  have hal := h.allocs
  obtain ⟨h₂, hnext₂, hfuel, hsp, hlinked, hnew₂, hnodup, heq₂⟩ :=
    h.newLeaf_linked hb hfull key value
  obtain ⟨h', heq, hrep⟩ := addToParent_spec hb a left rest
    (leaf t.lastLeaf ⟨l.entries, t.heap.next⟩) (leaf t.heap.next ⟨[⟨key, value⟩], 0⟩)
    h₂.next { t with heap := h₂, allocs := t.allocs.tail } h.factor (by rw [hal]; rfl) hfuel
    (h.root.trans (label_plug_congr (.up a left rest) rfl)) hsp hlinked hnew₂ hnodup
  dsimp only at heq hrep
  rw [hnext₂] at heq hrep heq₂
  refine ⟨h', ?_, hrep⟩
  obtain ⟨nr, hnr, -⟩ := hrep.root_alloc
  rw [heq₂]
  refine (congrArg (Option.map _) heq).trans ?_
  rw [Option.map_some, if_neg (Heap.ne_null hnr), hal, List.tail_nil]

/-- `mbptree_tryappend` on a key above all stored ones. -/
theorem mbptreeTryappend_grows {b D : Nat} {t : Mbptree} {sp : Spine LeafData 0 D} {l : LeafData}
    (hb : 3 ≤ b) (h : TreeInv b t sp l) {key : Nat} (value : Nat)
    (hkey : ∀ d ∈ spineEntries sp l, d.key < key) :
    ∃ t' D' sp' l', mbptreeTryappend t key value = some (0, t') ∧ t'.lock = t.lock ∧
      @TreeInv b t' D' sp' l' ∧ spineEntries sp' l' = spineEntries sp l ++ [⟨key, value⟩] ∧
      LeavesKept (sp.leaves ++ [(t.lastLeaf, l)]) (sp'.leaves ++ [(t'.lastLeaf, l')]) := by
  rw [mbptreeTryappend_eq hb h, if_pos hkey]
  by_cases hfit : l.entries.length < b - 1
  · obtain ⟨h', heq, hinv⟩ := mbptreeTryappend_room hb h value hkey hfit
    refine ⟨{ t with heap := h' }, D, sp, _, ?_, rfl, hinv, ?_,
      leavesKept_last rfl (List.prefix_append _ _)⟩
    · rw [if_pos hfit, heq]
      rfl
    · rw [spineEntries, spineEntries, List.append_assoc]
  · have hfull : l.entries.length = b - 1 := by have := h.room; omega
    rw [if_neg hfit]
    cases sp with
    | root =>
      obtain ⟨h', heq, hrep⟩ := mbptreeTryappendFull_root hb h key value
      obtain ⟨D', sp', l', hinv, hes, hkept⟩ := h.grow hb
        { t with heap := h', lastLeaf := t.heap.next + 1, root := t.heap.next } hkey hfull
        h.factor h.allocs rfl rfl hrep
      exact ⟨_, D', sp', l', heq, rfl, hinv, hes, hkept⟩
    | up a left rest =>
      obtain ⟨h', heq, hrep⟩ := mbptreeTryappendFull_up hb h hfull key value
      obtain ⟨D', sp', l', hinv, hes, hkept⟩ := h.grow hb { t with
          heap := h'
          lastLeaf := t.heap.next
          root := label ((Spine.up a left rest).grow b (leaf t.lastLeaf ⟨l.entries, t.heap.next⟩)
            (leaf t.heap.next ⟨[⟨key, value⟩], 0⟩) (t.heap.next + 1)).2 } hkey hfull
        h.factor h.allocs rfl rfl hrep
      exact ⟨_, D', sp', l', heq, rfl, hinv, hes, hkept⟩

/-! ## One append, and a fresh tree -/

/-- An append-only list with strictly increasing keys: what the tree is for. -/
def sortedAppend (es : List Data) (key value : Nat) : Int × List Data :=
  if ∀ d ∈ es, d.key < key then (0, es ++ [⟨key, value⟩]) else (ELIDXNM, es)

theorem TreeInv.withLock {b D : Nat} {t : Mbptree} {sp : Spine LeafData 0 D} {l : LeafData}
    (h : TreeInv b t sp l) (lock : Lock) : TreeInv b { t with lock := lock } sp l :=
  ⟨h.factor, h.allocs, h.rep, h.root, h.nodup, h.wide, h.linked, h.stop, h.room, h.nonempty,
    h.sorted⟩

/-- One append, told by the leaves: the tree answers as the sorted list does, and its leaves are
    kept. -/
theorem mbptreeAppend_kept {b D : Nat} (hb : 3 ≤ b) {t : Mbptree} {sp : Spine LeafData 0 D}
    {l : LeafData} (hlock : t.lock = lockFree) (h : TreeInv b t sp l) (key value : Nat) :
    ∃ t' D' sp' l',
      mbptreeAppend t key value = some ((sortedAppend (spineEntries sp l) key value).1, t') ∧
      t'.lock = lockFree ∧ @TreeInv b t' D' sp' l' ∧
      spineEntries sp' l' = (sortedAppend (spineEntries sp l) key value).2 ∧
      LeavesKept (sp.leaves ++ [(t.lastLeaf, l)]) (sp'.leaves ++ [(t'.lastLeaf, l')]) ∧
      ((sortedAppend (spineEntries sp l) key value).1 = ELIDXNM → t' = t) := by
  have hlocked := h.withLock lockExclusive
  rw [mbptreeAppend, if_neg (not_not.mpr hlock), sortedAppend]
  by_cases hkey : ∀ d ∈ spineEntries sp l, d.key < key
  · obtain ⟨t', D', sp', l', heq, -, hinv', hes, hkept⟩ :=
      mbptreeTryappend_grows hb hlocked value hkey
    rw [if_pos hkey, heq]
    refine ⟨{ t' with lock := lockFree }, D', sp', l', rfl, rfl, hinv'.withLock lockFree, hes,
      hkept, fun h0 => ?_⟩
    exact absurd h0 (show (0 : Int) ≠ ELIDXNM by decide)
  · rw [if_neg hkey, mbptreeTryappend_eq hb hlocked, if_neg hkey]
    refine ⟨t, D, sp, l, ?_, hlock, h, rfl, LeavesKept.refl _, fun _ => rfl⟩
    show some (ELIDXNM, { t with lock := lockFree }) = _
    rw [← hlock]

/-- **One append**: the tree answers as the sorted list does and holds the list that results; a
    refused append leaves the tree as it is. -/
theorem mbptreeAppend_spec {b : Nat} (hb : 3 ≤ b) {t : Mbptree} {es : List Data}
    (h : TreeHolds b t es) (key value : Nat) :
    ∃ t', mbptreeAppend t key value = some ((sortedAppend es key value).1, t') ∧
      TreeHolds b t' (sortedAppend es key value).2 ∧
      ((sortedAppend es key value).1 = ELIDXNM → t' = t) := by
  obtain ⟨hlock, D, sp, l, hinv, rfl⟩ := h
  obtain ⟨t', D', sp', l', heq, hlock', hinv', hes, -, hsame⟩ :=
    mbptreeAppend_kept hb hlock hinv key value
  exact ⟨t', heq, ⟨hlock', D', sp', l', hinv', hes⟩, hsame⟩

/-- A fresh tree holds nothing. -/
theorem mbptreeInit_spec {b : Nat} (hb : 3 ≤ b) :
    ∃ t, mbptreeInit b [] = some t ∧ TreeHolds b t [] := by
  refine ⟨_, rfl, rfl, 0, .root, ⟨[], 0⟩,
    ⟨rfl, rfl, ?_, rfl, ?_, trivial, trivial, rfl, ?_, ?_, ?_⟩, rfl⟩
  · refine rep_leaf.mpr ?_
    rw [leafNode_nil (by omega)]
    rfl
  · exact List.nodup_singleton _
  · exact Nat.zero_le _
  · exact fun hne => absurd rfl hne
  · exact List.Pairwise.nil

end Mqlog
