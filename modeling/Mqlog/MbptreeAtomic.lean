/-
  One append when allocations may fail.

  `mbptreeAppend_outcome` says how an append on a sound tree ends: it refuses the key, it runs out
  of memory and undoes what it did, it panics in the middle of the split cascade, it succeeds, or it
  faults.  The fault is the undoing of a failed leaf allocation where no root had been made: then
  `mbptree_free_node` is called with the `NULL` that `new_root` still is (`LosesLeaf`).

      `AddsLeaf`    the key is accepted, and the last leaf is full and has a parent
      `LosesLeaf`   so it is, and the new leaf cannot be allocated: the fault
      `Panics`      so it is, the new leaf is there, and one of the nodes above is not

  All three are conditions on the tree and the allocations before the call.  What an append leaves
  when it fails is said twice: with `SameTree`, in all that a program can see of a tree, and with
  `StoredIn`, for the values in its leaves, which a panic does not take away.

  The trees are all that `mbptree_init` and any appends make, whatever they return and whatever
  allocations fail (`MadeByAppends`), so also those that have panicked before.  These are sound
  (`MadeByAppends.sound`), by induction over the appends, and their lock is free.

  `append_atomic_iff` has both directions: a failed append leaves the tree as it is exactly when it
  does not lose a new leaf.  In `append_atomic_iff_of_rollback` the new root is there and the second
  leaf is not: the root is freed again.  In `append_faults_without_leaf` there is no new root to
  free.
-/
import Mqlog.MbptreeInv
import Mqlog.MbptreeSound

namespace Mqlog

open Lib (Heap)

/-! ## What an append finds -/

/-- The append puts its key into a new leaf under the parent of the last one. -/
def AddsLeaf (t : Mbptree) (key : Nat) : Prop :=
  ∃ n, t.node t.lastLeaf = some n ∧ ¬ KeyTooLow n key ∧ mbptreeNodeFull t t.lastLeaf = some true ∧
    mbptreeIsRoot t t.lastLeaf = some false

/-- The append needs a new leaf under a parent and gets none. -/
def LosesLeaf (t : Mbptree) (key : Nat) : Prop := AddsLeaf t key ∧ t.allocs.headD true = false

/-- The append gets a new leaf under a parent, but not all the nodes that the splits above need. -/
def Panics (t : Mbptree) (key : Nat) : Prop :=
  AddsLeaf t key ∧ t.allocs.headD true = true ∧ ∃ n k, t.node t.lastLeaf = some n ∧
    NeedsCallocs t n.parent k ∧ ¬ CallocsSucceed { t with allocs := t.allocs.tail } k

/-- The trees agree in all that a program can see of them. -/
structure SameTree (t t' : Mbptree) : Prop where
  factor : t'.branchFactor = t.branchFactor
  lock : t'.lock = t.lock
  root : t'.root = t.root
  lastLeaf : t'.lastLeaf = t.lastLeaf
  get : ∀ a, t'.heap.get a = t.heap.get a

/-- The value is stored in a leaf. -/
def StoredIn (h : Heap Node) (v : Nat) : Prop :=
  ∃ a n i, h.get a = some n ∧ n.leaf = true ∧ i < n.size ∧ n.val? i = some v

/-- A tree that appends can make. -/
structure SoundTree (b : Nat) (t : Mbptree) (lev : Nat → Option Nat) : Prop where
  factor : t.branchFactor = b
  sound : Sound b t.heap t.root lev
  last : lev t.lastLeaf = some 0

theorem SameTree.refl (t : Mbptree) : SameTree t t := ⟨rfl, rfl, rfl, rfl, fun _ => rfl⟩

theorem SameTree.soundTree {b : Nat} {t t' : Mbptree} {lev : Nat → Option Nat} (h : SameTree t t')
    (hnext : t.heap.next ≤ t'.heap.next) (ht : SoundTree b t lev) : SoundTree b t' lev where
  factor := h.factor.trans ht.factor
  sound := by
    rw [h.root]
    exact ht.sound.congr (fun a _ _ => h.get a) hnext
  last := by
    rw [h.lastLeaf]
    exact ht.last

theorem KeepsLeaves.storedIn {h h' : Heap Node} (hkeeps : KeepsLeaves h h') {v : Nat}
    (hv : StoredIn h' v) : StoredIn h v := by
  obtain ⟨a, n', i, hn', hleaf, hi, hval⟩ := hv
  obtain ⟨p, hn⟩ := hkeeps a n' hn' hleaf
  exact ⟨a, _, i, hn, hleaf, hi, hval⟩

section Append

variable {b : Nat} {t : Mbptree} {lev : Nat → Option Nat} {n : Node}

/-- The last leaf of a sound tree. -/
theorem SoundTree.lastNode (ht : SoundTree b t lev) :
    ∃ n, t.heap.get t.lastLeaf = some n ∧ n.leaf = true ∧ n.data.length = b ∧ n.size < b ∧
      (n.parent = 0 → t.lastLeaf = t.root) ∧ (n.parent ≠ 0 → lev n.parent = some 1) := by
  obtain ⟨n, hn, ⟨hleaf, hlen, hsize⟩, hzero, hpar⟩ := ht.sound.placed _ _ ht.last
  exact ⟨n, hn, hleaf, hlen, hsize, hzero, hpar⟩

/-! ## Writes to leaves -/

/-- A leaf is written to, its parent is not. -/
theorem Sound.setLeaf {h h' : Heap Node} {root a : Nat} {n' : Node} (hs : Sound b h root lev)
    (ha : lev a = some 0) (hn : h.get a = some n) (hn' : h'.get a = some n')
    (hleaf : n'.leaf = true) (hlen : n'.data.length = b) (hsize : n'.size < b)
    (hpar : n'.parent = n.parent) (hget : ∀ x, x ≠ a → x < h.next → h'.get x = h.get x)
    (hnext : h.next ≤ h'.next) :
    Sound b h' root lev where
  placed x m hx := by
    by_cases hxa : x = a
    · subst hxa
      obtain rfl := Option.some.inj (hx.symm.trans ha)
      obtain ⟨m, hm, -, hzero, hup⟩ := hs.placed x 0 hx
      obtain rfl := Option.some.inj (hn.symm.trans hm)
      refine ⟨n', hn', ⟨hleaf, hlen, hsize⟩, ?_, ?_⟩
      · rw [hpar]
        exact hzero
      · rw [hpar]
        exact hup
    · exact (hs.placed x m hx).keep (Extends.refl lev) (hget x hxa (hs.lt_next hx)) id
  low x m hx := Nat.lt_of_lt_of_le (hs.low x m hx) hnext
  root := hs.root

/-- A leaf is added under a node of level 1. -/
theorem Sound.addLeaf {h : Heap Node} {root a : Nat} (hs : Sound b h root lev) (ha : lev a = none)
    (hn : h.get a = some n) (hleaf : n.leaf = true) (hlen : n.data.length = b) (hsize : n.size < b)
    (hne : n.parent ≠ 0) (hpar : lev n.parent = some 1) :
    ∃ lev', Extends lev lev' ∧ lev' a = some 0 ∧
      (∀ x m, lev' x = some m → x = a ∧ m = 0 ∨ lev x = some m) ∧ Sound b h root lev' := by
  obtain ⟨lev', hext, hnew, hold⟩ := exists_extends ha 0
  refine ⟨lev', hext, hnew, hold, fun x m hx => ?_, fun x m hx => ?_, ?_⟩
  · rcases hold x m hx with ⟨rfl, rfl⟩ | hx'
    · exact ⟨n, hn, ⟨hleaf, hlen, hsize⟩, fun h0 => absurd h0 hne, fun _ => hext _ _ hpar⟩
    · exact (hs.placed x m hx').keep hext rfl id
  · rcases hold x m hx with ⟨-, rfl⟩ | hx'
    · have hlow := hs.low _ _ hpar
      omega
    · exact hs.low x m hx'
  · obtain ⟨m, hm⟩ := hs.root
    exact ⟨m, hext _ _ hm⟩

/-! ## How an append ends -/

/-- The value is in, and nothing else is new; the tree is sound. -/
structure Appended (b : Nat) (t : Mbptree) (value : Nat) (t' : Mbptree) : Prop where
  soundTree : ∃ lev, SoundTree b t' lev
  lock : t'.lock = t.lock
  stored : ∀ v, StoredIn t'.heap v → StoredIn t.heap v ∨ v = value

/-- The last leaf has room. -/
theorem tryappend_room (hb : 3 ≤ b) (ht : SoundTree b t lev) (hn : t.heap.get t.lastLeaf = some n)
    (hfit : n.size < b - 1) (key value : Nat) :
    ∃ t', t.modify t.lastLeaf (Node.push key value) = some t' ∧ Appended b t value t' := by
  obtain ⟨m, hm, hleaf, hlen, hsize, -, -⟩ := ht.lastNode
  obtain rfl := Option.some.inj (hn.symm.trans hm)
  have hpush : n.push key value =
      some { n with data := n.data.set n.size ⟨key, value⟩, size := n.size + 1 } := by
    rw [Node.push, if_pos (by omega)]
  have hself := Heap.get_set_self (w := { n with
    data := n.data.set n.size ⟨key, value⟩, size := n.size + 1 }) hn
  refine ⟨_, Mbptree.modify_eq hn hpush, ⟨lev, ht.factor, ?_, ht.last⟩, rfl, ?_⟩
  · refine ht.sound.setLeaf ht.last hn hself hleaf ?_ (show n.size + 1 < b by omega) rfl
      (fun x hx _ => Heap.get_set_of_ne hx) (Nat.le_refl _)
    exact List.length_set.trans hlen
  · rintro v ⟨a, n', i, hn', hleaf', hi, hval⟩
    by_cases ha : a = t.lastLeaf
    · subst ha
      obtain rfl := Option.some.inj (hself.symm.trans hn')
      have hval' : ((n.data.set n.size ⟨key, value⟩)[i]?).map Data.value = some v := hval
      by_cases hin : i = n.size
      · rw [hin, List.getElem?_set_self (by omega)] at hval'
        exact .inr (Option.some.inj hval').symm
      · rw [List.getElem?_set_ne (Ne.symm hin)] at hval'
        have hi' : i < n.size + 1 := hi
        exact .inl ⟨_, n, i, hn, hleaf, by omega, hval'⟩
    · have hn'' : (t.heap.set t.lastLeaf _).get a = some n' := hn'
      rw [Heap.get_set_of_ne ha] at hn''
      exact .inl ⟨a, n', i, hn'', hleaf', hi, hval⟩

/-- What is stored once a new leaf with one entry is linked behind the last one. -/
theorem stored_newLeaf {h₂ : Heap Node} {p q key value v x : Nat}
    (hn : t.heap.get t.lastLeaf = some n) (hleaf : n.leaf = true)
    (hlast : h₂.get t.lastLeaf = some (Node.withValue n.size x { n with parent := p }))
    (hnew : h₂.get x = some (leafNode b q [⟨key, value⟩] 0))
    (hget : ∀ y, y ≠ t.lastLeaf → y ≠ x → ∀ n', h₂.get y = some n' → n'.leaf = true →
      t.heap.get y = some n')
    (hv : StoredIn h₂ v) : StoredIn t.heap v ∨ v = value := by
  obtain ⟨a, n', i, hn', hleaf', hi, hval⟩ := hv
  by_cases hax : a = x
  · subst hax
    obtain rfl := Option.some.inj (hnew.symm.trans hn')
    obtain rfl : i = 0 := Nat.lt_one_iff.mp hi
    exact .inr (Option.some.inj hval).symm
  by_cases ha : a = t.lastLeaf
  · subst ha
    obtain rfl := Option.some.inj (hlast.symm.trans hn')
    have hi' : i < n.size := hi
    rw [Node.val?_withValue, if_neg (by omega)] at hval
    exact .inl ⟨t.lastLeaf, n, i, hn, hleaf, hi', hval⟩
  · exact .inl ⟨a, n', i, hget a ha hax n' hn' hleaf', hleaf', hi, hval⟩

/-- The full last leaf has a parent, and the new leaf is there: the cascade decides. -/
theorem tryappendFull_up (hb : 3 ≤ b) (ht : SoundTree b t lev) (hn : t.heap.get t.lastLeaf = some n)
    (hfull : n.size = b - 1) (hpar : n.parent ≠ 0) (hok : t.allocs.headD true = true)
    (key value : Nat) :
    ∃ rc t', mbptreeTryappendFull t key value = some (rc, t') ∧ Appended b t value t' ∧
      (rc = 0 ∨ rc = ELIDXPC ∧ ∃ k, NeedsCallocs t n.parent k ∧
        ¬ CallocsSucceed { t with allocs := t.allocs.tail } k) := by
  obtain ⟨m, hm, hleaf, hlen, hsize, -, hlevpar⟩ := ht.lastNode
  obtain rfl := Option.some.inj (hn.symm.trans hm)
  obtain ⟨h₂, hnext₂, hlast₂, hnew₂, hget₂, heq⟩ :=
    tryappendFull_underParent hb ht.factor hn hleaf hlen hfull hpar hok key value
  have hnewlen : (leafNode b n.parent [⟨key, value⟩] 0).data.length = b :=
    leafNode_length (show 1 < b by omega)
  -- the tree that the cascade starts from
  have hs₂ : Sound b h₂ t.root lev := ht.sound.setLeaf ht.last hn hlast₂ hleaf
    (by rw [Node.length_withValue]; exact hlen) hsize rfl
    (fun x hx hxlt => hget₂ x hx (Nat.ne_of_lt hxlt)) (by omega)
  obtain ⟨lev', hext, hlevnew, hold, hs'⟩ := hs₂.addLeaf (ht.sound.fresh (Nat.le_refl _)) hnew₂ rfl
    hnewlen (show 1 < b by omega) hpar (hlevpar hpar)
  have hup : ∀ x m, lev x = some m → 1 ≤ m → h₂.get x = t.heap.get x := by
    intro x m hx hm
    refine hget₂ x ?_ (Nat.ne_of_lt (ht.sound.lt_next hx))
    rintro rfl
    have hzero := Option.some.inj (hx.symm.trans ht.last)
    omega
  obtain ⟨r, t₃, hcascade, hhangs, hneeds⟩ := addToParent_sound hb h₂.next
    { t with heap := h₂, allocs := t.allocs.tail } lev' n.parent 0 key t.heap.next ht.factor hs'
    (hext _ _ (hlevpar hpar)) hlevnew
    (ht.sound.not_child (hlevpar hpar) (hup _ _ (hlevpar hpar) (Nat.le_refl 1))
      (ht.sound.fresh (Nat.le_refl _)))
    (fun x m hx => Nat.lt_of_succ_lt (hs'.low x m hx)) (Nat.le_add_right _ _)
  have hstored : ∀ v, StoredIn t₃.heap v → StoredIn t.heap v ∨ v = value := fun v hv =>
    stored_newLeaf hn hleaf hlast₂ hnew₂
      (fun y hy hyx n' hn' _ => (hget₂ y hy hyx).symm.trans hn') (hhangs.leaves.storedIn hv)
  obtain ⟨lev'', hext', hs''⟩ := hhangs.sound
  rw [hcascade, Option.map_some] at heq
  by_cases hr : r = 0
  · rw [if_pos hr] at heq
    obtain ⟨k, hk⟩ := ht.sound.exists_needsCallocs ht.factor t.heap.next n.parent 1 (hlevpar hpar)
      fun a m ha => by
        have hlow := ht.sound.low a m ha
        omega
    refine ⟨_, _, heq, ⟨⟨lev'', hhangs.factor, hs'', hext' _ _ hlevnew⟩, hhangs.lock, hstored⟩,
      .inr ⟨rfl, k, hk, fun hsucceed => hneeds k ?_ hsucceed hr⟩⟩
    exact hk.congr ht.sound rfl (hlevpar hpar) hup
  · rw [if_neg hr] at heq
    refine ⟨_, _, heq, ⟨⟨lev'', hhangs.factor, ?_, hext' _ _ hlevnew⟩, hhangs.lock, hstored⟩,
      .inl rfl⟩
    show Sound b t₃.heap r lev''
    rw [hhangs.root hr]
    exact hs''

/-- **The full last leaf has a parent, and there is no new leaf**: `mbptree_free_node(NULL)`. -/
theorem tryappendFull_lost (hb : 3 ≤ b) (ht : SoundTree b t lev)
    (hn : t.heap.get t.lastLeaf = some n) (hpar : n.parent ≠ 0) (hok : ¬ t.allocs.headD true = true)
    (key value : Nat) : mbptreeTryappendFull t key value = none := by
  obtain ⟨m, hm, hleaf, hlen, hsize, -, -⟩ := ht.lastNode
  obtain rfl := Option.some.inj (hn.symm.trans hm)
  have hsetPar : Node.setParent 0 n = some { n with parent := 0 } := rfl
  have hmod := Mbptree.modify_eq (t := { t with allocs := t.allocs.tail }) hn hsetPar
  have hnull : mbptreeFreeNode t.heap.next { t with
      heap := t.heap.set t.lastLeaf { n with parent := 0 }, allocs := t.allocs.tail } 0 = none := by
    obtain ⟨fuel, hfuel⟩ := Nat.exists_eq_succ_of_ne_zero (Nat.ne_of_gt t.heap.pos)
    rw [hfuel, mbptreeFreeNode, Mbptree.node, Heap.get_null]
    rfl
  rw [mbptreeTryappendFull, mbptreeIsRoot_eq hn, decide_eq_false hpar]
  simp only [Option.bind_eq_bind, Option.bind_some, Bool.false_eq_true, false_and, if_false,
    newLeaf_failed (show 0 < b by omega) ht.factor hn hleaf hok, if_true, hmod, Heap.next_set,
      hnull]
  rfl

/-- A node without children is freed alone. -/
theorem freeNode_blank {a p fuel : Nat} (hb : 0 < b) (ha : t.heap.get a = some (blankNode b p)) :
    mbptreeFreeNode (fuel + 1) t a = some { t with heap := t.heap.free a } := by
  have hslot : (blankNode b p).data[0]? = some Data.zero := by
    rw [blankNode, List.getElem?_replicate, if_pos hb]
  have hchildren : freeChildren (mbptreeFreeNode fuel) (blankNode b p) 1 0 t = some t := by
    rw [freeChildren, hslot]
    rfl
  rw [mbptreeFreeNode, Mbptree.node, ha]
  exact congrArg (fun o => o.bind fun t => some { t with heap := t.heap.free a }) hchildren

/-- The full last leaf is the root, and both allocations succeed: a new root over two leaves. -/
theorem tryappendFull_twoLeaves (hb : 3 ≤ b) (ht : SoundTree b t lev)
    (hn : t.heap.get t.lastLeaf = some n) (hroot : n.parent = 0)
    (hok : t.allocs.headD true = true) (hok' : t.allocs.tail.headD true = true) (key value : Nat) :
    ∃ t', mbptreeTryappendFull t key value = some (0, t') ∧ Appended b t value t' := by
  obtain ⟨m, hm, hleaf, hlen, hsize, hisRoot, -⟩ := ht.lastNode
  obtain rfl := Option.some.inj (hn.symm.trans hm)
  have hpos : t.heap.next ≠ 0 := Nat.ne_of_gt t.heap.pos
  obtain ⟨h', r, heq, hnext, hlast, hnew, hr, hnode, hget⟩ :=
    tryappendFull_newRoot hb ht.factor hn hleaf hlen hsize hroot hok hok' key value
  refine ⟨_, heq, ?_, rfl, fun v hv => ?_⟩
  · obtain ⟨lev', hext, hlroot, hlnew, hold⟩ := ht.sound.extends_two 1 0
    refine ⟨lev', ht.factor, ⟨fun x m hx => ?_, fun x m hx => ?_, ⟨1, hlroot⟩⟩, hlnew⟩
    · rcases hold x m hx with ⟨rfl, rfl⟩ | ⟨rfl, rfl⟩ | hx₀
      · -- the new root
        have hparent := hnode.parent
        have hlt := ht.sound.lt_next ht.last
        refine ⟨r, hr, ⟨_, _, hparent.symm ▸ hnode, ?_, fun c hc => ?_⟩, fun _ => rfl,
          fun h0 => absurd hparent h0⟩
        · rw [List.nodup_cons, List.mem_singleton]
          exact ⟨by omega, List.nodup_singleton _⟩
        · rcases List.mem_cons.mp hc with rfl | hc
          · exact hext _ _ ht.last
          · rw [List.mem_singleton.mp hc]
            exact hlnew
      · -- the new leaf
        exact ⟨_, hnew, ⟨rfl, leafNode_length (show 1 < b by omega), show 1 < b by omega⟩,
          fun h0 => absurd h0 hpos, fun _ => hlroot⟩
      · have hx_lt := ht.sound.lt_next hx₀
        by_cases hxl : x = t.lastLeaf
        · subst hxl
          obtain rfl := Option.some.inj (hx₀.symm.trans ht.last)
          refine ⟨_, hlast, ⟨hleaf, ?_, hsize⟩, fun h0 => absurd h0 hpos, fun _ => hlroot⟩
          rw [Node.length_withValue]
          exact hlen
        · refine (ht.sound.placed x m hx₀).keep hext (hget x hxl (by omega) (by omega)) fun hxr =>
            ?_
          exact absurd (hxr.trans (hisRoot hroot).symm) hxl
    · have hlow := ht.sound.low _ _ ht.last
      show 2 * m + 1 < h'.next
      rcases hold x m hx with ⟨-, rfl⟩ | ⟨-, rfl⟩ | hx₀
      · omega
      · omega
      · have hlow' := ht.sound.low x m hx₀
        omega
  · refine stored_newLeaf hn hleaf hlast hnew (fun y hy hyx n' hn' hleaf' => ?_) hv
    have hyr : y ≠ t.heap.next := by
      rintro rfl
      obtain rfl := Option.some.inj (hr.symm.trans hn')
      rw [hnode.leaf] at hleaf'
      exact absurd hleaf' Bool.false_ne_true
    exact (hget y hy hyr hyx).symm.trans hn'

/-- The full last leaf is the root, and the new leaf is not allocated: the new root is given
    back. -/
theorem tryappendFull_undone (hb : 3 ≤ b) (ht : SoundTree b t lev)
    (hn : t.heap.get t.lastLeaf = some n) (hroot : n.parent = 0)
    (hok : t.allocs.headD true = true) (hok' : ¬ t.allocs.tail.headD true = true)
    (key value : Nat) :
    ∃ t', mbptreeTryappendFull t key value = some (ELALLC, t') ∧ SameTree t t' ∧
      t.heap.next ≤ t'.heap.next := by
  obtain ⟨m, hm, hleaf, -⟩ := ht.lastNode
  obtain rfl := Option.some.inj (hn.symm.trans hm)
  have hlt : t.lastLeaf < t.heap.next := Heap.lt_next hn
  obtain ⟨H, hH, hHnext, hHlast, hHroot, hHget⟩ := exists_overLeaf b hn
  have hsetPar : Node.setParent 0 ({ n with parent := t.heap.next } : Node) =
      some { n with parent := 0 } := rfl
  have hself : (H.set t.lastLeaf { n with parent := 0 }).get t.heap.next =
      some (blankNode b 0) := by
    rw [Heap.get_set_of_ne (by omega), hHroot]
  refine ⟨{ t with
    heap := (H.set t.lastLeaf { n with parent := 0 }).free t.heap.next
    allocs := t.allocs.tail.tail }, ?_, ⟨rfl, rfl, rfl, rfl, fun a => ?_⟩, ?_⟩
  · have hnewLeaf := newLeaf_failed (t := { t with heap := H, allocs := t.allocs.tail })
      (show 0 < b by omega) ht.factor hHlast hleaf hok'
    have hmod := Mbptree.modify_eq (t := { t with heap := H, allocs := t.allocs.tail.tail }) hHlast
      hsetPar
    rw [tryappendFull_overLeaf ht.factor hn hroot hok key value hH, hnewLeaf]
    simp only [Option.bind_eq_bind, Option.bind_some, if_true, hmod, Heap.next_set, hHnext]
    rw [freeNode_blank (show 0 < b by omega) hself]
    rfl
  · show ((H.set t.lastLeaf { n with parent := 0 }).free t.heap.next).get a = t.heap.get a
    rw [Heap.get_free]
    by_cases har : a = t.heap.next
    · rw [if_pos har, har]
      exact (t.heap.fresh _ (Nat.le_refl _)).symm
    rw [if_neg har]
    by_cases hal : a = t.lastLeaf
    · rw [hal, Heap.get_set_self hHlast, hn, ← hroot]
    · rw [Heap.get_set_of_ne hal, hHget a hal har]
  · show t.heap.next ≤ H.next
    omega

/-- The full last leaf is the root: a new root and a new leaf, or nothing. -/
theorem tryappendFull_root (hb : 3 ≤ b) (ht : SoundTree b t lev)
    (hn : t.heap.get t.lastLeaf = some n) (hroot : n.parent = 0) (key value : Nat) :
    ∃ rc t', mbptreeTryappendFull t key value = some (rc, t') ∧
      (rc = 0 ∧ Appended b t value t' ∨
        rc = ELALLC ∧ SameTree t t' ∧ t.heap.next ≤ t'.heap.next) := by
  by_cases hok : t.allocs.headD true = true
  · by_cases hok' : t.allocs.tail.headD true = true
    · obtain ⟨t', heq, happended⟩ := tryappendFull_twoLeaves hb ht hn hroot hok hok' key value
      exact ⟨0, t', heq, .inl ⟨rfl, happended⟩⟩
    · obtain ⟨t', heq, hsame⟩ := tryappendFull_undone hb ht hn hroot hok hok' key value
      exact ⟨ELALLC, t', heq, .inr ⟨rfl, hsame⟩⟩
  · -- no new root
    refine ⟨ELALLC, { t with allocs := t.allocs.tail }, ?_,
      .inr ⟨rfl, ⟨rfl, rfl, rfl, rfl, fun _ => rfl⟩, Nat.le_refl _⟩⟩
    rw [mbptreeTryappendFull, mbptreeIsRoot_eq hn, decide_eq_true hroot]
    simp only [Option.bind_eq_bind, Option.bind_some, if_true, createNode_eq ht.factor, if_neg hok,
      and_self]
    rfl

/-- **How an append ends**: it faults where it loses the new leaf, and else it succeeds, panics, or
    returns an error with the tree as it was. -/
theorem mbptreeAppend_outcome (hb : 3 ≤ b) (ht : SoundTree b t lev) (hlock : t.lock = lockFree)
    (key value : Nat) :
    LosesLeaf t key ∧ mbptreeAppend t key value = none ∨
    ¬ LosesLeaf t key ∧ ∃ rc t', mbptreeAppend t key value = some (rc, t') ∧
      ((rc = 0 ∨ rc = ELIDXPC ∧ Panics t key) ∧ Appended b t value t' ∨
        (rc = ELIDXNM ∨ rc = ELALLC) ∧ SameTree t t' ∧ t.heap.next ≤ t'.heap.next) := by
  have ht' : SoundTree b { t with lock := lockExclusive } lev := ⟨ht.factor, ht.sound, ht.last⟩
  obtain ⟨n, hn, hleaf, hlen, hsize, -, hlevpar⟩ := ht.lastNode
  have happend : mbptreeAppend t key value =
      (mbptreeTryappend { t with lock := lockExclusive } key value).bind fun r =>
        some (r.1, { r.2 with lock := lockFree }) := by
    rw [mbptreeAppend, if_neg (not_not.mpr hlock)]
    rfl
  have hfull := mbptreeNodeFull_eq hn (by rw [ht.factor]; exact hsize)
  have hisRoot := mbptreeIsRoot_eq hn
  rw [ht.factor] at hfull
  by_cases hlow : KeyTooLow n key
  · right
    refine ⟨?_, ELIDXNM, { t with lock := lockFree }, ?_,
      .inr ⟨.inl rfl, ⟨rfl, hlock.symm, rfl, rfl, fun _ => rfl⟩, Nat.le_refl _⟩⟩
    · rintro ⟨⟨n', hn', hhigh, -⟩, -⟩
      obtain rfl := Option.some.inj (hn.symm.trans hn')
      exact hhigh hlow
    · rw [happend, tryappend_low (t := { t with lock := lockExclusive }) value hn hlow]
      rfl
  have htry := tryappend_high (t := { t with lock := lockExclusive }) value ht.factor hn hlen
    hsize hlow
  by_cases hfit : n.size < b - 1
  · right
    obtain ⟨t', hmod, ⟨lev', hs'⟩, hlock', hstored⟩ := tryappend_room hb ht' hn hfit key value
    refine ⟨?_, 0, { t' with lock := lockFree }, ?_, .inl ⟨.inl rfl,
      ⟨lev', hs'.factor, hs'.sound, hs'.last⟩, hlock.symm, hstored⟩⟩
    · rintro ⟨⟨-, -, -, hisFull, -⟩, -⟩
      rw [decide_eq_false (by omega)] at hfull
      exact absurd (hisFull.symm.trans hfull) (by decide)
    · rw [happend, htry, if_pos hfit, hmod]
      rfl
  rw [if_neg hfit] at htry
  rw [decide_eq_true (by omega)] at hfull
  by_cases hroot : n.parent = 0
  · right
    obtain ⟨rc, t', heq, hcases⟩ := tryappendFull_root hb ht' hn hroot key value
    refine ⟨?_, rc, { t' with lock := lockFree }, ?_, ?_⟩
    · rintro ⟨⟨-, -, -, -, hnotRoot⟩, -⟩
      rw [decide_eq_true hroot] at hisRoot
      exact absurd (hnotRoot.symm.trans hisRoot) (by decide)
    · rw [happend, htry, heq]
      rfl
    · rcases hcases with ⟨hrc, ⟨lev', hs'⟩, -, hstored⟩ | ⟨hrc, hsame, hnext⟩
      · exact .inl ⟨.inl hrc, ⟨lev', hs'.factor, hs'.sound, hs'.last⟩, hlock.symm, hstored⟩
      · exact .inr ⟨.inr hrc, ⟨hsame.factor, hlock.symm, hsame.root, hsame.lastLeaf, hsame.get⟩,
          hnext⟩
  have hadds : AddsLeaf t key := by
    rw [decide_eq_false hroot] at hisRoot
    exact ⟨n, hn, hlow, hfull, hisRoot⟩
  by_cases hok : t.allocs.headD true = true
  · right
    obtain ⟨rc, t', heq, ⟨⟨lev', hs'⟩, -, hstored⟩, hcases⟩ :=
      tryappendFull_up hb ht' hn (by omega) hroot hok key value
    refine ⟨?_, rc, { t' with lock := lockFree }, ?_, .inl ⟨?_,
      ⟨lev', hs'.factor, hs'.sound, hs'.last⟩, hlock.symm, hstored⟩⟩
    · rintro ⟨-, hfails⟩
      rw [hok] at hfails
      exact absurd hfails.symm Bool.false_ne_true
    · rw [happend, htry, heq]
      rfl
    · refine hcases.imp id ?_
      rintro ⟨hrc, k, hk, hfails⟩
      refine ⟨hrc, hadds, hok, n, k, hn, ?_, hfails⟩
      exact hk.congr ht'.sound rfl (hlevpar hroot) fun _ _ _ _ => rfl
  · left
    refine ⟨⟨hadds, Bool.eq_false_iff.mpr hok⟩, ?_⟩
    rw [happend, htry, tryappendFull_lost hb ht' hn hroot hok]
    rfl

end Append

/-! ## Every tree that appends can make -/

/-- The trees that `mbptree_init` and any appends make, whatever they return and whatever
    allocations fail. -/
inductive MadeByAppends (b : Nat) : Mbptree → Prop where
  | init (allocs : List Bool) {t : Mbptree} : mbptreeInit b allocs = some t → MadeByAppends b t
  | append {t t' : Mbptree} (allocs : List Bool) (key value : Nat) {rc : Int} : MadeByAppends b t →
      mbptreeAppend { t with allocs := allocs } key value = some (rc, t') → MadeByAppends b t'

/-- A new tree is one empty leaf. -/
theorem mbptreeInit_eq {b : Nat} (hb : 0 < b) {allocs : List Bool} {t : Mbptree}
    (h : mbptreeInit b allocs = some t) :
    ∃ rest, t = { branchFactor := b, lock := lockFree, root := 1, lastLeaf := 1,
                  heap := Heap.empty.alloc (leafNode b 0 [] 0), allocs := rest } := by
  rw [leafNode_nil hb]
  rcases allocs with _ | ⟨_ | _, _ | ⟨_ | _, allocs⟩⟩
  · exact ⟨[], (Option.some.inj h).symm⟩
  · cases h
  · cases h
  · cases h
  · exact ⟨[], (Option.some.inj h).symm⟩
  · cases h
  · exact ⟨allocs, (Option.some.inj h).symm⟩

theorem mbptreeInit_sound {b : Nat} (hb : 3 ≤ b) {allocs : List Bool} {t : Mbptree}
    (h : mbptreeInit b allocs = some t) : t.lock = lockFree ∧ ∃ lev, SoundTree b t lev := by
  obtain ⟨rest, rfl⟩ := mbptreeInit_eq (by omega) h
  have hnone : (Function.const Nat none : Nat → Option Nat) 1 = none := rfl
  obtain ⟨lev, -, hlev, hold⟩ := exists_extends hnone 0
  refine ⟨rfl, lev, rfl, ⟨fun x m hx => ?_, fun x m hx => ?_, ⟨0, hlev⟩⟩, hlev⟩
  · obtain ⟨rfl, rfl⟩ | hx' := hold x m hx
    · refine ⟨leafNode b 0 [] 0, rfl, ⟨rfl, leafNode_length (show 0 < b by omega), show 0 <
        b by omega⟩, fun _ => rfl, fun h0 => absurd rfl h0⟩
    · cases hx'
  · obtain ⟨rfl, rfl⟩ | hx' := hold x m hx
    · exact Nat.lt_succ_self 1
    · cases hx'

/-- All these trees are sound, and their lock is free. -/
theorem MadeByAppends.sound {b : Nat} (hb : 3 ≤ b) {t : Mbptree} (h : MadeByAppends b t) :
    t.lock = lockFree ∧ ∃ lev, SoundTree b t lev := by
  induction h with
  | init allocs hinit => exact mbptreeInit_sound hb hinit
  | @append t t' allocs key value rc _ happend ih =>
    obtain ⟨hlock, lev, ht⟩ := ih
    have ht' : SoundTree b { t with allocs := allocs } lev := ⟨ht.factor, ht.sound, ht.last⟩
    rcases mbptreeAppend_outcome hb ht' hlock key value with ⟨-, hnone⟩ | ⟨-, rc', t'', heq, hcases⟩
    · rw [hnone] at happend
      cases happend
    · rw [heq] at happend
      cases happend
      rcases hcases with ⟨-, ⟨lev', hs'⟩, hlock', -⟩ | ⟨-, hsame, hnext⟩
      · exact ⟨hlock'.trans hlock, lev', hs'⟩
      · exact ⟨hsame.lock.trans hlock, lev, hsame.soundTree hnext ht'⟩

/-- The append does not fault, and unless it succeeds or panics it leaves the tree as it is. -/
def FailsAtomically (t : Mbptree) (key value : Nat) : Prop :=
  ∃ rc t', mbptreeAppend t key value = some (rc, t') ∧ (rc ≠ 0 → rc ≠ ELIDXPC → SameTree t t')

/-- **A failed append leaves the tree as it is exactly when it does not lose a new leaf.** -/
theorem append_atomic_iff {b : Nat} (hb : 3 ≤ b) {t : Mbptree} (ht : MadeByAppends b t)
    (allocs : List Bool) (key value : Nat) :
    FailsAtomically { t with allocs := allocs } key value ↔
      ¬ LosesLeaf { t with allocs := allocs } key := by
  obtain ⟨hlock, lev, hs⟩ := ht.sound hb
  have hs' : SoundTree b { t with allocs := allocs } lev := ⟨hs.factor, hs.sound, hs.last⟩
  rcases mbptreeAppend_outcome hb hs' hlock key value with
    ⟨hlost, hnone⟩ | ⟨hkept, rc, t', heq, hcases⟩
  · refine ⟨?_, fun hkept => absurd hlost hkept⟩
    rintro ⟨rc, t', heq, -⟩
    rw [hnone] at heq
    cases heq
  · refine ⟨fun _ => hkept, fun _ => ⟨rc, t', heq, fun hrc hpanic => ?_⟩⟩
    rcases hcases with ⟨hrc' | ⟨hpanic', -⟩, -⟩ | ⟨-, hsame, -⟩
    · exact absurd hrc' hrc
    · exact absurd hpanic' hpanic
    · exact hsame

/-- The first two keys fill the only leaf.  The third one gets a new root and no memory for the
    second leaf: the root is freed again, and the tree is as it was. -/
theorem append_atomic_iff_of_rollback :
    ∃ t t', MadeByAppends 3 t ∧ ¬ LosesLeaf { t with allocs := [true, false] } 3 ∧
      mbptreeAppend { t with allocs := [true, false] } 3 30 = some (ELALLC, t') ∧
      SameTree { t with allocs := [true, false] } t' := by
  obtain ⟨t, ht, hcode⟩ : ∃ t, MadeByAppends 3 t ∧
      (mbptreeAppend { t with allocs := [true, false] } 3 30).map Prod.fst = some ELALLC := by
    have hinit : MadeByAppends 3 _ := .init [] rfl
    have hone := hinit.append [] 1 10 rfl
    exact ⟨_, hone.append [] 2 20 rfl, rfl⟩
  -- the first allocation, which is the new root's, succeeds
  have hkept : ¬ LosesLeaf { t with allocs := [true, false] } 3 := fun h => Bool.noConfusion h.2
  obtain ⟨rc, t', heq, hsame⟩ := (append_atomic_iff (by decide) ht [true, false] 3 30).mpr hkept
  rw [heq] at hcode
  obtain rfl := Option.some.inj hcode
  exact ⟨t, t', ht, hkept, heq, hsame (by decide) (by decide)⟩

/-- With four keys in two leaves under a root, the fifth key finds no memory for a third leaf. -/
theorem append_faults_without_leaf :
    ∃ t, MadeByAppends 3 t ∧ mbptreeAppend { t with allocs := [false] } 5 50 = none ∧
      ¬ FailsAtomically { t with allocs := [false] } 5 50 := by
  have hinit : MadeByAppends 3 _ := .init [] rfl
  have hone := hinit.append [] 1 10 rfl
  have htwo := hone.append [] 2 20 rfl
  have hthree := htwo.append [] 3 30 rfl
  have hfour := hthree.append [] 4 40 rfl
  refine ⟨_, hfour, rfl, ?_⟩
  rintro ⟨rc, t', heq, -⟩
  cases heq

end Mqlog
