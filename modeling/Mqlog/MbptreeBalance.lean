/-
  How well filled the tree is.

  Leaves are never split: `mbptree_tryappend` fills the last leaf and only then starts the next
  one.  So all leaves but the last are full, and the number of leaves follows from the number of
  entries (`TreeInv.leaves_count`).

  Inner nodes are split, unevenly when the branch factor is even, and the new child goes to the
  right half after the move; both halves keep at least half of the branch factor, rounded up
  (`Spine.wide_grow`).  The demoted root is one of these halves.  From the bound on every inner node
  below the root follows the bound on the height (`UTree.mul_pow_le_leaves`).

  `Balanced` states this over the heap alone, and `Balanced.of_holds` derives it.  It is about the
  traversals of the heap that a reader of the C structure would make:

    * the leaves below the root: all but the last hold `b - 1` entries, and there are no more of
      them than the entries need;
    * the children of an inner node below the root: at least half of `b`, rounded up;
    * the height, bounded by the number of leaves, since each level multiplies them.

  The root is allowed two children, however large the branch factor is; it has a bound of its own in
  `Wide`, and the inner nodes below it have theirs (`Rep.below_wide`).
-/
import Mqlog.MbptreeShape
import Mathlib

namespace Mqlog

open Lib (Heap UTree Spine)
open Lib.UTree (leaf mk label labels leaves children payload)

/-- The tree holds `n` entries in as few leaves and as few levels as its bounds allow. -/
structure Balanced (b n : Nat) (t : Mbptree) : Prop where
  /-- All leaves but the last are full, and there are no more of them than needed. -/
  leaves : ∃ ls last, leavesUnder t.heap t.heap.next t.root = some (ls ++ [last]) ∧
    (∀ a ∈ ls, ∃ m, t.heap.get a = some m ∧ m.leaf = true ∧ m.size = b - 1) ∧
    (ls ++ [last]).length = n ⌈/⌉ (b - 1)
  /-- The children of an internal node below the root. -/
  inner : ∀ d x m, Below t.heap (d + 1) t.root x → t.heap.get x = some m → m.leaf = false →
    b ⌈/⌉ 2 ≤ m.size + 1
  height : ∀ d x m ls, 1 ≤ d → Below t.heap d t.root x → t.heap.get x = some m → m.leaf = true →
    leavesUnder t.heap t.heap.next t.root = some ls → 2 * (b ⌈/⌉ 2) ^ (d - 1) ≤ ls.length

/-! ## Leaves -/

/-- Full leaves hold `b - 1` entries each. -/
theorem length_entries_full {b : Nat} : {ls : List (Nat × LeafData)} →
    (∀ x ∈ ls, x.2.entries.length = b - 1) → (ls.flatMap (·.2.entries)).length = ls.length * (b - 1)
  | [], _ => by rw [List.length_nil, Nat.zero_mul]; rfl
  | x :: ls, hfull => by
    have ih := length_entries_full fun y hy => hfull y (List.mem_cons_of_mem x hy)
    rw [List.flatMap_cons, List.length_append, ih, hfull x List.mem_cons_self, List.length_cons,
      Nat.add_mul, Nat.one_mul, Nat.add_comm]

/-- The leaves in front of a last one, which is neither empty nor overfull, are counted by the
    entries. -/
theorem succ_eq_ceilDiv {k c r n : Nat} (hn : n = k * c + r) (hr : 1 ≤ r) (hrc : r ≤ c) :
    k + 1 = n ⌈/⌉ c := by
  rw [Nat.ceilDiv_eq_add_pred_div, hn]
  refine (Nat.div_eq_of_lt_le ?_ ?_).symm
  · rw [Nat.add_mul, Nat.one_mul]
    omega
  · rw [Nat.add_mul, Nat.add_mul, Nat.one_mul]
    omega

theorem TreeInv.leaves_count {b D : Nat} {t : Mbptree} {sp : Spine LeafData 0 D} {l : LeafData}
    (h : TreeInv b t sp l) (hne : spineEntries sp l ≠ []) :
    sp.leaves.length + 1 = (spineEntries sp l).length ⌈/⌉ (b - 1) := by
  have hlast : l.entries ≠ [] := by
    intro hnil
    rw [spineEntries, h.leaves_nil hnil, hnil] at hne
    exact hne rfl
  have hlen : (spineEntries sp l).length = sp.leaves.length * (b - 1) + l.entries.length := by
    rw [spineEntries, List.length_append, length_entries_full h.linked.full]
  exact succ_eq_ceilDiv hlen (List.length_pos_iff.mpr hlast) h.room

/-! ## Inner nodes -/

/-- **Below the root**, every tree has the bounds of an inner one: the root has its own. -/
theorem Rep.below_wide {h : Heap Node} {b r m d p e x : Nat} {t : UTree LeafData d}
    (ht : Rep h b p t) (hw : UTree.Wide r m b t) (hbelow : Below h (e + 1) (label t) x) :
    ∃ (d' q : Nat) (s : UTree LeafData d'), Rep h b q s ∧ UTree.Wide m m b s ∧ label s = x := by
  obtain ⟨d', q, s, hd, ⟨hs, hwide⟩, hx⟩ := hbelow.descend (b := b)
    (P := fun {d'} q s => Rep h b q s ∧ (d' = d ∧ UTree.Wide r m b s ∨ d' < d ∧ UTree.Wide m m b s))
    (fun hs => hs.1)
    (fun hs hc => by
      refine ⟨hs.1.2 _ hc, Or.inr ?_⟩
      rcases hs.2 with ⟨hd, hwide⟩ | ⟨hd, hwide⟩
      · exact ⟨by omega, hwide.2.2 _ hc⟩
      · exact ⟨by omega, hwide.2.2 _ hc⟩)
    ⟨ht, Or.inl ⟨rfl, hw⟩⟩ rfl
  rcases hwide with ⟨hroot, -⟩ | ⟨-, hwide⟩
  · omega
  · exact ⟨d', q, s, hs, hwide, hx⟩

/-- An inner node has as many children as the tree that it stores. -/
theorem Rep.inner_size {h : Heap Node} {b d q m : Nat} {s : UTree LeafData d} {n : Node}
    (hs : Rep h b q s) (hw : UTree.Wide m m b s) (hn : h.get (label s) = some n)
    (hleaf : n.leaf = false) : m ≤ n.size + 1 := by
  have hpos := hs.pos_of_inner hn hleaf
  cases d with
  | zero => exact absurd hpos (Nat.lt_irrefl 0)
  | succ d =>
    have hnode := hs.node_get hn
    rw [hnode.size, ← hnode.kids_length, List.length_map]
    exact hw.1

/-! ## The whole tree -/

theorem Balanced.of_holds {b : Nat} (hb : 3 ≤ b) {t : Mbptree} {es : List Data}
    (h : TreeHolds b t es) (hne : es ≠ []) : Balanced b es.length t := by
  obtain ⟨-, D, sp, l, hinv, rfl⟩ := h
  have hcount := hinv.leaves_count hne
  have hhalf : b ⌈/⌉ 2 = (b + 1) / 2 := Nat.ceilDiv_eq_add_pred_div b 2
  obtain ⟨-, hunder, -, -⟩ := hinv.chain_spec hb
  rw [List.map_append, List.map_singleton] at hunder
  refine ⟨⟨_, _, hunder, fun a ha => ?_, ?_⟩, fun d x n hbelow hn hleaf => ?_,
    fun d x n ls hd hbelow hn hleaf hls => ?_⟩
  · obtain ⟨y, hy, rfl⟩ := List.mem_map.mp ha
    obtain ⟨q, hq⟩ := hinv.leaf_mem y (List.mem_append_left _ hy)
    exact ⟨_, hq, rfl, hinv.linked.full y hy⟩
  · rw [List.length_append, List.length_map, List.length_singleton, hcount]
  · rw [hinv.root] at hbelow
    obtain ⟨d', q, s, hs, hwide, rfl⟩ := hinv.rep.below_wide hinv.tree_wide hbelow
    rw [hhalf]
    exact hs.inner_size hwide hn hleaf
  · -- the leaf that is reached lies as deep as the tree is high
    obtain ⟨d', q', s', hD, hs', rfl, -⟩ := (hinv.subtree hb).below hb hbelow hinv.root.symm
    have hheight : D = d := by
      cases d' with
      | zero => exact hD
      | succ d' =>
        rw [(hs'.node hn).leaf] at hleaf
        nomatch hleaf
    rw [hunder, Option.some.injEq] at hls
    subst hheight
    obtain ⟨D', rfl⟩ := Nat.exists_eq_succ_of_ne_zero (Nat.ne_of_gt hd)
    have hmany := UTree.mul_pow_le_leaves _ hinv.tree_wide
    rw [TreeInv.leaves_eq, ← hhalf] at hmany
    rw [← hls, Nat.succ_sub_one, List.length_append, List.length_map]
    simpa using hmany

/-- **The tree is balanced and tightly packed** after every run with at least one accepted
    append. -/
theorem tree_balanced {b : Nat} (hb : 3 ≤ b) (calls : List (Nat × Nat)) :
    ∃ t₀ rcs t, mbptreeInit b [] = some t₀ ∧ appendAll t₀ calls = some (rcs, t) ∧
      (1 ≤ (accepted calls rcs).length → Balanced b (accepted calls rcs).length t) := by
  obtain ⟨t₀, rcs, t, hinit, hrun, h⟩ := init_accepted hb calls
  exact ⟨t₀, rcs, t, hinit, hrun, fun hn => Balanced.of_holds hb h (List.length_pos_iff.mp hn)⟩

/-- Branch factor 4, which splits nodes unevenly, and thirty entries. -/
theorem tree_balanced_of_thirty :
    3 ≤ 4 ∧ ∃ t₀ t, mbptreeInit 4 [] = some t₀ ∧
      appendAll t₀ ((List.range 30).map fun i => (i, 100 + i)) = some (List.replicate 30 0, t) ∧
      Balanced 4 30 t := by
  obtain ⟨t₀, rcs, t, hinit, hrun, hbalanced⟩ :=
    tree_balanced (b := 4) (by decide) ((List.range 30).map fun i => (i, 100 + i))
  have hrcs : (appendAll t₀ ((List.range 30).map fun i => (i, 100 + i))).map Prod.fst =
      some (List.replicate 30 0) := by
    cases hinit
    decide +kernel
  rw [hrun] at hrcs
  have hcodes : rcs = List.replicate 30 0 := Option.some.inj hrcs
  subst hcodes
  exact ⟨by decide, t₀, t, hinit, hrun, hbalanced (by decide)⟩

end Mqlog
