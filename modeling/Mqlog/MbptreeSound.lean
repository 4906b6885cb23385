/-
  What every tree satisfies that appends can make, whatever allocations fail.

  An append that panics (`ELIDXPC`) leaves nodes behind that no parent lists among its children, so
  the tree is not a B+tree any more and `TreeInv` does not hold.  What is left is `Sound`: some
  addresses have a level, the children of a node are one level below it and its parent is one level
  above it, whether or not the parent knows about the node.  This is all that the code needs in
  order not to fault, and it is what the split cascade keeps, at whatever allocation it stops
  (`addToParent_sound`).

  The cascade writes to leaves in their `parent` only (`KeepsLeaves`), and it succeeds when the
  allocations that it needs do (`NeedsCallocs`).

    1. Levels.  `Sound b h root lev` places each node that has a level (`Placed`); the levels are a
       partial function on addresses, so that a node which was lost need not have one.  More nodes
       may get levels as the tree grows (`Extends`).
    2. One split (`Sound.halves`): both halves are placed under the same node, the moved children
       under the new half.  No abstract tree is there to speak about; the nodes are looked up one by
       one.
    3. The cascade, by induction on the fuel.  `Hangs` is its result: it does not fault, the tree is
       sound, leaves are as they were, and the return code tells whether the allocations were there.

  `NeedsCallocs` counts, along the parents, the nodes that have to be allocated: none where there is
  room, two for a full root, and one more than the parent for any other full node.  The climb ends
  because levels go up by one and there are no more levels than addresses
  (`Sound.exists_needsCallocs`).
-/
import Mathlib.Logic.Function.Basic
import Mqlog.MbptreeAppend

namespace Mqlog

open Lib (Heap)

/-! ## Levels -/

/-- What a node of level `ℓ` looks like, where `lev` gives the levels of its children. -/
def LevelOk (b : Nat) (lev : Nat → Option Nat) : Nat → Node → Prop
  | 0, n => n.leaf = true ∧ n.data.length = b ∧ n.size < b
  | ℓ + 1, n => ∃ ks cs, NodeIs b n n.parent ks cs ∧ cs.Nodup ∧ ∀ c ∈ cs, lev c = some ℓ

/-- The node at `a` has level `ℓ`, and its parent, unless it is the root, one more. -/
def Placed (b : Nat) (h : Heap Node) (root : Nat) (lev : Nat → Option Nat) (a ℓ : Nat) : Prop :=
  ∃ n, h.get a = some n ∧ LevelOk b lev ℓ n ∧ (n.parent = 0 → a = root) ∧
    (n.parent ≠ 0 → lev n.parent = some (ℓ + 1))

/-- All nodes with a level are placed; a level takes two nodes at least. -/
structure Sound (b : Nat) (h : Heap Node) (root : Nat) (lev : Nat → Option Nat) : Prop where
  placed : ∀ a ℓ, lev a = some ℓ → Placed b h root lev a ℓ
  low : ∀ a ℓ, lev a = some ℓ → 2 * ℓ + 1 < h.next
  root : ∃ ℓ, lev root = some ℓ

/-- The levels `lev'` are those of `lev` and more. -/
def Extends (lev lev' : Nat → Option Nat) : Prop := ∀ a ℓ, lev a = some ℓ → lev' a = some ℓ

/-- Leaves differ in their parents at most. -/
def KeepsLeaves (h h' : Heap Node) : Prop :=
  ∀ a n', h'.get a = some n' → n'.leaf = true → ∃ p, h.get a = some { n' with parent := p }

section Levels

variable {b : Nat} {h h' h'' : Heap Node} {root root' : Nat} {lev lev' lev'' : Nat → Option Nat}
  {a ℓ : Nat}

theorem Extends.refl (lev : Nat → Option Nat) : Extends lev lev := fun _ _ ha => ha

theorem Extends.trans (h₁ : Extends lev lev') (h₂ : Extends lev' lev'') : Extends lev lev'' :=
  fun a ℓ ha => h₂ a ℓ (h₁ a ℓ ha)

/-- One more address gets a level. -/
theorem exists_extends (ha : lev a = none) (ℓ : Nat) :
    ∃ lev', Extends lev lev' ∧ lev' a = some ℓ ∧
      ∀ x m, lev' x = some m → x = a ∧ m = ℓ ∨ lev x = some m := by
  refine ⟨Function.update lev a (some ℓ), fun x m hx => ?_, Function.update_self ..,
    fun x m hx => ?_⟩
  · rw [Function.update_of_ne, hx]
    rintro rfl
    rw [ha] at hx
    cases hx
  · by_cases hxa : x = a
    · rw [hxa, Function.update_self] at hx
      exact .inl ⟨hxa, (Option.some.inj hx).symm⟩
    · rw [Function.update_of_ne hxa] at hx
      exact .inr hx

theorem KeepsLeaves.refl (h : Heap Node) : KeepsLeaves h h := fun _ n hn _ => ⟨n.parent, hn⟩

theorem KeepsLeaves.trans (h₁ : KeepsLeaves h h') (h₂ : KeepsLeaves h' h'') :
    KeepsLeaves h h'' := by
  intro a n'' hn'' hleaf
  obtain ⟨p, hn'⟩ := h₂ a n'' hn'' hleaf
  obtain ⟨q, hn⟩ := h₁ a _ hn' hleaf
  exact ⟨q, hn⟩

theorem LevelOk.mono {n : Node} (hext : Extends lev lev') (hn : LevelOk b lev ℓ n) :
    LevelOk b lev' ℓ n := by
  cases ℓ with
  | zero => exact hn
  | succ ℓ =>
    obtain ⟨ks, cs, hnode, hnd, hcs⟩ := hn
    exact ⟨ks, cs, hnode, hnd, fun c hc => hext c ℓ (hcs c hc)⟩

/-- What a level asks of a node does not depend on the parent. -/
theorem LevelOk.setParent {n : Node} (hn : LevelOk b lev ℓ n) (q : Nat) :
    LevelOk b lev ℓ { n with parent := q } := by
  cases ℓ with
  | zero => exact hn
  | succ ℓ =>
    obtain ⟨ks, cs, hnode, hnd, hcs⟩ := hn
    exact ⟨ks, cs, hnode.setParent q, hnd, hcs⟩

/-- A node with a level has less than `b` keys. -/
theorem LevelOk.size_lt {n : Node} (hn : LevelOk b lev ℓ n) : n.size < b := by
  cases ℓ with
  | zero => exact hn.2.2
  | succ ℓ =>
    obtain ⟨ks, cs, hnode, -, -⟩ := hn
    have hfits := hnode.fits
    have hlen := hnode.kids_length
    rw [hnode.size]
    omega

/-- A node that is not written to stays placed. -/
theorem Placed.keep (hp : Placed b h root lev a ℓ) (hext : Extends lev lev')
    (hget : h'.get a = h.get a) (hroot : a = root → a = root') : Placed b h' root' lev' a ℓ := by
  obtain ⟨n, hn, hok, hzero, hpar⟩ := hp
  exact ⟨n, hget.trans hn, hok.mono hext, fun h0 => hroot (hzero h0), fun h0 => hext _ _ (hpar h0)⟩

/-- A node that gets a new parent is placed below it. -/
theorem Placed.reparent {q : Nat} (hp : Placed b h root lev a ℓ) (hext : Extends lev lev')
    (hget : ∀ n, h.get a = some n → h'.get a = some { n with parent := q }) (hq : q ≠ 0)
    (hlev : lev' q = some (ℓ + 1)) : Placed b h' root' lev' a ℓ := by
  obtain ⟨n, hn, hok, -, -⟩ := hp
  exact ⟨_, hget n hn, (hok.mono hext).setParent q, fun h0 => absurd h0 hq, fun _ => hlev⟩

/-- A node with a level is allocated. -/
theorem Sound.alloc (hs : Sound b h root lev) (ha : lev a = some ℓ) : ∃ n, h.get a = some n := by
  obtain ⟨n, hn, -⟩ := hs.placed a ℓ ha
  exact ⟨n, hn⟩

theorem Sound.lt_next (hs : Sound b h root lev) (ha : lev a = some ℓ) : a < h.next := by
  obtain ⟨n, hn⟩ := hs.alloc ha
  exact Heap.lt_next hn

/-- Nothing has a level where nothing is allocated. -/
theorem Sound.fresh (hs : Sound b h root lev) (ha : h.next ≤ a) : lev a = none := by
  cases hlev : lev a with
  | none => rfl
  | some ℓ => exact absurd (hs.lt_next hlev) (Nat.not_lt_of_le ha)

/-- The next two addresses get a level. -/
theorem Sound.extends_two (hs : Sound b h root lev) (m₁ m₂ : Nat) :
    ∃ lev', Extends lev lev' ∧ lev' h.next = some m₁ ∧ lev' (h.next + 1) = some m₂ ∧
      ∀ x m, lev' x = some m →
        x = h.next ∧ m = m₁ ∨ x = h.next + 1 ∧ m = m₂ ∨ lev x = some m := by
  obtain ⟨lev₁, hext₁, hfirst, hold₁⟩ := exists_extends (hs.fresh (Nat.le_refl h.next)) m₁
  have hnone : lev₁ (h.next + 1) = none := by
    cases hlev : lev₁ (h.next + 1) with
    | none => rfl
    | some m =>
      rcases hold₁ _ m hlev with ⟨heq, -⟩ | hlev'
      · omega
      · rw [hs.fresh (Nat.le_succ _)] at hlev'
        cases hlev'
  obtain ⟨lev₂, hext₂, hsecond, hold₂⟩ := exists_extends hnone m₂
  refine ⟨lev₂, hext₁.trans hext₂, hext₂ _ _ hfirst, hsecond, fun x m hx => ?_⟩
  rcases hold₂ x m hx with hnew | hx₁
  · exact .inr (.inl hnew)
  · exact (hold₁ x m hx₁).imp id .inr

/-- Soundness is about the nodes with a level. -/
theorem Sound.congr (hs : Sound b h root lev) (hget : ∀ a ℓ, lev a = some ℓ → h'.get a = h.get a)
    (hnext : h.next ≤ h'.next) : Sound b h' root lev where
  placed a ℓ ha := (hs.placed a ℓ ha).keep (Extends.refl lev) (hget a ℓ ha) id
  low a ℓ ha := Nat.lt_of_lt_of_le (hs.low a ℓ ha) hnext
  root := hs.root

end Levels

/-! ## One split -/

/-- The full node `p` was halved into itself and `rhs`, which also took `child`: both halves are
    placed under `q`, the moved children under `rhs`, and everything else where it was. -/
theorem Sound.halves {b : Nat} {h : Heap Node} {root : Nat} {lev lev' : Nat → Option Nat}
    (h' : Heap Node) (root' : Nat) {p rhs q child ℓ k : Nat} {l' r' : Node} {ks₁ ks₂ cs : List Nat}
    (hs : Sound b h root lev) (hcs : ∀ c ∈ cs, lev c = some ℓ) (hchild : lev child = some ℓ)
    (hnd : (cs ++ [child]).Nodup) (hl' : h'.get p = some l') (hlis : NodeIs b l' q ks₁ (cs.take k))
    (hr' : h'.get rhs = some r') (hris : NodeIs b r' q ks₂ (cs.drop k ++ [child]))
    (hmov : ∀ c ∈ cs.drop k ++ [child], ∀ m, h.get c = some m → h'.get c =
      some { m with parent := rhs })
    (hframe : ∀ x m, lev x = some m → x ≠ p → x ∉ cs.drop k ++ [child] → h'.get x = h.get x)
    (hext : Extends lev lev') (hrhs0 : rhs ≠ 0) (hrhs : lev' rhs = some (ℓ + 1)) (hq0 : q ≠ 0)
    (hq : lev' q = some (ℓ + 1 + 1)) (hp : lev p = some (ℓ + 1)) (hroot : root = p ∨ root = root') :
    (∀ x m, lev x = some m → Placed b h' root' lev' x m) ∧ Placed b h' root' lev' rhs (ℓ + 1) := by
  have hsub : ∀ c ∈ cs.drop k ++ [child], lev c = some ℓ := by
    intro c hc
    rcases List.mem_append.mp hc with hc | hc
    · exact hcs c (List.mem_of_mem_drop hc)
    · rw [List.mem_singleton.mp hc]
      exact hchild
  have hdrop : (cs.drop k ++ [child]).Nodup := hnd.sublist ((List.drop_sublist k cs).append_right _)
  have htake : (cs.take k).Nodup := (List.nodup_append.mp hnd).1.sublist (List.take_sublist k cs)
  constructor
  · intro x m hx
    by_cases hxp : x = p
    · subst hxp
      obtain rfl := Option.some.inj (hx.symm.trans hp)
      have hparent := hlis.parent
      refine ⟨l', hl', ⟨ks₁, cs.take k, hparent.symm ▸ hlis, htake, fun c hc => ?_⟩, fun h0 => ?_,
        fun _ => ?_⟩
      · exact hext c ℓ (hcs c (List.mem_of_mem_take hc))
      · exact absurd (hparent.symm.trans h0) hq0
      · rw [hparent]
        exact hq
    by_cases hxmov : x ∈ cs.drop k ++ [child]
    · obtain rfl := Option.some.inj (hx.symm.trans (hsub x hxmov))
      exact (hs.placed x m hx).reparent hext (hmov x hxmov) hrhs0 hrhs
    · refine (hs.placed x m hx).keep hext (hframe x m hx hxp hxmov) fun hxr => ?_
      rcases hroot with hroot | hroot
      · exact absurd (hxr.trans hroot) hxp
      · exact hxr.trans hroot
  · have hparent := hris.parent
    refine ⟨r', hr', ⟨ks₂, _, hparent.symm ▸ hris, hdrop, fun c hc => hext c ℓ (hsub c hc)⟩,
      fun h0 => absurd (hparent.symm.trans h0) hq0, fun _ => ?_⟩
    rw [hparent]
    exact hq

/-! ## Allocations that may fail -/

/-- How many nodes have to be allocated to hang a node under the one at the given address. -/
inductive NeedsCallocs (t : Mbptree) : Nat → Nat → Prop where
  | room {a : Nat} : mbptreeNodeFull t a = some false → NeedsCallocs t a 0
  | root {a : Nat} : mbptreeNodeFull t a = some true → mbptreeIsRoot t a = some true →
      NeedsCallocs t a 2
  | up {a k : Nat} {n : Node} : mbptreeNodeFull t a = some true → mbptreeIsRoot t a = some false →
      t.node a = some n → NeedsCallocs t n.parent k → NeedsCallocs t a (k + 1)

/-- Under a full root, two. -/
theorem NeedsCallocs.eq_two {t : Mbptree} {a k : Nat} {n : Node} (h : NeedsCallocs t a k)
    (hn : t.heap.get a = some n) (hfull : mbptreeNodeFull t a = some true) (hroot : n.parent = 0) :
    k = 2 := by
  cases h with
  | room hroom => exact absurd (hroom.symm.trans hfull) (by decide)
  | root _ _ => rfl
  | up _ hnotRoot _ _ =>
    rw [mbptreeIsRoot_eq hn, decide_eq_true hroot] at hnotRoot
    cases hnotRoot

/-- Under another full node, one more than under its parent. -/
theorem NeedsCallocs.exists_succ {t : Mbptree} {a k : Nat} {n : Node} (h : NeedsCallocs t a k)
    (hn : t.heap.get a = some n) (hfull : mbptreeNodeFull t a = some true) (hroot : n.parent ≠ 0) :
    ∃ j, k = j + 1 ∧ NeedsCallocs t n.parent j := by
  cases h with
  | room hroom => exact absurd (hroom.symm.trans hfull) (by decide)
  | root _ hisRoot =>
    rw [mbptreeIsRoot_eq hn, decide_eq_false hroot] at hisRoot
    cases hisRoot
  | up _ _ hn' hk =>
    obtain rfl := Option.some.inj (hn.symm.trans hn')
    exact ⟨_, rfl, hk⟩

/-- The next `k` allocations succeed. -/
def CallocsSucceed (t : Mbptree) (k : Nat) : Prop := ∀ ok ∈ t.allocs.take k, ok = true

theorem CallocsSucceed.head {t : Mbptree} {k : Nat} (h : CallocsSucceed t (k + 1)) :
    t.allocs.headD true = true := by
  rw [CallocsSucceed] at h
  cases hal : t.allocs with
  | nil => rfl
  | cons ok rest =>
    rw [hal] at h
    exact h ok List.mem_cons_self

theorem CallocsSucceed.tail {t t' : Mbptree} {k : Nat} (h : CallocsSucceed t (k + 1))
    (hal : t'.allocs = t.allocs.tail) : CallocsSucceed t' k := by
  intro ok hok
  refine h ok ?_
  rw [hal] at hok
  cases hal' : t.allocs with
  | nil =>
    rw [hal'] at hok
    exact absurd hok (by simp)
  | cons ok' rest =>
    rw [hal'] at hok
    exact List.mem_cons_of_mem _ hok

/-- The need depends on the nodes from the level of the given one on. -/
theorem NeedsCallocs.congr {b : Nat} {t t' : Mbptree} {lev : Nat → Option Nat} {a k : Nat}
    (hneeds : NeedsCallocs t a k) (hs : Sound b t.heap t.root lev)
    (hbf : t'.branchFactor = t.branchFactor) {ℓ : Nat} (ha : lev a = some ℓ)
    (hget : ∀ x m, lev x = some m → ℓ ≤ m → t'.heap.get x = t.heap.get x) :
    NeedsCallocs t' a k := by
  have hfull : ∀ x, t'.heap.get x = t.heap.get x → mbptreeNodeFull t' x = mbptreeNodeFull t x := by
    intro x hx
    rw [mbptreeNodeFull, mbptreeNodeFull, Mbptree.node, Mbptree.node, hx, hbf]
  have hisRoot : ∀ x, t'.heap.get x = t.heap.get x → mbptreeIsRoot t' x = mbptreeIsRoot t x := by
    intro x hx
    rw [mbptreeIsRoot, mbptreeIsRoot, Mbptree.node, Mbptree.node, hx]
  induction hneeds generalizing ℓ with
  | @room a hroom => exact .room ((hfull a (hget a ℓ ha (Nat.le_refl ℓ))).trans hroom)
  | @root a hf hr =>
    have heq := hget a ℓ ha (Nat.le_refl ℓ)
    exact .root ((hfull a heq).trans hf) ((hisRoot a heq).trans hr)
  | @up a k n hf hr hn hneeds ih =>
    have heq := hget a ℓ ha (Nat.le_refl ℓ)
    obtain ⟨n', hn', -, -, hpar⟩ := hs.placed a ℓ ha
    obtain rfl := Option.some.inj (hn.symm.trans hn')
    have hne : n.parent ≠ 0 := by
      rw [mbptreeIsRoot, hn] at hr
      exact of_decide_eq_false (Option.some.inj hr)
    refine .up ((hfull a heq).trans hf) ((hisRoot a heq).trans hr)
      (show t'.heap.get a = some n from heq.trans hn) ?_
    exact ih (hpar hne) fun x m hx hm => hget x m hx (by omega)

/-! ## The cascade -/

/-- What hanging a node into the tree does, when it returns `r`. -/
structure Hangs (b : Nat) (t : Mbptree) (lev : Nat → Option Nat) (r : Nat) (t' : Mbptree) :
    Prop where
  factor : t'.branchFactor = b
  lock : t'.lock = t.lock
  lastLeaf : t'.lastLeaf = t.lastLeaf
  sound : ∃ lev', Extends lev lev' ∧ Sound b t'.heap t'.root lev'
  leaves : KeepsLeaves t.heap t'.heap
  root : r ≠ 0 → r = t'.root

/-- A failed allocation changes nothing. -/
theorem Hangs.failed {b : Nat} {t : Mbptree} {lev : Nat → Option Nat} (hbf : t.branchFactor = b)
    (hs : Sound b t.heap t.root lev) (allocs : List Bool) :
    Hangs b t lev 0 { t with allocs := allocs } :=
  ⟨hbf, rfl, rfl, ⟨lev, Extends.refl lev, hs⟩, KeepsLeaves.refl _, fun h0 => absurd rfl h0⟩

section Cascade

variable {b : Nat} {t : Mbptree} {lev : Nat → Option Nat} {p ℓ child : Nat} {n : Node}
  {ks cs : List Nat}

/-- The parent has room. -/
theorem addToParent_hangs (fuel key : Nat) (hbf : t.branchFactor = b)
    (hs : Sound b t.heap t.root lev) (hp : lev p = some (ℓ + 1)) (hn : t.heap.get p = some n)
    (hnode : NodeIs b n n.parent ks cs) (hcs : ∀ c ∈ cs, lev c = some ℓ)
    (hchild : lev child = some ℓ) (hnd : (cs ++ [child]).Nodup) (hfit : cs.length < b) :
    ∃ t', addToParent (mbptreeSplitNode fuel) t p key child = some (t.root, t') ∧
      Hangs b t lev t.root t' := by
  obtain ⟨h', n₂, heq, hnext, hself, hadd, hget⟩ := addToParent_of_room key child hbf hn hnode hfit
  refine ⟨{ t with heap := h' }, heq, hbf, rfl, rfl,
    ⟨lev, Extends.refl lev, fun x m hx => ?_, fun x m hx => ?_, hs.root⟩, fun x n' hn' hleaf => ?_,
    fun _ => rfl⟩
  · by_cases hxp : x = p
    · subst hxp
      obtain rfl := Option.some.inj (hx.symm.trans hp)
      obtain ⟨n', hn', -, hzero, hpar⟩ := hs.placed x _ hx
      obtain rfl := Option.some.inj (hn.symm.trans hn')
      have hparent := hadd.parent
      refine ⟨n₂, hself, ⟨_, _, hparent.symm ▸ hadd, hnd, fun c hc => ?_⟩, fun h0 => ?_,
        fun h0 => ?_⟩
      · rcases List.mem_append.mp hc with hc | hc
        · exact hcs c hc
        · rw [List.mem_singleton.mp hc]
          exact hchild
      · exact hzero (hparent ▸ h0)
      · rw [hparent] at h0 ⊢
        exact hpar h0
    · exact (hs.placed x m hx).keep (Extends.refl lev) (hget x hxp) id
  · exact hnext.symm ▸ hs.low x m hx
  · by_cases hxp : x = p
    · subst hxp
      obtain rfl := Option.some.inj (hself.symm.trans hn')
      rw [hadd.leaf] at hleaf
      exact absurd hleaf Bool.false_ne_true
    · exact ⟨n'.parent, (hget x hxp).symm.trans hn'⟩

/-- The children of a node that is split, and the one that it takes, are other nodes. -/
theorem Sound.kid (hs : Sound b t.heap t.root lev) (hp : lev p = some (ℓ + 1))
    (hcs : ∀ c ∈ cs, lev c = some ℓ) (hchild : lev child = some ℓ) {c : Nat}
    (hc : c ∈ cs ++ [child]) :
    lev c = some ℓ ∧ c ≠ p ∧ c < t.heap.next ∧ ∃ m, t.heap.get c = some m := by
  have hlev : lev c = some ℓ := by
    rcases List.mem_append.mp hc with hc | hc
    · exact hcs c hc
    · rw [List.mem_singleton.mp hc]
      exact hchild
  refine ⟨hlev, ?_, hs.lt_next hlev, hs.alloc hlev⟩
  rintro rfl
  have heq := Option.some.inj (hlev.symm.trans hp)
  omega

theorem drop_append_subset (k : Nat) : cs.drop k ++ [child] ⊆ cs ++ [child] :=
  ((List.drop_sublist k cs).append_right [child]).subset

theorem not_mem_of_nodup_append (hnd : (cs ++ [child]).Nodup) : child ∉ cs := fun hmem =>
  (List.nodup_append.mp hnd).2.2 _ hmem _ (List.mem_singleton_self _) rfl

/-- What a split writes to leaves. -/
theorem keepsLeaves_halves {h h' : Heap Node} {rhs q k : Nat} {l' r' : Node}
    {ks₁ ks₂ cs₁ cs₂ : List Nat} (hl' : h'.get p = some l') (hlis : NodeIs b l' q ks₁ cs₁)
    (hr' : h'.get rhs = some r') (hris : NodeIs b r' q ks₂ cs₂)
    (halloc : ∀ c ∈ cs₂, ∃ m, h.get c = some m)
    (hmov : ∀ c ∈ cs₂, ∀ m, h.get c = some m → h'.get c = some { m with parent := k })
    (hframe : ∀ x n', x ≠ p → x ≠ rhs → x ∉ cs₂ → h'.get x = some n' → n'.leaf = true →
      h.get x = some n') : KeepsLeaves h h' := by
  intro x n' hn' hleaf
  by_cases hxp : x = p
  · subst hxp
    obtain rfl := Option.some.inj (hl'.symm.trans hn')
    rw [hlis.leaf] at hleaf
    exact absurd hleaf Bool.false_ne_true
  by_cases hxr : x = rhs
  · subst hxr
    obtain rfl := Option.some.inj (hr'.symm.trans hn')
    rw [hris.leaf] at hleaf
    exact absurd hleaf Bool.false_ne_true
  by_cases hxmov : x ∈ cs₂
  · obtain ⟨m, hm⟩ := halloc x hxmov
    obtain rfl := Option.some.inj ((hmov x hxmov m hm).symm.trans hn')
    exact ⟨m.parent, hm⟩
  · exact ⟨n'.parent, hframe x n' hxp hxr hxmov hn' hleaf⟩

/-- What `mbptree_split_root` writes, when its allocations succeed. -/
theorem mbptreeSplitRoot_heap (hb : 3 ≤ b) (key : Nat) (hbf : t.branchFactor = b)
    (hs : Sound b t.heap t.root lev) (hp : lev p = some (ℓ + 1)) (hn : t.heap.get p = some n)
    (hnode : NodeIs b n n.parent ks cs) (hcs : ∀ c ∈ cs, lev c = some ℓ)
    (hchild : lev child = some ℓ) (hnd : (cs ++ [child]).Nodup) (hfull : cs.length = b)
    (hroot : t.root = p) (hok : t.allocs.headD true = true)
    (hok' : t.allocs.tail.headD true = true) :
    ∃ h' l' r' m' ks₁ ks₂ ks₃, mbptreeSplitRoot t p key child = some (t.heap.next,
        { t with heap := h', allocs := t.allocs.tail.tail, root := t.heap.next }) ∧
      h'.next = t.heap.next + 2 ∧
      h'.get p = some l' ∧ NodeIs b l' t.heap.next ks₁ (cs.take (b / 2 + 1)) ∧
      h'.get (t.heap.next + 1) = some r' ∧
      NodeIs b r' t.heap.next ks₂ (cs.drop (b / 2 + 1) ++ [child]) ∧
      h'.get t.heap.next = some m' ∧ NodeIs b m' 0 ks₃ [p, t.heap.next + 1] ∧
      (∀ c ∈ cs.drop (b / 2 + 1) ++ [child], ∀ m, t.heap.get c = some m →
        h'.get c = some { m with parent := t.heap.next + 1 }) ∧
      ∀ x, x ≠ p → x ≠ t.heap.next → x ≠ t.heap.next + 1 →
        x ∉ cs.drop (b / 2 + 1) ++ [child] → h'.get x = t.heap.get x := by
  subst hbf
  have hlt : p < t.heap.next := hs.lt_next hp
  have hkid := fun {c} (hc : c ∈ cs ++ [child]) => hs.kid hp hcs hchild hc
  obtain ⟨H, hH, hHnext, hHp, hHroot, hHnew, hHget⟩ := exists_rootHeap t.branchFactor hn
  have hHkid : ∀ c ∈ cs ++ [child], H.get c = t.heap.get c := fun c hc =>
    hHget c (hkid hc).2.2.1 (hkid hc).2.1
  have hmemc : child ∈ cs ++ [child] := List.mem_append_right _ (List.mem_singleton_self _)
  obtain ⟨-, hchild_ne, hchild_lt, nc, hnc⟩ := hkid hmemc
  obtain ⟨h₁, l', r', heq, hnext₁, hl', hr', hlis, hris, hmov, hframe⟩ :=
    moveHalfAndAdd_spec (t := { t with heap := H, allocs := t.allocs.tail.tail })
      (l := { n with parent := t.heap.next }) key hb hHp (hnode.setParent t.heap.next) hfull hHnew
      (by omega) (List.nodup_append.mp hnd).1
      (fun c hc => by
        have hmem : c ∈ cs ++ [child] := List.mem_append_left _ hc
        obtain ⟨-, hne, hc_lt, m, hm⟩ := hkid hmem
        exact ⟨hne, by omega, m, (hHkid c hmem).trans hm⟩)
      ((hHkid child hmemc).trans hnc) hchild_ne (by omega) (not_mem_of_nodup_append hnd)
  have hmoved : ∀ c ∈ cs.drop (t.branchFactor / 2 + 1) ++ [child], c ≠ t.heap.next := fun c hc => by
    have hc_lt := (hkid (drop_append_subset _ hc)).2.2.1
    omega
  have hr : h₁.get t.heap.next = some (blankNode t.branchFactor 0) :=
    (hframe _ (by omega) (by omega) fun hmem => hmoved _ hmem rfl).trans hHroot
  obtain ⟨h', m', hrun, hnext', hm', hpair, hget⟩ :=
    mbptreeSplitRoot_eq (by omega) rfl hroot hn hok hok' hH heq hr
  refine ⟨h', l', r', m', _, _, _, hrun, ?_, ?_, hlis, ?_, hris, hm', hpair, ?_, ?_⟩
  · rw [hnext', hnext₁, hHnext]
  · exact (hget p (by omega)).trans hl'
  · exact (hget _ (by omega)).trans hr'
  · intro c hc m hm
    rw [hget c (hmoved c hc)]
    exact hmov c hc m ((hHkid c (drop_append_subset _ hc)).trans hm)
  · intro x hxp hxr hxn hxmov
    rw [hget x hxr, hframe x hxp hxn hxmov]
    by_cases hx : x < t.heap.next
    · exact hHget x hx hxp
    · exact (H.fresh x (by omega)).trans (t.heap.fresh x (by omega)).symm

/-- The parent is a full root: it gets a new root above it and is halved. -/
theorem mbptreeSplitRoot_hangs (hb : 3 ≤ b) (key : Nat) (hbf : t.branchFactor = b)
    (hs : Sound b t.heap t.root lev) (hp : lev p = some (ℓ + 1)) (hn : t.heap.get p = some n)
    (hnode : NodeIs b n n.parent ks cs) (hcs : ∀ c ∈ cs, lev c = some ℓ)
    (hchild : lev child = some ℓ) (hnd : (cs ++ [child]).Nodup) (hfull : cs.length = b)
    (hroot : n.parent = 0) :
    ∃ r t', mbptreeSplitRoot t p key child = some (r, t') ∧ Hangs b t lev r t' ∧
      (CallocsSucceed t 2 → r ≠ 0) := by
  subst hbf
  have hpos : t.heap.next ≠ 0 := Nat.ne_of_gt t.heap.pos
  have htroot : t.root = p := by
    obtain ⟨n', hn', -, hzero, -⟩ := hs.placed p _ hp
    obtain rfl := Option.some.inj (hn.symm.trans hn')
    exact (hzero hroot).symm
  by_cases hok : t.allocs.headD true = true
  swap
  · -- no new root
    exact ⟨0, _, mbptreeSplitRoot_noRoot key child htroot hok, Hangs.failed rfl hs _, fun hall =>
      absurd hall.head hok⟩
  by_cases hok' : t.allocs.tail.headD true = true
  swap
  · -- a new root, which is lost
    have hsame : Sound t.branchFactor (t.heap.alloc (blankNode t.branchFactor 0)) t.root lev :=
      hs.congr (fun x m hx => by rw [Heap.get_alloc, if_neg (Nat.ne_of_lt (hs.lt_next hx))])
        (Nat.le_succ _)
    refine ⟨0, _, mbptreeSplitRoot_lost key child htroot hok hok',
      ⟨rfl, rfl, rfl, ⟨lev, Extends.refl lev, hsame⟩, fun x n' hn' hleaf => ?_,
        fun h0 => absurd rfl h0⟩,
      fun hall => absurd (hall.tail rfl : CallocsSucceed { t with allocs := t.allocs.tail } 1).head
        hok'⟩
    have hx : (t.heap.alloc (blankNode t.branchFactor 0)).get x = some n' := hn'
    rw [Heap.get_alloc] at hx
    split at hx
    · rw [← Option.some.inj hx] at hleaf
      exact absurd hleaf Bool.false_ne_true
    · exact ⟨n'.parent, hx⟩
  obtain ⟨h', l', r', m', ks₁, ks₂, ks₃, hrun, hnext, hl', hlis, hr', hris, hm', hmis, hmov,
    hframe⟩ :=
    mbptreeSplitRoot_heap hb key rfl hs hp hn hnode hcs hchild hnd hfull htroot hok hok'
  obtain ⟨lev', hext, hlroot, hlnew, hold⟩ := hs.extends_two (ℓ + 1 + 1) (ℓ + 1)
  obtain ⟨hplaced, hnew⟩ := hs.halves h' t.heap.next hcs hchild hnd hl' hlis hr' hris hmov
    (fun x m hx hxp hxmov => by
      have hlt := hs.lt_next hx
      exact hframe x hxp (by omega) (by omega) hxmov)
    hext (Nat.succ_ne_zero _) hlnew hpos hlroot hp (.inl htroot)
  refine ⟨t.heap.next, _, hrun, ⟨rfl, rfl, rfl, ⟨lev', hext, fun x m hx => ?_, fun x m hx => ?_,
    ⟨_, hlroot⟩⟩, ?_, fun _ => rfl⟩, fun _ => hpos⟩
  · rcases hold x m hx with ⟨rfl, rfl⟩ | ⟨rfl, rfl⟩ | hx₀
    · -- the new root, over the halves
      have hparent := hmis.parent
      refine ⟨m', hm', ⟨ks₃, _, hparent.symm ▸ hmis, ?_, fun c hc => ?_⟩, fun _ => rfl,
        fun h0 => absurd hparent h0⟩
      · have hlt := hs.lt_next hp
        rw [List.nodup_cons, List.mem_singleton]
        exact ⟨by omega, List.nodup_singleton _⟩
      · rcases List.mem_cons.mp hc with rfl | hc
        · exact hext _ _ hp
        · rw [List.mem_singleton.mp hc]
          exact hlnew
    · exact hnew
    · exact hplaced x m hx₀
  · have hlow := hs.low p _ hp
    show 2 * m + 1 < h'.next
    rw [hnext]
    rcases hold x m hx with ⟨-, rfl⟩ | ⟨-, rfl⟩ | hx₀
    · omega
    · omega
    · have hlow' := hs.low x m hx₀
      omega
  · refine keepsLeaves_halves hl' hlis hr' hris
      (fun c hc => (hs.kid hp hcs hchild (drop_append_subset _ hc)).2.2.2) hmov ?_
    intro x n' hxp hxn hxmov hn' hleaf
    refine (hframe x hxp ?_ hxn hxmov).symm.trans hn'
    rintro rfl
    obtain rfl := Option.some.inj (hm'.symm.trans hn')
    rw [hmis.leaf] at hleaf
    exact absurd hleaf Bool.false_ne_true

/-- The parent is full and has a parent itself: it is halved, and the new node goes one level up. -/
theorem mbptreeSplitNode_halves (hb : 3 ≤ b) (fuel key : Nat) (hbf : t.branchFactor = b)
    (hs : Sound b t.heap t.root lev) (hp : lev p = some (ℓ + 1)) (hn : t.heap.get p = some n)
    (hnode : NodeIs b n n.parent ks cs) (hcs : ∀ c ∈ cs, lev c = some ℓ)
    (hchild : lev child = some ℓ) (hnd : (cs ++ [child]).Nodup) (hfull : cs.length = b)
    (hq : n.parent ≠ 0) (hok : t.allocs.headD true = true) :
    ∃ midKey h' lev', mbptreeSplitNode (fuel + 2) t p key child =
        addToParent (mbptreeSplitNode fuel) { t with heap := h', allocs := t.allocs.tail } n.parent
          midKey t.heap.next ∧
      Sound b h' t.root lev' ∧ Extends lev lev' ∧ lev' t.heap.next = some (ℓ + 1) ∧
      (∀ x m, lev' x = some m → x = t.heap.next ∧ m = ℓ + 1 ∨ lev x = some m) ∧
      KeepsLeaves t.heap h' ∧ ∀ x m, lev x = some m → ℓ + 1 + 1 ≤ m → h'.get x = t.heap.get x := by
  subst hbf
  have hpos : t.heap.next ≠ 0 := Nat.ne_of_gt t.heap.pos
  have hlt : p < t.heap.next := hs.lt_next hp
  have hkid := fun {c} (hc : c ∈ cs ++ [child]) => hs.kid hp hcs hchild hc
  have hget : ∀ x, x < t.heap.next →
      (t.heap.alloc (blankNode t.branchFactor n.parent)).get x = t.heap.get x := by
    intro x hx
    rw [Heap.get_alloc, if_neg (by omega)]
  have hmemc : child ∈ cs ++ [child] := List.mem_append_right _ (List.mem_singleton_self _)
  obtain ⟨-, hchild_ne, hchild_lt, nc, hnc⟩ := hkid hmemc
  obtain ⟨h', l', r', heq, hnext', hl', hr', hlis, hris, hmov, hframe⟩ :=
    moveHalfAndAdd_spec (t := { t with
      heap := t.heap.alloc (blankNode t.branchFactor n.parent)
      allocs := t.allocs.tail }) (l := n) key hb ((hget p hlt).trans hn) hnode hfull
      (Heap.get_alloc_self _ _) (Nat.ne_of_lt hlt) (List.nodup_append.mp hnd).1
      (fun c hc => by
        obtain ⟨-, hne, hc_lt, m, hm⟩ := hkid (List.mem_append_left _ hc)
        exact ⟨hne, Nat.ne_of_lt hc_lt, m, (hget c hc_lt).trans hm⟩)
      ((hget child hchild_lt).trans hnc) hchild_ne (Nat.ne_of_lt hchild_lt)
      (not_mem_of_nodup_append hnd)
  obtain ⟨n', hn', -, -, hpar⟩ := hs.placed p _ hp
  obtain rfl := Option.some.inj (hn.symm.trans hn')
  obtain ⟨lev', hext, hnew, hold⟩ := exists_extends (hs.fresh (Nat.le_refl t.heap.next)) (ℓ + 1)
  have hmoved : ∀ c ∈ cs.drop (t.branchFactor / 2 + 1) ++ [child], ∀ m, t.heap.get c = some m →
      h'.get c = some { m with parent := t.heap.next } := by
    intro c hc m hm
    exact hmov c hc m ((hget c (hkid (drop_append_subset _ hc)).2.2.1).trans hm)
  -- the nodes that are not written to
  have hkeep : ∀ x, x ≠ p → x ≠ t.heap.next →
      x ∉ cs.drop (t.branchFactor / 2 + 1) ++ [child] → h'.get x = t.heap.get x := by
    intro x hxp hxn hxmov
    rw [hframe x hxp hxn hxmov]
    show (t.heap.alloc (blankNode t.branchFactor n.parent)).get x = t.heap.get x
    rw [Heap.get_alloc, if_neg hxn]
  obtain ⟨hplaced, hrhs⟩ := hs.halves h' t.root hcs hchild hnd hl' hlis hr' hris hmoved
    (fun x m hx hxp hxmov => hkeep x hxp (Nat.ne_of_lt (hs.lt_next hx)) hxmov) hext hpos hnew hq
    (hext _ _ (hpar hq)) hp (.inr rfl)
  refine ⟨(ks[t.branchFactor / 2]?).getD 0, h', lev', ?_,
    ⟨fun x m hx => ?_, fun x m hx => ?_, ?_⟩, hext, hnew, hold, ?_, ?_⟩
  · have hisFull : mbptreeNodeFull t p = some true := by
      rw [hnode.nodeFull rfl hn, decide_eq_true hfull]
    exact mbptreeSplitNode_eq fuel rfl hn hisFull hq hok heq hr' hris.parent
  · rcases hold x m hx with ⟨rfl, rfl⟩ | hx'
    · exact hrhs
    · exact hplaced x m hx'
  · rw [hnext']
    show 2 * m + 1 < t.heap.next + 1
    rcases hold x m hx with ⟨-, rfl⟩ | hx'
    · have hlow := hs.low p _ hp
      omega
    · have hlow := hs.low x m hx'
      omega
  · obtain ⟨m, hm⟩ := hs.root
    exact ⟨m, hext _ _ hm⟩
  · refine keepsLeaves_halves hl' hlis hr' hris
      (fun c hc => (hkid (drop_append_subset _ hc)).2.2.2) hmoved ?_
    intro x n' hxp hxn hxmov hn' _
    exact (hkeep x hxp hxn hxmov).symm.trans hn'
  · intro x m hx hm
    refine hkeep x ?_ (Nat.ne_of_lt (hs.lt_next hx)) fun hmem => ?_
    · rintro rfl
      have hlev := Option.some.inj (hx.symm.trans hp)
      omega
    · have hlev := Option.some.inj (hx.symm.trans (hkid (drop_append_subset _ hmem)).1)
      omega

end Cascade

/-- An address without a level is nobody's child. -/
theorem Sound.not_child {b : Nat} {h h' : Heap Node} {root p ℓ x : Nat} {lev : Nat → Option Nat}
    (hs : Sound b h root lev) (hp : lev p = some (ℓ + 1)) (hget : h'.get p = h.get p)
    (hx : lev x = none) (n : Node) (ks cs : List Nat) (hn : h'.get p = some n)
    (hnode : NodeIs b n n.parent ks cs) : x ∉ cs := by
  obtain ⟨n', hn', ⟨ks', cs', hnode', -, hcs'⟩, -⟩ := hs.placed _ _ hp
  obtain rfl := Option.some.inj ((hget.trans hn').symm.trans hn)
  intro hmem
  have hlen : cs.length = cs'.length := by
    have hsize := hnode.size.symm.trans hnode'.size
    rw [hnode.kids_length, hnode'.kids_length, hsize]
  obtain ⟨i, hi⟩ := List.getElem?_of_mem hmem
  have hlt := (List.getElem?_eq_some_iff.mp hi).1
  rw [← hnode.kid i hlt, hnode'.kid i (by omega)] at hi
  rw [hcs' _ (List.mem_of_getElem? hi)] at hx
  cases hx

/-- **The split cascade**: hanging `child` under the node at `p` does not fault, keeps the tree
    sound and the leaves as they are, and succeeds when the allocations that it needs do.  Each
    level of the climb uses two units of fuel. -/
theorem addToParent_sound {b K : Nat} (hb : 3 ≤ b) (fuel : Nat) : ∀ (t : Mbptree)
    (lev : Nat → Option Nat) (p ℓ key child : Nat), t.branchFactor = b → Sound b t.heap t.root lev →
    lev p = some (ℓ + 1) → lev child = some ℓ →
    (∀ n ks cs, t.heap.get p = some n → NodeIs b n n.parent ks cs → child ∉ cs) →
    (∀ a m, lev a = some m → 2 * m < K) → K ≤ fuel + 2 * (ℓ + 1) →
    ∃ r t', addToParent (mbptreeSplitNode fuel) t p key child = some (r, t') ∧
      Hangs b t lev r t' ∧ ∀ k, NeedsCallocs t p k → CallocsSucceed t k → r ≠ 0 := by
  induction fuel using Nat.strong_induction_on with
  | _ fuel ih =>
    intro t lev p ℓ key child hbf hs hp hchild hnot hbound hfuel
    obtain ⟨n, hn, ⟨ks, cs, hnode, hndcs, hcs⟩, hzero, hpar⟩ := hs.placed p _ hp
    have hnd : (cs ++ [child]).Nodup := by
      refine List.nodup_append.mpr ⟨hndcs, List.nodup_singleton _, ?_⟩
      rintro x hx y hy rfl
      rw [List.mem_singleton] at hy
      exact hnot n ks cs hn hnode (hy ▸ hx)
    by_cases hfit : cs.length < b
    · obtain ⟨t', heq, hhangs⟩ := addToParent_hangs fuel key hbf hs hp hn hnode hcs hchild hnd hfit
      obtain ⟨m, hm⟩ := hs.root
      obtain ⟨nr, hnr⟩ := hs.alloc hm
      exact ⟨t.root, t', heq, hhangs, fun _ _ _ => Heap.ne_null hnr⟩
    have hfull : cs.length = b := by
      have hfits := hnode.fits
      omega
    have hisFull : mbptreeNodeFull t p = some true := by
      rw [hnode.nodeFull hbf hn, decide_eq_true hfull]
    have hadd := addToParent_of_full (mbptreeSplitNode fuel) key child hbf hn hnode hfull
    by_cases hroot : n.parent = 0
    · obtain ⟨r, t', heq, hhangs, hneeds⟩ :=
        mbptreeSplitRoot_hangs hb key hbf hs hp hn hnode hcs hchild hnd hfull hroot
      refine ⟨r, t', ?_, hhangs, fun k hk hsucceed => ?_⟩
      · rw [hadd, if_pos hroot]
        exact heq
      · obtain rfl := hk.eq_two hn hisFull hroot
        exact hneeds hsucceed
    · obtain ⟨f, rfl⟩ : ∃ f, fuel = f + 2 := by
        have hup := hbound _ _ (hpar hroot)
        exact ⟨fuel - 2, by omega⟩
      rw [if_neg hroot] at hadd
      by_cases hok : t.allocs.headD true = true
      · obtain ⟨midKey, h', lev', heq, hs', hext, hnew, hold, hleaves, hkeep⟩ :=
          mbptreeSplitNode_halves hb f key hbf hs hp hn hnode hcs hchild hnd hfull hroot hok
        obtain ⟨r, t', hrest, hhangs, hneeds⟩ := ih f (by omega)
          { t with heap := h', allocs := t.allocs.tail } lev' n.parent (ℓ + 1) midKey
            t.heap.next hbf
          hs' (hext _ _ (hpar hroot)) hnew
          (hs.not_child (hpar hroot) (hkeep _ _ (hpar hroot) (Nat.le_refl _))
            (hs.fresh (Nat.le_refl _)))
          (fun x m hx => by
            rcases hold x m hx with ⟨-, rfl⟩ | hx'
            · have hpm := hbound _ _ hp
              omega
            · exact hbound x m hx')
          (by omega)
        refine ⟨r, t', hadd.trans (heq.trans hrest), ⟨hhangs.factor, hhangs.lock, hhangs.lastLeaf,
          ?_, hleaves.trans hhangs.leaves, hhangs.root⟩, fun k hk hsucceed => ?_⟩
        · obtain ⟨lev'', hext', hs''⟩ := hhangs.sound
          exact ⟨lev'', hext.trans hext', hs''⟩
        · obtain ⟨j, rfl, hj⟩ := hk.exists_succ hn hisFull hroot
          exact hneeds j (hj.congr hs rfl (hpar hroot) hkeep) (hsucceed.tail rfl)
      · refine ⟨0, { t with allocs := t.allocs.tail },
          hadd.trans (mbptreeSplitNode_failed f key child hbf hn hisFull hroot hok),
          Hangs.failed hbf hs _, fun k hk hsucceed => ?_⟩
        obtain ⟨j, rfl, -⟩ := hk.exists_succ hn hisFull hroot
        exact absurd hsucceed.head hok

/-- The climb ends. -/
theorem Sound.exists_needsCallocs {b : Nat} {t : Mbptree} {lev : Nat → Option Nat}
    (hbf : t.branchFactor = b) (hs : Sound b t.heap t.root lev) (d : Nat) : ∀ p ℓ, lev p = some ℓ →
    (∀ a m, lev a = some m → m < ℓ + d) → ∃ k, NeedsCallocs t p k := by
  induction d with
  | zero => exact fun p ℓ hp hbound => absurd (hbound p ℓ hp) (Nat.lt_irrefl ℓ)
  | succ d ih =>
    intro p ℓ hp hbound
    obtain ⟨n, hn, hok, -, hpar⟩ := hs.placed p ℓ hp
    have hsize := hok.size_lt
    have hfull := mbptreeNodeFull_eq hn (by omega)
    have hisRoot := mbptreeIsRoot_eq hn
    by_cases hfit : t.branchFactor - 1 ≤ n.size
    · rw [decide_eq_true hfit] at hfull
      by_cases hroot : n.parent = 0
      · rw [decide_eq_true hroot] at hisRoot
        exact ⟨2, .root hfull hisRoot⟩
      · rw [decide_eq_false hroot] at hisRoot
        obtain ⟨k, hk⟩ := ih n.parent (ℓ + 1) (hpar hroot) fun a m ha => by
          have hlt := hbound a m ha
          omega
        exact ⟨k + 1, .up hfull hisRoot hn hk⟩
    · rw [decide_eq_false hfit] at hfull
      exact ⟨0, .room hfull⟩

end Mqlog
