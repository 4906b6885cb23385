/-
  Trees all of whose leaves have the same depth, and how such a tree grows at its right edge.

  `UTree L d` is a tree of height `d` with payloads of type `L` at its leaves; every node, leaf or
  inner, carries a label (a natural number).  The height is an index of the type, so a tree with
  leaves at two depths cannot be written down.

  The only update studied here is the one of a B-tree whose keys arrive in increasing order: a new
  leaf is added to the right of the last one.  `Spine` is the path from a node of the right edge up
  to the root (each step remembers the children to the LEFT of the path, which the update does not
  look at), `plug` closes a spine with the subtree at its lower end, and

      grow b sp c n next

  puts the subtree `n` to the right of `c` at the lower end of `sp`, with at most `b` children a
  node: a full node is split after its child `b / 2` and the right half is handed one level up, and
  a split of the root makes a new root.  New nodes are labelled from `next` on.

  What is proved, once for every payload type:

  * `leaves_grow` — the leaves are those of before, in order, followed by those of `n`;
  * `labels_grow` — the labels are those of before and `growCount` consecutive new ones;
  * `wide_grow`  — the bounds on the number of children of each node are kept;
  * `mul_pow_le_leaves` — a tree within the bounds has many leaves;
  * `exists_spine` — every tree whose inner nodes have children is a spine closed by a leaf.

  Each is an induction on the spine, with the three cases of `grow`: room, a full root, a full node
  under another one.
-/
import Mathlib.Algebra.Ring.Nat
import Mathlib.Data.List.Perm.Basic
import Mathlib.Data.List.Range

namespace Mqlog.Lib

/-- Trees of height `d`: a labelled payload, or a label with a list of trees of height `d - 1`. -/
def UTree (L : Type) : Nat → Type
  | 0 => Nat × L
  | d + 1 => Nat × List (UTree L d)

namespace UTree

variable {L : Type} {d D : Nat}

/-- A leaf. -/
def leaf (a : Nat) (l : L) : UTree L 0 := (a, l)

/-- An inner node. -/
def mk (a : Nat) (cs : List (UTree L d)) : UTree L (d + 1) := (a, cs)

/-- The children of an inner node. -/
def children (t : UTree L (d + 1)) : List (UTree L d) := Prod.snd t

/-- The payload of a leaf. -/
def payload (t : UTree L 0) : L := Prod.snd t

/-- The label of a node. -/
def label : {d : Nat} → UTree L d → Nat
  | 0, t => Prod.fst t
  | _ + 1, t => Prod.fst t

/-- The leaves, from left to right. -/
def leaves : {d : Nat} → UTree L d → List (Nat × L)
  | 0, t => [(label t, payload t)]
  | _ + 1, t => (children t).flatMap leaves

/-- The labels of all nodes. -/
def labels : {d : Nat} → UTree L d → List Nat
  | 0, t => [label t]
  | _ + 1, t => label t :: (children t).flatMap labels

/-- `Wide r m b t`: the root of `t` has between `r` and `b` children, and every inner node below
    it between `m` and `b`. -/
def Wide : {d : Nat} → (r m b : Nat) → UTree L d → Prop
  | 0, _, _, _, _ => True
  | _ + 1, r, m, b, t =>
    r ≤ (children t).length ∧ (children t).length ≤ b ∧ ∀ c ∈ children t, Wide m m b c

@[simp] theorem label_leaf (a : Nat) (l : L) : label (leaf a l) = a := rfl
@[simp] theorem payload_leaf (a : Nat) (l : L) : payload (leaf a l) = l := rfl
@[simp] theorem label_mk (a : Nat) (cs : List (UTree L d)) : label (mk a cs) = a := rfl
@[simp] theorem children_mk (a : Nat) (cs : List (UTree L d)) : children (mk a cs) = cs := rfl
@[simp] theorem leaves_leaf (a : Nat) (l : L) : leaves (leaf a l) = [(a, l)] := rfl
@[simp] theorem labels_leaf (a : Nat) (l : L) : labels (leaf a l) = [a] := rfl

@[simp] theorem leaves_mk (a : Nat) (cs : List (UTree L d)) :
    leaves (mk a cs) = cs.flatMap leaves := rfl

@[simp] theorem labels_mk (a : Nat) (cs : List (UTree L d)) :
    labels (mk a cs) = a :: cs.flatMap labels := rfl

@[simp] theorem wide_leaf (r m b a : Nat) (l : L) : Wide r m b (leaf a l) := trivial

/-- The bounds on an inner node. -/
theorem wide_mk {r m b a : Nat} {cs : List (UTree L d)} :
    Wide r m b (mk a cs) ↔ r ≤ cs.length ∧ cs.length ≤ b ∧ ∀ c ∈ cs, Wide m m b c := Iff.rfl

theorem Wide.mono : {d : Nat} → {t : UTree L d} → {r r' m b : Nat} → r' ≤ r →
    Wide r m b t → Wide r' m b t
  | 0, _, _, _, _, _, _, _ => trivial
  | _ + 1, _, _, _, _, _, hr, h => ⟨Nat.le_trans hr h.1, h.2⟩

theorem mk_eta (t : UTree L (d + 1)) : mk (label t) (children t) = t := rfl

theorem leaf_eta (t : UTree L 0) : leaf (label t) (payload t) = t := rfl

/-- The label of a tree is one of its labels. -/
theorem label_mem_labels : {d : Nat} → (t : UTree L d) → label t ∈ labels t
  | 0, _ => List.mem_singleton.mpr rfl
  | _ + 1, _ => List.mem_cons_self

/-- The labels of a child are labels of the node. -/
theorem mem_labels_of_child {a : Nat} {cs : List (UTree L d)} {c : UTree L d} (hc : c ∈ cs)
    {x : Nat} (hx : x ∈ labels c) : x ∈ labels (mk a cs) :=
  List.mem_cons_of_mem a (List.mem_flatMap.mpr ⟨c, hc, hx⟩)

/-- A tree all of whose inner nodes have children has a leaf. -/
theorem leaves_ne_nil : {d : Nat} → {r m b : Nat} → (t : UTree L d) → 1 ≤ r → 1 ≤ m →
    Wide r m b t → leaves t ≠ []
  | 0, _, _, _, _, _, _, _ => List.cons_ne_nil _ _
  | d + 1, r, m, b, t, hr, hm, hw => by
    obtain ⟨hlo, -, hcs⟩ := hw
    cases hch : children t with
    | nil => rw [hch] at hlo; simp only [List.length_nil] at hlo; omega
    | cons c cs =>
      have hc : c ∈ children t := by rw [hch]; exact List.mem_cons_self
      have hne := leaves_ne_nil c hm hm (hcs c hc)
      rw [← mk_eta t, leaves_mk, hch, List.flatMap_cons]
      exact fun happ => hne (List.append_eq_nil_iff.mp happ).1

theorem mul_length_le_flatMap {α β : Type} {f : α → List β} {k : Nat} : (cs : List α) →
    (∀ c ∈ cs, k ≤ (f c).length) → cs.length * k ≤ (cs.flatMap f).length
  | [], _ => by rw [List.length_nil, Nat.zero_mul]; exact Nat.zero_le _
  | c :: cs, hcs => by
    have ih := mul_length_le_flatMap cs fun c' hc' => hcs c' (List.mem_cons_of_mem c hc')
    have hc := hcs c List.mem_cons_self
    rw [List.flatMap_cons, List.length_append, List.length_cons, Nat.add_mul, Nat.one_mul]
    omega

/-- A tree whose inner nodes have at least `m` children has at least `m ^ d` leaves. -/
theorem pow_le_leaves {m b : Nat} : {d : Nat} → (t : UTree L d) → Wide m m b t →
    m ^ d ≤ (leaves t).length
  | 0, _, _ => Nat.le_refl 1
  | d + 1, t, ⟨hlo, _, hcs⟩ => by
    have hkids := mul_length_le_flatMap (f := leaves) (children t) fun c hc =>
      pow_le_leaves c (hcs c hc)
    rw [Nat.pow_succ, Nat.mul_comm]
    exact Nat.le_trans (Nat.mul_le_mul_right _ hlo) hkids

/-- The same with a bound of its own for the root. -/
theorem mul_pow_le_leaves {r m b : Nat} (t : UTree L (d + 1)) (h : Wide r m b t) :
    r * m ^ d ≤ (leaves t).length := by
  obtain ⟨hlo, -, hcs⟩ := h
  have hkids := mul_length_le_flatMap (f := leaves) (children t) fun c hc =>
    pow_le_leaves c (hcs c hc)
  exact Nat.le_trans (Nat.mul_le_mul_right _ hlo) hkids

end UTree

/-! ## The right edge -/

/-- The path from a node at height `d` of the right edge up to the root at height `D`: at each
    inner node on it, its label and the children to the left of the path. -/
inductive Spine (L : Type) : Nat → Nat → Type where
  | root {d : Nat} : Spine L d d
  | up {d D : Nat} (a : Nat) (left : List (UTree L d)) (rest : Spine L (d + 1) D) : Spine L d D

namespace Spine

open UTree

variable {L : Type} {d D : Nat}

/-- Close a spine with the subtree at its lower end. -/
def plug : {d D : Nat} → Spine L d D → UTree L d → UTree L D
  | _, _, root, c => c
  | _, _, up a left rest, c => rest.plug (mk a (left ++ [c]))

/-- The label of the node the lower end hangs under (`0` for none). -/
def top : Spine L d D → Nat
  | root => 0
  | up a _ _ => a

/-- The labels of the nodes of the spine and of all subtrees to its left. -/
def labels : {d D : Nat} → Spine L d D → List Nat
  | _, _, root => []
  | _, _, up a left rest => a :: left.flatMap UTree.labels ++ rest.labels

/-- The leaves to the left of the spine. -/
def leaves : {d D : Nat} → Spine L d D → List (Nat × L)
  | _, _, root => []
  | _, _, up _ left rest => rest.leaves ++ left.flatMap UTree.leaves

/-- The number of inner nodes on the spine. -/
def length : {d D : Nat} → Spine L d D → Nat
  | _, _, root => 0
  | _, _, up _ _ rest => rest.length + 1

/-- The lower bound on the number of children of a node that hangs at this spine's end. -/
def low (m : Nat) : Spine L d D → Nat
  | root => 2
  | up _ _ _ => m

/-- The nodes of the spine, and the subtrees to its left, keep their bounds. -/
def Wide (m b : Nat) : {d D : Nat} → Spine L d D → Prop
  | _, _, root => True
  | _, _, up _ left rest =>
    rest.low m ≤ left.length + 1 ∧ left.length + 1 ≤ b ∧ (∀ c ∈ left, UTree.Wide m m b c) ∧
      rest.Wide m b

/-- The label a new right sibling at the lower end gets: below the root, `next` is kept for the
    new root. -/
def sibling (next : Nat) : Spine L d D → Nat
  | root => next + 1
  | up _ _ _ => next

/-- The first label left for the levels above a new sibling at the lower end. -/
def supply (next : Nat) : Spine L d D → Nat
  | root => next
  | up _ _ _ => next + 1

/-- Put `n` to the right of `c` at the lower end, with at most `b` children a node. -/
def grow (b : Nat) : {d D : Nat} → Spine L d D → (c n : UTree L d) → (next : Nat) →
    Σ D', UTree L D'
  | d, _, root, c, n, next => ⟨d + 1, mk next [c, n]⟩
  | _, D, up a left rest, c, n, next =>
    if left.length + 1 < b then ⟨D, rest.plug (mk a (left ++ [c, n]))⟩
    else
      rest.grow b (mk a ((left ++ [c]).take (b / 2 + 1)))
        (mk (rest.sibling next) ((left ++ [c]).drop (b / 2 + 1) ++ [n])) (rest.supply next)

theorem grow_of_lt {b : Nat} {a : Nat} {left : List (UTree L d)} {rest : Spine L (d + 1) D}
    (h : left.length + 1 < b) (c n : UTree L d) (next : Nat) :
    (up a left rest).grow b c n next = ⟨D, rest.plug (mk a (left ++ [c, n]))⟩ := by
  rw [grow, if_pos h]

theorem grow_of_ge {b : Nat} {a : Nat} {left : List (UTree L d)} {rest : Spine L (d + 1) D}
    (h : ¬ left.length + 1 < b) (c n : UTree L d) (next : Nat) :
    (up a left rest).grow b c n next =
      rest.grow b (mk a ((left ++ [c]).take (b / 2 + 1)))
        (mk (rest.sibling next) ((left ++ [c]).drop (b / 2 + 1) ++ [n])) (rest.supply next) := by
  rw [grow, if_neg h]

/-- How many nodes `grow` creates. -/
def growCount (b : Nat) : {d D : Nat} → Spine L d D → Nat
  | _, _, root => 1
  | _, _, up _ left rest => if left.length + 1 < b then 0 else rest.growCount b + 1

/-! ## Leaves -/

theorem leaves_plug : {d D : Nat} → (sp : Spine L d D) → (c : UTree L d) →
    UTree.leaves (sp.plug c) = sp.leaves ++ UTree.leaves c
  | _, _, root, c => (List.nil_append _).symm
  | _, _, up a left rest, c => by
    rw [plug, leaves_plug rest, leaves, leaves_mk, List.flatMap_append, List.append_assoc]
    simp

/-- **Growing appends**: the leaves are those of before followed by those of the new subtree. -/
theorem leaves_grow (b : Nat) : {d D : Nat} → (sp : Spine L d D) → (c n : UTree L d) →
    (next : Nat) → UTree.leaves (sp.grow b c n next).2 =
      UTree.leaves (sp.plug c) ++ UTree.leaves n
  | _, _, root, c, n, next => by simp [grow, plug]
  | _, _, up a left rest, c, n, next => by
    by_cases hfit : left.length + 1 < b
    · rw [grow_of_lt hfit, leaves_plug, leaves_plug, leaves, leaves_mk]
      simp
    · have hsplit := List.take_append_drop (b / 2 + 1) (left ++ [c])
      rw [grow_of_ge hfit, leaves_grow b rest, leaves_plug, leaves_plug, leaves, leaves_mk,
        leaves_mk, List.flatMap_append, List.append_assoc, ← List.append_assoc (List.flatMap _ _),
        ← List.flatMap_append, hsplit]
      simp

/-! ## Labels -/

theorem labels_plug : {d D : Nat} → (sp : Spine L d D) → (c : UTree L d) →
    (UTree.labels (sp.plug c)).Perm (sp.labels ++ UTree.labels c)
  | _, _, root, c => by simp [plug, labels]
  | _, _, up a left rest, c => by
    refine (labels_plug rest _).trans ?_
    rw [labels_mk, List.flatMap_append, labels]
    simp only [List.flatMap_cons, List.flatMap_nil, List.append_nil]
    refine List.perm_append_comm.trans ?_
    simp only [List.cons_append, List.append_assoc]
    refine (List.Perm.append_left _ ?_).cons a
    exact List.perm_append_comm

/-- **Growing creates `growCount` nodes**, labelled consecutively from `next` on. -/
theorem labels_grow (b : Nat) : {d D : Nat} → (sp : Spine L d D) → (c n : UTree L d) →
    (next : Nat) → (UTree.labels (sp.grow b c n (sp.supply next)).2).Perm
      (sp.labels ++ UTree.labels c ++ UTree.labels n ++
        List.range' (sp.supply next) (sp.growCount b))
  | _, _, root, c, n, next => by
    simp only [grow, growCount, labels, supply, labels_mk]
    refine (List.perm_append_singleton next _).symm.trans ?_
    simp
  | d, D, up a left rest, c, n, next => by
    simp only [supply]
    by_cases hfit : left.length + 1 < b
    · rw [grow_of_lt hfit, growCount, if_pos hfit]
      refine (labels_plug rest _).trans ?_
      rw [labels, labels_mk, List.flatMap_append]
      simp only [List.range'_zero, List.append_nil, List.flatMap_cons, List.flatMap_nil]
      refine List.perm_append_comm.trans ?_
      simp only [List.cons_append, List.append_assoc]
      refine (List.Perm.append_left _ ?_).cons a
      rw [← List.append_assoc, ← List.append_assoc]
      exact List.perm_append_comm.trans (by rw [List.append_assoc])
    · have hsplit := List.take_append_drop (b / 2 + 1) (left ++ [c])
      have hsup : (rest.sibling (next + 1) :: List.range' (rest.supply (next + 1))
          (rest.growCount b)).Perm (List.range' (next + 1) (rest.growCount b + 1)) := by
        cases rest with
        | root => exact List.Perm.swap _ _ _
        | up a' left' rest' => exact List.Perm.refl _
      rw [grow_of_ge hfit, growCount, if_neg hfit]
      refine (labels_grow b rest _ _ (next + 1)).trans ?_
      refine List.Perm.trans ?_ (List.Perm.append_left _ hsup)
      rw [labels, labels_mk, labels_mk, List.flatMap_append]
      have hleft : left.flatMap UTree.labels ++ UTree.labels c =
          ((left ++ [c]).take (b / 2 + 1)).flatMap UTree.labels ++
            ((left ++ [c]).drop (b / 2 + 1)).flatMap UTree.labels := by
        rw [← List.flatMap_append, hsplit]
        simp
      generalize ((left ++ [c]).take (b / 2 + 1)).flatMap UTree.labels = tk at hleft ⊢
      generalize ((left ++ [c]).drop (b / 2 + 1)).flatMap UTree.labels = dr at hleft ⊢
      generalize List.range' (rest.supply (next + 1)) (rest.growCount b) = rg
      simp only [List.flatMap_cons, List.flatMap_nil, List.append_nil]
      rw [List.perm_iff_count]
      intro x
      have hcount := congrArg (List.count x) hleft
      simp only [List.count_append, List.count_cons] at hcount ⊢
      omega

/-- With all labels in use below `next`, growing uses no label twice. -/
theorem nodup_grow (b next : Nat) (sp : Spine L d D) {c n : UTree L d}
    (hnd : (sp.labels ++ UTree.labels c).Nodup)
    (hlt : ∀ x ∈ sp.labels ++ UTree.labels c, x < next)
    (hn : UTree.labels n = [sp.sibling next]) :
    (UTree.labels (sp.grow b c n (sp.supply next)).2).Nodup := by
  have hnew : (sp.sibling next :: List.range' (sp.supply next) (sp.growCount b)).Nodup ∧
      ∀ x ∈ sp.sibling next :: List.range' (sp.supply next) (sp.growCount b), next ≤ x := by
    cases sp with
    | root => simp [sibling, supply, growCount]
    | up a left rest =>
      rw [sibling, supply]
      refine ⟨List.nodup_cons.mpr ⟨fun hmem => ?_, List.nodup_range'⟩, fun x hx => ?_⟩
      · exact absurd (List.mem_range'_1.mp hmem).1 (by omega)
      · rcases List.mem_cons.mp hx with rfl | hx
        · exact Nat.le_refl _
        · exact Nat.le_trans (Nat.le_succ _) (List.mem_range'_1.mp hx).1
  refine (labels_grow b sp c n next).nodup_iff.mpr ?_
  rw [List.append_assoc, hn]
  refine List.nodup_append.mpr ⟨hnd, hnew.1, fun x hx y hy hxy => ?_⟩
  have := hlt x hx
  have := hnew.2 y hy
  omega

/-! ## Bounds on the number of children -/

theorem wide_plug {m b : Nat} : {d D : Nat} → (sp : Spine L d D) → (c : UTree L d) →
    (UTree.Wide 2 m b (sp.plug c) ↔ sp.Wide m b ∧ UTree.Wide (sp.low m) m b c)
  | _, _, root, c => by simp [plug, Wide, low]
  | _, _, up a left rest, c => by
    rw [plug, wide_plug rest, wide_mk, Wide, low]
    simp only [List.length_append, List.length_singleton, List.mem_append, List.mem_singleton]
    constructor
    · rintro ⟨hrest, hlo, hhi, hcs⟩
      exact ⟨⟨hlo, hhi, fun x hx => hcs x (Or.inl hx), hrest⟩, hcs c (Or.inr rfl)⟩
    · rintro ⟨⟨hlo, hhi, hcs, hrest⟩, hc⟩
      refine ⟨hrest, hlo, hhi, ?_⟩
      rintro x (hx | rfl)
      · exact hcs x hx
      · exact hc

/-- **Growing keeps the bounds**: at most `b` children, and at least `m` below the root, as long
    as `m` is at most half of `b` rounded up. -/
theorem wide_grow {m b : Nat} (hb : 2 ≤ b) (hm : m ≤ (b + 1) / 2) : {d D : Nat} →
    (sp : Spine L d D) → (c n : UTree L d) → (next : Nat) → sp.Wide m b →
    UTree.Wide m m b c → UTree.Wide m m b n → UTree.Wide 2 m b (sp.grow b c n next).2
  | _, _, root, c, n, next, _, hc, hn => by
    refine ⟨Nat.le_refl 2, hb, fun x hx => ?_⟩
    rcases List.mem_cons.mp hx with rfl | hx
    · exact hc
    · rw [List.mem_singleton.mp hx]; exact hn
  | _, _, up a left rest, c, n, next, hsp, hc, hn => by
    obtain ⟨hlo, hhi, hleft, hrest⟩ := hsp
    have hcs : ∀ x ∈ left ++ [c], UTree.Wide m m b x := by
      intro x hx
      rcases List.mem_append.mp hx with hx | hx
      · exact hleft x hx
      · rw [List.mem_singleton.mp hx]; exact hc
    by_cases hfit : left.length + 1 < b
    · rw [grow_of_lt hfit]
      refine (wide_plug rest _).mpr ⟨hrest, ?_, ?_, ?_⟩
      · simp only [children_mk, List.length_append, List.length_cons, List.length_nil]; omega
      · simp only [children_mk, List.length_append, List.length_cons, List.length_nil]; omega
      · intro x hx
        rw [children_mk, show left ++ [c, n] = (left ++ [c]) ++ [n] by simp] at hx
        rcases List.mem_append.mp hx with hx | hx
        · exact hcs x hx
        · rw [List.mem_singleton.mp hx]; exact hn
    · rw [grow_of_ge hfit]
      refine wide_grow hb hm rest _ _ _ hrest ⟨?_, ?_, ?_⟩ ⟨?_, ?_, ?_⟩
      · simp only [children_mk, List.length_take, List.length_append, List.length_singleton]; omega
      · simp only [children_mk, List.length_take, List.length_append, List.length_singleton]; omega
      · exact fun x hx => hcs x (List.mem_of_mem_take hx)
      · simp only [children_mk, List.length_drop, List.length_append, List.length_singleton]; omega
      · simp only [children_mk, List.length_drop, List.length_append, List.length_singleton]; omega
      · intro x hx
        rcases List.mem_append.mp hx with hx | hx
        · exact hcs x (List.mem_of_mem_drop hx)
        · rw [List.mem_singleton.mp hx]; exact hn

/-- Each step of a spine has a node and, to its left, a subtree. -/
theorem two_mul_length_le {m b : Nat} (hm : 2 ≤ m) : {d D : Nat} → (sp : Spine L d D) →
    sp.Wide m b → 2 * sp.length ≤ sp.labels.length
  | _, _, root, _ => Nat.le_refl 0
  | _, _, up a left rest, hsp => by
    obtain ⟨hlo, -, -, hrest⟩ := hsp
    have ih := two_mul_length_le hm rest hrest
    have hlow : 2 ≤ rest.low m := by cases rest <;> simp only [low] <;> omega
    obtain ⟨c, cs, rfl⟩ := List.exists_cons_of_ne_nil (l := left) (by
      rintro rfl
      simp only [List.length_nil] at hlo
      omega)
    have hpos : 0 < (UTree.labels c).length := List.length_pos_of_mem (UTree.label_mem_labels c)
    simp only [length, labels, List.flatMap_cons, List.cons_append, List.length_cons,
      List.length_append]
    omega

/-- The height of a spine's lower end and its length add up to the height of the tree. -/
theorem height_eq : {d D : Nat} → (sp : Spine L d D) → D = d + sp.length
  | _, _, root => rfl
  | _, _, up _ _ rest => by
    have ih := height_eq rest
    rw [length]
    omega

/-- A spine that is not bare has a leaf to its left. -/
theorem leaves_ne_nil {m b a : Nat} (hm : 2 ≤ m) {left : List (UTree L d)}
    {rest : Spine L (d + 1) D} (hsp : (up a left rest).Wide m b) :
    (up a left rest).leaves ≠ [] := by
  obtain ⟨hlo, -, hcs, -⟩ := hsp
  have hlow : 2 ≤ rest.low m := by cases rest <;> simp only [low] <;> omega
  obtain ⟨c, cs, rfl⟩ := List.exists_cons_of_ne_nil (l := left) (by
    rintro rfl
    simp only [List.length_nil] at hlo
    omega)
  have hne := UTree.leaves_ne_nil c (by omega) (by omega) (hcs c List.mem_cons_self)
  rw [leaves, List.flatMap_cons]
  intro hnil
  exact hne (List.append_eq_nil_iff.mp (List.append_eq_nil_iff.mp hnil).2).1

/-! ## Every tree is a spine closed by its last leaf -/

theorem exists_spine_from {r m b : Nat} (hm : 1 ≤ m) : {d D : Nat} → (sp : Spine L d D) →
    (c : UTree L d) → 1 ≤ r → UTree.Wide r m b c →
    ∃ (sp' : Spine L 0 D) (a : Nat) (l : L), sp.plug c = sp'.plug (leaf a l)
  | 0, _, sp, c, _, _ => ⟨sp, label c, payload c, by rw [leaf_eta]⟩
  | d + 1, D, sp, c, hr, hc => by
    obtain ⟨hlo, -, hcs⟩ := hc
    have hne : children c ≠ [] := by
      intro hnil
      rw [hnil] at hlo
      exact absurd (Nat.le_trans hr hlo) (by simp)
    have hlast := List.dropLast_append_getLast hne
    obtain ⟨sp', a, l, hsp'⟩ := exists_spine_from hm (up (label c) (children c).dropLast sp)
      ((children c).getLast hne) hm (hcs _ (List.getLast_mem hne))
    refine ⟨sp', a, l, ?_⟩
    rw [← hsp', plug, hlast, mk_eta]

/-- Every tree whose inner nodes have children is a spine closed by its last leaf. -/
theorem exists_spine {m b : Nat} (hm : 1 ≤ m) (t : UTree L D) (ht : UTree.Wide 2 m b t) :
    ∃ (sp : Spine L 0 D) (a : Nat) (l : L), t = sp.plug (leaf a l) :=
  exists_spine_from hm root t (by omega) ht

end Spine
end Mqlog.Lib
