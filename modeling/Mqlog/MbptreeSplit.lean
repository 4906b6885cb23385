/-
  The loops of `mbptree_move_half_node` and what `mbptree_split_root` and `mbptree_split_node` share
  (`moveHalfAndAdd`): one specification each.

  Every statement has the same form.  The function succeeds, what it returns differs from the tree
  it was given in the heap only, and that heap is described by its lookups: the two halves, the
  re-parented children, and everything else, which is unchanged.

  The two loops are of different kinds.

    * The first one moves keys.  It touches the two nodes only, so its invariant is about these
      records:  what has been taken from the one (`Node.KeysTaken`) and pushed to the other
      (`Node.KeysPushed`).
    * The second one moves values, and each value is a child whose `parent` it sets.  Its invariant
      has the heap as well; `afterMove` is the heap behind one iteration, and its lookups are what
      the induction needs.

  The left half keeps the `b / 2` keys in front of the midpoint.  The key at the midpoint goes to
  neither half: it is the separator that the caller hands one level up.

  The slots that the loops leave behind in the left half are not cleared, but for those that are
  overwritten; the representation does not look at them (`NodeIs`).
-/
import Mqlog.MbptreeRep

namespace Mqlog

open Lib (Heap UTree Spine)

/-- `mbptree_modify` on an allocated node. -/
theorem Mbptree.modify_eq {t : Mbptree} {a : Nat} {f : Node → Option Node} {n n' : Node}
    (hn : t.heap.get a = some n) (hf : f n = some n') :
    t.modify a f = some { t with heap := t.heap.set a n' } := by
  rw [Mbptree.modify, Mbptree.node, hn]
  show (f n >>= fun n' => pure (t.put a n')) = _
  rw [hf]
  rfl

/-- Two nodes that may differ in their slots and their size. -/
structure Node.SameHead (n n' : Node) : Prop where
  leaf : n'.leaf = n.leaf
  parent : n'.parent = n.parent
  length : n'.data.length = n.data.length

theorem Node.sameHead_withKey (n : Node) (i k : Nat) : SameHead n (n.withKey i k) :=
  ⟨rfl, rfl, length_withKey n i k⟩

theorem Node.sameHead_withValue (n : Node) (i v : Nat) : SameHead n (n.withValue i v) :=
  ⟨rfl, rfl, length_withValue n i v⟩

theorem Node.SameHead.trans {n₁ n₂ n₃ : Node} (h : SameHead n₁ n₂) (h' : SameHead n₂ n₃) :
    SameHead n₁ n₃ where
  leaf := h'.leaf.trans h.leaf
  parent := h'.parent.trans h.parent
  length := h'.length.trans h.length

/-! ## What the loops do to the two nodes -/

/-- The keys from slot `k` on may have been taken. -/
structure Node.KeysTaken (k : Nat) (n n' : Node) : Prop extends n.SameHead n' where
  size : n'.size = n.size
  val : ∀ i, n'.val? i = n.val? i
  key : ∀ i, i < k → n'.key? i = n.key? i

/-- The first `r` of `keys` have been pushed. -/
structure Node.KeysPushed (r : Nat) (keys : Nat → Option Nat) (n n' : Node) : Prop
    extends n.SameHead n' where
  size : n'.size = n.size + r
  val : ∀ i, n'.val? i = n.val? i
  old : ∀ i, i < n.size → n'.key? i = n.key? i
  new : ∀ i, i < r → n'.key? (n.size + i) = keys i

/-- The `m` values from slot `v` on have been taken. -/
structure Node.ValuesTaken (v m : Nat) (n n' : Node) : Prop extends n.SameHead n' where
  size : n'.size = n.size
  key : ∀ i, n'.key? i = n.key? i
  old : ∀ i, i < v → n'.val? i = n.val? i
  blank : ∀ i, v ≤ i → i < v + m → n'.val? i = some 0

/-- The values `kids` have been put into the slots from `j` on. -/
structure Node.ValuesPut (j : Nat) (kids : List Nat) (n n' : Node) :
    Prop extends n.SameHead n' where
  size : n'.size = n.size
  key : ∀ i, n'.key? i = n.key? i
  before : ∀ i, i < j → n'.val? i = n.val? i
  behind : ∀ i, j + kids.length ≤ i → n'.val? i = n.val? i
  new : ∀ i, i < kids.length → n'.val? (j + i) = kids[i]?

namespace Node

variable {n n' : Node}

theorem KeysTaken.refl (k : Nat) (n : Node) : KeysTaken k n n :=
  ⟨⟨rfl, rfl, rfl⟩, rfl, fun _ => rfl, fun _ _ => rfl⟩

theorem KeysTaken.cons {k x : Nat} (h : KeysTaken (k + 1) (n.withKey k x) n') :
    KeysTaken k n n' := by
  refine ⟨(n.sameHead_withKey k x).trans h.toSameHead, h.size, fun i => ?_, fun i hi => ?_⟩
  · rw [h.val i, val?_withKey]
  · rw [h.key i (by omega), key?_withKey, if_neg (by omega)]

theorem KeysPushed.zero (keys : Nat → Option Nat) (n : Node) : KeysPushed 0 keys n n :=
  ⟨⟨rfl, rfl, rfl⟩, rfl, fun _ => rfl, fun _ _ => rfl, fun i hi => absurd hi (Nat.not_lt_zero i)⟩

theorem KeysPushed.cons {r x : Nat} {keys : Nat → Option Nat} (hroom : n.size < n.data.length)
    (hx : keys 0 = some x)
    (h : KeysPushed r (fun i => keys (i + 1)) { n.withKey n.size x with size := n.size + 1 } n') :
    KeysPushed (r + 1) keys n n' := by
  have hsize : n'.size = n.size + 1 + r := h.size
  refine ⟨(n.sameHead_withKey n.size x).trans ⟨h.leaf, h.parent, h.length⟩, by omega, fun i => ?_,
    fun i hi => ?_, fun i hi => ?_⟩
  · rw [h.val i]
    exact val?_withKey ..
  · rw [h.old i (show i < n.size + 1 by omega)]
    exact (key?_withKey ..).trans (if_neg (by omega))
  · rcases Nat.eq_zero_or_pos i with rfl | hpos
    · -- the key that was pushed first
      rw [Nat.add_zero, h.old n.size (Nat.lt_succ_self _), hx]
      obtain ⟨y, hy⟩ := key?_eq_some hroom
      refine (key?_withKey ..).trans ?_
      rw [if_pos rfl, hy]
      rfl
    · obtain ⟨j, rfl⟩ := Nat.exists_eq_succ_of_ne_zero (Nat.ne_of_gt hpos)
      have hj := h.new j (by omega)
      rwa [show n.size + 1 + j = n.size + (j + 1) by omega] at hj

theorem ValuesTaken.zero (v : Nat) (n : Node) : ValuesTaken v 0 n n :=
  ⟨⟨rfl, rfl, rfl⟩, rfl, fun _ => rfl, fun _ _ => rfl, fun _ hi hi' =>
    absurd hi' (Nat.not_lt_of_le hi)⟩

theorem ValuesTaken.cons {v m : Nat} (hroom : v < n.data.length)
    (h : ValuesTaken (v + 1) m (n.withValue v 0) n') : ValuesTaken v (m + 1) n n' := by
  refine ⟨(n.sameHead_withValue v 0).trans h.toSameHead, h.size, fun i => ?_, fun i hi => ?_,
    fun i hi hi' => ?_⟩
  · rw [h.key i, key?_withValue]
  · rw [h.old i (by omega), val?_withValue, if_neg (by omega)]
  · by_cases hiv : i = v
    · obtain ⟨w, hw⟩ := val?_eq_some hroom
      rw [hiv, h.old v (Nat.lt_succ_self _), val?_withValue, if_pos rfl, hw]
      rfl
    · exact h.blank i (by omega) (by omega)

theorem ValuesPut.nil (j : Nat) (n : Node) : ValuesPut j [] n n :=
  ⟨⟨rfl, rfl, rfl⟩, rfl, fun _ => rfl, fun _ _ => rfl, fun _ _ => rfl,
    fun i hi => absurd hi (Nat.not_lt_zero i)⟩

theorem ValuesPut.cons {j c : Nat} {kids : List Nat} (hroom : j < n.data.length)
    (h : ValuesPut (j + 1) kids (n.withValue j c) n') : ValuesPut j (c :: kids) n n' := by
  refine ⟨(n.sameHead_withValue j c).trans h.toSameHead, h.size, fun i => ?_, fun i hi => ?_,
    fun i hi => ?_, fun i hi => ?_⟩
  · rw [h.key i, key?_withValue]
  · rw [h.before i (by omega), val?_withValue, if_neg (by omega)]
  · rw [List.length_cons] at hi
    rw [h.behind i (by omega), val?_withValue, if_neg (by omega)]
  · rw [List.length_cons] at hi
    rcases Nat.eq_zero_or_pos i with rfl | hpos
    · -- the value that was put first
      obtain ⟨w, hw⟩ := val?_eq_some hroom
      rw [Nat.add_zero, h.before j (Nat.lt_succ_self _), val?_withValue, if_pos rfl, hw,
        List.getElem?_cons_zero]
      rfl
    · obtain ⟨i, rfl⟩ := Nat.exists_eq_succ_of_ne_zero (Nat.ne_of_gt hpos)
      have hi' := h.new i (by omega)
      rw [show j + 1 + i = j + (i + 1) by omega] at hi'
      rw [List.getElem?_cons_succ]
      exact hi'

end Node

/-! ## The loops -/

/-- One iteration of the first loop. -/
theorem moveKeys_succ {lhs rhs r k : Nat} {t : Mbptree} {l rn : Node} (hne : lhs ≠ rhs)
    (hl : t.heap.get lhs = some l) (hr : t.heap.get rhs = some rn) (hk : k < l.data.length)
    (hroom : rn.size < rn.data.length) :
    moveKeys lhs rhs (r + 1) k t = moveKeys lhs rhs r (k + 1) { t with
      heap := (t.heap.set rhs { rn.withKey rn.size l.data[k].key with size := rn.size + 1 }).set lhs
        (l.withKey k 0) } := by
  have hd : l.data[k]? = some l.data[k] := List.getElem?_eq_getElem hk
  have hpush : rn.pushKey l.data[k].key =
      some { rn.withKey rn.size l.data[k].key with size := rn.size + 1 } := by
    rw [Node.pushKey, Node.setKey, if_pos hroom]
    rfl
  have hclear : l.setKey k 0 = some (l.withKey k 0) := by
    rw [Node.setKey, if_pos hk]
  have hl₁ : (t.heap.set rhs { rn.withKey rn.size l.data[k].key with size := rn.size + 1 }).get lhs
      = some l := by rw [Heap.get_set_of_ne hne, hl]
  rw [moveKeys]
  simp only [Mbptree.node, hl, hd, Option.bind_eq_bind, Option.bind_some]
  rw [Mbptree.modify_eq hr hpush, Option.bind_some, Mbptree.modify_eq hl₁ hclear, Option.bind_some]

/-- The first loop: `r` keys of `lhs`, from slot `k` on, are pushed to `rhs`. -/
theorem moveKeys_spec {lhs rhs : Nat} (hne : lhs ≠ rhs) : ∀ (r k : Nat) (t : Mbptree) (l rn : Node),
    t.heap.get lhs = some l → t.heap.get rhs = some rn →
    k + r ≤ l.data.length → rn.size + r ≤ rn.data.length →
    ∃ h' l' rn', moveKeys lhs rhs r k t = some { t with heap := h' } ∧ h'.next = t.heap.next ∧
      h'.get lhs = some l' ∧ h'.get rhs = some rn' ∧
      (∀ q, q ≠ lhs → q ≠ rhs → h'.get q = t.heap.get q) ∧
      l.KeysTaken k l' ∧ rn.KeysPushed r (fun i => l.key? (k + i)) rn' := by
  intro r
  induction r with
  | zero =>
    intro k t l rn hl hr _ _
    exact ⟨t.heap, l, rn, rfl, rfl, hl, hr, fun _ _ _ => rfl, Node.KeysTaken.refl k l,
      Node.KeysPushed.zero _ rn⟩
  | succ r ih =>
    intro k t l rn hl hr hkl hrn
    have hk : k < l.data.length := by omega
    have hroom : rn.size < rn.data.length := by omega
    have hl₁ : (t.heap.set rhs { rn.withKey rn.size l.data[k].key with size := rn.size + 1 }).get
      lhs
        = some l := by rw [Heap.get_set_of_ne hne, hl]
    obtain ⟨h', l', rn', heq, hnext, hl', hr', hframe, htaken, hpushed⟩ := ih (k + 1)
      { t with heap := (t.heap.set rhs
          { rn.withKey rn.size l.data[k].key with size := rn.size + 1 }).set lhs (l.withKey k 0) }
      (l.withKey k 0) { rn.withKey rn.size l.data[k].key with size := rn.size + 1 }
      (Heap.get_set_self hl₁)
      ((Heap.get_set_of_ne (Ne.symm hne)).trans (Heap.get_set_self hr))
      (by rw [Node.length_withKey]; omega)
      (by
        show rn.size + 1 + r ≤ (rn.withKey rn.size l.data[k].key).data.length
        rw [Node.length_withKey]; omega)
    refine ⟨h', l', rn', ?_, hnext, hl', hr', fun q hql hqr => ?_, htaken.cons, ?_⟩
    · rw [moveKeys_succ hne hl hr hk hroom, heq]
    · rw [hframe q hql hqr]
      show ((t.heap.set rhs _).set lhs _).get q = _
      rw [Heap.get_set_of_ne hql, Heap.get_set_of_ne hqr]
    · have hfirst : l.key? (k + 0) = some l.data[k].key := by
        rw [Nat.add_zero, Node.key?, List.getElem?_eq_getElem hk]
        rfl
      -- the keys behind slot `k` are those of before
      have hkeys : (fun i => (l.withKey k 0).key? (k + 1 + i)) = fun i => l.key? (k + (i + 1)) := by
        funext i
        rw [Node.key?_withKey, if_neg (by omega), show k + 1 + i = k + (i + 1) by omega]
      rw [hkeys] at hpushed
      exact Node.KeysPushed.cons hroom hfirst hpushed

/-- The heap after one iteration of the second loop, which moves the child `c`, with record `m`, to
    slot `j`. -/
def afterMove (h : Heap Node) (lhs rhs v j c : Nat) (l rn m : Node) : Heap Node :=
  ((h.set rhs (rn.withValue j c)).set lhs (l.withValue v 0)).set c { m with parent := rhs }

section AfterMove

variable {h : Heap Node} {lhs rhs v j c : Nat} {l rn m : Node}

/-- The moved child gets its new parent, and the other nodes stay. -/
theorem get_afterMove (hl : c ≠ lhs) (hr : c ≠ rhs) (hm : h.get c = some m) (q : Nat) :
    (afterMove h lhs rhs v j c l rn m).get q =
      if q = c then some { m with parent := rhs }
      else ((h.set rhs (rn.withValue j c)).set lhs (l.withValue v 0)).get q := by
  rw [afterMove, Heap.get_set, Heap.get_set_of_ne hl, Heap.get_set_of_ne hr, hm]
  rfl

theorem get_afterMove_of_ne {q : Nat} (hc : q ≠ c) (hl : q ≠ lhs) (hr : q ≠ rhs) :
    (afterMove h lhs rhs v j c l rn m).get q = h.get q := by
  rw [afterMove, Heap.get_set_of_ne hc, Heap.get_set_of_ne hl, Heap.get_set_of_ne hr]

theorem get_afterMove_lhs (hne : lhs ≠ rhs) (hc : c ≠ lhs) (hl : h.get lhs = some l) :
    (afterMove h lhs rhs v j c l rn m).get lhs = some (l.withValue v 0) := by
  rw [afterMove, Heap.get_set_of_ne (Ne.symm hc)]
  exact Heap.get_set_self ((Heap.get_set_of_ne hne).trans hl)

theorem get_afterMove_rhs (hne : lhs ≠ rhs) (hc : c ≠ rhs) (hr : h.get rhs = some rn) :
    (afterMove h lhs rhs v j c l rn m).get rhs = some (rn.withValue j c) := by
  rw [afterMove, Heap.get_set_of_ne (Ne.symm hc), Heap.get_set_of_ne (Ne.symm hne)]
  exact Heap.get_set_self hr

end AfterMove

/-- One iteration of the second loop. -/
theorem moveValues_succ {lhs rhs r v j c : Nat} {t : Mbptree} {l rn m : Node} (hne : lhs ≠ rhs)
    (hl : t.heap.get lhs = some l) (hr : t.heap.get rhs = some rn) (hv : l.val? v = some c)
    (hj : j < rn.data.length) (hcl : c ≠ lhs) (hcr : c ≠ rhs) (hm : t.heap.get c = some m) :
    moveValues lhs rhs (r + 1) v j t =
      moveValues lhs rhs r (v + 1) (j + 1)
        { t with heap := afterMove t.heap lhs rhs v j c l rn m } := by
  obtain ⟨d, hd, rfl⟩ := Option.map_eq_some_iff.mp hv
  have hvl : v < l.data.length := (List.getElem?_eq_some_iff.mp hd).1
  have hset : rn.setValue j d.value = some (rn.withValue j d.value) := by
    rw [Node.setValue, if_pos hj]
  have hclear : l.setValue v 0 = some (l.withValue v 0) := by
    rw [Node.setValue, if_pos hvl]
  have hl₁ : (t.heap.set rhs (rn.withValue j d.value)).get lhs = some l := by
    rw [Heap.get_set_of_ne hne, hl]
  have hr₂ : ((t.heap.set rhs (rn.withValue j d.value)).set lhs (l.withValue v 0)).get rhs =
      some (rn.withValue j d.value) := by
    rw [Heap.get_set_of_ne (Ne.symm hne), Heap.get_set_self hr]
  have hm₂ : ((t.heap.set rhs (rn.withValue j d.value)).set lhs (l.withValue v 0)).get d.value =
      some m := by
    rw [Heap.get_set_of_ne hcl, Heap.get_set_of_ne hcr, hm]
  -- the child is read back from its new slot
  obtain ⟨e, he, hev⟩ : ∃ e, (rn.withValue j d.value).data[j]? = some e ∧ e.value = d.value := by
    obtain ⟨w, hw⟩ := Node.val?_eq_some hj
    have hval := Node.val?_withValue rn j d.value j
    rw [if_pos rfl, hw] at hval
    exact Option.map_eq_some_iff.mp hval
  have hpar : Node.setParent rhs m = some { m with parent := rhs } := rfl
  rw [moveValues]
  simp only [Mbptree.node, hl, hd, Option.bind_eq_bind, Option.bind_some]
  rw [Mbptree.modify_eq hr hset, Option.bind_some, Mbptree.modify_eq hl₁ hclear, Option.bind_some]
  simp only [hr₂, he, hev, Option.bind_some]
  rw [Mbptree.modify_eq hm₂ hpar, Option.bind_some]
  rfl

/-- The second loop: the children `kids` of `lhs`, from slot `v` on, go to the slots of `rhs` from
    `j` on, and `rhs` becomes their parent. -/
theorem moveValues_spec {lhs rhs : Nat} (hne : lhs ≠ rhs) : ∀ (kids : List Nat) (v j : Nat)
    (t : Mbptree) (l rn : Node),
    t.heap.get lhs = some l → t.heap.get rhs = some rn →
    (∀ i, i < kids.length → l.val? (v + i) = kids[i]?) → kids.Nodup →
    (∀ c ∈ kids, c ≠ lhs ∧ c ≠ rhs ∧ ∃ m, t.heap.get c = some m) →
    v + kids.length ≤ l.data.length → j + kids.length ≤ rn.data.length →
    ∃ h' l' rn', moveValues lhs rhs kids.length v j t = some { t with heap := h' } ∧
      h'.next = t.heap.next ∧ h'.get lhs = some l' ∧ h'.get rhs = some rn' ∧
      (∀ c ∈ kids, ∀ m, t.heap.get c = some m → h'.get c = some { m with parent := rhs }) ∧
      (∀ q, q ≠ lhs → q ≠ rhs → q ∉ kids → h'.get q = t.heap.get q) ∧
      l.ValuesTaken v kids.length l' ∧ rn.ValuesPut j kids rn' := by
  intro kids
  induction kids with
  | nil =>
    intro v j t l rn hl hr _ _ _ _ _
    exact ⟨t.heap, l, rn, rfl, rfl, hl, hr, fun c hc => absurd hc List.not_mem_nil,
      fun _ _ _ _ => rfl, Node.ValuesTaken.zero v l, Node.ValuesPut.nil j rn⟩
  | cons c kids ih =>
    intro v j t l rn hl hr hkids hnd halloc hvl hjr
    rw [List.length_cons] at hvl hjr hkids
    obtain ⟨hcl, hcr, m, hm⟩ := halloc c List.mem_cons_self
    obtain ⟨hcnot, hnd'⟩ := List.nodup_cons.mp hnd
    have hv : l.val? v = some c := hkids 0 (Nat.succ_pos _)
    have hne_c : ∀ x ∈ kids, x ≠ c := fun x hx hxc => hcnot (hxc ▸ hx)
    -- what is in front of the next iteration
    have hkids' : ∀ i, i < kids.length → (l.withValue v 0).val? (v + 1 + i) = kids[i]? := by
      intro i hi
      have hi' := hkids (i + 1) (by omega)
      rw [List.getElem?_cons_succ] at hi'
      rw [Node.val?_withValue, if_neg (by omega), show v + 1 + i = v + (i + 1) by omega, hi']
    have halloc' : ∀ x ∈ kids, x ≠ lhs ∧ x ≠ rhs ∧
        ∃ m', (afterMove t.heap lhs rhs v j c l rn m).get x = some m' := by
      intro x hx
      obtain ⟨hxl, hxr, mx, hmx⟩ := halloc x (List.mem_cons_of_mem _ hx)
      exact ⟨hxl, hxr, mx, (get_afterMove_of_ne (hne_c x hx) hxl hxr).trans hmx⟩
    obtain ⟨h', l', rn', heq, hnext, hl', hr', hmov, hframe, htaken, hput⟩ := ih (v + 1) (j + 1)
      { t with heap := afterMove t.heap lhs rhs v j c l rn m } (l.withValue v 0) (rn.withValue j c)
      (get_afterMove_lhs hne hcl hl) (get_afterMove_rhs hne hcr hr) hkids' hnd' halloc'
      (by rw [Node.length_withValue]; omega) (by rw [Node.length_withValue]; omega)
    refine ⟨h', l', rn', ?_, hnext, hl', hr', fun x hx mx hmx => ?_, fun q hql hqr hq => ?_,
      htaken.cons (by omega), hput.cons (by omega)⟩
    · rw [List.length_cons, moveValues_succ hne hl hr hv (by omega) hcl hcr hm, heq]
    · rcases List.mem_cons.mp hx with rfl | hx
      · rw [hm] at hmx
        cases hmx
        rw [hframe x hcl hcr hcnot]
        exact (get_afterMove hcl hcr hm x).trans (if_pos rfl)
      · obtain ⟨hxl, hxr, -⟩ := halloc x (List.mem_cons_of_mem _ hx)
        exact hmov x hx mx ((get_afterMove_of_ne (hne_c x hx) hxl hxr).trans hmx)
    · rw [List.mem_cons, not_or] at hq
      rw [hframe q hql hqr hq.2]
      exact get_afterMove_of_ne hq.1 hql hqr

theorem mbptreeMidpoint_eq (t : Mbptree) : mbptreeMidpoint t = t.branchFactor / 2 :=
  Nat.shiftRight_eq_div_pow t.branchFactor 1

/-- What the loops leave of a full node: the keys before slot `k` and the children around them. -/
theorem NodeIs.taken {b p k : Nat} {l l₁ l₂ : Node} {ks cs : List Nat} (hn : NodeIs b l p ks cs)
    (hfull : cs.length = b) (hk : k < cs.length) (hkeys : l.KeysTaken (k + 1) l₁)
    (hvalues : l₁.ValuesTaken (k + 1) (cs.drop (k + 1)).length l₂) :
    NodeIs b { l₂ with size := k } p (ks.take k) (cs.take (k + 1)) := by
  have hkl := hn.kids_length
  refine ⟨?_, ?_, ?_, ?_, ?_, ?_, ?_, ?_, ?_⟩
  · exact (hvalues.leaf.trans hkeys.leaf).trans hn.leaf
  · exact (hvalues.parent.trans hkeys.parent).trans hn.parent
  · show k = _
    rw [List.length_take]; omega
  · exact (hvalues.length.trans hkeys.length).trans hn.length
  · rw [List.length_take, List.length_take]; omega
  · rw [List.length_take]; omega
  · intro i hi
    rw [List.length_take] at hi
    refine (hvalues.key i).trans ?_
    rw [hkeys.key i (by omega), hn.key i (by omega), List.getElem?_take_of_lt (by omega)]
  · intro i hi
    rw [List.length_take] at hi
    refine (hvalues.old i (by omega)).trans ?_
    rw [hkeys.val i, hn.kid i (by omega), List.getElem?_take_of_lt (by omega)]
  · intro i hi hib
    rw [List.length_take] at hi
    exact hvalues.blank i (by omega) (by rw [List.length_drop]; omega)

/-- What the loops make of a blank node: the keys behind slot `k` and the children around them. -/
theorem NodeIs.put {b p k : Nat} {l r₁ r₂ : Node} {ks cs : List Nat} (hn : NodeIs b l p ks cs)
    (hk : k < ks.length)
    (hkeys : (blankNode b p).KeysPushed (ks.length - (k + 1)) (fun i => l.key? (k + 1 + i)) r₁)
    (hvalues : r₁.ValuesPut 0 (cs.drop (k + 1)) r₂) :
    NodeIs b r₂ p (ks.drop (k + 1)) (cs.drop (k + 1)) := by
  have hkl := hn.kids_length
  have hfits := hn.fits
  have hblank : (blankNode b p).data.length = b := List.length_replicate
  refine ⟨?_, ?_, ?_, ?_, ?_, ?_, ?_, ?_, ?_⟩
  · exact (hvalues.leaf.trans hkeys.leaf).trans rfl
  · exact (hvalues.parent.trans hkeys.parent).trans rfl
  · rw [hvalues.size, hkeys.size, List.length_drop]
    exact Nat.zero_add _
  · exact (hvalues.length.trans hkeys.length).trans hblank
  · rw [List.length_drop, List.length_drop]; omega
  · rw [List.length_drop]; omega
  · intro i hi
    rw [List.length_drop] at hi
    have hkey := hkeys.new i hi
    rw [show (blankNode b p).size + i = i from Nat.zero_add i] at hkey
    rw [hvalues.key i, hkey, hn.key _ (by omega), List.getElem?_drop]
  · intro i hi
    have hval := hvalues.new i hi
    rwa [Nat.zero_add] at hval
  · intro i hi hib
    rw [hvalues.behind i (by rw [Nat.zero_add]; exact hi), hkeys.val i, blankNode_val hib]

/-- `mbptree_move_half_node` on a full node `lhs` and a blank node `rhs` under the same parent:
    `lhs` keeps the keys before the midpoint, `rhs` gets those after it. -/
theorem moveHalfNode_spec {t : Mbptree} {lhs rhs p : Nat} {l : Node} {ks cs : List Nat}
    (hb : 3 ≤ t.branchFactor) (hl : t.heap.get lhs = some l)
    (hn : NodeIs t.branchFactor l p ks cs) (hfull : cs.length = t.branchFactor)
    (hr : t.heap.get rhs = some (blankNode t.branchFactor p)) (hne : lhs ≠ rhs) (hnd : cs.Nodup)
    (halloc : ∀ c ∈ cs, c ≠ lhs ∧ c ≠ rhs ∧ ∃ m, t.heap.get c = some m) :
    ∃ h' l' r', mbptreeMoveHalfNode t lhs rhs =
        some ((ks[t.branchFactor / 2]?).getD 0, { t with heap := h' }) ∧
      h'.next = t.heap.next ∧ h'.get lhs = some l' ∧ h'.get rhs = some r' ∧
      NodeIs t.branchFactor l' p (ks.take (t.branchFactor / 2)) (cs.take (t.branchFactor / 2 + 1)) ∧
      NodeIs t.branchFactor r' p (ks.drop (t.branchFactor / 2 + 1))
        (cs.drop (t.branchFactor / 2 + 1)) ∧
      (∀ c ∈ cs.drop (t.branchFactor / 2 + 1), ∀ m, t.heap.get c = some m →
        h'.get c = some { m with parent := rhs }) ∧
      ∀ q, q ≠ lhs → q ≠ rhs → q ∉ cs.drop (t.branchFactor / 2 + 1) →
        h'.get q = t.heap.get q := by
  generalize hbf : t.branchFactor = b at *
  have hkl := hn.kids_length
  have hlen := hn.length
  have hblank : (blankNode b p).data.length = b := List.length_replicate
  have hmp : mbptreeMidpoint t = b / 2 := by rw [mbptreeMidpoint_eq, hbf]
  -- the midpoint slot
  have hmid : l.data[b / 2]? = some l.data[b / 2] := List.getElem?_eq_getElem (by omega)
  have hmidk : l.data[b / 2].key = (ks[b / 2]?).getD 0 := by
    rw [← hn.key (b / 2) (by omega), Node.key?, hmid]
    rfl
  -- the two loops
  obtain ⟨h₁, l₁, r₁, heq₁, hnext₁, hl₁, hr₁, hframe₁, htaken₁, hpushed₁⟩ :=
    moveKeys_spec hne (ks.length - (b / 2 + 1)) (b / 2 + 1) t l (blankNode b p) hl hr
      (by rw [hlen]; omega) (by rw [hblank]; show 0 + _ ≤ _; omega)
  have hdrop : (cs.drop (b / 2 + 1)).length = ks.length + 1 - (b / 2 + 1) := by
    rw [List.length_drop, ← hkl]
  obtain ⟨h₂, l₂, r₂, heq₂, hnext₂, hl₂, hr₂, hmov₂, hframe₂, htaken₂, hput₂⟩ :=
    moveValues_spec hne (cs.drop (b / 2 + 1)) (b / 2 + 1) 0 { t with heap := h₁ } l₁ r₁ hl₁ hr₁
      (by
        intro i hi
        rw [List.length_drop] at hi
        rw [htaken₁.val, hn.kid _ (by omega), List.getElem?_drop])
      (hnd.sublist (List.drop_sublist _ _))
      (by
        intro c hc
        obtain ⟨hcl, hcr, m, hm⟩ := halloc c (List.mem_of_mem_drop hc)
        exact ⟨hcl, hcr, m, (hframe₁ c hcl hcr).trans hm⟩)
      (by rw [htaken₁.length, hlen, hdrop]; omega)
      (by rw [hpushed₁.length, hblank, hdrop]; omega)
  rw [hdrop] at heq₂
  refine ⟨h₂.set lhs { l₂ with size := b / 2 }, { l₂ with size := b / 2 }, r₂, ?_, ?_,
    Heap.get_set_self hl₂, (Heap.get_set_of_ne (Ne.symm hne)).trans hr₂,
    hn.taken hfull (by omega) htaken₁ htaken₂, hn.put (by omega) hpushed₁ hput₂, ?_, ?_⟩
  · rw [mbptreeMoveHalfNode]
    simp only [Mbptree.node, hl, hr, Option.bind_eq_bind, Option.bind_some]
    have hpar : l.parent = (blankNode b p).parent := hn.parent
    have hbl : (blankNode b p).leaf = false := rfl
    rw [assert_pos hpar, assert_pos hn.leaf, assert_pos hbl]
    simp only [Option.bind_some, hmp, hmid, hn.size, heq₁, heq₂]
    have hsize : Node.setSize (b / 2) l₂ = some { l₂ with size := b / 2 } := rfl
    rw [Mbptree.modify_eq hl₂ hsize, hmidk, ← hbf]
    rfl
  · rw [Heap.next_set, hnext₂, hnext₁]
  · intro c hc m hm
    obtain ⟨hcl, hcr, -⟩ := halloc c (List.mem_of_mem_drop hc)
    rw [Heap.get_set_of_ne hcl]
    exact hmov₂ c hc m ((hframe₁ c hcl hcr).trans hm)
  · intro q hql hqr hq
    rw [Heap.get_set_of_ne hql]
    exact (hframe₂ q hql hqr hq).trans (hframe₁ q hql hqr)

/-- The shared part of a split: the full node `lhs` is halved into itself and the blank node `rhs`,
    which also takes the node `child` with its separator `key`. -/
theorem moveHalfAndAdd_spec {t : Mbptree} {lhs rhs p child : Nat} {l m : Node}
    {ks cs : List Nat} (key : Nat) (hb : 3 ≤ t.branchFactor) (hl : t.heap.get lhs = some l)
    (hn : NodeIs t.branchFactor l p ks cs) (hfull : cs.length = t.branchFactor)
    (hr : t.heap.get rhs = some (blankNode t.branchFactor p)) (hne : lhs ≠ rhs) (hnd : cs.Nodup)
    (halloc : ∀ c ∈ cs, c ≠ lhs ∧ c ≠ rhs ∧ ∃ m, t.heap.get c = some m)
    (hm : t.heap.get child = some m) (hcl : child ≠ lhs) (hcr : child ≠ rhs)
    (hcs : child ∉ cs) :
    ∃ h' l' r', moveHalfAndAdd t lhs rhs key child =
        some ((ks[t.branchFactor / 2]?).getD 0, { t with heap := h' }) ∧
      h'.next = t.heap.next ∧ h'.get lhs = some l' ∧ h'.get rhs = some r' ∧
      NodeIs t.branchFactor l' p (ks.take (t.branchFactor / 2)) (cs.take (t.branchFactor / 2 + 1)) ∧
      NodeIs t.branchFactor r' p (ks.drop (t.branchFactor / 2 + 1) ++ [key])
        (cs.drop (t.branchFactor / 2 + 1) ++ [child]) ∧
      (∀ c ∈ cs.drop (t.branchFactor / 2 + 1) ++ [child], ∀ m, t.heap.get c = some m →
        h'.get c = some { m with parent := rhs }) ∧
      ∀ q, q ≠ lhs → q ≠ rhs → q ∉ cs.drop (t.branchFactor / 2 + 1) ++ [child] →
        h'.get q = t.heap.get q := by
  obtain ⟨h₁, l₁, r₁, heq, hnext, hl₁, hr₁, hlis, hris, hmov, hframe⟩ :=
    moveHalfNode_spec hb hl hn hfull hr hne hnd halloc
  have hcd : child ∉ cs.drop (t.branchFactor / 2 + 1) := fun hmem => hcs (List.mem_of_mem_drop hmem)
  have hm₁ : h₁.get child = some m := (hframe child hcl hcr hcd).trans hm
  obtain ⟨r₂, r₃, hpush, hlast, hadd⟩ := hris.add (by rw [List.length_drop]; omega) key child
  have hr₂ : (h₁.set rhs r₂).get rhs = some r₂ := Heap.get_set_self hr₁
  have hm₃ : ((h₁.set rhs r₂).set rhs r₃).get child = some m := by
    rw [Heap.get_set_of_ne hcr, Heap.get_set_of_ne hcr, hm₁]
  have hpar : Node.setParent rhs m = some { m with parent := rhs } := rfl
  refine ⟨((h₁.set rhs r₂).set rhs r₃).set child { m with parent := rhs }, l₁, r₃, ?_, hnext,
    ?_, ?_, hlis, hadd, ?_, ?_⟩
  · rw [moveHalfAndAdd]
    simp only [heq, Option.bind_eq_bind, Option.bind_some]
    rw [Mbptree.modify_eq hr₁ hpush, Option.bind_some, Mbptree.modify_eq hr₂ hlast,
      Option.bind_some, Mbptree.modify_eq hm₃ hpar]
    rfl
  · rw [Heap.get_set_of_ne (Ne.symm hcl), Heap.get_set_of_ne hne, Heap.get_set_of_ne hne, hl₁]
  · rw [Heap.get_set_of_ne (Ne.symm hcr), Heap.get_set_self hr₂]
  · intro c hc mc hmc
    rcases List.mem_append.mp hc with hc | hc
    · have hcne : c ≠ child := fun hcc => hcd (hcc ▸ hc)
      obtain ⟨-, hcrhs, -⟩ := halloc c (List.mem_of_mem_drop hc)
      rw [Heap.get_set_of_ne hcne, Heap.get_set_of_ne hcrhs, Heap.get_set_of_ne hcrhs]
      exact hmov c hc mc hmc
    · rw [List.mem_singleton.mp hc] at hmc ⊢
      rw [hm] at hmc
      cases hmc
      exact Heap.get_set_self hm₃
  · intro q hql hqr hq
    rw [List.mem_append, not_or, List.mem_singleton] at hq
    rw [Heap.get_set_of_ne hq.2, Heap.get_set_of_ne hqr, Heap.get_set_of_ne hqr]
    exact hframe q hql hqr hq.1

end Mqlog
