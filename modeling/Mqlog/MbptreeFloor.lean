/-
  The floor search and the leaf iterator.

  A cursor (`Cursor h b it rest`) is an iterator together with the entries that are still in front
  of it, the current one first; `next` moves it over one entry (`Cursor.next`).  A search for `key`
  returns the cursor in front of the last entry whose key is not above `key`, or the exhausted
  iterator when there is none (`mbptreeLeafFloor_spec`).

  The descent is the usual argument: at every node all later children hold larger keys, and a child
  other than the first starts at or below `key`, so the leaf that is found contains the floor or is
  the first leaf.

    1. The two loops.  `mbptree_find_leaf` takes the first separator above `key`, or the last child
       (`findChild_spec`); `mbptree_leaf_floor` goes through the leaf and remembers the last slot
       whose key is not above `key` (`floorIdx_spec`).
    2. The descent (`mbptreeFindLeaf_spec`), by induction on the height.  What is carried along is
       the part of the tree to the right, all of whose keys are above `key`, and whether anything
       lies to the left.
    3. The search.  `Stands` says where an iterator is, with the entries behind it as well as those
       in front: a caller that goes on with the iterator needs both.
    4. Runs: `floor_exact` is about every tree that appends can make, and every key.

  In a leaf that is the first one there may be no floor; then the loop finds nothing, and the
  iterator is exhausted.  In any other leaf the first entry is one, by the descent.

  The search takes the lock of the tree for reading and gives it back; on a free lock both succeed
  (`mbptreeLeafFloor_eq`).
-/
import Mqlog.MbptreeShape

namespace Mqlog

open Lib (Heap UTree Spine)
open Lib.UTree (leaf mk label labels leaves children payload)

/-! ## Cursors -/

/-- The leaves from the address `a` on, along their links, hold the nonempty entry lists `ess`. -/
inductive LeafRun (h : Heap Node) (b : Nat) : Nat → List (List Data) → Prop where
  | nil : LeafRun h b 0 []
  | cons {a q next : Nat} {es : List Data} {ess : List (List Data)} :
      h.get a = some (leafNode b q es next) → es ≠ [] → es.length < b → LeafRun h b next ess →
      LeafRun h b a (es :: ess)

/-- The iterator `it` is exhausted and `rest` is empty, or it stands in a leaf and `rest` is the
    entries from there on. -/
def Cursor (h : Heap Node) (b : Nat) (it : LeafIterator) (rest : List Data) : Prop :=
  (it.leaf = 0 ∧ rest = []) ∨
    ∃ q es next ess, h.get it.leaf = some (leafNode b q es next) ∧ it.idx < es.length ∧
      es.length < b ∧ LeafRun h b next ess ∧ rest = es.drop it.idx ++ ess.flatten

theorem LeafRun.inv {h : Heap Node} {b a : Nat} {es : List Data} {ess : List (List Data)}
    (hrun : LeafRun h b a (es :: ess)) : ∃ q next, h.get a = some (leafNode b q es next) ∧
      es.length < b ∧ LeafRun h b next ess := by
  cases hrun with
  | @cons _ q next _ _ hget _ hlen hrest => exact ⟨q, next, hget, hlen, hrest⟩

/-- A run of leaves, entered at its first entry. -/
theorem LeafRun.cursor {h : Heap Node} {b a : Nat} {ess : List (List Data)}
    (hrun : LeafRun h b a ess) : Cursor h b ⟨0, a⟩ ess.flatten := by
  cases hrun with
  | nil => exact Or.inl ⟨rfl, rfl⟩
  | @cons _ q next es ess hget hne hlen hrest =>
    exact Or.inr ⟨q, es, next, ess, hget, List.length_pos_iff.mpr hne, hlen, hrest, rfl⟩

/-- `mbptree_leaf_iterator_next` at an entry of a leaf. -/
theorem mbptreeLeafIteratorNext_eq {t : Mbptree} {it : LeafIterator} {b q next : Nat}
    {es : List Data} (hget : t.heap.get it.leaf = some (leafNode b q es next))
    (hidx : it.idx < es.length) :
    mbptreeLeafIteratorNext t it =
      some (if it.idx + 1 = es.length then ⟨0, next⟩ else { it with idx := it.idx + 1 }) := by
  have hsize : (leafNode b q es next).size = es.length := rfl
  have hlink : (leafNode b q es next).data[es.length]? = some ⟨0, next⟩ := leafNode_link
  have hle : it.idx + 1 ≤ (leafNode b q es next).size := by rw [hsize]; exact hidx
  rw [mbptreeLeafIteratorNext, Mbptree.node, hget]
  simp only [Option.bind_eq_bind, Option.bind_some]
  rw [assert_pos hle, Option.bind_some, hsize]
  by_cases hend : it.idx + 1 = es.length
  · rw [if_pos hend, if_pos hend, hlink]
    rfl
  · rw [if_neg hend, if_neg hend]
    rfl

namespace Cursor

variable {t : Mbptree} {b : Nat} {it : LeafIterator} {d : Data} {rest : List Data}

theorem valid_nil (hc : Cursor t.heap b it []) : mbptreeLeafIteratorValid t it = some false := by
  rcases hc with ⟨hleaf, -⟩ | ⟨q, es, next, ess, -, hidx, -, -, hnil⟩
  · rw [mbptreeLeafIteratorValid, if_pos hleaf]
  · have hlen := congrArg List.length hnil
    rw [List.length_nil, List.length_append, List.length_drop] at hlen
    omega

/-- The leaf and the slot a cursor in front of an entry stands at. -/
theorem current (hc : Cursor t.heap b it (d :: rest)) : ∃ q es next ess,
    t.heap.get it.leaf = some (leafNode b q es next) ∧ it.idx < es.length ∧ es.length < b ∧
    es[it.idx]? = some d ∧ LeafRun t.heap b next ess ∧
    rest = es.drop (it.idx + 1) ++ ess.flatten := by
  rcases hc with ⟨-, hnil⟩ | ⟨q, es, next, ess, hget, hidx, hlen, hrun, hrest⟩
  · nomatch hnil
  · rw [List.drop_eq_getElem_cons hidx, List.cons_append] at hrest
    obtain ⟨rfl, rfl⟩ := List.cons.inj hrest
    exact ⟨q, es, next, ess, hget, hidx, hlen, List.getElem?_eq_getElem hidx, hrun, rfl⟩

theorem valid_cons (hc : Cursor t.heap b it (d :: rest)) :
    mbptreeLeafIteratorValid t it = some true := by
  obtain ⟨q, es, next, ess, hget, hidx, -⟩ := hc.current
  rw [mbptreeLeafIteratorValid, if_neg (Heap.ne_null hget), Mbptree.node, hget]
  exact congrArg some (decide_eq_true hidx)

theorem key_value (hc : Cursor t.heap b it (d :: rest)) :
    mbptreeLeafIteratorKey t it = some d.key ∧ mbptreeLeafIteratorValue t it = some d.value := by
  obtain ⟨q, es, next, ess, hget, hidx, -, hd, -⟩ := hc.current
  have hslot : (leafNode b q es next).data[it.idx]? = some d := (leafNode_entry hidx).trans hd
  constructor
  · rw [mbptreeLeafIteratorKey, Mbptree.node, hget]
    simp only [Option.bind_eq_bind, Option.bind_some, hslot]
    rfl
  · rw [mbptreeLeafIteratorValue, Mbptree.node, hget]
    simp only [Option.bind_eq_bind, Option.bind_some, hslot]
    rfl

/-- **`next` moves over one entry**, within a leaf or along its link. -/
theorem next (hc : Cursor t.heap b it (d :: rest)) :
    ∃ it', mbptreeLeafIteratorNext t it = some it' ∧ Cursor t.heap b it' rest := by
  obtain ⟨q, es, next, ess, hget, hidx, hlen, -, hrun, rfl⟩ := hc.current
  rw [mbptreeLeafIteratorNext_eq hget hidx]
  by_cases hend : it.idx + 1 = es.length
  · rw [if_pos hend]
    refine ⟨⟨0, next⟩, rfl, ?_⟩
    rw [hend, List.drop_length, List.nil_append]
    exact hrun.cursor
  · rw [if_neg hend]
    refine ⟨{ it with idx := it.idx + 1 }, rfl,
      Or.inr ⟨q, es, next, ess, hget, ?_, hlen, hrun, rfl⟩⟩
    show it.idx + 1 < es.length
    omega

end Cursor

/-! ## The leaves of a tree as a run -/

/-- From any point of a chain of filled leaves on, the leaves form a run. -/
theorem linked_leafRun {h : Heap Node} {b : Nat} {last : Nat × LeafData} :
    (ls : List (Nat × LeafData)) →
    (∀ x ∈ ls ++ [last], ∃ q, h.get x.1 = some (leafNode b q x.2.entries x.2.next)) →
    (∀ x ∈ ls ++ [last], x.2.entries ≠ [] ∧ x.2.entries.length < b) →
    Linked b ls last.1 → last.2.next = 0 →
    ∀ pre x post, ls ++ [last] = pre ++ x :: post →
      LeafRun h b x.1 (x.2.entries :: post.map fun y => y.2.entries)
  | [], hmem, hfit, _, hstop, pre, x, post, heq => by
    obtain ⟨rfl, hx⟩ := List.append_eq_singleton_iff.mp heq.symm |>.resolve_right (fun h => by
      nomatch h.2)
    obtain ⟨rfl, rfl⟩ := List.cons.inj hx
    obtain ⟨q, hq⟩ := hmem x (List.mem_singleton.mpr rfl)
    obtain ⟨hne, hlen⟩ := hfit x (List.mem_singleton.mpr rfl)
    rw [hstop] at hq
    exact LeafRun.cons hq hne hlen LeafRun.nil
  | y :: ls, hmem, hfit, ⟨_, hnext, hrest⟩, hstop, pre, x, post, heq => by
    have ih := linked_leafRun ls (fun z hz => hmem z (List.mem_cons_of_mem y hz))
      (fun z hz => hfit z (List.mem_cons_of_mem y hz)) hrest hstop
    cases pre with
    | cons z pre =>
      exact ih pre x post (List.cons.inj heq).2
    | nil =>
      obtain ⟨rfl, rfl⟩ := List.cons.inj heq
      obtain ⟨q, hq⟩ := hmem y List.mem_cons_self
      obtain ⟨hne, hlen⟩ := hfit y List.mem_cons_self
      refine LeafRun.cons hq hne hlen ?_
      -- the link leads to the leaf after `y`
      cases ls with
      | nil => rw [hnext]; exact ih [] last [] rfl
      | cons z zs => rw [hnext]; exact ih [] z (zs ++ [last]) rfl

/-! ## The search loops -/

/-- `mbptree_find_leaf`'s loop: the first key above `key`, or the number of keys. -/
theorem findChild_spec {n : Node} {keys : List Nat}
    (hkeys : ∀ i, i < keys.length → n.key? i = keys[i]?) (key : Nat) : ∀ r i, i + r = keys.length →
    ∃ j, findChild n key r i = some j ∧ i ≤ j ∧ j ≤ keys.length ∧
      (∀ m k, i ≤ m → m < j → keys[m]? = some k → k ≤ key) ∧
      ∀ k, keys[j]? = some k → key < k := by
  intro r
  induction r with
  | zero =>
    intro i hi
    refine ⟨i, rfl, Nat.le_refl i, by omega, fun m k hm hmi _ => absurd hmi (by omega),
      fun k hk => ?_⟩
    rw [List.getElem?_eq_none (by omega)] at hk
    nomatch hk
  | succ r ih =>
    intro i hi
    have hk := hkeys i (by omega)
    rw [List.getElem?_eq_getElem (by omega)] at hk
    obtain ⟨d, hd, hdk⟩ := Option.map_eq_some_iff.mp hk
    rw [findChild, hd]
    simp only [Option.bind_eq_bind, Option.bind_some]
    by_cases hlt : key < d.key
    · refine ⟨i, by rw [if_pos hlt]; rfl, Nat.le_refl i, by omega,
        fun m k hm hmi _ => absurd hmi (by omega), fun k hk' => ?_⟩
      rw [List.getElem?_eq_getElem (by omega), ← hdk] at hk'
      cases hk'
      exact hlt
    · obtain ⟨j, hj, hij, hjlen, hbelow, habove⟩ := ih (i + 1) (by omega)
      refine ⟨j, by rw [if_neg hlt]; exact hj, by omega, hjlen, fun m k hm hmj hmk => ?_, habove⟩
      rcases Nat.eq_or_lt_of_le hm with rfl | him
      · rw [List.getElem?_eq_getElem (by omega), ← hdk] at hmk
        cases hmk
        omega
      · exact hbelow m k him hmj hmk

/-- `mbptree_leaf_floor`'s loop: the last entry of an initial run of entries not above `key`. -/
theorem floorIdx_spec {b q x : Nat} {es : List Data} (key : Nat) : ∀ r i idx, i + r = es.length →
    ∃ res, floorIdx (leafNode b q es x) key r i idx = some res ∧
      ((res = idx ∧ ∀ e, es[i]? = some e → key < e.key) ∨
        ∃ j e, res = some j ∧ i ≤ j ∧ es[j]? = some e ∧ e.key ≤ key ∧
          ∀ e', es[j + 1]? = some e' → key < e'.key) := by
  intro r
  induction r with
  | zero =>
    intro i idx hi
    refine ⟨idx, rfl, Or.inl ⟨rfl, fun e he => ?_⟩⟩
    rw [List.getElem?_eq_none (by omega)] at he
    nomatch he
  | succ r ih =>
    intro i idx hi
    have hlt : i < es.length := by omega
    rw [floorIdx, leafNode_entry hlt, List.getElem?_eq_getElem hlt]
    simp only [Option.bind_eq_bind, Option.bind_some]
    by_cases hle : es[i].key ≤ key
    · rw [if_pos hle]
      obtain ⟨res, hres, ⟨rfl, habove⟩ | ⟨j, e, rfl, hij, he, hek, habove⟩⟩ :=
        ih (i + 1) (some i) (by omega)
      · exact ⟨some i, hres, Or.inr ⟨i, es[i], rfl, Nat.le_refl i, List.getElem?_eq_getElem hlt,
          hle, habove⟩⟩
      · exact ⟨some j, hres, Or.inr ⟨j, e, rfl, by omega, he, hek, habove⟩⟩
    · rw [if_neg hle]
      refine ⟨idx, rfl, Or.inl ⟨rfl, fun e he => ?_⟩⟩
      cases he
      omega

section Descent

variable {h : Heap Node} {b d q j : Nat} {s : UTree LeafData (d + 1)}

/-- The separator behind a child is the lowest key of the next child. -/
theorem separator_eq {cs : List (UTree LeafData d)} (hj : j + 1 < cs.length) :
    (cs.map lo).tail[j]? = some (lo cs[j + 1]) := by
  rw [List.getElem?_tail, List.getElem?_map, List.getElem?_eq_getElem hj]
  rfl

/-- Below the children behind a separator that is above `key`, all keys are above `key`. -/
theorem Subtree.key_lt_behind (hb : 3 ≤ b) (hs : Subtree h b q s) {key : Nat}
    (habove : ∀ k, ((children s).map lo).tail[j]? = some k → key < k) :
    ∀ y ∈ ((children s).drop (j + 1)).flatMap leaves, ∀ e ∈ y.2.entries, key < e.key := by
  intro y hy e he
  obtain ⟨c, hc, hyc⟩ := List.mem_flatMap.mp hy
  obtain ⟨i, hi⟩ := List.mem_iff_getElem?.mp hc
  rw [List.getElem?_drop] at hi
  have hj : j + 1 < (children s).length := by
    have hlt := (List.getElem?_eq_some_iff.mp hi).1
    omega
  have hsep : key < lo (children s)[j + 1] := habove _ (separator_eq hj)
  have he' : e ∈ entries c := List.mem_flatMap.mpr ⟨y, hyc, he⟩
  obtain ⟨⟨e₀, he₀, hek₀⟩, hle⟩ := hs.lo_child hb (List.getElem_mem hj)
  rcases Nat.eq_zero_or_pos i with rfl | hpos
  · -- the next child itself
    rw [Nat.add_zero, List.getElem?_eq_getElem hj] at hi
    cases hi
    exact Nat.lt_of_lt_of_le hsep (hle e he')
  · have hlt := hs.entries_lt (show j + 1 < j + 1 + i by omega) (List.getElem?_eq_getElem hj) hi
      e₀ he₀
      e he'
    omega

/-- The first leaf below a child starts with the lowest key of the child. -/
theorem Subtree.first_key (hb : 3 ≤ b) (hs : Subtree h b q s) {c : UTree LeafData d}
    (hc : c ∈ children s) {x : Nat × LeafData} {post : List (Nat × LeafData)}
    (hleaves : leaves c = x :: post) : ∀ e, x.2.entries.head? = some e → e.key = lo c := by
  intro e he
  have hfilled : ∀ y ∈ leaves c, y.2.entries ≠ [] := fun y hy =>
    hs.filled (Nat.succ_pos d) y (List.mem_flatMap.mpr ⟨c, hc, hy⟩)
  obtain ⟨e₀, es₀, hes₀, hkey₀⟩ := (hs.child hb hc).entries_head hb hfilled
  rw [entries, hleaves, List.flatMap_cons] at hes₀
  obtain ⟨e', es', hes'⟩ := List.exists_cons_of_ne_nil
    (hfilled x (by rw [hleaves]; exact List.mem_cons_self))
  rw [hes'] at he hes₀
  cases he
  rw [(List.cons.inj hes₀).1, hkey₀]

end Descent

/-- **The descent**: the leaf that is found has only larger keys to its right, and it is the first
    leaf or starts at or below `key`. -/
theorem mbptreeFindLeaf_spec {t : Mbptree} {b : Nat} (hb : 3 ≤ b) (key : Nat) : {d q : Nat} →
    {s : UTree LeafData d} → Subtree t.heap b q s → ∀ fuel, d + 1 ≤ fuel →
    ∃ x pre post, leaves s = pre ++ x :: post ∧ mbptreeFindLeaf t key fuel (label s) = some x.1 ∧
      (∀ y ∈ post, ∀ e ∈ y.2.entries, key < e.key) ∧
      (pre = [] ∨ ∀ e, x.2.entries.head? = some e → e.key ≤ key)
  | 0, q, s, hs, fuel, hfuel => by
    obtain ⟨f, rfl⟩ : ∃ f, fuel = f + 1 := ⟨fuel - 1, by omega⟩
    have hget : t.heap.get (label s) = some (leafNode b q (payload s).entries (payload s).next) :=
      hs.rep
    refine ⟨(label s, payload s), [], [], rfl, ?_, fun y hy => absurd hy List.not_mem_nil,
      Or.inl rfl⟩
    rw [mbptreeFindLeaf, Mbptree.node, hget]
    rfl
  | d + 1, q, s, hs, fuel, hfuel => by
    obtain ⟨f, rfl⟩ : ∃ f, fuel = f + 1 := ⟨fuel - 1, by omega⟩
    obtain ⟨⟨n, hn, hnode⟩, -⟩ := hs.rep
    obtain ⟨j, hfind, -, hjlen, hbelow, habove⟩ :=
      findChild_spec hnode.key key n.size 0 (by rw [Nat.zero_add, hnode.size])
    have hkids := hnode.kids_length
    rw [List.length_map] at hkids
    have hjlt : j < (children s).length := by omega
    have hval := hnode.kid j (by rw [List.length_map]; exact hjlt)
    rw [List.getElem?_map, List.getElem?_eq_getElem hjlt] at hval
    obtain ⟨dj, hdj, hdjv⟩ := Option.map_eq_some_iff.mp hval
    have hc : (children s)[j]? = some (children s)[j] := List.getElem?_eq_getElem hjlt
    have hcmem := List.mem_of_getElem? hc
    obtain ⟨x, pre, post, hleaves, hx, hpost, hpre⟩ :=
      mbptreeFindLeaf_spec hb key (hs.child hb hcmem) f (by omega)
    refine ⟨x, ((children s).take j).flatMap leaves ++ pre,
      post ++ ((children s).drop (j + 1)).flatMap leaves, ?_, ?_, ?_, ?_⟩
    · have hsplit : children s = (children s).take j ++ (children s)[j] ::
          (children s).drop (j + 1) := by
        rw [← List.drop_eq_getElem_cons hjlt, List.take_append_drop]
      have hall : leaves s = (children s).flatMap leaves := rfl
      rw [hall]
      conv_lhs => rw [hsplit]
      rw [List.flatMap_append, List.flatMap_cons, hleaves]
      simp only [List.append_assoc, List.cons_append]
    · rw [mbptreeFindLeaf, Mbptree.node, hn]
      simp only [Option.bind_eq_bind, Option.bind_some, hnode.leaf, Bool.false_eq_true, if_false,
        hfind, hdj]
      rw [hdjv]
      exact hx
    · intro y hy e he
      rcases List.mem_append.mp hy with hy | hy
      · exact hpost y hy e he
      · exact hs.key_lt_behind hb habove y hy e he
    · rcases Nat.eq_zero_or_pos j with rfl | hjpos
      · rcases hpre with rfl | hhead
        · exact Or.inl rfl
        · exact Or.inr hhead
      · refine Or.inr fun e he => ?_
        rcases hpre with rfl | hhead
        · -- the separator in front of child `j` is not above `key`
          obtain ⟨i, rfl⟩ := Nat.exists_eq_succ_of_ne_zero (Nat.ne_of_gt hjpos)
          rw [hs.first_key hb hcmem hleaves e he]
          exact hbelow i _ (Nat.zero_le _) (Nat.lt_succ_self i) (separator_eq hjlt)
        · exact hhead e he

/-! ## The search -/

/-- The leaves of a tree are linked, filled (unless the tree is empty) and in the heap, so they form
    a run from each of them on. -/
theorem TreeInv.leafRun {b D : Nat} {t : Mbptree} {sp : Spine LeafData 0 D} {l : LeafData}
    (hb : 3 ≤ b) (h : TreeInv b t sp l) (hne : l.entries ≠ []) {pre post : List (Nat × LeafData)}
    {x : Nat × LeafData} (heq : sp.leaves ++ [(t.lastLeaf, l)] = pre ++ x :: post) :
    LeafRun t.heap b x.1 (x.2.entries :: post.map fun y => y.2.entries) := by
  have hsub := h.subtree hb
  refine linked_leafRun sp.leaves h.leaf_mem (fun y hy => ⟨?_, ?_⟩) h.linked h.stop pre x post heq
  · cases D with
    | succ D => exact hsub.filled (Nat.succ_pos D) y (by rw [TreeInv.leaves_eq]; exact hy)
    | zero =>
      cases sp with
      | root =>
        rw [List.mem_singleton.mp hy]
        exact hne
      | up a left rest =>
        have hheight := Spine.height_eq rest
        omega
  · have := hsub.fits y (by rw [TreeInv.leaves_eq]; exact hy)
    omega

theorem append_take_drop {α : Type} (pre es post : List α) (i : Nat) :
    pre ++ es.take i ++ (es.drop i ++ post) = pre ++ (es ++ post) := by
  rw [List.append_assoc, ← List.append_assoc (es.take i), List.take_append_drop]

/-- The entries of a tree, divided at one of its leaves. -/
theorem spineEntries_divided {D a : Nat} {sp : Spine LeafData 0 D} {l : LeafData}
    {pre post : List (Nat × LeafData)} {x : Nat × LeafData}
    (heq : sp.leaves ++ [(a, l)] = pre ++ x :: post) :
    spineEntries sp l = pre.flatMap (fun y => y.2.entries) ++ (x.2.entries ++
      post.flatMap fun y => y.2.entries) := by
  have hall := congrArg (List.flatMap fun y : Nat × LeafData => y.2.entries) heq
  simp only [List.flatMap_append, List.flatMap_cons, List.flatMap_nil, List.append_nil] at hall
  rw [spineEntries, hall]

/-- When some leaf has entries, the last one has. -/
theorem TreeInv.last_ne_nil {b D : Nat} {t : Mbptree} {sp : Spine LeafData 0 D} {l : LeafData}
    (h : TreeInv b t sp l) {x : Nat × LeafData} (hx : x ∈ sp.leaves ++ [(t.lastLeaf, l)])
    (hne : x.2.entries ≠ []) : l.entries ≠ [] := by
  intro hnil
  have hbare := h.leaves_nil hnil
  rw [hbare, List.nil_append, List.mem_singleton] at hx
  rw [hx] at hne
  exact hne hnil

/-- The iterator stands in front of the entries `after`, the first of which is the current one, and
    behind the entries `before`. -/
def Stands (b : Nat) (t : Mbptree) (it : LeafIterator) (before after : List Data) : Prop :=
  t.lock = lockFree ∧ ∃ (D : Nat) (sp : Spine LeafData 0 D) (l : LeafData)
    (pre : List (Nat × LeafData)) (x : Nat × LeafData) (post : List (Nat × LeafData)),
    TreeInv b t sp l ∧ sp.leaves ++ [(t.lastLeaf, l)] = pre ++ x :: post ∧ it.leaf = x.1 ∧
      it.idx < x.2.entries.length ∧
      before = pre.flatMap (fun y => y.2.entries) ++ x.2.entries.take it.idx ∧
      after = x.2.entries.drop it.idx ++ post.flatMap fun y => y.2.entries

namespace Stands

variable {b : Nat} {t : Mbptree} {it : LeafIterator} {before after : List Data}

theorem holds (h : Stands b t it before after) : TreeHolds b t (before ++ after) := by
  obtain ⟨hlock, D, sp, l, pre, x, post, hinv, hleaves, -, -, rfl, rfl⟩ := h
  refine ⟨hlock, D, sp, l, hinv, ?_⟩
  rw [spineEntries_divided hleaves, append_take_drop]

theorem cursor (hb : 3 ≤ b) (h : Stands b t it before after) : Cursor t.heap b it after := by
  obtain ⟨-, D, sp, l, pre, x, post, hinv, hleaves, hleaf, hidx, -, rfl⟩ := h
  have hmem : x ∈ sp.leaves ++ [(t.lastLeaf, l)] := by
    rw [hleaves]; exact List.mem_append_right _ List.mem_cons_self
  have hne :=
    hinv.last_ne_nil hmem (List.length_pos_iff.mp (Nat.lt_of_le_of_lt (Nat.zero_le _) hidx))
  obtain ⟨q, next, hget, hlen, hrun⟩ := (hinv.leafRun hb hne hleaves).inv
  rw [← hleaf] at hget
  exact Or.inr ⟨q, x.2.entries, next, _, hget, hidx, hlen, hrun, by rw [List.flatMap]⟩

end Stands

/-- In a sorted list, what lies above `key` from slot `i` on is everything from there on. -/
theorem Sorted.above_drop {es : List Data} (hs : Sorted es) {key i : Nat}
    (habove : ∀ e, es[i]? = some e → key < e.key) : ∀ e ∈ es.drop i, key < e.key := by
  intro e he
  obtain ⟨j, hj⟩ := List.mem_iff_getElem?.mp he
  rw [List.getElem?_drop] at hj
  obtain ⟨hlt, rfl⟩ := List.getElem?_eq_some_iff.mp hj
  have hi := habove es[i] (List.getElem?_eq_getElem (by omega))
  rcases Nat.eq_zero_or_pos j with rfl | hpos
  · exact hi
  · exact Nat.lt_trans hi (List.pairwise_iff_getElem.mp hs i (i + j) (by omega) hlt (by omega))

/-- `mbptree_leaf_floor` on a free lock: the lock is taken and given back around the descent. -/
theorem mbptreeLeafFloor_eq {t : Mbptree} (hal : t.allocs = []) (hlock : t.lock = lockFree)
    (key : Nat) :
    mbptreeLeafFloor t key =
      (mbptreeFindLeaf { t with lock := floorNew lockFree } key t.heap.next t.root).bind fun a =>
        (t.heap.get a).bind fun n =>
          (floorIdx n key n.size 0 none).map fun res =>
            (0, some ((res.map fun idx => LeafIterator.mk idx a).getD ⟨0, 0⟩), t) := by
  obtain ⟨b, lock, root, last, heap, allocs⟩ := t
  obtain rfl : allocs = [] := hal
  obtain rfl : lock = lockFree := hlock
  have hexpected : ¬ lockFree ≠ floorExpected lockFree := by decide
  have hrelease : floorRelease (floorNew lockFree) = lockFree := rfl
  simp only [mbptreeLeafFloor, List.tail_nil, hexpected, if_false, hrelease, Mbptree.node,
    Option.bind_eq_bind]
  cases mbptreeFindLeaf ⟨b, floorNew lockFree, root, last, heap, []⟩ key heap.next root with
  | none => rfl
  | some a =>
    simp only [Option.bind_some]
    cases heap.get a with
    | none => rfl
    | some n =>
      simp only [Option.bind_some]
      rcases floorIdx n key n.size 0 none with _ | _ | idx <;> rfl

/-- A leaf that is not the first one has entries. -/
theorem TreeInv.filled_of_pre {b D : Nat} {t : Mbptree} {sp : Spine LeafData 0 D} {l : LeafData}
    (hb : 3 ≤ b) (h : TreeInv b t sp l) {pre post : List (Nat × LeafData)} {x : Nat × LeafData}
    (heq : sp.leaves ++ [(t.lastLeaf, l)] = pre ++ x :: post) : pre = [] ∨ x.2.entries ≠ [] := by
  have hmem : x ∈ leaves (sp.plug (leaf t.lastLeaf l)) := by
    rw [TreeInv.leaves_eq, heq]
    exact List.mem_append_right _ List.mem_cons_self
  cases sp with
  | root =>
    rcases List.append_eq_singleton_iff.mp heq.symm with ⟨hpre, -⟩ | ⟨-, hnil⟩
    · exact Or.inl hpre
    · nomatch hnil
  | up a left rest =>
    have hheight := Spine.height_eq rest
    exact Or.inr ((h.subtree hb).filled (by omega) x hmem)

/-- **The floor search**: the exhausted iterator when all keys are above `key`, and else one that
    stands in front of the last entry whose key is not.  The tree, its lock included, is
    unchanged. -/
theorem mbptreeLeafFloor_stands {b : Nat} (hb : 3 ≤ b) {t : Mbptree} {es : List Data}
    (h : TreeHolds b t es) (key : Nat) :
    ∃ it, mbptreeLeafFloor t key = some (0, some it, t) ∧
      (((∀ e ∈ es, key < e.key) ∧ it = ⟨0, 0⟩) ∨
        ∃ before d post, es = before ++ d :: post ∧ d.key ≤ key ∧ (∀ e ∈ post, key < e.key) ∧
          Stands b t it before (d :: post)) := by
  obtain ⟨hlock, D, sp, l, hinv, hes⟩ := h
  have hsub := hinv.subtree hb
  obtain ⟨x, pre, post, hleaves, hfind, hpost, hpre⟩ :=
    mbptreeFindLeaf_spec (t := { t with lock := floorNew lockFree }) hb key hsub t.heap.next
      (hinv.height hb)
  rw [TreeInv.leaves_eq] at hleaves
  rw [← hinv.root] at hfind
  have hentries := spineEntries_divided hleaves
  rw [hes] at hentries
  have hxsorted : Sorted x.2.entries := by
    have hsorted : Sorted es := hes ▸ hinv.sorted
    rw [hentries] at hsorted
    exact (List.pairwise_append.mp (List.pairwise_append.mp hsorted).2.1).1
  have hxmem : x ∈ sp.leaves ++ [(t.lastLeaf, l)] := by
    rw [hleaves]; exact List.mem_append_right _ List.mem_cons_self
  obtain ⟨q, hq⟩ := hinv.leaf_mem x hxmem
  have hlater : ∀ e ∈ post.flatMap (fun y => y.2.entries), key < e.key := by
    intro e he
    obtain ⟨y, hy, hey⟩ := List.mem_flatMap.mp he
    exact hpost y hy e hey
  obtain ⟨res, hres, hcases⟩ :=
    floorIdx_spec (b := b) (q := q) (x := x.2.next) key x.2.entries.length 0 none (Nat.zero_add _)
  have hcode : mbptreeLeafFloor t key =
      some (0, some ((res.map fun idx => LeafIterator.mk idx x.1).getD ⟨0, 0⟩), t) := by
    rw [mbptreeLeafFloor_eq hinv.allocs hlock, hfind, Option.bind_some, hq, Option.bind_some,
      show (leafNode b q x.2.entries x.2.next).size = x.2.entries.length from rfl, hres]
    rfl
  refine ⟨_, hcode, ?_⟩
  rcases hcases with ⟨rfl, habove⟩ | ⟨j, d, rfl, -, hd, hdk, habove⟩
  · -- no entry of the leaf is at or below `key`, so the leaf is the first one
    have hxabove : ∀ e ∈ x.2.entries, key < e.key := by
      have := hxsorted.above_drop habove
      rwa [List.drop_zero] at this
    have hfirst : pre = [] := by
      rcases hpre with hpre | hhead
      · exact hpre
      · rcases hinv.filled_of_pre hb hleaves with hpre | hne
        · exact hpre
        · obtain ⟨e', es', hxe⟩ := List.exists_cons_of_ne_nil hne
          have hle := hhead e' (by rw [hxe]; rfl)
          have hlt := hxabove e' (by rw [hxe]; exact List.mem_cons_self)
          omega
    refine Or.inl ⟨fun e he => ?_, rfl⟩
    rw [hentries, hfirst, List.flatMap_nil, List.nil_append] at he
    rcases List.mem_append.mp he with he | he
    · exact hxabove e he
    · exact hlater e he
  · obtain ⟨hjlt, rfl⟩ := List.getElem?_eq_some_iff.mp hd
    have hdrop := List.drop_eq_getElem_cons hjlt
    refine Or.inr ⟨pre.flatMap (fun y => y.2.entries) ++ x.2.entries.take j, _,
      x.2.entries.drop (j + 1) ++ post.flatMap fun y => y.2.entries, ?_, hdk, fun e he => ?_, ?_⟩
    · rw [← List.cons_append, ← hdrop, append_take_drop, hentries]
    · rcases List.mem_append.mp he with he | he
      · exact hxsorted.above_drop habove e he
      · exact hlater e he
    · refine ⟨hlock, D, sp, l, pre, x, post, hinv, hleaves, rfl, hjlt, rfl, ?_⟩
      show _ = List.drop j x.2.entries ++ _
      rw [hdrop, List.cons_append]

/-- The same with the entries from there on only. -/
theorem mbptreeLeafFloor_spec {b : Nat} (hb : 3 ≤ b) {t : Mbptree} {es : List Data}
    (h : TreeHolds b t es) (key : Nat) :
    ∃ it, mbptreeLeafFloor t key = some (0, some it, t) ∧
      (((∀ e ∈ es, key < e.key) ∧ it = ⟨0, 0⟩) ∨
        ∃ pre d post, es = pre ++ d :: post ∧ d.key ≤ key ∧ (∀ e ∈ post, key < e.key) ∧
          Cursor t.heap b it (d :: post)) := by
  obtain ⟨it, hfloor, hcases⟩ := mbptreeLeafFloor_stands hb h key
  refine ⟨it, hfloor, hcases.imp id ?_⟩
  rintro ⟨before, d, post, hes, hle, habove, hstands⟩
  exact ⟨before, d, post, hes, hle, habove, hstands.cursor hb⟩

/-! ## After any run of appends -/

/-- What a search tells its caller about a tree with the entries `es`: whether some key is not above
    `key`, and then the last entry of that kind. -/
theorem mbptreeLeafFloor_reads {b : Nat} (hb : 3 ≤ b) {t : Mbptree} {es : List Data}
    (h : TreeHolds b t es) (key : Nat) :
    ∃ it valid, mbptreeLeafFloor t key = some (0, some it, t) ∧
      mbptreeLeafIteratorValid t it = some valid ∧ (valid = true ↔ ∃ d ∈ es, d.key ≤ key) ∧
      (valid = true → ∃ d ∈ es, mbptreeLeafIteratorKey t it = some d.key ∧
        mbptreeLeafIteratorValue t it = some d.value ∧ d.key ≤ key ∧
        ∀ e ∈ es, e.key ≤ key → e.key ≤ d.key) := by
  have hsorted := h.sorted
  obtain ⟨it, hfloor, hcases⟩ := mbptreeLeafFloor_spec hb h key
  rcases hcases with ⟨habove, rfl⟩ | ⟨pre, d, post, rfl, hle, habove, hcursor⟩
  · -- all keys are above
    refine ⟨⟨0, 0⟩, false, hfloor, rfl, ⟨fun hf => absurd hf Bool.false_ne_true, ?_⟩,
      fun hf => absurd hf Bool.false_ne_true⟩
    rintro ⟨d, hd, hle⟩
    exact absurd hle (Nat.not_le_of_lt (habove d hd))
  · have hmem : d ∈ pre ++ d :: post := List.mem_append_right _ List.mem_cons_self
    refine ⟨it, true, hfloor, hcursor.valid_cons, ⟨fun _ => ⟨d, hmem, hle⟩, fun _ => rfl⟩,
      fun _ => ?_⟩
    obtain ⟨hkey, hvalue⟩ := hcursor.key_value
    refine ⟨d, hmem, hkey, hvalue, hle, ?_⟩
    intro e he hek
    rcases List.mem_append.mp he with he | he
    · -- an entry in front of `d`
      exact Nat.le_of_lt ((List.pairwise_append.mp hsorted).2.2 e he d List.mem_cons_self)
    · rcases List.mem_cons.mp he with rfl | he
      · exact Nat.le_refl _
      · exact absurd hek (Nat.not_le_of_lt (habove e he))

/-- **The floor search is exact** on every tree that appends can make, for every key. -/
theorem floor_exact {b : Nat} (hb : 3 ≤ b) (calls : List (Nat × Nat)) :
    ∃ t₀ rcs t, mbptreeInit b [] = some t₀ ∧ appendAll t₀ calls = some (rcs, t) ∧
      ∀ key, ∃ it valid, mbptreeLeafFloor t key = some (0, some it, t) ∧
        mbptreeLeafIteratorValid t it = some valid ∧
        (valid = true ↔ ∃ d ∈ accepted calls rcs, d.key ≤ key) ∧
        (valid = true → ∃ d ∈ accepted calls rcs, mbptreeLeafIteratorKey t it = some d.key ∧
          mbptreeLeafIteratorValue t it = some d.value ∧ d.key ≤ key ∧
          ∀ e ∈ accepted calls rcs, e.key ≤ key → e.key ≤ d.key) := by
  obtain ⟨t₀, rcs, t, hinit, hrun, h⟩ := init_accepted hb calls
  exact ⟨t₀, rcs, t, hinit, hrun, mbptreeLeafFloor_reads hb h⟩

/-- Branch factor 3 and ten keys, every third number from 5 on. -/
theorem floor_exact_of_ten :
    3 ≤ 3 ∧ ∃ t₀ rcs t, mbptreeInit 3 [] = some t₀ ∧
      appendAll t₀ ((List.range 10).map fun i => (5 + 3 * i, 100 + i)) = some (rcs, t) ∧
      ∀ key, ∃ it valid, mbptreeLeafFloor t key = some (0, some it, t) ∧
        mbptreeLeafIteratorValid t it = some valid ∧
        (valid = true ↔
          ∃ d ∈ accepted ((List.range 10).map fun i => (5 + 3 * i, 100 + i)) rcs, d.key ≤ key) ∧
        (valid = true → ∃ d ∈ accepted ((List.range 10).map fun i => (5 + 3 * i, 100 + i)) rcs,
          mbptreeLeafIteratorKey t it = some d.key ∧
          mbptreeLeafIteratorValue t it = some d.value ∧ d.key ≤ key ∧
          ∀ e ∈ accepted ((List.range 10).map fun i => (5 + 3 * i, 100 + i)) rcs,
            e.key ≤ key → e.key ≤ d.key) :=
  ⟨by decide, floor_exact (b := 3) (by decide) _⟩

end Mqlog
