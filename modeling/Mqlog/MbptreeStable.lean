/-
  A leaf iterator while the tree grows under it.

  `mqlog_tryread` takes an iterator under the mutex and uses it after it has given the mutex up.
  That goes well because an append never moves an entry: leaves are not split, so an entry keeps its
  leaf and its slot, whatever happens to the nodes above.

  1. **Appends** (`Stands.append`) — the last leaf gets an entry or another leaf behind it, and all
     leaves keep their place (`LeavesKept`).  So an iterator stands where it stood, with one entry
     more in front of it.
  2. **Steps** (`Stands.next`) — within a leaf, or along the link in the slot after its last entry.
     The link of the last leaf is `NULL` as long as there is no leaf behind it.
  3. **Runs** (`iteration_goesThrough`) — `Lib.run_progress_all` with the invariant that what was
     found under the iterator ends where the iterator stands.

  An iteration is a tree, an iterator, and the entries found under it so far; appends and steps come
  in any order.  What is found are consecutive entries of the tree, in key order, from the one on
  where the search ended.  An entry that was appended meanwhile is found when the iterator gets
  there, but an iterator that was exhausted stays so, whatever is appended behind it.

  The steps of an append are not seen here: an append is one call, and the iterator is used between
  calls.  In a log the mutex sees to that for the appends; what a reader does with its iterator
  between two of them is `LogPc.value`.
-/
import Mqlog.MbptreeFloor
import Mqlog.Lib.Run

namespace Mqlog

open Lib (Heap UTree Spine)
open Lib.UTree (leaf mk label labels leaves children payload)

/-! ## Calls while an iterator is in use -/

/-- The calls. -/
inductive IterOp where
  | append (key value : Nat)
  | next
deriving DecidableEq, Repr

/-- A tree, an iterator over it and the entries found under the iterator so far. -/
structure Iteration where
  tree : Mbptree
  iterator : LeafIterator
  visited : List Data

/-- The entry under the iterator, when it is valid. -/
def iteratorEntry (t : Mbptree) (it : LeafIterator) : Option (Option Data) := do
  if (← mbptreeLeafIteratorValid t it) then
    let key ← mbptreeLeafIteratorKey t it
    let value ← mbptreeLeafIteratorValue t it
    pure (some ⟨key, value⟩)
  else pure none

/-- One call; `mbptree_leaf_iterator_next` is called on a valid iterator only. -/
def Iteration.step (s : Iteration) : IterOp → Option Iteration
  | .append key value => do
    let (_, t) ← mbptreeAppend s.tree key value
    pure { s with tree := t }
  | .next => do
    if (← mbptreeLeafIteratorValid s.tree s.iterator) then
      let it ← mbptreeLeafIteratorNext s.tree s.iterator
      let entry ← iteratorEntry s.tree it
      pure { s with iterator := it, visited := s.visited ++ entry.toList }
    else pure s

/-! ## Where an iterator stands -/

theorem sortedAppend_concat (es : List Data) (key value : Nat) :
    ∃ new, (sortedAppend es key value).2 = es ++ new := by
  rw [sortedAppend]
  by_cases hkey : ∀ d ∈ es, d.key < key
  · exact ⟨_, by rw [if_pos hkey]⟩
  · exact ⟨[], by rw [if_neg hkey, List.append_nil]⟩

namespace Stands

variable {b : Nat} {t : Mbptree} {it : LeafIterator} {before after rest : List Data} {d : Data}

theorem exists_cons (h : Stands b t it before after) : ∃ d rest, after = d :: rest := by
  obtain ⟨-, D, sp, l, pre, x, post, -, -, -, hidx, -, rfl⟩ := h
  rw [List.drop_eq_getElem_cons hidx]
  exact ⟨_, _, rfl⟩

theorem entry (hb : 3 ≤ b) (h : Stands b t it before (d :: rest)) :
    iteratorEntry t it = some (some d) := by
  have hcursor := h.cursor hb
  obtain ⟨hkey, hvalue⟩ := hcursor.key_value
  rw [iteratorEntry, hcursor.valid_cons, hkey, hvalue]
  rfl

/-- **An append leaves the iterator where it is**; the new entry, if any, is behind it. -/
theorem append (hb : 3 ≤ b) (h : Stands b t it before after) (key value : Nat) :
    ∃ rc t' new, mbptreeAppend t key value = some (rc, t') ∧
      Stands b t' it before (after ++ new) := by
  obtain ⟨hlock, D, sp, l, pre, x, post, hinv, hleaves, hleaf, hidx, hbefore, hafter⟩ := h
  obtain ⟨t', D', sp', l', happend, hlock', hinv', hes, hkept, -⟩ :=
    mbptreeAppend_kept hb hlock hinv key value
  obtain ⟨x', post', hleaves', haddr, tail, htail⟩ := hkept pre x post hleaves
  -- the slots of the leaf up to the iterator are those of before
  have hlen : it.idx < x'.2.entries.length := by
    rw [← htail, List.length_append]
    omega
  have hbefore' : before = pre.flatMap (fun y => y.2.entries) ++ x'.2.entries.take it.idx := by
    rw [hbefore, ← htail, List.take_append_of_le_length (Nat.le_of_lt hidx)]
  have hstands : Stands b t' it before
      (x'.2.entries.drop it.idx ++ post'.flatMap fun y => y.2.entries) :=
    ⟨hlock', D', sp', l', pre, x', post', hinv', hleaves', hleaf.trans haddr.symm, hlen,
      hbefore', rfl⟩
  obtain ⟨new, hnew⟩ := sortedAppend_concat (spineEntries sp l) key value
  have hsplit := calc
    before ++ (x'.2.entries.drop it.idx ++ post'.flatMap fun y => y.2.entries)
      = spineEntries sp' l' := by rw [hbefore', append_take_drop, spineEntries_divided hleaves']
    _ = spineEntries sp l ++ new := hes.trans hnew
    _ = before ++ (after ++ new) := by
      rw [spineEntries_divided hleaves, ← append_take_drop _ x.2.entries _ it.idx, ← hbefore,
        ← hafter, List.append_assoc]
  rw [List.append_cancel_left hsplit] at hstands
  exact ⟨_, t', new, happend, hstands⟩

/-- **`next` goes on to the next entry**, and exhausts the iterator when there is none. -/
theorem next (hb : 3 ≤ b) (h : Stands b t it before (d :: rest)) :
    ∃ it', mbptreeLeafIteratorNext t it = some it' ∧
      ((rest = [] ∧ it'.leaf = 0) ∨ Stands b t it' (before ++ [d]) rest) := by
  obtain ⟨hlock, D, sp, l, pre, x, post, hinv, hleaves, hleaf, hidx, hbefore, hafter⟩ := h
  have hmem : x ∈ sp.leaves ++ [(t.lastLeaf, l)] := by
    rw [hleaves]; exact List.mem_append_right _ List.mem_cons_self
  obtain ⟨q, hget⟩ := hinv.leaf_mem x hmem
  rw [← hleaf] at hget
  rw [List.drop_eq_getElem_cons hidx, List.cons_append] at hafter
  obtain ⟨hd, hrest⟩ := List.cons.inj hafter
  have htake : before ++ [d] =
      pre.flatMap (fun y => y.2.entries) ++ x.2.entries.take (it.idx + 1) := by
    rw [hbefore, hd, List.append_assoc, List.take_concat_get']
  refine ⟨_, mbptreeLeafIteratorNext_eq hget hidx, ?_⟩
  by_cases hend : it.idx + 1 = x.2.entries.length
  · -- at the end of the leaf
    rw [if_pos hend]
    rw [hend, List.drop_length, List.nil_append] at hrest
    rw [hend, List.take_length] at htake
    have hnext := hinv.linked.next_leaf hinv.stop hleaves
    cases post with
    | nil => exact Or.inl ⟨hrest, hnext⟩
    | cons y post =>
      have hpre : sp.leaves ++ [(t.lastLeaf, l)] = (pre ++ [x]) ++ y :: post := by
        rw [hleaves, List.append_assoc, List.singleton_append]
      have hfilled :=
        (hinv.filled_of_pre hb hpre).resolve_left (List.append_ne_nil_of_right_ne_nil _
        (List.cons_ne_nil x []))
      refine Or.inr ⟨hlock, D, sp, l, pre ++ [x], y, post, hinv, hpre, hnext,
        List.length_pos_iff.mpr hfilled, ?_, ?_⟩
      · rw [htake, List.flatMap_append, List.flatMap_singleton, List.take_zero, List.append_nil]
      · rw [hrest, List.flatMap_cons, List.drop_zero]
  · rw [if_neg hend]
    exact Or.inr ⟨hlock, D, sp, l, pre, x, post, hinv, hleaves, hleaf, by
      show it.idx + 1 < _
      omega, htake, hrest⟩

end Stands

/-! ## Runs -/

/-- The iterator has found all entries of the tree from those behind `before` on, up to the one
    where it stands or, once it is exhausted, up to the one that was the last then. -/
def Iterates (b : Nat) (before : List Data) (s : Iteration) : Prop :=
  (∃ seen d rest, s.visited = seen ++ [d] ∧ Stands b s.tree s.iterator (before ++ seen) (d ::
    rest)) ∨
    s.iterator.leaf = 0 ∧ ∃ rest, TreeHolds b s.tree (before ++ s.visited ++ rest)

theorem valid_null {t : Mbptree} {it : LeafIterator} (h : it.leaf = 0) :
    mbptreeLeafIteratorValid t it = some false := by
  rw [mbptreeLeafIteratorValid, if_pos h]

theorem iteratorEntry_null {t : Mbptree} {it : LeafIterator} (h : it.leaf = 0) :
    iteratorEntry t it = some none := by
  rw [iteratorEntry, valid_null h]
  rfl

/-- Every call goes through, and what was found stays in front of the iterator. -/
theorem Iterates.step {b : Nat} (hb : 3 ≤ b) {before : List Data} {s : Iteration}
    (h : Iterates b before s) (op : IterOp) : ∃ s', s.step op = some s' ∧ Iterates b before s' := by
  cases op with
  | append key value =>
    rcases h with ⟨seen, d, rest, hseen, hstands⟩ | ⟨hnull, rest, hholds⟩
    · obtain ⟨rc, t', new, happend, hstands'⟩ := hstands.append hb key value
      refine ⟨{ s with tree := t' }, ?_, Or.inl ⟨seen, d, rest ++ new, hseen, hstands'⟩⟩
      rw [Iteration.step, happend]
      rfl
    · obtain ⟨t', happend, hholds', -⟩ := mbptreeAppend_spec hb hholds key value
      obtain ⟨new, hnew⟩ := sortedAppend_concat (before ++ s.visited ++ rest) key value
      refine ⟨{ s with tree := t' }, ?_, Or.inr ⟨hnull, rest ++ new, ?_⟩⟩
      · rw [Iteration.step, happend]
        rfl
      · rw [hnew, List.append_assoc] at hholds'
        exact hholds'
  | next =>
    rcases h with ⟨seen, d, rest, hseen, hstands⟩ | ⟨hnull, rest, hholds⟩
    · obtain ⟨it', hnext, hcases⟩ := hstands.next hb
      rw [Iteration.step, (hstands.cursor hb).valid_cons]
      simp only [Option.bind_eq_bind, Option.bind_some, if_true, hnext]
      rcases hcases with ⟨rfl, hnull⟩ | hstands'
      · have hholds := hstands.holds
        rw [iteratorEntry_null hnull]
        refine ⟨_, rfl, Or.inr ⟨hnull, [], ?_⟩⟩
        show TreeHolds b s.tree (before ++ (s.visited ++ []) ++ [])
        rw [List.append_nil, List.append_nil, hseen, ← List.append_assoc]
        exact hholds
      · obtain ⟨e, rest', rfl⟩ := hstands'.exists_cons
        rw [hstands'.entry hb]
        refine ⟨_, rfl, Or.inl ⟨seen ++ [d], e, rest', ?_, ?_⟩⟩
        · show s.visited ++ [e] = _
          rw [hseen]
        · rw [← List.append_assoc]
          exact hstands'
    · refine ⟨s, ?_, Or.inr ⟨hnull, rest, hholds⟩⟩
      rw [Iteration.step, valid_null hnull]
      rfl

/-! ## Stability -/

/-- How an iteration stands: what it has found are consecutive entries of the tree, those behind
    `before`, in key order.  While the iterator is valid, the last of them is under it; an append
    leaves it there, and the next step finds the entry behind it or, when there is none, nothing. -/
def GoesThrough (before : List Data) (s : Iteration) : Prop :=
  ∃ after valid, chainEntries s.tree = some (before ++ s.visited ++ after) ∧
    Sorted (before ++ s.visited ++ after) ∧
    mbptreeLeafIteratorValid s.tree s.iterator = some valid ∧
    (valid = true → iteratorEntry s.tree s.iterator = some s.visited.getLast? ∧
      (∀ key value, ∃ rc t', mbptreeAppend s.tree key value = some (rc, t') ∧
        mbptreeLeafIteratorValid t' s.iterator = some true ∧
        iteratorEntry t' s.iterator = iteratorEntry s.tree s.iterator) ∧
      ∃ it', mbptreeLeafIteratorNext s.tree s.iterator = some it' ∧
        iteratorEntry s.tree it' = some after.head?)

theorem Iterates.goesThrough {b : Nat} (hb : 3 ≤ b) {before : List Data} {s : Iteration}
    (h : Iterates b before s) : GoesThrough before s := by
  rcases h with ⟨seen, d, rest, hseen, hstands⟩ | ⟨hnull, rest, hholds⟩
  · have hholds := hstands.holds
    have hsplit : before ++ seen ++ d :: rest = before ++ s.visited ++ rest := by
      rw [hseen]
      simp
    rw [hsplit] at hholds
    refine ⟨rest, true, chainEntries_spec hb hholds, hholds.sorted, (hstands.cursor hb).valid_cons,
      fun _ => ⟨?_, fun key value => ?_, ?_⟩⟩
    · rw [hseen, List.getLast?_concat, hstands.entry hb]
    · obtain ⟨rc, t', new, happend, hstands'⟩ := hstands.append hb key value
      refine ⟨rc, t', happend, (hstands'.cursor hb).valid_cons, ?_⟩
      rw [hstands.entry hb, hstands'.entry hb]
    · obtain ⟨it', hnext, hcases⟩ := hstands.next hb
      refine ⟨it', hnext, ?_⟩
      rcases hcases with ⟨rfl, hnull⟩ | hstands'
      · exact iteratorEntry_null hnull
      · obtain ⟨e, rest', rfl⟩ := hstands'.exists_cons
        exact hstands'.entry hb
  · exact ⟨rest, false, chainEntries_spec hb hholds, hholds.sorted, valid_null hnull,
      fun hfalse => absurd hfalse Bool.false_ne_true⟩

/-- **Runs**: from a valid iterator that a floor search returned. -/
theorem iteration_goesThrough {b : Nat} (hb : 3 ≤ b) {t : Mbptree} {es : List Data}
    (h : TreeHolds b t es) {key : Nat} {it : LeafIterator}
    (hfloor : mbptreeLeafFloor t key = some (0, some it, t))
    (hvalid : mbptreeLeafIteratorValid t it = some true) :
    ∃ before d, iteratorEntry t it = some (some d) ∧ ∀ ops, ∃ s,
      Lib.run Iteration.step ⟨t, it, [d]⟩ ops = some s ∧ GoesThrough before s := by
  obtain ⟨it', hfloor', hcases⟩ := mbptreeLeafFloor_stands hb h key
  rw [hfloor] at hfloor'
  cases hfloor'
  rcases hcases with ⟨-, rfl⟩ | ⟨before, d, post, -, -, -, hstands⟩
  · nomatch hvalid
  · refine ⟨before, d, hstands.entry hb, fun ops => ?_⟩
    have hstart : Iterates b before ⟨t, it, [d]⟩ :=
      Or.inl ⟨[], d, post, rfl, by rw [List.append_nil]; exact hstands⟩
    obtain ⟨s, hrun, hs⟩ := Lib.run_progress_all (fun _ op hs => hs.step hb op) hstart ops
    exact ⟨s, hrun, hs.goesThrough hb⟩

/-- **Iterators are stable under appends**: for every tree that appends can make, every valid
    iterator from a floor search, and every interleaving of further appends and steps of the
    iterator. -/
theorem iterator_stable {b : Nat} (hb : 3 ≤ b) (calls : List (Nat × Nat)) :
    ∃ t₀ rcs t, mbptreeInit b [] = some t₀ ∧ appendAll t₀ calls = some (rcs, t) ∧
      ∀ key it, mbptreeLeafFloor t key = some (0, some it, t) →
        mbptreeLeafIteratorValid t it = some true →
        ∃ before d, iteratorEntry t it = some (some d) ∧ ∀ ops, ∃ s,
          Lib.run Iteration.step ⟨t, it, [d]⟩ ops = some s ∧ GoesThrough before s := by
  obtain ⟨t₀, t, hinit, hrun, h⟩ := init_appendAll hb calls
  exact ⟨t₀, _, t, hinit, hrun, fun key it hfloor hvalid => iteration_goesThrough hb h hfloor
    hvalid⟩

/-- Branch factor 3, and an iterator from a search for 2 among three entries. -/
theorem iterator_stable_of_three :
    3 ≤ 3 ∧ ∃ t₀ rcs t it before d, mbptreeInit 3 [] = some t₀ ∧
      appendAll t₀ [(1, 10), (2, 20), (4, 40)] = some (rcs, t) ∧
      mbptreeLeafFloor t 2 = some (0, some it, t) ∧ mbptreeLeafIteratorValid t it = some true ∧
      iteratorEntry t it = some (some d) ∧ ∀ ops, ∃ s,
        Lib.run Iteration.step ⟨t, it, [d]⟩ ops = some s ∧ GoesThrough before s := by
  obtain ⟨t₀, rcs, t, hinit, hrun, hstable⟩ :=
    iterator_stable (b := 3) (by decide) [(1, 10), (2, 20), (4, 40)]
  obtain ⟨t₀', t', hinit', hrun', h⟩ :=
    init_appendAll (b := 3) (by decide) [(1, 10), (2, 20), (4, 40)]
  rw [hinit'] at hinit
  cases hinit
  rw [hrun'] at hrun
  cases hrun
  obtain ⟨it, valid, hfloor, hvalid, hiff, -⟩ := mbptreeLeafFloor_reads (b := 3) (by decide) h 2
  obtain rfl : valid = true := hiff.mpr ⟨⟨1, 10⟩, by decide, by decide⟩
  obtain ⟨before, d, hentry, hops⟩ := hstable 2 it hfloor hvalid
  exact ⟨by decide, t₀, _, t, it, before, d, hinit', hrun', hfloor, hvalid, hentry, hops⟩

end Mqlog
