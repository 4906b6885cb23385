/-
  Iterating over the leaves of a tree.

  The loop over a leaf iterator goes through the entries in front of it and stops (`visitLeaves_eq`,
  from `Cursor.next`).  Where it starts is decided by the floor search:  `mbptree_leaf_first` is the
  floor of `0`, so with a first key above `0` there is no entry to start from and the iterator is
  exhausted at once (`mbptreeLeafFirst_spec`).  The loop from the first entry visits the whole tree
  exactly when the tree is empty or its first key is `0` (`visitTree_complete_iff`).

  `fromFirst` is the part of the entries that the loop visits: all of them, or none.  There is
  nothing in between, since keys are unsigned: the floor of `0` is an entry with key `0`, which is
  the first one, as the keys increase.

  The loop is the one that `mqlog_close` has.  Its fuel is any number above that of the entries.
-/
import Mqlog.MbptreeFloor

namespace Mqlog

open Lib (Heap)

/-- The loop that runs while `mbptree_leaf_iterator_valid` holds and goes on with
    `mbptree_leaf_iterator_next`: the entries it finds under the iterator. -/
def visitLeaves : Nat → Mbptree → LeafIterator → Option (List Data)
  | 0, _, _ => none
  | fuel + 1, t, it => do
    if (← mbptreeLeafIteratorValid t it) = false then pure []
    else do
      let key ← mbptreeLeafIteratorKey t it
      let value ← mbptreeLeafIteratorValue t it
      let it ← mbptreeLeafIteratorNext t it
      let rest ← visitLeaves fuel t it
      pure (⟨key, value⟩ :: rest)

/-- The loop, started at `mbptree_leaf_first`. -/
def visitTree (fuel : Nat) (t : Mbptree) : Option (List Data) := do
  let (_, iterator, t) ← mbptreeLeafFirst t
  let iterator ← iterator
  visitLeaves fuel t iterator

/-- The entries in front of the iterator that `mbptree_leaf_first` returns. -/
def fromFirst (es : List Data) : List Data :=
  match es with
  | [] => []
  | d :: rest => if d.key = 0 then d :: rest else []

theorem fromFirst_cases (es : List Data) : fromFirst es = es ∨ fromFirst es = [] := by
  unfold fromFirst
  split
  · exact Or.inl rfl
  · split
    · exact Or.inl rfl
    · exact Or.inr rfl

theorem fromFirst_eq_self {es : List Data} : fromFirst es = es ↔ ∀ d ∈ es.head?, d.key = 0 := by
  cases es with
  | nil => simp [fromFirst]
  | cons d rest => simp [fromFirst]

/-- **The loop visits what is in front of the iterator**, and stops. -/
theorem visitLeaves_eq {t : Mbptree} {b : Nat} :
    ∀ (rest : List Data) {it : LeafIterator} {fuel : Nat}, Cursor t.heap b it rest →
      rest.length < fuel → visitLeaves fuel t it = some rest
  | rest, _, 0, _, hfuel => absurd hfuel (Nat.not_lt_zero _)
  | [], it, fuel + 1, hc, _ => by
    rw [visitLeaves, hc.valid_nil]
    rfl
  | d :: rest, it, fuel + 1, hc, hfuel => by
    obtain ⟨hkey, hvalue⟩ := hc.key_value
    obtain ⟨it', hnext, hc'⟩ := hc.next
    have ih := visitLeaves_eq rest hc' (Nat.lt_of_succ_lt_succ hfuel)
    rw [visitLeaves, hc.valid_cons, hkey, hvalue, hnext]
    simp only [Option.bind_eq_bind, Option.bind_some, Bool.true_eq_false, if_false, ih]
    rfl

/-- **The first entry** is found when its key is `0`; else the iterator is exhausted. -/
theorem mbptreeLeafFirst_spec {b : Nat} (hb : 3 ≤ b) {t : Mbptree} {es : List Data}
    (h : TreeHolds b t es) : ∃ it, mbptreeLeafFirst t = some (0, some it, t) ∧
      Cursor t.heap b it (fromFirst es) := by
  have hsorted := h.sorted
  obtain ⟨it, hfloor, hcases⟩ := mbptreeLeafFloor_spec hb h 0
  refine ⟨it, hfloor, ?_⟩
  rcases hcases with ⟨habove, rfl⟩ | ⟨pre, d, post, rfl, hle, -, hcursor⟩
  · refine Or.inl ⟨rfl, ?_⟩
    cases es with
    | nil => rfl
    | cons d rest => exact if_neg (Nat.ne_of_gt (habove d List.mem_cons_self))
  · have hzero : d.key = 0 := Nat.le_zero.mp hle
    cases pre with
    | nil =>
      have hfirst : fromFirst (d :: post) = d :: post := if_pos hzero
      rw [List.nil_append, hfirst]
      exact hcursor
    | cons e pre =>
      -- no key is below that of `d`
      have hlt := (List.pairwise_cons.mp hsorted).1 d (List.mem_append_right _ List.mem_cons_self)
      omega

/-- **Iterating from the first entry** visits the entries from `fromFirst` on. -/
theorem visitTree_eq {b : Nat} (hb : 3 ≤ b) {t : Mbptree} {es : List Data} (h : TreeHolds b t es)
    {fuel : Nat} (hfuel : es.length < fuel) : visitTree fuel t = some (fromFirst es) := by
  obtain ⟨it, hfirst, hcursor⟩ := mbptreeLeafFirst_spec hb h
  have hlen : (fromFirst es).length ≤ es.length := by
    rcases fromFirst_cases es with heq | heq
    · rw [heq]
    · rw [heq]
      exact Nat.zero_le _
  have hvisit := visitLeaves_eq (fromFirst es) hcursor (Nat.lt_of_le_of_lt hlen hfuel)
  rw [visitTree, hfirst]
  exact hvisit

/-- It visits all entries exactly when there is none or the first key is `0`. -/
theorem visitTree_complete_iff {b : Nat} (hb : 3 ≤ b) {t : Mbptree} {es : List Data}
    (h : TreeHolds b t es) {fuel : Nat} (hfuel : es.length < fuel) :
    visitTree fuel t = some es ↔ ∀ d ∈ es.head?, d.key = 0 := by
  rw [visitTree_eq hb h hfuel, ← fromFirst_eq_self, Option.some.injEq]

end Mqlog
