/-
  Runs of `mbptree_append`: the tree refines an append-only list with strictly increasing keys.

  `sortedAppendAll` is the abstract run, `appendAll` the run of the code; `appendAll_spec` relates
  the two by induction over the calls, with `mbptreeAppend_spec` as its step.

  The tree goes through the same states as the list it stands for, and returns the same codes: `0`
  for a key above all others, and `ELIDXNM` for any other, which changes nothing.  So what a tree
  holds after a run can be told from the calls and their codes alone (`accepted`).

  `init_accepted` is the form in which other modules start: a run from a fresh tree, the entries it
  has then, and that they are sorted.  The branch factor is at least 3 throughout; a node with two
  slots could not be split.
-/
import Mqlog.MbptreeChain

namespace Mqlog

/-- Calls of `mbptree_append`, one after the other: the codes they return, and the tree after. -/
def appendAll (t : Mbptree) : List (Nat × Nat) → Option (List Int × Mbptree)
  | [] => some ([], t)
  | (key, value) :: calls => do
    let (rc, t) ← mbptreeAppend t key value
    let (rcs, t) ← appendAll t calls
    pure (rc :: rcs, t)

/-- The same calls on the abstract list. -/
def sortedAppendAll (es : List Data) : List (Nat × Nat) → List Int × List Data
  | [] => ([], es)
  | (key, value) :: calls =>
    let step := sortedAppend es key value
    let rest := sortedAppendAll step.2 calls
    (step.1 :: rest.1, rest.2)

/-- The pairs whose call returned `0`, in the order of the calls. -/
def accepted (calls : List (Nat × Nat)) (rcs : List Int) : List Data :=
  ((calls.zip rcs).filter fun c => c.2 = 0).map fun c => ⟨c.1.1, c.1.2⟩

theorem appendAll_spec {b : Nat} (hb : 3 ≤ b) : (calls : List (Nat × Nat)) → {t : Mbptree} →
    {es : List Data} → TreeHolds b t es →
    ∃ t', appendAll t calls = some ((sortedAppendAll es calls).1, t') ∧
      TreeHolds b t' (sortedAppendAll es calls).2
  | [], t, _, h => ⟨t, rfl, h⟩
  | (key, value) :: calls, t, es, h => by
    obtain ⟨t₁, hstep, h₁, -⟩ := mbptreeAppend_spec hb h key value
    obtain ⟨t₂, hrest, h₂⟩ := appendAll_spec hb calls h₁
    refine ⟨t₂, ?_, h₂⟩
    rw [appendAll, hstep]
    simp only [Option.bind_eq_bind, Option.bind_some, hrest]
    rfl

/-- The abstract list consists of the accepted pairs. -/
theorem sortedAppendAll_accepted : (calls : List (Nat × Nat)) → (es : List Data) →
    (sortedAppendAll es calls).2 = es ++ accepted calls (sortedAppendAll es calls).1
  | [], es => (List.append_nil es).symm
  | (key, value) :: calls, es => by
    have ih := sortedAppendAll_accepted calls (sortedAppend es key value).2
    rw [sortedAppendAll]
    dsimp only
    rw [ih, sortedAppend]
    by_cases hkey : ∀ d ∈ es, d.key < key
    · rw [if_pos hkey]
      simp [accepted]
    · rw [if_neg hkey]
      simp [accepted, ELIDXNM]

theorem sortedAppendAll_length : (calls : List (Nat × Nat)) → (es : List Data) →
    (sortedAppendAll es calls).1.length = calls.length
  | [], _ => rfl
  | _ :: calls, _ => congrArg (· + 1) (sortedAppendAll_length calls _)

/-- A run from a fresh tree, which every result about runs starts from. -/
theorem init_appendAll {b : Nat} (hb : 3 ≤ b) (calls : List (Nat × Nat)) :
    ∃ t₀ t, mbptreeInit b [] = some t₀ ∧
      appendAll t₀ calls = some ((sortedAppendAll [] calls).1, t) ∧
      TreeHolds b t (sortedAppendAll [] calls).2 := by
  obtain ⟨t₀, hinit, h₀⟩ := mbptreeInit_spec hb
  obtain ⟨t, hrun, h⟩ := appendAll_spec hb calls h₀
  exact ⟨t₀, t, hinit, hrun, h⟩

/-- The same run, with the entries told by the codes. -/
theorem init_accepted {b : Nat} (hb : 3 ≤ b) (calls : List (Nat × Nat)) :
    ∃ t₀ rcs t, mbptreeInit b [] = some t₀ ∧ appendAll t₀ calls = some (rcs, t) ∧
      TreeHolds b t (accepted calls rcs) := by
  obtain ⟨t₀, t, hinit, hrun, h⟩ := init_appendAll hb calls
  have haccepted := sortedAppendAll_accepted calls []
  rw [List.nil_append] at haccepted
  exact ⟨t₀, _, t, hinit, hrun, haccepted ▸ h⟩

/-- **The tree is an append-only sorted list.**  A run from a fresh tree returns the codes of the
    abstract list and leaves exactly the accepted pairs along the leaf chain, in their order, with
    the last of them as the last value; the next call is accepted exactly when its key is above all
    accepted ones, and a refused one changes nothing. -/
theorem tree_refines_sorted_list {b : Nat} (hb : 3 ≤ b) (calls : List (Nat × Nat)) :
    ∃ t₀ rcs t, mbptreeInit b [] = some t₀ ∧ appendAll t₀ calls = some (rcs, t) ∧
      rcs.length = calls.length ∧ (rcs, accepted calls rcs) = sortedAppendAll [] calls ∧
      chainEntries t = some (accepted calls rcs) ∧
      mbptreeLastValue t = some ((accepted calls rcs).getLast?.map Data.value) ∧
      ∀ key value, ∃ rc t', mbptreeAppend t key value = some (rc, t') ∧
        (rc = 0 ↔ ∀ d ∈ accepted calls rcs, d.key < key) ∧
        (rc ≠ 0 → rc = ELIDXNM ∧ t' = t) := by
  obtain ⟨t₀, t, hinit, hrun, h⟩ := init_appendAll hb calls
  have haccepted := sortedAppendAll_accepted calls []
  rw [List.nil_append] at haccepted
  refine ⟨t₀, _, t, hinit, hrun, sortedAppendAll_length calls [], ?_, ?_, ?_, fun key value => ?_⟩
  · rw [← haccepted]
  · rw [← haccepted]
    exact chainEntries_spec hb h
  · rw [← haccepted]
    exact mbptreeLastValue_spec h
  · obtain ⟨t', hstep, -, hsame⟩ := mbptreeAppend_spec hb h key value
    refine ⟨_, t', hstep, ?_, fun hrc => ?_⟩
    · rw [← haccepted, sortedAppend]
      by_cases hkey : ∀ d ∈ (sortedAppendAll [] calls).2, d.key < key
      · rw [if_pos hkey]
        exact ⟨fun _ => hkey, fun _ => rfl⟩
      · rw [if_neg hkey]
        exact ⟨fun hrc => absurd hrc (show ELIDXNM ≠ 0 by decide), fun hall => absurd hall hkey⟩
    · have hrefused : (sortedAppend (sortedAppendAll [] calls).2 key value).1 = ELIDXNM := by
        rw [sortedAppend] at hrc ⊢
        by_cases hkey : ∀ d ∈ (sortedAppendAll [] calls).2, d.key < key
        · rw [if_pos hkey] at hrc
          exact absurd rfl hrc
        · rw [if_neg hkey]
      exact ⟨hrefused, hsame hrefused⟩

/-- Branch factor 3, with a repeated key, two leaf overflows and a split of the root. -/
theorem tree_refines_sorted_list_of_seven :
    ∃ t₀ t, mbptreeInit 3 [] = some t₀ ∧
      appendAll t₀ [(1, 10), (2, 20), (2, 21), (3, 30), (5, 50), (4, 40), (7, 70)] =
        some ([0, 0, ELIDXNM, 0, 0, ELIDXNM, 0], t) ∧
      chainEntries t = some [⟨1, 10⟩, ⟨2, 20⟩, ⟨3, 30⟩, ⟨5, 50⟩, ⟨7, 70⟩] ∧
      mbptreeLastValue t = some (some 70) := by
  obtain ⟨t₀, rcs, t, hinit, hrun, -, hlist, hchain, hlast, -⟩ :=
    tree_refines_sorted_list (b := 3) (Nat.le_refl 3)
      [(1, 10), (2, 20), (2, 21), (3, 30), (5, 50), (4, 40), (7, 70)]
  obtain ⟨hrcs, hes⟩ := Prod.mk.inj hlist
  rw [hes] at hchain hlast
  rw [hrcs] at hrun
  exact ⟨t₀, t, hinit, hrun, hchain, hlast⟩

end Mqlog
