/-
  Runs of a labelled transition system, over arbitrary states and labels.

  The system is a partial step function: `step s i` is `none` when the label `i` is not enabled in
  `s`.  `run` takes a list of labels, `Along P` says that `P` holds of every step of a run, in the
  state before it.  These rules are all a client uses:

  * `run_invariant`  — what every step that satisfies `P` preserves holds at the end of a run along
    which `P` holds;
  * `run_progress`  — the same where these steps are always enabled: then the run is too;
  * `countP_add_rank_le` — steps that make a rank smaller are at most as many as the rank;
  * `along_cons` and `along_append` — what holds of a first step, or of a first part, and of what is
    behind it;
  * `Along.imp`  — a property of the steps follows from another one with the help of an invariant;
  * `exists_failing` — a run along which `P` does not hold reaches a first step where it fails.

  A property along a run is how a condition on an interleaving is stated: it is one on a single step
  and the state before it, so it can be checked without knowing the run, and a run of steps that can
  be checked can be checked (`decidableAlong`).

  Where the state is a list of threads, `countP_set_add` says what moving one of them does to the
  number of threads at a point, and `filterMap_set_perm` what it does to the things they carry.  A
  lock that one thread at a time holds is a point of that kind: `Held` says that its flag tells
  whether a thread is there, and `Held.stay`, `Held.acquire` and `Held.release` are the ways in
  which a thread moves.
-/
import Mathlib.Data.List.Perm.Basic
import Mathlib.Data.Option.Basic

namespace Mqlog.Lib

variable {σ ι : Type} {step : σ → ι → Option σ}

/-- The state after a list of steps. -/
def run (step : σ → ι → Option σ) : σ → List ι → Option σ
  | s, [] => some s
  | s, i :: is => (step s i).bind fun s' => run step s' is

/-- Every step of the run satisfies `P` in the state it starts from. -/
def Along (step : σ → ι → Option σ) (P : σ → ι → Prop) : σ → List ι → Prop
  | _, [] => True
  | s, i :: is => P s i ∧ ∀ s', step s i = some s' → Along step P s' is

/-- The first step of a run. -/
theorem run_cons_eq_some {s t : σ} {i : ι} {is : List ι} :
    run step s (i :: is) = some t ↔ ∃ s', step s i = some s' ∧ run step s' is = some t := by
  rw [run, Option.bind_eq_some_iff]

/-- A run whose first step is known. -/
theorem along_cons {P : σ → ι → Prop} {s t : σ} {i : ι} {is : List ι} (hP : P s i)
    (hstep : step s i = some t) (hrest : Along step P t is) : Along step P s (i :: is) :=
  ⟨hP, fun _ heq => Option.some.inj (hstep.symm.trans heq) ▸ hrest⟩

/-- A run that goes on. -/
theorem along_append {P : σ → ι → Prop} {js : List ι} :
    ∀ {is : List ι} {s t : σ}, Along step P s is →
    run step s is = some t → Along step P t js → Along step P s (is ++ js)
  | [], _, _, _, hrun, hjs => Option.some.inj hrun ▸ hjs
  | i :: is, s, t, ⟨hP, hrest⟩, hrun, hjs => by
    obtain ⟨s', hs', hrun'⟩ := run_cons_eq_some.mp hrun
    exact along_cons hP hs' (along_append (hrest s' hs') hrun' hjs)

/-- A run of steps that can be checked can be checked. -/
instance decidableAlong {P : σ → ι → Prop} [∀ s i, Decidable (P s i)] :
    ∀ (s : σ) (is : List ι), Decidable (Along step P s is)
  | _, [] => .isTrue trivial
  | s, i :: is =>
    have : Decidable (∀ s', step s i = some s' → Along step P s' is) :=
      match step s i with
      | none => .isTrue fun _ h => nomatch h
      | some t =>
        match decidableAlong t is with
        | .isTrue h => .isTrue fun _ heq => Option.some.inj heq ▸ h
        | .isFalse h => .isFalse fun hall => h (hall t rfl)
    inferInstanceAs (Decidable (_ ∧ _))

/-- One run behind the other. -/
theorem run_append : ∀ (is js : List ι) (s : σ),
    run step s (is ++ js) = (run step s is).bind fun t => run step t js
  | [], _, _ => rfl
  | i :: is, js, s => by
    rw [List.cons_append, run, run, Option.bind_assoc]
    exact congrArg _ (funext fun s' => run_append is js s')

/-- **The run rule**: a step lemma gives a fact about whole runs. -/
theorem run_invariant {P : σ → ι → Prop} {I : σ → Prop}
    (hstep : ∀ s i s', P s i → I s → step s i = some s' → I s') :
    ∀ (is : List ι) (s t : σ), Along step P s is → I s → run step s is = some t → I t := by
  intro is
  induction is with
  | nil =>
    intro s t _ hI hrun
    exact Option.some.inj hrun ▸ hI
  | cons i is ih =>
    intro s t halong hI hrun
    obtain ⟨s', hs', hrun'⟩ := run_cons_eq_some.mp hrun
    exact ih s' t (halong.2 s' hs') (hstep s i s' halong.1 hI hs') hrun'

/-- **The run rule for total steps**: when every step that satisfies `P` is enabled and preserves
    the invariant, then no run gets stuck and the invariant holds at its end. -/
theorem run_progress {P : σ → ι → Prop} {I : σ → Prop}
    (hstep : ∀ s i, P s i → I s → ∃ s', step s i = some s' ∧ I s') :
    ∀ (is : List ι) (s : σ), Along step P s is → I s → ∃ t, run step s is = some t ∧ I t := by
  intro is
  induction is with
  | nil =>
    intro s _ hI
    exact ⟨s, rfl, hI⟩
  | cons i is ih =>
    intro s halong hI
    obtain ⟨s', hs', hI'⟩ := hstep s i halong.1 hI
    obtain ⟨t, hrun, ht⟩ := ih s' (halong.2 s' hs') hI'
    exact ⟨t, run_cons_eq_some.mpr ⟨s', hs', hrun⟩, ht⟩

/-- A property of all steps. -/
theorem along_true : ∀ (is : List ι) (s : σ), Along step (fun _ _ => True) s is
  | [], _ => trivial
  | _ :: is, _ => ⟨trivial, fun s' _ => along_true is s'⟩

/-- What every step preserves holds at the end of every run. -/
theorem run_invariant_all {I : σ → Prop} (hstep : ∀ s i s', I s → step s i = some s' → I s')
    {is : List ι} {s t : σ} (hI : I s) (hrun : run step s is = some t) : I t :=
  run_invariant (fun s i s' _ => hstep s i s') is s t (along_true is s) hI hrun

/-- When every step is enabled and preserves the invariant, every run goes through. -/
theorem run_progress_all {I : σ → Prop} (hstep : ∀ s i, I s → ∃ s', step s i = some s' ∧ I s')
    {s : σ} (hI : I s) (is : List ι) : ∃ t, run step s is = some t ∧ I t :=
  run_progress (P := fun _ _ => True) (fun s i _ => hstep s i) is s (along_true is s) hI

/-- A property of the steps follows from another one, with the help of an invariant. -/
theorem Along.imp {P Q : σ → ι → Prop} {I : σ → Prop} (himp : ∀ s i, I s → P s i → Q s i)
    (hstep : ∀ s i s', Q s i → I s → step s i = some s' → I s') :
    ∀ (is : List ι) (s : σ), I s → Along step P s is → Along step Q s is
  | [], _, _, _ => trivial
  | i :: is, s, hI, ⟨hP, hrest⟩ =>
    ⟨himp s i hI hP, fun s' hs' =>
      Along.imp himp hstep is s' (hstep s i s' (himp s i hI hP) hI hs') (hrest s' hs')⟩

/-- A run along which `P` does not hold reaches a first step where it fails. -/
theorem exists_failing {P : σ → ι → Prop} : ∀ (is : List ι) (s t : σ), run step s is = some t →
    ¬ Along step P s is → ∃ is₁ i is₂ s₁ s₂, is = is₁ ++ i :: is₂ ∧ run step s is₁ = some s₁ ∧
      ¬ P s₁ i ∧ step s₁ i = some s₂ ∧ run step s₂ is₂ = some t
  | [], _, _, _, hnot => absurd trivial hnot
  | i :: is, s, t, hrun, hnot => by
    obtain ⟨s', hs', hrun'⟩ := run_cons_eq_some.mp hrun
    by_cases hP : P s i
    · have hnot' : ¬ Along step P s' is := by
        intro halong
        refine hnot ⟨hP, fun s'' hs'' => ?_⟩
        rw [hs'] at hs''
        exact Option.some.inj hs'' ▸ halong
      obtain ⟨is₁, j, is₂, s₁, s₂, rfl, hrun₁, hfail, hstep, hrun₂⟩ :=
        exists_failing is s' t hrun' hnot'
      exact ⟨i :: is₁, j, is₂, s₁, s₂, rfl, run_cons_eq_some.mpr ⟨s', hs', hrun₁⟩, hfail, hstep,
        hrun₂⟩
    · exact ⟨[], i, is, s, s', rfl, rfl, hP, hs', hrun'⟩

/-- Moving one thread changes the number of threads at a point by at most that one. -/
theorem countP_set_add {α : Type} {l : List α} {k : Nat} {p : α} (hk : l[k]? = some p) (q : α)
    (f : α → Bool) : (l.set k q).countP f + (if f p then 1 else 0) =
      l.countP f + (if f q then 1 else 0) := by
  obtain ⟨hlt, rfl⟩ := List.getElem?_eq_some_iff.mp hk
  have hpos : f l[k] = true → 0 < l.countP f := fun h =>
    List.countP_pos_iff.mpr ⟨l[k], List.getElem_mem hlt, h⟩
  rw [List.countP_set hlt]
  by_cases hp : f l[k] = true
  · have := hpos hp
    rw [if_pos hp]
    omega
  · rw [if_neg hp]
    omega

/-- What the threads carry, when one of them moves from `p` to `q`: what `q` carries in the place of
    what `p` did. -/
theorem filterMap_set_perm {α β : Type} (f : α → Option β) {l : List α} {k : Nat} {p : α}
    (hk : l[k]? = some p) (q : α) :
    ((f p).toList ++ (l.set k q).filterMap f).Perm ((f q).toList ++ l.filterMap f) := by
  obtain ⟨hlt, rfl⟩ := List.getElem?_eq_some_iff.mp hk
  have hcons : ∀ (a : α) (l : List α), (a :: l).filterMap f = (f a).toList ++ l.filterMap f := by
    intro a l
    rw [List.filterMap_cons]
    cases f a with
    | none => rfl
    | some b => rfl
  have hset := (List.set_perm_cons_eraseIdx hlt q).filterMap f
  have hold := (List.getElem_cons_eraseIdx_perm hlt).filterMap f
  rw [hcons] at hset hold
  have hswap : ((f l[k]).toList ++ ((f q).toList ++ (l.eraseIdx k).filterMap f)).Perm
      ((f q).toList ++ ((f l[k]).toList ++ (l.eraseIdx k).filterMap f)) := by
    rw [← List.append_assoc, ← List.append_assoc]
    exact List.perm_append_comm.append_right _
  exact (hset.append_left _).trans (hswap.trans (hold.append_left _))

/-- A thread that carries nothing takes nothing away, nor does one that goes on carrying what it
    does. -/
theorem filterMap_subset_set {α β : Type} (f : α → Option β) {l : List α} {k : Nat} {p q : α}
    (hk : l[k]? = some p) (hp : f p = none ∨ f q = f p) :
    l.filterMap f ⊆ (l.set k q).filterMap f := by
  have hperm := filterMap_set_perm f hk q
  rcases hp with hp | hq
  · rw [hp, Option.toList_none, List.nil_append] at hperm
    exact fun b hb => hperm.mem_iff.mpr (List.mem_append_right _ hb)
  · rw [hq] at hperm
    exact ((List.perm_append_left_iff _).mp hperm).symm.subset

/-- The flag tells whether a thread is at a point where `f` holds, and there is at most one. -/
def Held {α : Type} (f : α → Bool) (l : List α) (locked : Bool) : Prop :=
  l.countP f = if locked then 1 else 0

namespace Held

variable {α : Type} {f : α → Bool} {l : List α} {locked : Bool} {i j k : Nat} {p q : α}

/-- A thread moves between two points that both count or both do not. -/
theorem stay (h : Held f l locked) (hk : l[k]? = some p) (hpq : f q = f p) :
    Held f (l.set k q) locked := by
  have hcount := countP_set_add hk q f
  rw [hpq] at hcount
  rw [Held, ← h]
  omega

/-- A thread takes the lock. -/
theorem acquire (h : Held f l false) (hk : l[k]? = some p) (hp : f p = false) (hq : f q = true) :
    Held f (l.set k q) true := by
  have hcount := countP_set_add hk q f
  rw [Held, if_neg Bool.false_ne_true] at h
  rw [hp, hq, h] at hcount
  exact hcount

/-- A thread gives the lock up. -/
theorem release (h : Held f l true) (hk : l[k]? = some p) (hp : f p = true) (hq : f q = false) :
    Held f (l.set k q) false := by
  have hcount := countP_set_add hk q f
  rw [Held, if_pos rfl] at h
  rw [hp, hq, h] at hcount
  exact Nat.succ.inj hcount

/-- The flag is set while a thread holds the lock. -/
theorem locked_eq (h : Held f l locked) (hk : l[k]? = some p) (hp : f p = true) :
    locked = true := by
  cases locked with
  | true => rfl
  | false =>
    have hzero := List.countP_eq_zero.mp h p (List.mem_of_getElem? hk)
    exact absurd hp hzero

/-- **Mutual exclusion.** -/
theorem unique (h : Held f l locked) (hi : l[i]? = some p) (hj : l[j]? = some q) (hp : f p = true)
    (hq : f q = true) : i = j := by
  -- behind the first of two threads at such a point there is none
  have hlt : ∀ {i j : Nat} {p q : α}, l[i]? = some p → l[j]? = some q → f p = true → f q = true →
      ¬ i < j := by
    intro i j p q hi hj hp hq hij
    have hsplit : l.countP f = (l.take j).countP f + (l.drop j).countP f := by
      rw [← List.countP_append, List.take_append_drop]
    have htake : 0 < (l.take j).countP f :=
      List.countP_pos_iff.mpr
        ⟨p, List.mem_of_getElem? (by rw [List.getElem?_take_of_lt hij]; exact hi), hp⟩
    have hdrop : 0 < (l.drop j).countP f := by
      refine List.countP_pos_iff.mpr ⟨q, List.mem_of_getElem? (i := 0) ?_, hq⟩
      rw [List.getElem?_drop, Nat.add_zero]
      exact hj
    have hone : l.countP f ≤ 1 := by
      rw [h]
      split
      · exact Nat.le_refl 1
      · exact Nat.zero_le 1
    omega
  have h₁ := hlt hi hj hp hq
  have h₂ := hlt hj hi hq hp
  omega

end Held

end Mqlog.Lib
