/-
  The lock of the B+tree when a decrement is not atomic.

  `TreeLock` takes `--tree->lock.value.shared_lock` for one access.  It is two: a read of the field
  and a write of what was read, less one.  A search that enters between them is lost from the
  counter, so that the lock looks free while that search is still in `mbptree_find_leaf`, and an
  append enters.

  Where no search enters between the read and the write of a decrement, and the counter never wraps
  around, it never falls below the number of searches that hold the lock (`RaceInv`), and the lock
  excludes what it should.

  The points of a thread are those of `TreeLock`, with two more for a search, which is now in
  `mbptree_find_leaf`, in front of its decrement, or between the two halves of it.  What the lock is
  for is `Exclusive`: at most one thread is in `mbptree_tryappend`, and while one is, none is in
  `mbptree_find_leaf`.

  The two bad steps are conditions on a step and the state before it:

    * `losesEntry`: a decrement is written whose read another search has passed;
    * `wrapsEntry`: a search is let in and `shared_lock` wraps around.

  `RaceInv` says that the counter COVERS the searches: it may be larger than their number, since two
  decrements that overlap count once, and then the lock stays taken for want of a decrement.  That
  does no harm to exclusion.  It is an invariant because a write of a decrement takes one search
  away and one from what was read, and what was read is what is there as long as no search has come
  in between.
-/
import Mqlog.TreeLock

namespace Mqlog

open Lib (run Along)

/-- Where a thread is. -/
inductive RacePc where
  /-- Inside neither call. -/
  | idle
  /-- In `mbptree_tryappend`. -/
  | appending
  /-- In `mbptree_leaf_floor`, after `old_val = tree->lock`. -/
  | snapshot (old : Lock)
  /-- In `mbptree_find_leaf`. -/
  | searching
  /-- After `mbptree_find_leaf`, before the decrement. -/
  | found
  /-- In the decrement: `shared_lock` has been read. -/
  | decrementing (shared : Nat)
deriving DecidableEq, Repr

/-- The lock word, and where the threads are. -/
structure RaceState where
  lock : Lock
  threads : List RacePc
deriving DecidableEq, Repr

/-- The accesses to the lock word, and the return from `mbptree_find_leaf`. -/
inductive RaceAct where
  | appendCas
  | appendRelease
  | floorSnapshot
  | floorCas
  | findReturn
  | sharedRead
  | sharedWrite
deriving DecidableEq, Repr

/-- The write of `--tree->lock.value.shared_lock`, when `shared` was read: the other half of the
    lock word is not written. -/
def writeShared (l : Lock) (shared : Nat) : Lock :=
  { l with sharedLock := (shared + (2 ^ 32 - 1)) % 2 ^ 32 }

/-- Thread `i.1` makes the access `i.2`; `none` when it is not at that point. -/
def raceStep (s : RaceState) (i : Nat × RaceAct) : Option RaceState :=
  match i.2, s.threads[i.1]? with
  | .appendCas, some .idle =>
    -- a failed compare-and-swap is `ELIDXLK`
    if s.lock = lockFree then some ⟨lockExclusive, s.threads.set i.1 .appending⟩ else some s
  | .appendRelease, some .appending => some ⟨lockFree, s.threads.set i.1 .idle⟩
  | .floorSnapshot, some .idle => some ⟨s.lock, s.threads.set i.1 (.snapshot s.lock)⟩
  | .floorCas, some (.snapshot old) =>
    if s.lock = floorExpected old then some ⟨floorNew old, s.threads.set i.1 .searching⟩
    else some ⟨s.lock, s.threads.set i.1 .idle⟩
  | .findReturn, some .searching => some ⟨s.lock, s.threads.set i.1 .found⟩
  | .sharedRead, some .found => some ⟨s.lock, s.threads.set i.1 (.decrementing s.lock.sharedLock)⟩
  | .sharedWrite, some (.decrementing shared) =>
    some ⟨writeShared s.lock shared, s.threads.set i.1 .idle⟩
  | _, _ => none

/-- `n` threads outside both calls, and the lock as `mbptree_init` sets it. -/
def raceInit (n : Nat) : RaceState := ⟨lockFree, List.replicate n .idle⟩

namespace RaceState

/-- The number of threads in `mbptree_tryappend`. -/
def appenders (s : RaceState) : Nat := s.threads.count .appending

/-- The number of threads in `mbptree_find_leaf`. -/
def searchers (s : RaceState) : Nat := s.threads.count .searching

/-- At most one thread is in `mbptree_tryappend`, and while one is, none is in
    `mbptree_find_leaf`. -/
def Exclusive (s : RaceState) : Prop := s.appenders ≤ 1 ∧ (0 < s.appenders → s.searchers = 0)

instance (s : RaceState) : Decidable s.Exclusive :=
  inferInstanceAs (Decidable (s.appenders ≤ 1 ∧ (0 < s.appenders → s.searchers = 0)))

end RaceState

/-! ## The two bad steps -/

/-- The step writes a decrement whose read another search has passed: `shared_lock` is above what
    was read. -/
def losesEntry (s : RaceState) (i : Nat × RaceAct) : Bool :=
  match i.2, s.threads[i.1]? with
  | .sharedWrite, some (.decrementing shared) => shared < s.lock.sharedLock
  | _, _ => false

/-- The step lets a search in and makes `shared_lock` wrap around. -/
def wrapsEntry (s : RaceState) (i : Nat × RaceAct) : Bool :=
  match i.2, s.threads[i.1]? with
  | .floorCas, some (.snapshot old) => s.lock = floorExpected old ∧ 2 ^ 32 ≤ s.lock.sharedLock + 1
  | _, _ => false

/-! ## The invariant -/

/-- The thread has entered as a search and has not written its decrement. -/
def RacePc.entered : RacePc → Bool
  | .searching | .found | .decrementing _ => true
  | _ => false

/-- The number of searches that the counter has to cover. -/
def RaceState.entered (s : RaceState) : Nat := s.threads.countP RacePc.entered

/-- The counter and what has been read of it are 32 bits wide. -/
def FitsWord (s : RaceState) : Prop :=
  s.lock.sharedLock < 2 ^ 32 ∧ ∀ shared, .decrementing shared ∈ s.threads → shared < 2 ^ 32

/-- The counter covers the searches, or there are none and one append. -/
def RaceInv (s : RaceState) : Prop :=
  (s.appenders = 0 ∧ s.entered ≤ s.lock.sharedLock) ∨
  (s.appenders = 1 ∧ s.entered = 0 ∧ s.lock = lockExclusive)

theorem entered_set {s : RaceState} {k : Nat} {p : RacePc} (hk : s.threads[k]? = some p) (w : Lock)
    (q : RacePc) : (RaceState.mk w (s.threads.set k q)).entered + (if p.entered then 1 else 0) =
      s.entered + (if q.entered then 1 else 0) := Lib.countP_set_add hk q RacePc.entered

theorem race_appenders_set {s : RaceState} {k : Nat} {p : RacePc} (hk : s.threads[k]? = some p)
    (w : Lock) (q : RacePc) :
    (RaceState.mk w (s.threads.set k q)).appenders + (if p = .appending then 1 else 0) =
      s.appenders + (if q = .appending then 1 else 0) := by
  have hcount := Lib.countP_set_add hk q (· == .appending)
  simp only [beq_iff_eq] at hcount
  exact hcount

theorem searchers_le_entered (s : RaceState) : s.searchers ≤ s.entered := by
  refine List.countP_mono_left fun p _ hp => ?_
  rw [eq_of_beq hp]
  rfl

theorem RaceInv.exclusive {s : RaceState} (h : RaceInv s) : s.Exclusive := by
  have hle := searchers_le_entered s
  rcases h with ⟨happ, -⟩ | ⟨happ, hentered, -⟩
  · exact ⟨by omega, fun hpos => by omega⟩
  · exact ⟨by omega, fun _ => by omega⟩

theorem raceInv_init (n : Nat) : RaceInv (raceInit n) := by
  have hnone : ∀ f : RacePc → Bool, f .idle = false → (raceInit n).threads.countP f = 0 := by
    intro f hf
    refine List.countP_eq_zero.mpr fun p hp => ?_
    rw [List.eq_of_mem_replicate hp, hf]
    exact Bool.false_ne_true
  refine .inl ⟨hnone _ rfl, ?_⟩
  rw [RaceState.entered, hnone _ rfl]
  exact Nat.zero_le _

/-- The cases of a step, each with the point its thread was at. -/
theorem raceStep_cases {s s' : RaceState} {k : Nat} {act : RaceAct}
    (h : raceStep s (k, act) = some s') :
    s' = s ∨
    (s.threads[k]? = some .idle ∧ s.lock = lockFree ∧
      s' = ⟨lockExclusive, s.threads.set k .appending⟩) ∨
    (s.threads[k]? = some .appending ∧ s' = ⟨lockFree, s.threads.set k .idle⟩) ∨
    (∃ p q, s.threads[k]? = some p ∧ p ≠ .appending ∧ q ≠ .appending ∧ p.entered = q.entered ∧
      (∀ shared, q = .decrementing shared → shared = s.lock.sharedLock) ∧
      s' = ⟨s.lock, s.threads.set k q⟩) ∨
    (∃ old, act = .floorCas ∧ s.threads[k]? = some (.snapshot old) ∧ s.lock = floorExpected old ∧
      s' = ⟨floorNew old, s.threads.set k .searching⟩) ∨
    (∃ shared, act = .sharedWrite ∧ s.threads[k]? = some (.decrementing shared) ∧
      s' = ⟨writeShared s.lock shared, s.threads.set k .idle⟩) := by
  simp only [raceStep] at h
  split at h
  · rename_i hk
    by_cases hfree : s.lock = lockFree
    · rw [if_pos hfree] at h
      exact .inr (.inl ⟨hk, hfree, (Option.some.inj h).symm⟩)
    · rw [if_neg hfree] at h
      exact .inl (Option.some.inj h).symm
  · rename_i hk
    exact .inr (.inr (.inl ⟨hk, (Option.some.inj h).symm⟩))
  · rename_i hk
    exact .inr (.inr (.inr (.inl ⟨.idle, .snapshot s.lock, hk, by decide, RacePc.noConfusion, rfl,
      fun _ => RacePc.noConfusion, (Option.some.inj h).symm⟩)))
  · rename_i old hk
    by_cases hexp : s.lock = floorExpected old
    · rw [if_pos hexp] at h
      exact .inr (.inr (.inr (.inr (.inl ⟨old, rfl, hk, hexp, (Option.some.inj h).symm⟩))))
    · rw [if_neg hexp] at h
      exact .inr (.inr (.inr (.inl ⟨.snapshot old, .idle, hk, RacePc.noConfusion, by decide, rfl,
        fun _ => RacePc.noConfusion, (Option.some.inj h).symm⟩)))
  · rename_i hk
    exact .inr (.inr (.inr (.inl ⟨.searching, .found, hk, by decide, by decide, rfl,
      fun _ => RacePc.noConfusion, (Option.some.inj h).symm⟩)))
  · rename_i hk
    exact .inr (.inr (.inr (.inl ⟨.found, .decrementing s.lock.sharedLock, hk, by decide,
      RacePc.noConfusion, rfl, fun shared hq => (RacePc.decrementing.inj hq).symm,
      (Option.some.inj h).symm⟩)))
  · rename_i shared hk
    exact .inr (.inr (.inr (.inr (.inr ⟨shared, rfl, hk, (Option.some.inj h).symm⟩))))
  · nomatch h

theorem fitsWord_step {s s' : RaceState} {i : Nat × RaceAct} (hfits : FitsWord s)
    (h : raceStep s i = some s') : FitsWord s' := by
  obtain ⟨k, act⟩ := i
  obtain ⟨hword, hread⟩ := hfits
  have hset : ∀ q, (∀ shared, q = .decrementing shared → shared < 2 ^ 32) →
      ∀ shared, RacePc.decrementing shared ∈ s.threads.set k q → shared < 2 ^ 32 := by
    intro q hq shared hmem
    rcases List.mem_or_eq_of_mem_set hmem with hmem | heq
    · exact hread shared hmem
    · exact hq shared heq.symm
  rcases raceStep_cases h with rfl | ⟨-, -, rfl⟩ | ⟨-, rfl⟩ | ⟨-, q, -, -, -, -, hq, rfl⟩ |
    ⟨old, -, -, -, rfl⟩ | ⟨shared, -, -, rfl⟩
  · exact ⟨hword, hread⟩
  · exact ⟨Nat.two_pow_pos 32, hset _ fun _ => RacePc.noConfusion⟩
  · exact ⟨Nat.two_pow_pos 32, hset _ fun _ => RacePc.noConfusion⟩
  · exact ⟨hword, hset q fun shared heq => by rw [hq shared heq]; exact hword⟩
  · refine ⟨?_, hset _ fun _ => RacePc.noConfusion⟩
    rw [floorNew_sharedLock]
    exact Nat.mod_lt _ (by decide)
  · exact ⟨Nat.mod_lt _ (by decide), hset _ fun _ => RacePc.noConfusion⟩

/-- The step lemma. -/
theorem raceInv_step {s s' : RaceState} {i : Nat × RaceAct} (hlost : losesEntry s i = false)
    (hwrap : wrapsEntry s i = false) (hfits : FitsWord s) (hinv : RaceInv s)
    (h : raceStep s i = some s') : RaceInv s' := by
  obtain ⟨k, act⟩ := i
  rcases raceStep_cases h with rfl | ⟨hk, hfree, rfl⟩ | ⟨hk, rfl⟩ |
    ⟨p, q, hk, hp, hq, hpq, -, rfl⟩ |
    ⟨old, rfl, hk, hexp, rfl⟩ | ⟨shared, rfl, hk, rfl⟩
  · exact hinv
  · -- an append enters: nothing is counted, so there is no search
    have he := entered_set hk lockExclusive .appending
    have ha := race_appenders_set hk lockExclusive .appending
    simp only [RacePc.entered, reduceCtorEq, if_false, if_true, Bool.false_eq_true] at he ha
    rcases hinv with ⟨happ, hle⟩ | ⟨-, -, hlock⟩
    · rw [hfree] at hle
      have hzero : s.entered = 0 := Nat.le_zero.mp hle
      exact .inr ⟨by omega, by omega, rfl⟩
    · rw [hlock] at hfree
      exact absurd hfree (by decide)
  · -- an append leaves
    have he := entered_set hk lockFree .idle
    have ha := race_appenders_set hk lockFree .idle
    simp only [RacePc.entered, reduceCtorEq, if_false, if_true, Bool.false_eq_true] at he ha
    rcases hinv with ⟨happ, -⟩ | ⟨happ, hentered, -⟩
    · omega
    · refine .inl ⟨by omega, ?_⟩
      show _ ≤ 0
      omega
  · -- a step that enters and leaves nothing
    have he := entered_set hk s.lock q
    have ha := race_appenders_set hk s.lock q
    rw [hpq] at he
    rw [if_neg hp, if_neg hq] at ha
    rcases hinv with ⟨happ, hle⟩ | ⟨happ, hentered, hlock⟩
    · exact .inl ⟨by omega, by show _ ≤ s.lock.sharedLock; omega⟩
    · exact .inr ⟨by omega, by omega, hlock⟩
  · -- a search enters
    have he := entered_set hk (floorNew old) .searching
    have ha := race_appenders_set hk (floorNew old) .searching
    simp only [RacePc.entered, reduceCtorEq, if_false, if_true, Bool.false_eq_true] at he ha
    have hlt : ¬ (s.lock = floorExpected old ∧ 2 ^ 32 ≤ s.lock.sharedLock + 1) := by
      simp only [wrapsEntry, hk] at hwrap
      exact of_decide_eq_false hwrap
    rcases hinv with ⟨happ, hle⟩ | ⟨-, -, hlock⟩
    · have hshared : s.lock.sharedLock = old.sharedLock := by
        rw [hexp]
        rfl
      have hlt : old.sharedLock + 1 < 2 ^ 32 := by
        rw [← hshared]
        exact Nat.lt_of_not_le fun hle => hlt ⟨hexp, hle⟩
      rw [hshared] at hle
      refine .inl ⟨by omega, ?_⟩
      rw [floorNew_sharedLock, Nat.mod_eq_of_lt hlt]
      omega
    · rw [hlock] at hexp
      exact absurd (congrArg Lock.exclusiveLock hexp) Nat.one_ne_zero
  · -- a decrement is written: what was read covers this search and the others
    have he := entered_set hk (writeShared s.lock shared) .idle
    have ha := race_appenders_set hk (writeShared s.lock shared) .idle
    simp only [RacePc.entered, reduceCtorEq, if_false, if_true, Bool.false_eq_true] at he ha
    have hread : ¬ shared < s.lock.sharedLock := by
      simp only [losesEntry, hk] at hlost
      exact of_decide_eq_false hlost
    have hlt := hfits.2 shared (List.mem_of_getElem? hk)
    rcases hinv with ⟨happ, hle⟩ | ⟨-, hentered, -⟩
    · have hwrite : (writeShared s.lock shared).sharedLock = shared - 1 := by
        show (shared + (2 ^ 32 - 1)) % 2 ^ 32 = shared - 1
        omega
      exact .inl ⟨by omega, by rw [hwrite]; omega⟩
    · omega

/-- **The tree lock excludes**: in every interleaving of any number of threads in which no search
    enters in the middle of a decrement and `shared_lock` does not wrap around. -/
theorem tree_lock_exclusive {n : Nat} {is : List (Nat × RaceAct)} {s : RaceState}
    (hrun : run raceStep (raceInit n) is = some s)
    (halong : Along raceStep (fun s i => losesEntry s i = false ∧ wrapsEntry s i = false)
      (raceInit n)
      is) :
    s.Exclusive := by
  have hinit : FitsWord (raceInit n) ∧ RaceInv (raceInit n) := by
    refine ⟨⟨Nat.two_pow_pos 32, fun shared hmem => ?_⟩, raceInv_init n⟩
    cases List.eq_of_mem_replicate hmem
  have hinv := Lib.run_invariant (I := fun s => FitsWord s ∧ RaceInv s)
    (fun s i s' hok hinv h => ⟨fitsWord_step hinv.1 h, raceInv_step hok.1 hok.2 hinv.1 hinv.2 h⟩)
      is _ _
    halong hinit hrun
  exact hinv.2.exclusive

/-- Two searches decrement the counter one after the other, and an append enters. -/
theorem tree_lock_exclusive_of_three :
    ∃ s, run raceStep (raceInit 3) [(0, .floorSnapshot), (0, .floorCas), (1, .floorSnapshot),
      (1, .floorCas), (0, .findReturn), (1, .findReturn), (0, .sharedRead), (0, .sharedWrite),
      (1, .sharedRead), (1, .sharedWrite), (2, .appendCas)] = some s ∧ s.Exclusive ∧
      s.appenders = 1 := by
  have hrun : run raceStep (raceInit 3) [(0, .floorSnapshot), (0, .floorCas), (1, .floorSnapshot),
      (1, .floorCas), (0, .findReturn), (1, .findReturn), (0, .sharedRead), (0, .sharedWrite),
      (1, .sharedRead), (1, .sharedWrite), (2, .appendCas)] =
    some ⟨lockExclusive, [.idle, .idle, .appending]⟩ := by decide
  exact ⟨_, hrun, tree_lock_exclusive hrun (by decide), by decide⟩

/-- A search enters while another one is decrementing, and is lost from the counter: an append
    enters with the search still in `mbptree_find_leaf`. -/
theorem search_lost_in_decrement :
    ¬ ∀ (n : Nat) (is : List (Nat × RaceAct)) (s : RaceState),
      run raceStep (raceInit n) is = some s → s.Exclusive := by
  intro hall
  have hrun : run raceStep (raceInit 3) [(0, .floorSnapshot), (0, .floorCas), (0, .findReturn),
      (0, .sharedRead), (1, .floorSnapshot), (1, .floorCas), (0, .sharedWrite), (2, .appendCas)] =
    some ⟨lockExclusive, [.idle, .searching, .appending]⟩ := by decide
  exact absurd (hall 3 _ _ hrun) (by decide)

end Mqlog
