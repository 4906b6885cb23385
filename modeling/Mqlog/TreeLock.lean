/-
  The lock of the B+tree under any number of threads.

  Each thread is outside both calls or at one of the points of `mbptree_append` and
  `mbptree_leaf_floor` that matter to the lock word: between the compare-and-swap and the release
  store of an append, between the snapshot and the compare-and-swap of a search, between that and
  the decrement.  One label is one atomic access by one thread; a run is an interleaving.

  The words are those of `Mbptree`: `floorExpected` clears `exclusive_lock` of the snapshot, but
  `floorNew` keeps it.  So a search whose snapshot was taken while an append was inside succeeds
  after that append has left, and installs an exclusive lock that no thread will ever release
  (`Stuck`).  Without such a step the lock word counts the searches inside (`LockInv`), and a tree
  nobody works on is unlocked.

  There are two bad steps, each a condition on one step and the state before it.

    * `NoStaleCas`: the compare-and-swap of a search succeeds with a snapshot that shows an append.
    * `NoWrappedCas`: the compare-and-swap of an append succeeds while a search is inside.  This
      takes `2 ^ 32` searches, so that the counter is zero again; with fewer threads it cannot
      happen (`noWrappedCas_of_lt`).

  The property has two directions.  In a run without bad steps every quiet state is unlocked:
  `LockInv` is kept by each step, and in a quiet state it leaves the free lock only
  (`lockInv_quiet`).  Once a stale compare-and-swap has been made, the lock stays exclusive for
  ever, whoever runs (`Stuck`, `stuck_step`): every append and every later search finds it taken,
  and nobody is there to give it back.

  The decrement is one access here.  What follows when it is two is the subject of `TreeLockRace`.
-/
import Mathlib.Algebra.Ring.Nat
import Mqlog.Lib.Run
import Mqlog.Mbptree

namespace Mqlog

open Lib (run Along)

/-- Where a thread is. -/
inductive Pc where
  /-- Inside neither call. -/
  | idle
  /-- In `mbptree_append`, holding the lock. -/
  | appending
  /-- In `mbptree_leaf_floor`, after `old_val = tree->lock`. -/
  | snapshot (old : Lock)
  /-- In `mbptree_leaf_floor`, between the compare-and-swap and the decrement. -/
  | reading
deriving DecidableEq, Repr

/-- The lock word, and where the threads are. -/
structure LockState where
  lock : Lock
  threads : List Pc
deriving DecidableEq, Repr

/-- The atomic accesses to the lock word. -/
inductive LockAct where
  | appendCas
  | appendRelease
  | floorSnapshot
  | floorCas
  | floorRelease
deriving DecidableEq, Repr

/-- Thread `i.1` makes the access `i.2`; `none` when it is not at that point. -/
def lockStep (s : LockState) (i : Nat × LockAct) : Option LockState :=
  match i.2, s.threads[i.1]? with
  | .appendCas, some .idle =>
    -- a failed compare-and-swap is `ELIDXLK`
    if s.lock = lockFree then some ⟨lockExclusive, s.threads.set i.1 .appending⟩ else some s
  | .appendRelease, some .appending => some ⟨lockFree, s.threads.set i.1 .idle⟩
  | .floorSnapshot, some .idle => some ⟨s.lock, s.threads.set i.1 (.snapshot s.lock)⟩
  | .floorCas, some (.snapshot old) =>
    if s.lock = floorExpected old then some ⟨floorNew old, s.threads.set i.1 .reading⟩
    else some ⟨s.lock, s.threads.set i.1 .idle⟩
  | .floorRelease, some .reading => some ⟨floorRelease s.lock, s.threads.set i.1 .idle⟩
  | _, _ => none

/-- `n` threads outside both calls, and the lock as `mbptree_init` sets it. -/
def lockInit (n : Nat) : LockState := ⟨lockFree, List.replicate n .idle⟩

namespace LockState

/-- No thread is inside either call. -/
def Quiet (s : LockState) : Prop := ∀ p ∈ s.threads, p = .idle

instance (s : LockState) :
    Decidable s.Quiet := inferInstanceAs (Decidable (∀ p ∈ s.threads, p = .idle))

/-- The number of threads that hold the lock for a search. -/
def readers (s : LockState) : Nat := s.threads.count .reading

/-- The number of threads that hold the lock for an append. -/
def appenders (s : LockState) : Nat := s.threads.count .appending

end LockState

/-! ## The two bad steps -/

/-- The step is not a successful compare-and-swap of a search whose snapshot shows an append. -/
def NoStaleCas (s : LockState) (i : Nat × LockAct) : Prop :=
  ∀ old, i.2 = .floorCas → s.threads[i.1]? = some (.snapshot old) → s.lock = floorExpected old →
    old.exclusiveLock = 0

/-- The step is not a successful compare-and-swap of an append while a search is inside, which can
    only happen when `2 ^ 32` of them are and `shared_lock` has wrapped around. -/
def NoWrappedCas (s : LockState) (i : Nat × LockAct) : Prop :=
  i.2 = .appendCas → s.lock = lockFree → s.readers = 0

/-! ## What a step can do -/

/-- The cases of a step, each with the point its thread was at. -/
theorem lockStep_cases {s s' : LockState} {k : Nat} {act : LockAct}
    (h : lockStep s (k, act) = some s') :
    s' = s ∨
    (act = .appendCas ∧ s.threads[k]? = some .idle ∧ s.lock = lockFree ∧
      s' = ⟨lockExclusive, s.threads.set k .appending⟩) ∨
    (s.threads[k]? = some .appending ∧ s' = ⟨lockFree, s.threads.set k .idle⟩) ∨
    (∃ p q, s.threads[k]? = some p ∧ p ≠ .reading ∧ p ≠ .appending ∧ q ≠ .reading ∧
      q ≠ .appending ∧ s' = ⟨s.lock, s.threads.set k q⟩) ∨
    (∃ old, act = .floorCas ∧ s.threads[k]? = some (.snapshot old) ∧ s.lock = floorExpected old ∧
      s' = ⟨floorNew old, s.threads.set k .reading⟩) ∨
    (s.threads[k]? = some .reading ∧ s' = ⟨floorRelease s.lock, s.threads.set k .idle⟩) := by
  simp only [lockStep] at h
  split at h
  · rename_i hk
    by_cases hfree : s.lock = lockFree
    · rw [if_pos hfree] at h
      exact Or.inr (Or.inl ⟨rfl, hk, hfree, (Option.some.inj h).symm⟩)
    · rw [if_neg hfree] at h
      exact Or.inl (Option.some.inj h).symm
  · rename_i hk
    exact Or.inr (Or.inr (Or.inl ⟨hk, (Option.some.inj h).symm⟩))
  · rename_i hk
    exact Or.inr (Or.inr (Or.inr (Or.inl ⟨.idle, .snapshot s.lock, hk, by decide, by decide,
      Pc.noConfusion, Pc.noConfusion, (Option.some.inj h).symm⟩)))
  · rename_i old hk
    by_cases hexp : s.lock = floorExpected old
    · rw [if_pos hexp] at h
      exact Or.inr (Or.inr (Or.inr (Or.inr (Or.inl ⟨old, rfl, hk, hexp,
        (Option.some.inj h).symm⟩))))
    · rw [if_neg hexp] at h
      exact Or.inr (Or.inr (Or.inr (Or.inl ⟨.snapshot old, .idle, hk, Pc.noConfusion,
        Pc.noConfusion, by decide, by decide, (Option.some.inj h).symm⟩)))
  · rename_i hk
    exact Or.inr (Or.inr (Or.inr (Or.inr (Or.inr ⟨hk, (Option.some.inj h).symm⟩))))
  · nomatch h

/-- Moving one thread, seen from the numbers of searches and appends inside. -/
theorem readers_set {s : LockState} {k : Nat} {p : Pc} (hk : s.threads[k]? = some p) (w : Lock)
    (q : Pc) : (LockState.mk w (s.threads.set k q)).readers + (if p = .reading then 1 else 0) =
      s.readers + (if q = .reading then 1 else 0) := by
  have hcount := Lib.countP_set_add hk q (· == .reading)
  simp only [beq_iff_eq] at hcount
  exact hcount

theorem appenders_set {s : LockState} {k : Nat} {p : Pc} (hk : s.threads[k]? = some p) (w : Lock)
    (q : Pc) : (LockState.mk w (s.threads.set k q)).appenders + (if p = .appending then 1 else 0) =
      s.appenders + (if q = .appending then 1 else 0) := by
  have hcount := Lib.countP_set_add hk q (· == .appending)
  simp only [beq_iff_eq] at hcount
  exact hcount

@[simp] theorem floorNew_exclusiveLock (l : Lock) :
    (floorNew l).exclusiveLock = l.exclusiveLock := by cases l; rfl

@[simp] theorem floorNew_sharedLock (l : Lock) :
    (floorNew l).sharedLock = (l.sharedLock + 1) % 2 ^ 32 := by cases l; rfl

@[simp] theorem floorRelease_exclusiveLock (l : Lock) :
    (floorRelease l).exclusiveLock = l.exclusiveLock := by cases l; rfl

@[simp] theorem floorRelease_sharedLock (l : Lock) :
    (floorRelease l).sharedLock = (l.sharedLock + (2 ^ 32 - 1)) % 2 ^ 32 := by cases l; rfl

/-! ## What holds without a bad step -/

/-- The lock word tells who is inside: searches only, and then it counts them (modulo `2 ^ 32`), or
    one append. -/
def LockInv (s : LockState) : Prop :=
  (s.appenders = 0 ∧ s.lock.exclusiveLock = 0 ∧ s.lock.sharedLock = s.readers % 2 ^ 32) ∨
  (s.appenders = 1 ∧ s.readers = 0 ∧ s.lock = lockExclusive)

theorem init_count (n : Nat) {p : Pc} (hp : p ≠ .idle) : (lockInit n).threads.count p = 0 :=
  List.count_eq_zero.mpr fun hmem => hp (List.eq_of_mem_replicate hmem)

theorem lockInv_init (n : Nat) : LockInv (lockInit n) := by
  have hread : (lockInit n).readers = 0 := init_count n (by decide)
  refine Or.inl ⟨init_count n (by decide), rfl, ?_⟩
  rw [hread]
  rfl

theorem lockInv_step {s s' : LockState} {i : Nat × LockAct} (hstale : NoStaleCas s i)
    (hwrap : NoWrappedCas s i) (hinv : LockInv s) (h : lockStep s i = some s') : LockInv s' := by
  obtain ⟨k, act⟩ := i
  rcases lockStep_cases h with rfl | ⟨rfl, hk, hfree, rfl⟩ | ⟨hk, rfl⟩ |
    ⟨p, q, hk, hpr, hpa, hqr, hqa, rfl⟩ | ⟨old, rfl, hk, hexp, rfl⟩ | ⟨hk, rfl⟩
  · exact hinv
  · -- an append enters
    have hr := readers_set hk lockExclusive .appending
    have ha := appenders_set hk lockExclusive .appending
    have hnone := hwrap rfl hfree
    simp only [reduceCtorEq, if_false, if_true] at hr ha
    rcases hinv with ⟨happ, -, -⟩ | ⟨-, -, hlock⟩
    · exact Or.inr ⟨by omega, by omega, rfl⟩
    · rw [hlock] at hfree
      exact absurd hfree (by decide)
  · -- an append leaves
    have hr := readers_set hk lockFree .idle
    have ha := appenders_set hk lockFree .idle
    simp only [reduceCtorEq, if_false, if_true] at hr ha
    rcases hinv with ⟨happ, -, -⟩ | ⟨happ, hread, -⟩
    · omega
    · refine Or.inl ⟨by omega, rfl, ?_⟩
      rw [show (LockState.mk lockFree (s.threads.set k .idle)).readers = 0 by omega]
      rfl
  · -- a snapshot, or a refused search
    have hr := readers_set hk s.lock q
    have ha := appenders_set hk s.lock q
    rw [if_neg hpr, if_neg hqr, Nat.add_zero, Nat.add_zero] at hr
    rw [if_neg hpa, if_neg hqa] at ha
    rcases hinv with ⟨happ, hexcl, hshared⟩ | ⟨happ, hread, hlock⟩
    · exact Or.inl ⟨by omega, hexcl, by rw [hr]; exact hshared⟩
    · exact Or.inr ⟨by omega, by omega, hlock⟩
  · -- a search enters
    have hr := readers_set hk (floorNew old) .reading
    have ha := appenders_set hk (floorNew old) .reading
    simp only [reduceCtorEq, if_false, if_true] at hr ha
    have hold : old.exclusiveLock = 0 := hstale old rfl hk hexp
    rcases hinv with ⟨happ, -, hshared⟩ | ⟨-, -, hlock⟩
    · rw [hexp] at hshared
      have hcount : old.sharedLock = s.readers % 2 ^ 32 := hshared
      refine Or.inl ⟨by omega, by rw [floorNew_exclusiveLock, hold], ?_⟩
      rw [floorNew_sharedLock, hcount]
      omega
    · rw [hlock] at hexp
      exact absurd (congrArg Lock.exclusiveLock hexp) Nat.one_ne_zero
  · -- a search leaves
    have hr := readers_set hk (floorRelease s.lock) .idle
    have ha := appenders_set hk (floorRelease s.lock) .idle
    simp only [reduceCtorEq, if_false, if_true] at hr ha
    rcases hinv with ⟨happ, hexcl, hshared⟩ | ⟨-, hread, -⟩
    · refine Or.inl ⟨by omega, by rw [floorRelease_exclusiveLock, hexcl], ?_⟩
      rw [floorRelease_sharedLock, hshared]
      omega
    · omega

/-! ## What a stale compare-and-swap does -/

/-- The lock is held exclusively, but by no thread. -/
def Stuck (s : LockState) : Prop := s.lock.exclusiveLock ≠ 0 ∧ s.appenders = 0

/-- A thread that holds the lock for an append is alone in that, and the lock word shows it. -/
def Owned (s : LockState) : Prop :=
  s.appenders = 0 ∨ (s.appenders = 1 ∧ s.lock.exclusiveLock ≠ 0)

theorem owned_step {s s' : LockState} {i : Nat × LockAct} (hinv : Owned s)
    (h : lockStep s i = some s') : Owned s' := by
  obtain ⟨k, act⟩ := i
  rcases lockStep_cases h with rfl | ⟨rfl, hk, hfree, rfl⟩ | ⟨hk, rfl⟩ |
    ⟨p, q, hk, hpr, hpa, hqr, hqa, rfl⟩ | ⟨old, rfl, hk, hexp, rfl⟩ | ⟨hk, rfl⟩
  · exact hinv
  · have ha := appenders_set hk lockExclusive .appending
    simp only [reduceCtorEq, if_false, if_true] at ha
    rcases hinv with happ | ⟨-, hexcl⟩
    · exact Or.inr ⟨by omega, Nat.one_ne_zero⟩
    · rw [hfree] at hexcl
      exact absurd rfl hexcl
  · have ha := appenders_set hk lockFree .idle
    simp only [reduceCtorEq, if_false, if_true] at ha
    refine Or.inl ?_
    rcases hinv with happ | ⟨happ, -⟩ <;> omega
  · have ha := appenders_set hk s.lock q
    rw [if_neg hpa, if_neg hqa] at ha
    exact hinv.imp ha.trans fun hone => ⟨ha.trans hone.1, hone.2⟩
  · have ha := appenders_set hk (floorNew old) .reading
    simp only [reduceCtorEq, if_false, Nat.add_zero] at ha
    rcases hinv with happ | ⟨-, hexcl⟩
    · exact Or.inl (ha.trans happ)
    · rw [hexp] at hexcl
      exact absurd rfl hexcl
  · have ha := appenders_set hk (floorRelease s.lock) .idle
    simp only [reduceCtorEq, if_false, Nat.add_zero] at ha
    refine hinv.imp ha.trans fun hone => ⟨ha.trans hone.1, ?_⟩
    rw [floorRelease_exclusiveLock]
    exact hone.2

/-- A stale compare-and-swap abandons the lock. -/
theorem stuck_of_stale {s s' : LockState} {i : Nat × LockAct} (hinv : Owned s)
    (hstale : ¬ NoStaleCas s i) (h : lockStep s i = some s') : Stuck s' := by
  obtain ⟨k, act⟩ := i
  simp only [NoStaleCas, not_forall] at hstale
  obtain ⟨old, rfl, hk, hexp, hold⟩ := hstale
  simp only [lockStep, hk, if_pos hexp] at h
  obtain rfl := Option.some.inj h
  have ha := appenders_set hk (floorNew old) .reading
  simp only [reduceCtorEq, if_false, Nat.add_zero] at ha
  refine ⟨by rw [floorNew_exclusiveLock]; exact hold, ?_⟩
  rcases hinv with happ | ⟨-, hexcl⟩
  · exact ha.trans happ
  · rw [hexp] at hexcl
    exact absurd rfl hexcl

/-- **An abandoned lock stays abandoned**: every later call is refused. -/
theorem stuck_step {s s' : LockState} {i : Nat × LockAct} (hstuck : Stuck s)
    (h : lockStep s i = some s') : Stuck s' := by
  obtain ⟨k, act⟩ := i
  obtain ⟨hexcl, happ⟩ := hstuck
  rcases lockStep_cases h with rfl | ⟨rfl, hk, hfree, rfl⟩ | ⟨hk, rfl⟩ |
    ⟨p, q, hk, hpr, hpa, hqr, hqa, rfl⟩ | ⟨old, rfl, hk, hexp, rfl⟩ | ⟨hk, rfl⟩
  · exact ⟨hexcl, happ⟩
  · rw [hfree] at hexcl
    exact absurd rfl hexcl
  · have ha := appenders_set hk lockFree .idle
    simp only [reduceCtorEq, if_false, if_true] at ha
    omega
  · have ha := appenders_set hk s.lock q
    rw [if_neg hpa, if_neg hqa] at ha
    exact ⟨hexcl, ha.trans happ⟩
  · rw [hexp] at hexcl
    exact absurd rfl hexcl
  · have ha := appenders_set hk (floorRelease s.lock) .idle
    simp only [reduceCtorEq, if_false, Nat.add_zero] at ha
    refine ⟨?_, ha.trans happ⟩
    rw [floorRelease_exclusiveLock]
    exact hexcl

/-! ## Quiet states -/

theorem length_step {s s' : LockState} {i : Nat × LockAct} (h : lockStep s i = some s') :
    s'.threads.length = s.threads.length := by
  obtain ⟨k, act⟩ := i
  rcases lockStep_cases h with rfl | ⟨-, -, -, rfl⟩ | ⟨-, rfl⟩ | ⟨_, _, -, -, -, -, -, rfl⟩ |
    ⟨_, -, -, -, rfl⟩ | ⟨-, rfl⟩
  · rfl
  all_goals exact List.length_set ..

/-- In a quiet state, the invariant leaves only the free lock. -/
theorem lockInv_quiet {s : LockState} (hinv : LockInv s) (hquiet : s.Quiet) :
    s.lock = lockFree := by
  have hnone : ∀ p : Pc, p ≠ .idle → s.threads.count p = 0 := fun p hp =>
    List.count_eq_zero.mpr fun hmem => hp (hquiet p hmem)
  have hread : s.readers = 0 := hnone .reading (by decide)
  have happ : s.appenders = 0 := hnone .appending (by decide)
  rcases hinv with ⟨-, hexcl, hshared⟩ | ⟨hone, -⟩
  · rw [hread] at hshared
    cases hlock : s.lock with
    | mk excl shared =>
      rw [hlock] at hexcl hshared
      rw [show excl = 0 from hexcl, show shared = 0 from hshared]
      rfl
  · omega

/-- With fewer than `2 ^ 32` threads the counter does not wrap. -/
theorem noWrappedCas_of_lt {s : LockState} {i : Nat × LockAct} (hinv : LockInv s)
    (hlen : s.threads.length < 2 ^ 32) : NoWrappedCas s i := by
  intro _ hfree
  have hle : s.readers ≤ s.threads.length := List.count_le_length
  rcases hinv with ⟨-, -, hshared⟩ | ⟨-, hread, -⟩
  · rw [hfree, Nat.mod_eq_of_lt (by omega)] at hshared
    exact hshared.symm
  · exact hread

/-- **When a quiet tree is unlocked.**  In every run of any number of threads whose steps are
    neither a stale nor a wrapped compare-and-swap, every quiet state has the free lock; and with
    fewer than `2 ^ 32` threads, where no counter wraps, a quiet state has the free lock exactly
    when no step before it was a stale compare-and-swap. -/
theorem quiet_unlocked {n : Nat} {is : List (Nat × LockAct)} {s : LockState}
    (hrun : run lockStep (lockInit n) is = some s) (hquiet : s.Quiet) :
    (Along lockStep (fun s i => NoStaleCas s i ∧ NoWrappedCas s i) (lockInit n) is →
      s.lock = lockFree) ∧
    (n < 2 ^ 32 → (s.lock = lockFree ↔ Along lockStep NoStaleCas (lockInit n) is)) := by
  have hsafe : Along lockStep (fun s i => NoStaleCas s i ∧ NoWrappedCas s i) (lockInit n) is →
      s.lock = lockFree := by
    intro halong
    refine lockInv_quiet ?_ hquiet
    exact Lib.run_invariant (fun s i s' hok hinv h => lockInv_step hok.1 hok.2 hinv h) is _ _ halong
      (lockInv_init n) hrun
  refine ⟨hsafe, fun hn => ⟨fun hfree => ?_, fun halong => hsafe ?_⟩⟩
  · by_contra hnot
    obtain ⟨is₁, i, is₂, s₁, s₂, -, hrun₁, hstale, hstep, hrun₂⟩ :=
      Lib.exists_failing is _ _ hrun hnot
    have howned : Owned s₁ := Lib.run_invariant_all (fun _ _ _ => owned_step)
      (Or.inl (init_count n (by decide))) hrun₁
    have hstuck : Stuck s := Lib.run_invariant_all (fun _ _ _ => stuck_step)
      (stuck_of_stale howned hstale hstep) hrun₂
    exact hstuck.1 (congrArg Lock.exclusiveLock hfree)
  · refine Along.imp (I := fun s => LockInv s ∧ s.threads.length < 2 ^ 32)
      (fun s i hinv hstale => ⟨hstale, noWrappedCas_of_lt hinv.1 hinv.2⟩)
      (fun s i s' hok hinv h => ⟨lockInv_step hok.1 hok.2 hinv.1 h, (length_step h).symm ▸ hinv.2⟩)
      is (lockInit n) ⟨lockInv_init n, ?_⟩ halong
    rw [lockInit, List.length_replicate]
    exact hn

/-- An append and a search, one after the other: no step was stale, since the lock is free. -/
theorem quiet_unlocked_of_two_calls :
    Along lockStep NoStaleCas (lockInit 3) [(0, .appendCas), (0, .appendRelease),
      (2, .floorSnapshot), (2, .floorCas), (2, .floorRelease)] ∧ (lockInit 3).lock = lockFree := by
  have hrun : run lockStep (lockInit 3) [(0, .appendCas), (0, .appendRelease), (2, .floorSnapshot),
      (2, .floorCas), (2, .floorRelease)] = some (lockInit 3) := by decide
  have hiff := (quiet_unlocked hrun (by decide)).2 (by decide)
  exact ⟨hiff.mp rfl, rfl⟩

/-- The search takes its snapshot while the append is inside, and swaps after it has left: all
    threads are outside, and the lock is held exclusively for ever. -/
theorem stale_snapshot_abandons_lock :
    ¬ ∀ (n : Nat) (is : List (Nat × LockAct)) (s : LockState),
      run lockStep (lockInit n) is = some s → s.Quiet → s.lock = lockFree := by
  intro hall
  have hrun : run lockStep (lockInit 2) [(0, .appendCas), (1, .floorSnapshot), (0, .appendRelease),
      (1, .floorCas), (1, .floorRelease)] = some ⟨⟨1, 0⟩, [.idle, .idle]⟩ := by decide
  exact absurd (hall 2 _ _ hrun (by decide)) (by decide)

end Mqlog
