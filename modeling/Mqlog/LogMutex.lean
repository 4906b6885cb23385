/-
  The mutex of a log.

  `mqlogTryread` and `mqlogWrite` say which code a call returns and what it leaves behind.  Here the
  same code is followed once more with a record of what it does to `lg->lock` (`MutexOp`), so that a
  release can be counted (`tryreadTraced_eq` and `writeTraced_eq` say that it is the same code).

  Every path of a write releases what it acquired.  A read does so unless `mbptree_leaf_floor`
  fails:  then it returns between the lock and the unlock.  Between calls of one thread the lock of
  the index is free (`Idle`), so the only such failure is that of the iterator's `calloc`.

    1. Return codes.  A call that is turned away returns `ELLOCK`, so the property has to know that
       nothing else returns it: no length, no error of a file or a mapping, no read.  Each function
       has its lemma (`segmentOpen_ne_ellock`, `segmentWrite_ne_ellock`, `segmentRead_ne_ellock`,
       ...).
    2. The lock of the index.  `mbptree_append` and the searches take it and give it back
       (`mbptreeAppend_lock`, `mbptreeLeafFloor_cases`), also when an allocation fails in between.
    3. What a call leaves behind: `StepOk` for a step of a call, which is closed under sequencing
       (`StepOk.trans`), so that the cases of `LogCases` are put together as the code puts them.
    4. Calls and runs.  `MqlogCall` is any call on an open log, `mqlogStep_idle` the step lemma.

  The condition on a run is that every read gets the memory for its iterator (`GetsIterator`), a
  condition on the allocations at the call.  It is exact: the first read that does not get it
  returns with the mutex held (`tryreadTraced_without_iterator`), and the writes and reads behind it
  are turned away with `ELLOCK` for ever (`mutex_kept_without_iterator`).
-/
import Mqlog.Lib.Run
import Mqlog.LogCases

namespace Mqlog

open Lib Lib.Mem

/-! ## Calls that record what they do to the mutex -/

/-- What happens to `lg->lock`: `pthread_mutex_trylock` acquires it or finds it held, and
    `pthread_mutex_unlock` releases it. -/
inductive MutexOp where
  | acquired
  | busy
  | released
deriving DecidableEq, Repr

/-- `mqlog_tryread`, with its operations on the mutex. -/
def tryreadTraced (lg : MqLog) (offset : Nat) :
    Option (List MutexOp × Int × Option (Nat × Frame) × MqLog) :=
  if lg.locked then some ([.busy], ELLOCK, none, lg)
  else do
    let lg := { lg with locked := true }
    let (rc, iterator, index) ← mbptreeLeafFloor lg.index offset
    let lg := { lg with index := index }
    if rc ≠ 0 then pure ([.acquired], rc, none, lg)
    else do
      let iterator ← iterator
      let valid ← mbptreeLeafIteratorValid lg.index iterator
      -- both returns that are left come after the unlock
      let lg := { lg with locked := false }
      if valid = false then pure ([.acquired, .released], ELNORD, none, lg)
      else do
        let addr ← mbptreeLeafIteratorValue lg.index iterator
        let sgm ← lg.segs.get addr
        let (rc, fr) := segmentRead sgm (offset - segmentBaseOffset sgm)
        pure ([.acquired, .released], rc, some (addr, fr), lg)

/-- `mqlog_write`, with its operations on the mutex. -/
def writeTraced (page : PageSize) (lg : MqLog) (buf : Buf) : Option (List MutexOp × Int × MqLog) :=
  if buf.1.length = 0 then some ([], 0, lg)
  else if lg.locked then some ([.busy], ELLOCK, lg)
  else do
    let (written, lg) ← mqlogTrywrite page { lg with locked := true } buf
    pure ([.acquired, .released], written, { lg with locked := false })

/-- The trace is beside the call. -/
theorem tryreadTraced_eq (lg : MqLog) (offset : Nat) :
    (tryreadTraced lg offset).map Prod.snd = mqlogTryread lg offset := by
  obtain ⟨size, flags, index, locked, segs, dir, calls⟩ := lg
  cases locked with
  | true => rfl
  | false =>
    simp only [tryreadTraced, mqlogTryread, Bool.false_eq_true, if_false, Option.bind_eq_bind,
      Option.pure_def]
    rcases mbptreeLeafFloor index offset with _ | ⟨rc, iterator, index'⟩
    · rfl
    · simp only [Option.bind_some]
      by_cases hrc : rc ≠ 0
      · rw [if_pos hrc, if_pos hrc]
        rfl
      · rw [if_neg hrc, if_neg hrc]
        rcases iterator with _ | iterator
        · rfl
        · simp only [Option.bind_some]
          rcases mbptreeLeafIteratorValid index' iterator with _ | _ | _
          · rfl
          · rfl
          · simp only [Option.bind_some, Bool.true_eq_false, if_false]
            rcases mbptreeLeafIteratorValue index' iterator with _ | addr
            · rfl
            · simp only [Option.bind_some]
              rcases segs.get addr with _ | sgm
              · rfl
              · rfl

/-- The trace is beside the call. -/
theorem writeTraced_eq (page : PageSize) (lg : MqLog) (buf : Buf) :
    (writeTraced page lg buf).map Prod.snd = mqlogWrite page lg buf := by
  rw [writeTraced, mqlogWrite]
  split
  · rfl
  · split
    · rfl
    · rcases mqlogTrywrite page { lg with locked := true } buf with _ | ⟨written, lg'⟩
      · rfl
      · rfl

/-! ## Return codes

  `ELLOCK` is also the code of a lost race in `claim`, which one thread cannot lose. -/

/-- A length is no error code. -/
theorem toSsize_ne_ellock {n : Nat} (h : n < 2 ^ 63) : toSsize n ≠ ELLOCK := by
  rw [toSsize_of_lt h, ELLOCK]
  omega

/-- `ELLOCK` is no error of a file. -/
theorem openFile_ne_ellock {α : Type} {zero : α} {op : FileOp} {size : Nat}
    {file out : Option (File α)} {rc : Int} (h : openFile zero op size file = (out, .error rc)) :
    rc ≠ ELLOCK := by
  have hrc : rc = ELSOFLW ∨ rc = ELFLEOP := by
    cases op with
    | ok =>
      simp only [openFile] at h
      split at h
      · exact .inr (Except.error.inj (congrArg Prod.snd h)).symm
      · cases congrArg Prod.snd h
    | pathTooLong => exact .inl (Except.error.inj (congrArg Prod.snd h)).symm
    | openFails => exact .inr (Except.error.inj (congrArg Prod.snd h)).symm
    | statFails => exact .inr (Except.error.inj (congrArg Prod.snd h)).symm
  rcases hrc with rfl | rfl
  · decide
  · decide

/-- `ELLOCK` is no error of a mapping. -/
theorem mmapHelper_ne_ellock (op : MapOp) (size : Nat) : mmapHelper op size ≠ ELLOCK := by
  cases op with
  | mmapNull => exact (by decide : ELMMAP ≠ ELLOCK)
  | madviseFails => exact (by decide : ELMADV ≠ ELLOCK)
  | ok =>
    rw [mmapHelper]
    split
    · decide
    · decide

/-- `segment_open` takes no lock. -/
theorem segmentOpen_ne_ellock (page : PageSize) (calls : OpenCalls) (files : SegmentFiles)
    (baseOffset size flags : Nat) : (segmentOpen page calls files baseOffset size flags).1 ≠
    ELLOCK := by
  unfold segmentOpen
  split
  · exact (by decide : ELNOPGM ≠ ELLOCK)
  split
  · exact (by decide : ELALLC ≠ ELLOCK)
  dsimp only
  split
  · rename_i hindex
    exact openFile_ne_ellock hindex
  split
  · exact mmapHelper_ne_ellock _ _
  split
  · rename_i hdata
    exact openFile_ne_ellock hdata
  split
  · exact mmapHelper_ne_ellock _ _
  split
  · exact (by decide : ELWOFFS ≠ ELLOCK)
  · exact (by decide : (0 : Int) ≠ ELLOCK)

/-- Without other threads the compare-and-swap of `claim` succeeds. -/
theorem segmentWrite_ne_ellock (sgm : Segment) (buf : Buf) : (segmentWrite sgm buf).1 ≠ ELLOCK := by
  unfold segmentWrite
  split
  · exact (by decide : ELEOS ≠ ELLOCK)
  dsimp only
  split
  · rw [markEos, claim_self]
    exact (by decide : ELEOS ≠ ELLOCK)
  · rw [claim_self]
    exact toSsize_ne_ellock buf.2

/-- A size field is 32 bits wide, so at worst it is 12 too small. -/
theorem framePayloadSize_ne_ellock (m : Nat → UInt8) (hdr : Nat) :
    toSsize (framePayloadSize m hdr) ≠ ELLOCK := by
  have hsize := get32_lt m (hdr + 4)
  have h12 : headerSize = 12 := rfl
  rw [framePayloadSize, hdrSize, toSsize, ELLOCK]
  split
  · omega
  · omega

/-- `segment_read` takes no lock. -/
theorem segmentRead_ne_ellock (sgm : Segment) (relativeOffset : Nat) :
    (segmentRead sgm relativeOffset).1 ≠ ELLOCK := by
  have hnord : ELNORD ≠ ELLOCK := by decide
  unfold segmentRead
  dsimp only
  generalize (if sgm.flags &&& sgmRdcmt = sgmRdcmt then sgm.sOffset.data else sgm.wOffset.data) =
    boundary
  split
  · exact hnord
  split
  · exact hnord
  split
  · exact hnord
  split
  · dsimp only
    exact framePayloadSize_ne_ellock sgm.buffer (sgm.index relativeOffset)
  split
  · exact (by decide : ELEOS ≠ ELLOCK)
  · exact (by decide : ELINVHD ≠ ELLOCK)

/-! ## The lock of the index -/

/-- What `mbptree_leaf_floor` does to the tree: nothing but to its lock, and to the allocator. -/
theorem mbptreeLeafFloor_cases {t t' : Mbptree} {key : Nat} {rc : Int} {it : Option LeafIterator}
    (h : mbptreeLeafFloor t key = some (rc, it, t')) :
    (t.allocs.headD true = false ∧ rc = ELALLC ∧ t' = { t with allocs := t.allocs.tail }) ∨
    (t.allocs.headD true = true ∧ t.lock.exclusiveLock ≠ 0 ∧ rc = ELIDXLK ∧
      t' = { t with allocs := t.allocs.tail }) ∨
    (t.allocs.headD true = true ∧ t.lock.exclusiveLock = 0 ∧ rc = 0 ∧
      t' = { t with lock := floorRelease (floorNew t.lock), allocs := t.allocs.tail }) := by
  obtain ⟨b, lock, root, lastLeaf, heap, allocs⟩ := t
  rw [mbptreeLeafFloor] at h
  split at h
  · rename_i rest hallocs
    obtain rfl : allocs = false :: rest := hallocs
    obtain ⟨rfl, -, rfl⟩ := h
    exact .inl ⟨rfl, rfl, rfl⟩
  · rename_i hallocs
    have hhead : allocs.headD true = true := by
      cases allocs with
      | nil => rfl
      | cons a rest =>
        cases a with
        | false => exact absurd rfl (hallocs rest)
        | true => rfl
    right
    dsimp only at h
    split at h
    · rename_i hlock
      obtain ⟨rfl, -, rfl⟩ := h
      refine .inl ⟨hhead, fun hzero => hlock ?_, rfl, rfl⟩
      obtain ⟨exclusive, shared⟩ := lock
      obtain rfl : exclusive = 0 := hzero
      rfl
    · rename_i hlock
      have hzero : lock.exclusiveLock = 0 := by
        rw [not_not.mp hlock]
        rfl
      simp only [Option.bind_eq_bind, Option.bind_eq_some_iff, Option.pure_def] at h
      obtain ⟨leaf, -, n, -, idx, -, h⟩ := h
      split at h
      · obtain ⟨rfl, -, rfl⟩ := h
        exact .inr ⟨hhead, hzero, rfl, rfl⟩
      · obtain ⟨rfl, -, rfl⟩ := h
        exact .inr ⟨hhead, hzero, rfl, rfl⟩

/-- A search gives back the lock of the index. -/
theorem floorRelease_floorNew_free : floorRelease (floorNew lockFree) = lockFree := by decide

/-- An append that runs gives the lock back. -/
theorem mbptreeAppend_lock {t t' : Mbptree} {key value : Nat} {rc : Int} (hfree : t.lock = lockFree)
    (h : mbptreeAppend t key value = some (rc, t')) : t'.lock = lockFree := by
  rw [mbptreeAppend, if_neg (not_not.mpr hfree)] at h
  simp only [Option.bind_eq_bind, Option.bind_eq_some_iff, Option.pure_def] at h
  obtain ⟨r, -, h⟩ := h
  obtain ⟨-, rfl⟩ := h
  rfl

/-! ## What a call leaves behind -/

/-- Between calls of one thread neither the mutex nor the lock of the index is held. -/
structure Idle (lg : MqLog) : Prop where
  unlocked : lg.locked = false
  free : lg.index.lock = lockFree

/-- The log after a step of a call that returned `rc`: the lock of the index is free, the mutex is
    as it was, and the code is not `ELLOCK`. -/
structure StepOk (lg : MqLog) (rc : Int) (lg' : MqLog) : Prop where
  free : lg'.index.lock = lockFree
  locked_eq : lg'.locked = lg.locked
  rc_ne : rc ≠ ELLOCK

section Steps

variable {page : PageSize} {lg lg' : MqLog} {addr : Nat} {rc : Int} {buf : Buf}

/-- A step that leaves the index alone. -/
theorem SameIndex.stepOk (h : SameIndex lg lg') (hfree : lg.index.lock = lockFree)
    (hrc : rc ≠ ELLOCK) : StepOk lg rc lg' :=
  ⟨by rw [h.index_eq]; exact hfree, h.locked_eq, hrc⟩

/-- One step after the other. -/
theorem StepOk.trans {lg'' : MqLog} {rc' : Int} (h : StepOk lg rc lg') (h' : StepOk lg' rc' lg'') :
    StepOk lg rc' lg'' :=
  ⟨h'.free, h'.locked_eq.trans h.locked_eq, h'.rc_ne⟩

/-- The new segment is closed behind a step. -/
theorem StepOk.close {lg'' : MqLog} {rc' code : Int} (h : StepOk lg rc lg')
    (hclose : closeSegment page lg' addr = some (rc', lg'')) (hcode : code ≠ ELLOCK) :
    StepOk lg code lg'' :=
  h.trans ((closeSegment_cases hclose).1.stepOk h.free hcode)

/-- `segment_write` leaves the index alone. -/
theorem writeSegment_ok (hfree : lg.index.lock = lockFree)
    (h : writeSegment lg addr buf = some (rc, lg')) : StepOk lg rc lg' := by
  obtain ⟨sgm, -, rfl, rfl⟩ := writeSegment_cases h
  exact ⟨hfree, rfl, segmentWrite_ne_ellock sgm buf⟩

/-- `mbptree_append` gives the lock of the index back. -/
theorem indexSegment_ok {written : Int} (hfree : lg.index.lock = lockFree)
    (hwritten : written ≠ ELLOCK) (h : indexSegment page lg addr written = some (rc, lg')) :
    StepOk lg rc lg' := by
  obtain ⟨sgm, code, index, -, happend, hcases⟩ := indexSegment_cases h
  have hindexed : StepOk lg written { lg with index := index } :=
    ⟨mbptreeAppend_lock hfree happend, rfl, hwritten⟩
  rcases hcases with ⟨-, rfl, rfl⟩ | ⟨-, rfl, rc', hclose⟩
  · exact hindexed
  · refine hindexed.close hclose ?_
    split
    · decide
    · decide

/-- A new segment is opened, written to and indexed. -/
theorem startSegment_ok {b : Nat} (hfree : lg.index.lock = lockFree)
    (h : startSegment page lg b buf = some (rc, lg')) : StepOk lg rc lg' := by
  rcases startSegment_cases h with
    hcreate | ⟨code, addr, lg₁, written, lg₂, hcreate, hwrite, hcases⟩
  · obtain ⟨hsame, -, rfl⟩ := openSegment_none hcreate
    exact hsame.stepOk hfree (segmentOpen_ne_ellock _ _ _ _ _ _)
  · have hopen := (openSegment_some hcreate).1.stepOk hfree (show (0 : Int) ≠ ELLOCK by decide)
    have hok := hopen.trans (writeSegment_ok hopen.free hwrite)
    rcases hcases with ⟨-, rfl, rc', hclose⟩ | ⟨-, hindex⟩
    · exact hok.close hclose (by decide)
    · exact hok.trans (indexSegment_ok hok.free hok.rc_ne hindex)

/-- `mqlog_trywrite` behind the lock. -/
theorem mqlogTrywrite_ok (lg : MqLog) (hfree : lg.index.lock = lockFree)
    (h : mqlogTrywrite page lg buf = some (rc, lg')) : StepOk lg rc lg' := by
  rcases mqlogTrywrite_cases h with ⟨-, hstart⟩ | ⟨addr, sgm, -, -, ⟨-, rfl, rfl⟩ | ⟨-, hstart⟩⟩
  · exact startSegment_ok hfree hstart
  · exact ⟨hfree, rfl, segmentWrite_ne_ellock sgm buf⟩
  · have hwritten : StepOk lg 0 { lg with segs := lg.segs.set addr (segmentWrite sgm buf).2 } :=
      ⟨hfree, rfl, by decide⟩
    exact hwritten.trans (startSegment_ok hfree hstart)

/-- A step that leaves the index alone leaves both locks free. -/
theorem SameIndex.idle (h : SameIndex lg lg') (hidle : Idle lg) : Idle lg' :=
  ⟨h.locked_eq.trans hidle.unlocked, by rw [h.index_eq]; exact hidle.free⟩

/-- Loading a segment touches neither lock for good. -/
theorem loadSegment_idle {name : List Char} (hidle : Idle lg)
    (h : loadSegment page lg name = some (rc, lg')) : Idle lg' := by
  rcases loadSegment_cases h with
    ⟨-, hsame, -⟩ | ⟨sgm, lg₁, code, index, hsame, -, -, happend, hcases⟩
  · exact hsame.idle hidle
  · have hidle₁ := hsame.idle hidle
    have hindexed : Idle { lg₁ with index := index } :=
      ⟨hidle₁.unlocked, mbptreeAppend_lock hidle₁.free happend⟩
    rcases hcases with ⟨-, -, rfl⟩ | ⟨-, -, rc', hclose⟩
    · exact hindexed
    · exact (closeSegment_cases hclose).1.idle hindexed

/-- `load_segments` appends to the index, and gives its lock back. -/
theorem loadSegments_idle : ∀ {names : List (List Char)} {lg : MqLog}, Idle lg →
    loadSegments page lg names = some (rc, lg') → Idle lg'
  | [], lg, hidle, h => by
    obtain ⟨-, rfl⟩ := h
    exact hidle
  | name :: names, lg, hidle, h => by
    rw [loadSegments] at h
    split at h
    · simp only [Option.bind_eq_bind, Option.bind_eq_some_iff, Option.pure_def] at h
      obtain ⟨⟨code, lg₁⟩, hload, h⟩ := h
      have hidle₁ := loadSegment_idle hidle hload
      split at h
      · obtain ⟨-, rfl⟩ := h
        exact hidle₁
      · exact loadSegments_idle hidle₁ h
    · exact loadSegments_idle hidle h

end Steps

/-- A new index is not locked. -/
theorem mbptreeInit_lock {b : Nat} {allocs : List Bool} {t : Mbptree}
    (h : mbptreeInit b allocs = some t) : t.lock = lockFree := by
  unfold mbptreeInit mbptreeCreateLeaf Mbptree.calloc at h
  split at h
  · cases h
  · dsimp only at h
    split at h
    · cases h
    · rename_i hleaf
      obtain rfl := Option.some.inj h
      split at hleaf
      · obtain ⟨-, rfl⟩ := hleaf
        rfl
      · obtain ⟨-, rfl⟩ := hleaf
        rfl

/-- A log that has just been opened. -/
theorem mqlogOpen_idle {page : PageSize} {calls : LogCalls} {dir dir' : Dir}
    {names : List (List Char)} {size flags : Nat} {rc : Int} {lg : MqLog}
    (h : mqlogOpen page calls dir names size flags = some (rc, some lg, dir')) : Idle lg := by
  rw [mqlogOpen] at h
  split at h
  · cases h
  split at h
  · cases h
  split at h
  · cases h
  split at h
  · cases h
  · rename_i index hinit
    simp only [Option.bind_eq_bind, Option.pure_def] at h
    split at h
    · simp only [Option.bind_eq_some_iff] at h
      obtain ⟨r, -, h⟩ := h
      cases h
    · simp only [Option.bind_eq_some_iff] at h
      obtain ⟨⟨code, lg'⟩, hload, h⟩ := h
      split at h
      · simp only [Option.bind_eq_some_iff] at h
        obtain ⟨r, -, h⟩ := h
        cases h
      · cases h
        exact loadSegments_idle ⟨rfl, mbptreeInit_lock hinit⟩ hload

/-! ## Calls -/

/-- A call on an open log. -/
inductive MqlogCall where
  | write (buf : Buf)
  | read (offset : Nat)
  | sync

/-- One call: what it does to the mutex, what it returns, and the log afterwards. -/
def mqlogCall (page : PageSize) (lg : MqLog) : MqlogCall → Option (List MutexOp × Int × MqLog)
  | .write buf => writeTraced page lg buf
  | .read offset => do
    let (ops, rc, _, lg) ← tryreadTraced lg offset
    pure (ops, rc, lg)
  | .sync => do
    let (rc, lg) ← mqlogSync page lg
    pure ([], rc, lg)

/-- One call of the log, without what it returns. -/
def mqlogStep (page : PageSize) (lg : MqLog) (c : MqlogCall) : Option MqLog :=
  (mqlogCall page lg c).map fun r => r.2.2

/-- A read or write that acquires the mutex has released it exactly once when it returns, and is not
    turned away with `ELLOCK`. -/
def Released (page : PageSize) (lg : MqLog) (c : MqlogCall) : Prop :=
  c ≠ .sync → ∀ ops rc lg', mqlogCall page lg c = some (ops, rc, lg') →
    (.acquired ∈ ops → ops.count .released = 1) ∧ rc ≠ ELLOCK

/-- A read gets the memory for its iterator. -/
def GetsIterator (lg : MqLog) : MqlogCall → Prop
  | .read _ => lg.index.allocs.headD true = true
  | _ => True

section Calls

variable {page : PageSize} {lg lg' : MqLog} {ops : List MutexOp} {rc : Int}

/-- A read searches the index, and leaves everything else but the mutex as it was. -/
theorem tryreadTraced_log {offset : Nat} {fr : Option (Nat × Frame)}
    (h : tryreadTraced lg offset = some (ops, rc, fr, lg')) :
    lg' = lg ∨ ∃ code it index locked, mbptreeLeafFloor lg.index offset = some (code, it, index) ∧
      lg' = { lg with index := index, locked := locked } := by
  rw [tryreadTraced] at h
  split at h
  · cases h
    exact .inl rfl
  simp only [Option.bind_eq_bind, Option.bind_eq_some_iff, Option.pure_def] at h
  obtain ⟨⟨code, it, index⟩, hfloor, h⟩ := h
  refine .inr ⟨code, it, index, ?_⟩
  split at h
  · cases h
    exact ⟨_, hfloor, rfl⟩
  · simp only [Option.bind_eq_some_iff] at h
    obtain ⟨it', -, valid, -, h⟩ := h
    split at h
    · cases h
      exact ⟨_, hfloor, rfl⟩
    · simp only [Option.bind_eq_some_iff] at h
      obtain ⟨addr, -, sgm, -, h⟩ := h
      cases h
      exact ⟨_, hfloor, rfl⟩

/-- **What a call does to the log.** -/
theorem mqlogStep_cases {c : MqlogCall} (h : mqlogStep page lg c = some lg') :
    lg' = lg ∨
    (∃ buf rc lg₁, c = .write buf ∧ buf.1.length ≠ 0 ∧ lg.locked = false ∧
      mqlogTrywrite page { lg with locked := true } buf = some (rc, lg₁) ∧
      lg' = { lg₁ with locked := false }) ∨
    (∃ offset code it index locked, mbptreeLeafFloor lg.index offset = some (code, it, index) ∧
      lg' = { lg with index := index, locked := locked }) ∨
    ∃ rc, mqlogSync page lg = some (rc, lg') := by
  rw [mqlogStep, Option.map_eq_some_iff] at h
  obtain ⟨⟨ops, rc, lg₁⟩, hcall, rfl⟩ := h
  cases c with
  | write buf =>
    rw [mqlogCall, writeTraced] at hcall
    split at hcall
    · cases hcall
      exact .inl rfl
    rename_i hempty
    split at hcall
    · cases hcall
      exact .inl rfl
    rename_i hlocked
    simp only [Option.bind_eq_bind, Option.bind_eq_some_iff, Option.pure_def] at hcall
    obtain ⟨⟨written, lg₂⟩, htry, hcall⟩ := hcall
    cases hcall
    exact .inr (.inl ⟨buf, _, lg₂, rfl, hempty, Bool.eq_false_iff.mpr hlocked, htry, rfl⟩)
  | read offset =>
    simp only [mqlogCall, Option.bind_eq_bind, Option.bind_eq_some_iff, Option.pure_def] at hcall
    obtain ⟨⟨ops', rc', fr, lg₂⟩, hread, hcall⟩ := hcall
    cases hcall
    rcases tryreadTraced_log hread with heq | hfloor
    · exact .inl heq
    · exact .inr (.inr (.inl ⟨offset, hfloor⟩))
  | sync =>
    simp only [mqlogCall, Option.bind_eq_bind, Option.bind_eq_some_iff, Option.pure_def] at hcall
    obtain ⟨⟨rc', lg₂⟩, hsync, hcall⟩ := hcall
    cases hcall
    exact .inr (.inr (.inr ⟨_, hsync⟩))

/-- **A write releases what it acquires**, on every path. -/
theorem writeTraced_cases {buf : Buf} (hidle : Idle lg)
    (h : writeTraced page lg buf = some (ops, rc, lg')) :
    (ops = [] ∨ ops = [.acquired, .released]) ∧ rc ≠ ELLOCK ∧ Idle lg' := by
  rw [writeTraced] at h
  split at h
  · obtain ⟨rfl, rfl, rfl⟩ := h
    exact ⟨.inl rfl, by decide, hidle⟩
  split at h
  · rename_i hlocked
    rw [hidle.unlocked] at hlocked
    exact absurd hlocked Bool.false_ne_true
  · simp only [Option.bind_eq_bind, Option.bind_eq_some_iff, Option.pure_def] at h
    obtain ⟨⟨written, lg₁⟩, htry, h⟩ := h
    have hok := mqlogTrywrite_ok { lg with locked := true } hidle.free htry
    obtain ⟨rfl, rfl, rfl⟩ := h
    exact ⟨.inr rfl, hok.rc_ne, rfl, hok.free⟩

/-- A read releases what it acquires when it gets its iterator. -/
theorem tryreadTraced_cases {offset : Nat} {fr : Option (Nat × Frame)} (hidle : Idle lg)
    (hiterator : lg.index.allocs.headD true = true)
    (h : tryreadTraced lg offset = some (ops, rc, fr, lg')) :
    ops = [.acquired, .released] ∧ rc ≠ ELLOCK ∧ Idle lg' := by
  rw [tryreadTraced, if_neg (by rw [hidle.unlocked]; exact Bool.false_ne_true)] at h
  simp only [Option.bind_eq_bind, Option.bind_eq_some_iff, Option.pure_def] at h
  obtain ⟨⟨code, iterator, index⟩, hfloor, h⟩ := h
  have hzero : lg.index.lock.exclusiveLock = 0 := by
    rw [hidle.free]
    rfl
  obtain ⟨hfail, -, -⟩ | ⟨-, hlocked, -, -⟩ | ⟨-, -, rfl, rfl⟩ := mbptreeLeafFloor_cases hfloor
  · rw [hiterator] at hfail
    exact absurd hfail.symm Bool.false_ne_true
  · exact absurd hzero hlocked
  · have hfree : floorRelease (floorNew lg.index.lock) = lockFree := by
      rw [hidle.free]
      decide
    rw [if_neg (not_not.mpr rfl)] at h
    simp only [Option.bind_eq_some_iff] at h
    obtain ⟨it, -, valid, -, h⟩ := h
    split at h
    · obtain ⟨rfl, rfl, -, rfl⟩ := h
      exact ⟨rfl, by decide, rfl, hfree⟩
    · simp only [Option.bind_eq_some_iff] at h
      obtain ⟨addr, -, sgm, -, h⟩ := h
      obtain ⟨rfl, rfl, -, rfl⟩ := h
      exact ⟨rfl, segmentRead_ne_ellock _ _, rfl, hfree⟩

/-- **A read without memory for its iterator keeps the mutex.** -/
theorem tryreadTraced_without_iterator (offset : Nat) (hidle : Idle lg)
    (hiterator : ¬ lg.index.allocs.headD true = true) :
    tryreadTraced lg offset = some ([.acquired], ELALLC, none,
      { lg with locked := true, index := { lg.index with allocs := lg.index.allocs.tail } }) := by
  obtain ⟨size, flags, ⟨b, lock, root, lastLeaf, heap, allocs⟩, locked, segs, dir, calls⟩ := lg
  obtain rfl : locked = false := hidle.unlocked
  rcases allocs with _ | ⟨_ | _, allocs⟩
  · exact absurd rfl hiterator
  · rfl
  · exact absurd rfl hiterator

/-- `mqlog_sync` searches the index, and gives its lock back. -/
theorem mqlogSync_idle (hidle : Idle lg) (h : mqlogSync page lg = some (rc, lg')) : Idle lg' := by
  rcases mqlogSync_cases h with rfl | ⟨addr, sgm, msyncs, -, hsame, -⟩
  · exact hidle
  · exact hsame.idle hidle

/-- The step lemma: a call that gets its iterator leaves both locks free. -/
theorem mqlogStep_idle {c : MqlogCall} (hidle : Idle lg) (hiterator : GetsIterator lg c)
    (h : mqlogStep page lg c = some lg') : Idle lg' := by
  rw [mqlogStep, Option.map_eq_some_iff] at h
  obtain ⟨⟨ops, rc, lg''⟩, hcall, rfl⟩ := h
  cases c with
  | write buf => exact (writeTraced_cases hidle hcall).2.2
  | read offset =>
    simp only [mqlogCall, Option.bind_eq_bind, Option.bind_eq_some_iff, Option.pure_def] at hcall
    obtain ⟨⟨ops', rc', fr, lg₁⟩, hread, hcall⟩ := hcall
    obtain ⟨rfl, rfl, rfl⟩ := hcall
    exact (tryreadTraced_cases hidle hiterator hread).2.2
  | sync =>
    simp only [mqlogCall, Option.bind_eq_bind, Option.bind_eq_some_iff, Option.pure_def] at hcall
    obtain ⟨⟨rc', lg₁⟩, hsync, hcall⟩ := hcall
    obtain ⟨-, -, rfl⟩ := hcall
    exact mqlogSync_idle hidle hsync

/-- A call releases the mutex exactly when it gets an iterator, if it wants one. -/
theorem released_iff_getsIterator (hidle : Idle lg) (c : MqlogCall) :
    Released page lg c ↔ GetsIterator lg c := by
  have hboth : List.count MutexOp.released [.acquired, .released] = 1 := by decide
  constructor
  · intro hreleased
    cases c with
    | write buf => exact trivial
    | sync => exact trivial
    | read offset =>
      show lg.index.allocs.headD true = true
      by_contra hiterator
      have hread := tryreadTraced_without_iterator offset hidle hiterator
      have hcall : mqlogCall page lg (.read offset) = some ([.acquired], ELALLC,
          { lg with locked := true, index := { lg.index with
              allocs := lg.index.allocs.tail } }) := by
        rw [mqlogCall, hread]
        rfl
      have hcount := (hreleased (fun heq => by cases heq) _ _ _ hcall).1 (List.mem_singleton_self _)
      exact absurd hcount (by decide)
  · intro hiterator hsync ops rc lg' hcall
    cases c with
    | write buf =>
      obtain ⟨rfl | rfl, hrc, -⟩ := writeTraced_cases hidle hcall
      · exact ⟨fun hmem => absurd hmem List.not_mem_nil, hrc⟩
      · exact ⟨fun _ => hboth, hrc⟩
    | read offset =>
      simp only [mqlogCall, Option.bind_eq_bind, Option.bind_eq_some_iff, Option.pure_def] at hcall
      obtain ⟨⟨ops', rc', fr, lg₁⟩, hread, hcall⟩ := hcall
      obtain ⟨rfl, rfl, rfl⟩ := hcall
      obtain ⟨rfl, hrc, -⟩ := tryreadTraced_cases hidle hiterator hread
      exact ⟨fun _ => hboth, hrc⟩
    | sync => exact absurd rfl hsync

end Calls

/-! ## Runs -/

/-- **The mutex is released in a run of calls on an open log exactly when every read gets the memory
    for its iterator.** -/
theorem mutex_released_iff {page : PageSize} {calls : LogCalls} {dir dir' : Dir}
    {names : List (List Char)} {size flags : Nat} {rc : Int} {lg : MqLog}
    (hopen : mqlogOpen page calls dir names size flags = some (rc, some lg, dir'))
    (cs : List MqlogCall) :
    Along (mqlogStep page) (Released page) lg cs ↔ Along (mqlogStep page) GetsIterator lg cs := by
  have hidle := mqlogOpen_idle hopen
  constructor
  · intro hreleased
    exact Along.imp (fun _ c hidle => (released_iff_getsIterator hidle c).mp)
      (fun _ _ _ hiterator hidle => mqlogStep_idle hidle hiterator) cs lg hidle hreleased
  · intro hiterator
    refine Along.imp (fun _ c hidle => (released_iff_getsIterator hidle c).mpr) ?_ cs lg hidle
      hiterator
    intro lg c lg' hreleased hidle
    exact mqlogStep_idle hidle ((released_iff_getsIterator hidle c).mp hreleased)

/-- A write, a read and a sync on a log in an empty directory. -/
theorem mutex_released_of_three :
    ∃ lg, mqlogOpen page4096 .ok Dir.empty [] 4096 mqlogRddrt = some (0, some lg, Dir.empty) ∧
      (Along (mqlogStep page4096) (Released page4096) lg
          [.write (bytes 1 0x61 (by decide)), .read 0, .sync] ↔
        Along (mqlogStep page4096) GetsIterator lg
          [.write (bytes 1 0x61 (by decide)), .read 0, .sync]) := by
  have hopen : mqlogOpen page4096 .ok Dir.empty [] 4096 mqlogRddrt = some (0, some _, Dir.empty) :=
    rfl
  exact ⟨_, hopen, mutex_released_iff hopen _⟩

/-- The `calloc`s of the tree and its first leaf succeed, that of the first iterator does not: the
    read keeps the mutex, and the write behind it is turned away. -/
theorem mutex_kept_without_iterator :
    ∃ lg lg', mqlogOpen page4096 { LogCalls.ok with allocs := [true, true, false] } Dir.empty
      [] 4096
        mqlogRddrt = some (0, some lg, Dir.empty) ∧
      mqlogCall page4096 lg (.read 0) = some ([.acquired], ELALLC, lg') ∧
      ¬ Released page4096 lg (.read 0) ∧
      mqlogCall page4096 lg' (.write (bytes 1 0x61 (by decide))) = some ([.busy], ELLOCK, lg') := by
  refine ⟨_, _, rfl, rfl, fun hreleased => ?_, rfl⟩
  have hcount := (hreleased (fun heq => by cases heq) _ _ _ rfl).1 (List.mem_singleton_self _)
  exact absurd hcount (by decide)

end Mqlog
