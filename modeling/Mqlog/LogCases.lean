/-
  What the functions of the log can do, case by case.

  Every invariant of the log is about the same few events: a segment is opened at a new address, is
  written to, is added to the index, is synced or is closed.  The lemmas of this file take the
  functions apart into these events; what an invariant has to say about them it says once.

  A write that needs a new segment ends in the same way whether the log has segments or not
  (`startSegment`), so `mqlog_trywrite` has three cases (`mqlogTrywrite_cases`):

    * the last segment takes the message, or refuses it with something else than `ELEOS`;
    * the last segment has no capacity left, and a new one starts at its write offset;
    * there is no segment yet, and one starts at offset 0.

  `mqlog_sync` does nothing or syncs the last segment (`mqlogSync_cases`), and loading a file opens
  a segment or not, which is then in the index or closed again (`loadSegment_cases`).

  The cases say what changes as an equation, and what does not change with `SameIndex` (neither the
  index nor the mutex) or by naming the fields.  They hold for all outcomes of the system calls: the
  failures are cases like the others.  An invariant about the index (`LogIndex`), about the mutex
  (`LogMutex`) or about what is closed (`LogWalk`) is then a few lines for each case, and none of
  them unfolds a function of `Log`.
-/
import Mqlog.Log
import Mqlog.SegmentReach

namespace Mqlog

open Lib

/-- Neither the index nor the mutex is touched. -/
structure SameIndex (lg lg' : MqLog) : Prop where
  index_eq : lg'.index = lg.index
  locked_eq : lg'.locked = lg.locked

/-- The flags of a new segment. -/
def createFlags (lg : MqLog) : Nat :=
  if lg.flags &&& mqlogRdcmt = mqlogRdcmt then sgmRdcmt else sgmRddrt

theorem createSegment_flags (page : PageSize) (lg : MqLog) (b : Nat) :
    createSegment page lg b = openSegment page lg b (lg.size % 2 ^ 32) (createFlags lg) := rfl

/-- Creating a segment and writing to it. -/
def startSegment (page : PageSize) (lg : MqLog) (b : Nat) (buf : Buf) : Option (Int × MqLog) :=
  match createSegment page lg b with
  | (rc, none, lg) => some (rc, lg)
  | (_, some addr, lg) => mqlogTrywriteTo page lg addr true buf

theorem segmentWrite_baseOffset (sgm : Segment) (buf : Buf) :
    (segmentWrite sgm buf).2.baseOffset = sgm.baseOffset := by
  unfold segmentWrite
  split
  · rfl
  dsimp only
  split
  · rw [markEos, claim_self]
    rfl
  · rw [claim_self]
    rfl

theorem segmentOpen_baseOffset {page : PageSize} {calls : OpenCalls} {files files' : SegmentFiles}
    {b size flags : Nat} {rc : Int} {sgm : Segment}
    (h : segmentOpen page calls files b size flags = (rc, some sgm, files')) :
    sgm.baseOffset = b := by
  obtain ⟨-, -, -, data, index, w, -, -, -, rfl⟩ := segmentOpen_some h
  rfl

section Cases

variable {page : PageSize} {lg lg' : MqLog} {addr b size flags : Nat} {rc : Int} {buf : Buf}

/-! ## Calls on segments -/

theorem openSegment_none (h : openSegment page lg b size flags = (rc, none, lg')) :
    SameIndex lg lg' ∧ lg'.segs = lg.segs ∧ rc =
      (segmentOpen page (lg.calls.opens.headD OpenCalls.ok) (lg.dir.files b) b size flags).1 := by
  rw [openSegment] at h
  dsimp only at h
  split at h
  · cases h
    exact ⟨⟨rfl, rfl⟩, rfl, rfl⟩
  · cases h

/-- A new segment has a new address. -/
theorem openSegment_some (h : openSegment page lg b size flags = (rc, some addr, lg')) :
    SameIndex lg lg' ∧ addr = lg.segs.next ∧ ∃ sgm files,
      segmentOpen page (lg.calls.opens.headD OpenCalls.ok) (lg.dir.files b) b size flags =
        (rc, some sgm, files) ∧ lg'.segs = lg.segs.alloc sgm := by
  rw [openSegment] at h
  rcases hopen : segmentOpen page (lg.calls.opens.headD OpenCalls.ok) (lg.dir.files b) b size flags
    with ⟨code, _ | sgm, files⟩
  · simp only [hopen] at h
    cases h
  · simp only [hopen] at h
    cases h
    exact ⟨⟨rfl, rfl⟩, rfl, sgm, files, rfl, rfl⟩

theorem writeSegment_cases (h : writeSegment lg addr buf = some (rc, lg')) :
    ∃ sgm, lg.segs.get addr = some sgm ∧ rc = (segmentWrite sgm buf).1 ∧
      lg' = { lg with segs := lg.segs.set addr (segmentWrite sgm buf).2 } := by
  simp only [writeSegment, Option.bind_eq_bind, Option.bind_eq_some_iff, Option.pure_def] at h
  obtain ⟨sgm, hget, h⟩ := h
  cases h
  exact ⟨sgm, hget, rfl, rfl⟩

/-- What closing a segment leaves alone. -/
theorem closeSegment_cases (h : closeSegment page lg addr = some (rc, lg')) :
    SameIndex lg lg' ∧ ∀ a, a ≠ addr → lg'.segs.get a = lg.segs.get a := by
  simp only [closeSegment, Option.bind_eq_bind, Option.bind_eq_some_iff, Option.pure_def] at h
  obtain ⟨sgm, -, h⟩ := h
  split at h
  · cases h
    exact ⟨⟨rfl, rfl⟩, fun a ha => Heap.get_set_of_ne ha⟩
  · cases h
    exact ⟨⟨rfl, rfl⟩, fun a ha => if_neg ha⟩

/-- An append to the index either succeeds or the new segment is closed. -/
theorem indexSegment_cases {written : Int}
    (h : indexSegment page lg addr written = some (rc, lg')) :
    ∃ sgm code index, lg.segs.get addr = some sgm ∧
      mbptreeAppend lg.index sgm.baseOffset addr = some (code, index) ∧
      (code = 0 ∧ rc = written ∧ lg' = { lg with index := index } ∨
        code ≠ 0 ∧ rc = (if code = ELIDXPC then ELIDXPC else ELIDXOP) ∧
          ∃ rc', closeSegment page { lg with index := index } addr = some (rc', lg')) := by
  simp only [indexSegment, Option.bind_eq_bind, Option.bind_eq_some_iff, Option.pure_def] at h
  obtain ⟨sgm, hget, ⟨code, index⟩, happend, h⟩ := h
  refine ⟨sgm, code, index, hget, happend, ?_⟩
  split at h
  · rename_i hcode
    have hcode' : code = ELIDXPC := hcode
    subst hcode'
    simp only [Option.bind_eq_some_iff] at h
    obtain ⟨⟨rc', lg₁⟩, hclose, h⟩ := h
    cases h
    exact .inr ⟨by decide, (if_pos rfl).symm, rc', hclose⟩
  split at h
  · rename_i hcode hne
    simp only [Option.bind_eq_some_iff] at h
    obtain ⟨⟨rc', lg₁⟩, hclose, h⟩ := h
    cases h
    exact .inr ⟨hne, (if_neg hcode).symm, rc', hclose⟩
  · rename_i hzero
    cases h
    exact .inl ⟨not_not.mp hzero, rfl, rfl⟩

/-! ## Writing -/

/-- **A write to a new segment**: there is none, it refuses the payload and is closed, or it is
    added to the index. -/
theorem startSegment_cases (h : startSegment page lg b buf = some (rc, lg')) :
    createSegment page lg b = (rc, none, lg') ∨
    ∃ code addr lg₁ written lg₂, createSegment page lg b = (code, some addr, lg₁) ∧
      writeSegment lg₁ addr buf = some (written, lg₂) ∧
      (written = ELEOS ∧ rc = ELNOWCP ∧ (∃ rc', closeSegment page lg₂ addr = some (rc', lg')) ∨
        written ≠ ELEOS ∧ indexSegment page lg₂ addr written = some (rc, lg')) := by
  rw [startSegment] at h
  split at h
  · rename_i hcreate
    cases h
    exact .inl hcreate
  · rename_i hcreate
    simp only [mqlogTrywriteTo, Option.bind_eq_bind, Option.bind_eq_some_iff, Option.pure_def] at h
    obtain ⟨⟨written, lg₂⟩, hwrite, h⟩ := h
    refine .inr ⟨_, _, _, written, lg₂, hcreate, hwrite, ?_⟩
    by_cases heos : written = ELEOS
    · rw [if_pos ⟨heos, trivial⟩, Option.bind_eq_some_iff] at h
      obtain ⟨⟨rc', lg₃⟩, hclose, h⟩ := h
      cases h
      exact .inl ⟨heos, rfl, rc', hclose⟩
    · rw [if_neg fun hand => heos hand.1, if_neg heos, if_pos trivial] at h
      exact .inr ⟨heos, h⟩

theorem mqlogTrywriteNext_eq {sgm : Segment} (hget : lg.segs.get addr = some sgm) :
    mqlogTrywriteNext page lg addr buf = startSegment page lg (segmentWriteOffset sgm) buf := by
  rw [mqlogTrywriteNext, hget, startSegment]
  simp only [Option.bind_eq_bind, Option.bind_some]
  rcases createSegment page lg (segmentWriteOffset sgm) with ⟨rc, _ | addr', lg'⟩
  · rfl
  · simp only [mqlogTrywriteTo, Option.bind_eq_bind, and_true, if_true]
    congr 1
    funext r
    by_cases hr : r.1 = ELEOS
    · rw [if_pos hr, if_pos hr]
    · rw [if_neg hr, if_neg hr, if_neg hr]

/-- **What `mqlog_trywrite` can do**: the last segment takes the payload, or a new one is started
    behind it, or there is no segment yet and one is started at 0. -/
theorem mqlogTrywrite_cases (h : mqlogTrywrite page lg buf = some (rc, lg')) :
    (mbptreeLastValue lg.index = some none ∧ startSegment page lg 0 buf = some (rc, lg')) ∨
    ∃ addr sgm, mbptreeLastValue lg.index = some (some addr) ∧ lg.segs.get addr = some sgm ∧
      ((segmentWrite sgm buf).1 ≠ ELEOS ∧ rc = (segmentWrite sgm buf).1 ∧
          lg' = { lg with segs := lg.segs.set addr (segmentWrite sgm buf).2 } ∨
        (segmentWrite sgm buf).1 = ELEOS ∧
          startSegment page { lg with segs := lg.segs.set addr (segmentWrite sgm buf).2 }
            (segmentWriteOffset (segmentWrite sgm buf).2) buf = some (rc, lg')) := by
  simp only [mqlogTrywrite, Option.bind_eq_bind, Option.bind_eq_some_iff] at h
  obtain ⟨value, hvalue, h⟩ := h
  cases value with
  | none => exact .inl ⟨hvalue, h⟩
  | some addr =>
    simp only [mqlogTrywriteTo, Option.bind_eq_bind, Option.bind_eq_some_iff, Option.pure_def,
      Bool.false_eq_true, and_false, if_false] at h
    obtain ⟨⟨written, lg₁⟩, hwrite, h⟩ := h
    obtain ⟨sgm, hget, hwritten, rfl⟩ := writeSegment_cases hwrite
    refine .inr ⟨addr, sgm, hvalue, hget, ?_⟩
    rw [← hwritten]
    split at h
    · rename_i heos
      rw [mqlogTrywriteNext_eq (Heap.get_set_self hget)] at h
      exact .inr ⟨heos, h⟩
    · rename_i hne
      cases h
      exact .inl ⟨hne, rfl, rfl⟩

/-! ## Syncing -/

/-- `mqlog_sync` does nothing, or it is `segment_sync` of the last segment. -/
theorem mqlogSync_cases (h : mqlogSync page lg = some (rc, lg')) :
    lg' = lg ∨ ∃ addr sgm msyncs, lg.segs.get addr = some sgm ∧ SameIndex lg lg' ∧
      lg'.segs = lg.segs.set addr (segmentSync page msyncs sgm).2 := by
  simp only [mqlogSync, Option.bind_eq_bind, Option.bind_eq_some_iff, Option.pure_def] at h
  obtain ⟨value, -, h⟩ := h
  cases value with
  | none =>
    cases h
    exact .inl rfl
  | some addr =>
    simp only [syncSegment, Option.bind_eq_bind, Option.bind_eq_some_iff, Option.pure_def] at h
    obtain ⟨sgm, hget, h⟩ := h
    cases h
    exact .inr ⟨addr, sgm, _, hget, ⟨rfl, rfl⟩, rfl⟩

/-! ## Loading -/

/-- **What loading a file can do**: it cannot be opened as a segment, or the segment is added to the
    index, or it is closed again. -/
theorem loadSegment_cases {name : List Char} (h : loadSegment page lg name = some (rc, lg')) :
    (rc = ELLDSGM ∧ SameIndex lg lg' ∧ lg'.segs = lg.segs) ∨
    ∃ sgm lg₁ code index, SameIndex lg lg₁ ∧ lg₁.segs = lg.segs.alloc sgm ∧
      sgm.baseOffset = strtoll name ∧
      mbptreeAppend lg₁.index (strtoll name) lg.segs.next = some (code, index) ∧
      (code = 0 ∧ rc = 0 ∧ lg' = { lg₁ with index := index } ∨
        code ≠ 0 ∧ rc = (if code = ELIDXPC then ELIDXPC else ELLDSGM) ∧
          ∃ rc', closeSegment page { lg₁ with index := index } lg.segs.next = some (rc', lg')) := by
  rw [loadSegment] at h
  dsimp only at h
  split at h
  · cases h
    exact .inl ⟨rfl, ⟨rfl, rfl⟩, rfl⟩
  split at h
  · rename_i hopen
    cases h
    obtain ⟨⟨hindex, hlocked⟩, hsegs, -⟩ := openSegment_none hopen
    exact .inl ⟨rfl, ⟨hindex, hlocked⟩, hsegs⟩
  · rename_i addr lg₁ hopen
    obtain ⟨⟨hindex, hlocked⟩, rfl, sgm, files, hnew, hsegs⟩ := openSegment_some hopen
    simp only [Option.bind_eq_bind, Option.bind_eq_some_iff, Option.pure_def] at h
    obtain ⟨⟨code, index⟩, happend, h⟩ := h
    refine .inr ⟨sgm, lg₁, code, index, ⟨hindex, hlocked⟩, hsegs, segmentOpen_baseOffset hnew,
      happend, ?_⟩
    split at h
    · rename_i hcode
      have hcode' : code = ELIDXPC := hcode
      subst hcode'
      simp only [Option.bind_eq_some_iff] at h
      obtain ⟨⟨rc', lg₂⟩, hclose, h⟩ := h
      cases h
      exact .inr ⟨by decide, (if_pos rfl).symm, rc', hclose⟩
    split at h
    · rename_i hcode hne
      simp only [Option.bind_eq_some_iff] at h
      obtain ⟨⟨rc', lg₂⟩, hclose, h⟩ := h
      cases h
      exact .inr ⟨hne, (if_neg hcode).symm, rc', hclose⟩
    · rename_i hzero
      cases h
      exact .inl ⟨not_not.mp hzero, rfl, rfl⟩

end Cases

end Mqlog
