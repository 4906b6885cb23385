/-
  Threads on one log: `mqlog_write` and `mqlog_read`, step by step.

  A step is one of these:

    * a call of `pthread_mutex_trylock`, which fails when another thread holds the mutex, or of
      `pthread_mutex_unlock`; the return of a call is a step of its own, behind the unlock, so that
      a message is in the log before its writer hears of it, and others may go on in between;
    * one system call of `segment_open` (`openStep`), so that a kill finds the files as they are on
      the way;
    * one access of `segment_write` or `segment_read` to shared memory (`segStep`), so that the
      readers of a segment, which hold no mutex, run in between the stores of its writer;
    * one whole call of `mbptree_last_value`, `mbptree_append`, `mbptree_leaf_floor` or an iterator
      function, of `segment_close`, or of a function that reads a field which no other thread
      writes.

  The calls of the last kind are made by the holder of the mutex, but for one: `mqlog_read` gives
  the mutex up before it uses the iterator, so that the entry under it is read in a step of its own,
  before or after what the next writer appends to the leaf.

  The functions of `mqlog.c` are cut at these points (`LogPc`).  A thread in `mqlog_write` is at

      lockWrite, lastValue, writing ..., unlockWrite, returning

  when the last segment has room, where `writing` stands for as many steps as `segment_write` makes
  accesses.  When the segment is full, or when there is none, it makes a new one before the unlock:

      writeOffset, create ..., writing ..., indexing

  and `closing` when that fails.  A thread in `mqlog_read` is at

      lockRead, floor, unlockRead, value, reading ..., returning

  The segments are numbered in the order in which they are created; the number stands for the
  address.  A segment that was closed keeps its place, no call on it follows.

  An access to an entry behind the end of the index file is no step (`SegPc.beyond`).  The part of
  the last mapped page that the file does not reach is lost when the page is written back, and
  behind that page there is something else, or nothing.  So a run ends where a thread would make
  such an access.

  Beside what the code keeps, the state has two histories: `appended`, the messages whose writers
  have given the mutex up, and `returned`, what all calls have returned.  What the code keeps never
  depends on them.  Allocations and file operations succeed, and no thread syncs or closes the log.
-/
import Mqlog.Log
import Mqlog.SegmentCreate
import Mqlog.SegmentRoles

namespace Mqlog

/-! ## The system -/

/-- What a call has returned.  A write that was accepted has a number: that of its message.  A read
    remembers how many messages were appended when it was called. -/
inductive LogReturned where
  | write (buf : Buf) (rc : Int) (number : Option Nat)
  | read (offset known : Nat) (rc : Int) (fr : Option (Nat × Frame))

/-- The number of the message that a call has written. -/
def LogReturned.number : LogReturned → Option Nat
  | .write _ _ number => number
  | .read _ _ _ _ => none

/-- The next step of a thread. -/
inductive LogPc where
  /-- None: the thread is in neither function. -/
  | idle
  /-- `mqlog_write` takes the mutex. -/
  | lockWrite (buf : Buf)
  /-- `mbptree_last_value` in `mqlog_trywrite`. -/
  | lastValue (buf : Buf)
  /-- In `segment_open`, called by `create_segment`. -/
  | create (pc : OpenPc) (baseOffset : Nat) (buf : Buf)
  /-- In `segment_write`. -/
  | writing (addr : Nat) (newSegment : Bool) (buf : Buf)
  /-- `segment_write_offset` of the segment that has no capacity left. -/
  | writeOffset (addr : Nat) (buf : Buf)
  /-- `segment_base_offset` and `mbptree_append`. -/
  | indexing (addr : Nat) (buf : Buf) (written : Int)
  /-- `segment_close`, before `mqlog_trywrite` returns `rc`. -/
  | closing (addr : Nat) (buf : Buf) (rc : Int)
  /-- `mqlog_write` gives the mutex up. -/
  | unlockWrite (buf : Buf) (rc : Int)
  /-- `mqlog_read` takes the mutex. -/
  | lockRead (offset known : Nat)
  /-- `mbptree_leaf_floor`. -/
  | floor (offset known : Nat)
  /-- `mbptree_leaf_iterator_valid`; `mqlog_read` gives the mutex up. -/
  | unlockRead (offset known : Nat) (iterator : LeafIterator)
  /-- `mbptree_leaf_iterator_value` and `segment_base_offset`, without the mutex. -/
  | value (offset known : Nat) (iterator : LeafIterator)
  /-- In `segment_read`. -/
  | reading (offset known addr : Nat)
  /-- The call returns. -/
  | returning (r : LogReturned)

/-- `struct mqlog`, its segments with the threads in them, the directory, the threads of the log,
    and the two histories. -/
structure LogState where
  size : Nat
  flags : Nat
  index : Mbptree
  locked : Bool
  segs : List SegState
  dir : Dir
  threads : List LogPc
  appended : List Buf
  returned : List LogReturned

/-- A thread calls one of the functions, or makes its next step. -/
inductive LogAct where
  | write (buf : Buf)
  | read (offset : Nat)
  | access
deriving DecidableEq

/-- The next access is to an entry of the index that is behind the first `entries`. -/
def SegPc.beyond (entries : Nat) : SegPc → Bool
  | .storing _ (.index i _ :: _) => entries ≤ i
  | .entry relativeOffset _ => entries ≤ relativeOffset
  | _ => false

/-- The next access of thread `k` is behind the end of the index file. -/
def SegState.beyond (g : SegState) (k : Nat) : Bool :=
  match g.threads[k]? with
  | none => false
  | some pc => pc.beyond (indexCapacity g.sgm.size)

namespace LogState

def goto (s : LogState) (k : Nat) (pc : LogPc) : LogState :=
  { s with threads := s.threads.set k pc }

/-- Thread `k` does `act` in the segment at an address. -/
def inSegment (s : LogState) (k addr : Nat) (act : SegAct) : Option LogState := do
  let g ← s.segs[addr]?
  if g.beyond k then none
  else do
    let g ← segStep g (k, act)
    pure { s with segs := s.segs.set addr g }

/-- A step of `segment_open` in `create_segment`, and the call of `segment_write` behind the last
    one. -/
def createStep (page : PageSize) (s : LogState) (k : Nat) (pc : OpenPc) (baseOffset : Nat)
    (buf : Buf) : Option LogState :=
  let flags := if s.flags &&& mqlogRdcmt = mqlogRdcmt then sgmRdcmt else sgmRddrt
  match openStep page (s.dir.files baseOffset) baseOffset (s.size % 2 ^ 32) flags pc with
  | (.next pc, files) =>
    some { s.goto k (.create pc baseOffset buf) with dir := s.dir.put baseOffset files }
  | (.fails rc, files) =>
    some { s.goto k (.unlockWrite buf rc) with dir := s.dir.put baseOffset files }
  | (.opened sgm, files) =>
    let addr := s.segs.length
    let s := { s with
      dir := s.dir.put baseOffset files
      segs := s.segs ++ [segInit sgm s.threads.length] }
    (s.goto k (.writing addr true buf)).inSegment k addr (.write buf)

/-- `mqlog_trywrite` behind a `segment_write` that returned `written`. -/
def written (s : LogState) (k addr : Nat) (newSegment : Bool) (buf : Buf) (written : Int) :
    LogState :=
  if written = ELEOS ∧ newSegment then s.goto k (.closing addr buf ELNOWCP)
  else if written = ELEOS then s.goto k (.writeOffset addr buf)
  else if newSegment then s.goto k (.indexing addr buf written)
  else s.goto k (.unlockWrite buf written)

/-- `mqlog_write` gives the mutex up; a message that was written gets its number. -/
def unlockWrite (s : LogState) (k : Nat) (buf : Buf) (rc : Int) : LogState :=
  if 0 < rc then
    { s.goto k (.returning (.write buf rc (some s.appended.length))) with
      locked := false
      appended := s.appended ++ [buf] }
  else { s.goto k (.returning (.write buf rc none)) with locked := false }

/-- Thread `k` returns from its call. -/
def answer (s : LogState) (k : Nat) (r : LogReturned) : LogState :=
  { s.goto k .idle with returned := s.returned ++ [r] }

/-- Thread `k` makes the step that it is at. -/
def access (page : PageSize) (s : LogState) (k : Nat) : LogPc → Option LogState
  | .idle => none
  | .lockWrite buf =>
    if s.locked then some (s.goto k (.returning (.write buf ELLOCK none)))
    else some { s.goto k (.lastValue buf) with locked := true }
  | .lastValue buf => do
    match ← mbptreeLastValue s.index with
    | some addr => (s.goto k (.writing addr false buf)).inSegment k addr (.write buf)
    | none => some (s.goto k (.create .openIndex 0 buf))
  | .create pc baseOffset buf => s.createStep page k pc baseOffset buf
  | .writing addr newSegment buf => do
    let g ← s.segs[addr]?
    let pc ← g.threads[k]?
    let s ← s.inSegment k addr .access
    let g ← s.segs[addr]?
    -- `segment_write` has returned when the thread is idle in the segment
    if g.threads[k]? = some .idle then pure (s.written k addr newSegment buf (writeCode pc))
    else pure s
  | .writeOffset addr buf => do
    let g ← s.segs[addr]?
    pure (s.goto k (.create .openIndex (segmentWriteOffset g.sgm) buf))
  | .indexing addr buf written => do
    let g ← s.segs[addr]?
    let (rc, index) ← mbptreeAppend s.index (segmentBaseOffset g.sgm) addr
    let s := { s with index := index }
    if rc = ELIDXPC then pure (s.goto k (.closing addr buf rc))
    else if rc ≠ 0 then pure (s.goto k (.closing addr buf ELIDXOP))
    else pure (s.goto k (.unlockWrite buf written))
  | .closing addr buf rc => do
    let g ← s.segs[addr]?
    match segmentClose page (true, true) g.sgm with
    | (_, _, none) => pure (s.goto k (.unlockWrite buf rc))
    | (_, sgm, some files) =>
      pure { s.goto k (.unlockWrite buf rc) with dir := s.dir.put sgm.baseOffset files }
  | .unlockWrite buf rc => some (s.unlockWrite k buf rc)
  | .lockRead offset known =>
    if s.locked then some (s.goto k (.returning (.read offset known ELLOCK none)))
    else some { s.goto k (.floor offset known) with locked := true }
  | .floor offset known => do
    let (rc, iterator, index) ← mbptreeLeafFloor s.index offset
    let s := { s with index := index }
    -- returns with the mutex held
    if rc ≠ 0 then pure (s.goto k (.returning (.read offset known rc none)))
    else do
      let iterator ← iterator
      pure (s.goto k (.unlockRead offset known iterator))
  | .unlockRead offset known iterator => do
    let valid ← mbptreeLeafIteratorValid s.index iterator
    let s := { s with locked := false }
    if valid = false then pure (s.goto k (.returning (.read offset known ELNORD none)))
    else pure (s.goto k (.value offset known iterator))
  | .value offset known iterator => do
    let addr ← mbptreeLeafIteratorValue s.index iterator
    let g ← s.segs[addr]?
    (s.goto k (.reading offset known addr)).inSegment k addr
      (.read (offset - segmentBaseOffset g.sgm))
  | .reading offset known addr => do
    let s ← s.inSegment k addr .access
    let g ← s.segs[addr]?
    -- `segment_read` has returned when the thread is idle in the segment
    if g.threads[k]? = some .idle then do
      let r ← g.returned.getLast?
      pure (s.goto k (.returning (.read offset known r.rc (some (addr, r.fr)))))
    else pure s
  | .returning r => some (s.answer k r)

end LogState

/-- Thread `i.1` does `i.2`; `none` when it is not at that point, or when its access is behind the
    end of an index file. -/
def logStep (page : PageSize) (s : LogState) (i : Nat × LogAct) : Option LogState :=
  match i.2, s.threads[i.1]? with
  | .write buf, some .idle =>
    if buf.1.length = 0 then some (s.goto i.1 (.returning (.write buf 0 none)))
    else some (s.goto i.1 (.lockWrite buf))
  | .read offset, some .idle => some (s.goto i.1 (.lockRead offset s.appended.length))
  | .access, some pc => s.access page i.1 pc
  | _, _ => none

/-- `n` threads outside both functions, on a log without segments. -/
def logInit (lg : MqLog) (n : Nat) : LogState :=
  ⟨lg.size, lg.flags, lg.index, lg.locked, [], lg.dir, List.replicate n .idle, [], []⟩

end Mqlog
