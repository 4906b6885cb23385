/-
  The log: `mqlog.c`, function by function.

  * `MqLog` is `struct mqlog` together with what its functions work on: the segments the process has
    opened, by their addresses, and the directory.  Mapped pages are written back when a segment is
    closed.  A file is opened a second time before that only where `segment_close` has failed: there
    the directory keeps what the file held when it was opened, without the stores made since.  What
    is said of runs in which that happens is about the index and the mutex, not about the contents
    of segments.
  * The outcomes of the system calls to come (`LogCalls`) are part of the state and are used up one
    by one; where a list has run out, the calls succeed.
  * The mutex is a Boolean: `pthread_mutex_trylock` returns `EBUSY` exactly when it is held, and
    locking and unlocking do not fail otherwise.
  * A function that may fault (a failed `assert`, an address without a segment) returns an `Option`.

  The functions follow the source in their order and in what they do on each path, errors included:

    1. `create_segment` opens a segment with the flag for reads and the size of the log, which it
       passes as 32 bits; `mqlog_trywrite` tries the last segment, then a new one, and closes the
       new one again when it does not take the message or the index does not take the segment;
    2. `mqlog_tryread` searches the index under the mutex and reads the segment without it, and
       returns without an unlock when the search fails;
    3. `mqlog_sync` syncs the last segment, and no other;
    4. `mqlog_close` walks over the index from the floor of `0` on, closes each segment, and frees
       the index and the log;
    5. `mqlog_open` loads the files of the directory in the order of `readdir`, and gives up at the
       first one that does not open or is not behind the others.

  `mqlog_trywrite` is one function in the source.  Here its two halves have names of their own, as
  the log after the first `segment_write` is what most proofs are about.  Threads are another model,
  in which these calls are cut into steps.
-/
import Mqlog.Directory
import Mqlog.Mbptree

namespace Mqlog

open Lib

/-! ## Data model -/

/-- `BRANCH_FACTOR`. -/
def branchFactor : Nat := 7

/-- `MQLOG_RDDRT` and `MQLOG_RDCMT`. -/
def mqlogRddrt : Nat := 0x0
def mqlogRdcmt : Nat := 0x1

/-- The outcomes of system calls. -/
structure LogCalls where
  ensureDirectory : Bool
  malloc : Bool
  /-- The `calloc`s of the index. -/
  allocs : List Bool
  mutexInit : Bool
  /-- `stat`, one for each file that `load_segments` looks at. -/
  stats : List Bool
  /-- One for each `segment_open`. -/
  opens : List OpenCalls
  /-- The two `msync` calls of each `segment_sync`. -/
  syncs : List (Bool × Bool)

/-- All calls succeed. -/
def LogCalls.ok : LogCalls := ⟨true, true, [], true, [], [], []⟩

/-- `struct mqlog`, the open segments, and the directory. -/
structure MqLog where
  size : Nat
  flags : Nat
  index : Mbptree
  locked : Bool
  segs : Heap Segment
  dir : Dir
  calls : LogCalls

/-! ## Calls on segments -/

/-- `segment_open` for a file of the log: the address of the segment when the return code is `0`. -/
def openSegment (page : PageSize) (lg : MqLog) (baseOffset size flags : Nat) :
    Int × Option Nat × MqLog :=
  let calls := lg.calls.opens.headD OpenCalls.ok
  let lg := { lg with calls := { lg.calls with opens := lg.calls.opens.tail } }
  let (rc, sgm, files) := segmentOpen page calls (lg.dir.files baseOffset) baseOffset size flags
  let lg := { lg with dir := lg.dir.put baseOffset files }
  match sgm with
  | none => (rc, none, lg)
  | some sgm => (rc, some lg.segs.next, { lg with segs := lg.segs.alloc sgm })

/-- `segment_write` on the segment at an address. -/
def writeSegment (lg : MqLog) (addr : Nat) (buf : Buf) : Option (Int × MqLog) := do
  let sgm ← lg.segs.get addr
  let (rc, sgm) := segmentWrite sgm buf
  pure (rc, { lg with segs := lg.segs.set addr sgm })

/-- `segment_sync` on the segment at an address. -/
def syncSegment (page : PageSize) (lg : MqLog) (addr : Nat) : Option (Int × MqLog) := do
  let msyncs := lg.calls.syncs.headD (true, true)
  let lg := { lg with calls := { lg.calls with syncs := lg.calls.syncs.tail } }
  let sgm ← lg.segs.get addr
  let (rc, sgm) := segmentSync page msyncs sgm
  pure (rc, { lg with segs := lg.segs.set addr sgm })

/-- `segment_close` on the segment at an address. -/
def closeSegment (page : PageSize) (lg : MqLog) (addr : Nat) : Option (Int × MqLog) := do
  let msyncs := lg.calls.syncs.headD (true, true)
  let lg := { lg with calls := { lg.calls with syncs := lg.calls.syncs.tail } }
  let sgm ← lg.segs.get addr
  match segmentClose page msyncs sgm with
  | (rc, sgm, none) => pure (rc, { lg with segs := lg.segs.set addr sgm })
  | (rc, sgm, some files) =>
    pure (rc, { lg with segs := lg.segs.free addr, dir := lg.dir.put sgm.baseOffset files })

/-! ## Writing -/

/-- `create_segment`. -/
def createSegment (page : PageSize) (lg : MqLog) (baseOffset : Nat) : Int × Option Nat × MqLog :=
  let flags := if lg.flags &&& mqlogRdcmt = mqlogRdcmt then sgmRdcmt else sgmRddrt
  -- the size is passed as a `uint32_t`
  openSegment page lg baseOffset (lg.size % 2 ^ 32) flags

/-- The last step of `mqlog_trywrite` for a new segment: adding it to the index. -/
def indexSegment (page : PageSize) (lg : MqLog) (addr : Nat) (written : Int) :
    Option (Int × MqLog) := do
  let sgm ← lg.segs.get addr
  let (rc, index) ← mbptreeAppend lg.index (segmentBaseOffset sgm) addr
  let lg := { lg with index := index }
  if rc = ELIDXPC then do
    let (_, lg) ← closeSegment page lg addr
    pure (rc, lg)
  else if rc ≠ 0 then do
    let (_, lg) ← closeSegment page lg addr
    pure (ELIDXOP, lg)
  else pure (written, lg)

/-- `mqlog_trywrite` from the second segment on: `addr` has no capacity left. -/
def mqlogTrywriteNext (page : PageSize) (lg : MqLog) (addr : Nat) (buf : Buf) :
    Option (Int × MqLog) := do
  let sgm ← lg.segs.get addr
  match createSegment page lg (segmentWriteOffset sgm) with
  | (rc, none, lg) => pure (rc, lg)
  | (_, some addr, lg) => do
    let (written, lg) ← writeSegment lg addr buf
    -- only attempt to write twice
    if written = ELEOS then do
      let (_, lg) ← closeSegment page lg addr
      pure (ELNOWCP, lg)
    else indexSegment page lg addr written

/-- `mqlog_trywrite` from the first `segment_write` on. -/
def mqlogTrywriteTo (page : PageSize) (lg : MqLog) (addr : Nat) (newSegment : Bool) (buf : Buf) :
    Option (Int × MqLog) := do
  let (written, lg) ← writeSegment lg addr buf
  if written = ELEOS ∧ newSegment then do
    -- the new frame is greater than the entire segment
    let (_, lg) ← closeSegment page lg addr
    pure (ELNOWCP, lg)
  else if written = ELEOS then mqlogTrywriteNext page lg addr buf
  else if newSegment then indexSegment page lg addr written
  else pure (written, lg)

/-- `mqlog_trywrite`. -/
def mqlogTrywrite (page : PageSize) (lg : MqLog) (buf : Buf) : Option (Int × MqLog) := do
  match ← mbptreeLastValue lg.index with
  | some addr => mqlogTrywriteTo page lg addr false buf
  | none =>
    -- this is the first segment
    match createSegment page lg 0 with
    | (rc, none, lg) => pure (rc, lg)
    | (_, some addr, lg) => mqlogTrywriteTo page lg addr true buf

/-- `mqlog_write`. -/
def mqlogWrite (page : PageSize) (lg : MqLog) (buf : Buf) : Option (Int × MqLog) :=
  if buf.1.length = 0 then some (0, lg)
  else if lg.locked then some (ELLOCK, lg)
  else do
    let (written, lg) ← mqlogTrywrite page { lg with locked := true } buf
    pure (written, { lg with locked := false })

/-! ## Reading -/

/-- `mqlog_tryread`: the return code, and the frame in the segment that was asked for it. -/
def mqlogTryread (lg : MqLog) (offset : Nat) : Option (Int × Option (Nat × Frame) × MqLog) :=
  if lg.locked then some (ELLOCK, none, lg)
  else do
    let (rc, iterator, index) ← mbptreeLeafFloor lg.index offset
    let lg := { lg with index := index }
    -- returns with the mutex held
    if rc ≠ 0 then pure (rc, none, { lg with locked := true })
    else do
      let iterator ← iterator
      if (← mbptreeLeafIteratorValid lg.index iterator) = false then pure (ELNORD, none, lg)
      else do
        let addr ← mbptreeLeafIteratorValue lg.index iterator
        let sgm ← lg.segs.get addr
        let (rc, fr) := segmentRead sgm (offset - segmentBaseOffset sgm)
        pure (rc, some (addr, fr), lg)

/-- `mqlog_read`. -/
def mqlogRead (lg : MqLog) (offset : Nat) : Option (Int × Option (Nat × Frame) × MqLog) :=
  mqlogTryread lg offset

/-! ## Syncing -/

/-- `mqlog_sync`. -/
def mqlogSync (page : PageSize) (lg : MqLog) : Option (Int × MqLog) := do
  match ← mbptreeLastValue lg.index with
  | some addr => syncSegment page lg addr
  | none => pure (0, lg)

/-! ## Closing -/

/-- The loop of `mqlog_close`. -/
def closeSegments (page : PageSize) : Nat → MqLog → LeafIterator → Nat → Option (Nat × MqLog)
  | 0, _, _, _ => none
  | fuel + 1, lg, iterator, errors => do
    if (← mbptreeLeafIteratorValid lg.index iterator) = false then pure (errors, lg)
    else do
      let addr ← mbptreeLeafIteratorValue lg.index iterator
      let (rc, lg) ← closeSegment page lg addr
      let iterator ← mbptreeLeafIteratorNext lg.index iterator
      closeSegments page fuel lg iterator (if rc ≠ 0 then errors + 1 else errors)

/-- `mqlog_close`. -/
def mqlogClose (page : PageSize) (lg : MqLog) : Option (Int × MqLog) := do
  let (rc, iterator, index) ← mbptreeLeafFirst lg.index
  let lg := { lg with index := index }
  if rc ≠ 0 then pure (rc, lg)
  else do
    let iterator ← iterator
    -- no two entries of the index are the same segment
    let (errors, lg) ← closeSegments page lg.segs.next lg iterator 0
    let (rc, index) ← mbptreeFree lg.index
    let errors := if rc ≠ 0 then errors + 1 else errors
    pure (if errors = 0 then 0 else ELLGCLS, { lg with index := index })

/-! ## Opening -/

/-- The body of the loop of `load_segments` for a file ending in `.log`. -/
def loadSegment (page : PageSize) (lg : MqLog) (name : List Char) : Option (Int × MqLog) :=
  let stat := lg.calls.stats.headD true
  let lg := { lg with calls := { lg.calls with stats := lg.calls.stats.tail } }
  match (if stat then lg.dir.fileSize name else none) with
  | none => some (ELLDSGM, lg)
  | some size =>
    let offset := strtoll name
    match openSegment page lg offset (size % 2 ^ 32) lg.flags with
    | (_, none, lg) => some (ELLDSGM, lg)
    | (_, some addr, lg) => do
      let (rc, index) ← mbptreeAppend lg.index offset addr
      let lg := { lg with index := index }
      if rc = ELIDXPC then do
        let (_, lg) ← closeSegment page lg addr
        pure (rc, lg)
      else if rc ≠ 0 then do
        let (_, lg) ← closeSegment page lg addr
        pure (ELLDSGM, lg)
      else pure (0, lg)

/-- `load_segments`, for the names that `readdir` returns. -/
def loadSegments (page : PageSize) : MqLog → List (List Char) → Option (Int × MqLog)
  | lg, [] => some (0, lg)
  | lg, name :: names =>
    if isLog name then do
      let (rc, lg) ← loadSegment page lg name
      if rc ≠ 0 then pure (rc, lg) else loadSegments page lg names
    else loadSegments page lg names

/-- `mqlog_open`: the return code, the log when it is `0`, and the directory. -/
def mqlogOpen (page : PageSize) (calls : LogCalls) (dir : Dir) (names : List (List Char))
    (size flags : Nat) : Option (Int × Option MqLog × Dir) :=
  if size % page.bytes ≠ 0 then some (ELNOPGM, none, dir)
  else if calls.ensureDirectory = false then some (ELLGDIR, none, dir)
  else if calls.malloc = false then some (ELALLC, none, dir)
  else
    match mbptreeInit branchFactor calls.allocs with
    | none => some (ELIDXCR, none, dir)
    | some index => do
      let lg : MqLog := { size := size, flags := flags, index := index, locked := false,
                          segs := Heap.empty, dir := dir, calls := calls }
      if calls.mutexInit = false then do
        let (_, lg) ← mqlogClose page lg
        pure (ELLCKOP, none, lg.dir)
      else do
        let (rc, lg) ← loadSegments page lg names
        if rc ≠ 0 then do
          let (_, lg) ← mqlogClose page lg
          pure (rc, none, lg.dir)
        else pure (0, some lg, lg.dir)

end Mqlog
