/-
  A segment of the log: `segment.c`, function by function.

  * The two mappings of a segment are total memories: `buffer` of bytes, `index` of entries (the
    `physical_offset`s).  Addresses are relative to the start of a mapping, which `mmap` aligns to a
    page.
  * A store past the end of the index file goes through in the model.  In the machine only the tail
    of the last mapped page takes it, and what is there is lost when the page is written back;
    behind that page is other memory, or none.  So what is said of the contents of a segment is said
    of the machine as long as the index file has room: `slots_inside_iff` says how long that is, and
    the results about the threads of a log end in front of such a store (`SegPc.beyond`).
  * A mapping is shared with its file, so `segment_close` leaves the mapped contents in the files.
    What a crash leaves is less: `dataDisk` and `indexDisk` are the contents that `msync` has put on
    disk.
  * `size_t` and `uint32_t` arithmetic is written out modulo `2 ^ 64` and `2 ^ 32`.
  * The system calls a function makes have their outcomes as arguments (`OpenCalls`, and a Boolean
    for each `msync`).

  The functions are in the order of their use.  `segment_open` opens or creates the two files, maps
  them and finds the write offset; the files come back from it whether it succeeds or not, since a
  call that fails may have created them.  `segment_write` and `segment_read` are those of one
  thread:  the compare-and-swap of `claim` is there, but nothing comes between the read of the write
  offset and it.  `segment_sync` returns the `int` that `sync_data` and `sync_index` make of a size.

  `segmentRead` returns the frame as positions in the mapping, as the source returns pointers into
  it.  What is at these positions may change later; that it does not is a theorem, not a part of the
  model.
-/
import Mqlog.Errno
import Mqlog.Prot

namespace Mqlog

open Lib.Mem

/-! ## Data model -/

/-- `struct offset_pair`. -/
structure OffsetPair where
  index : Nat
  data : Nat
deriving DecidableEq, Repr

/-- `struct segment`, with the contents of its two files on disk. -/
structure Segment where
  flags : Nat
  size : Nat
  baseOffset : Nat
  buffer : Nat → UInt8
  index : Nat → Nat
  sOffset : OffsetPair
  wOffset : OffsetPair
  dataDisk : Nat → UInt8
  indexDisk : Nat → Nat

/-- The page size of the machine: a power of two, and at least 4096. -/
structure PageSize where
  bytes : Nat
  pow : ∃ k, 12 ≤ k ∧ k < 64 ∧ bytes = 2 ^ k

/-- `SGM_RDDRT` and `SGM_RDCMT`. -/
def sgmRddrt : Nat := 0x0
def sgmRdcmt : Nat := 0x1

/-- `sizeof(struct index_entry)`. -/
def indexEntrySize : Nat := 8

/-- `page_aligned_addr`. -/
def pageAlignedAddr (page : PageSize) (addr : Nat) : Nat :=
  addr &&& (2 ^ 64 - 1 - (page.bytes - 1))

/-! ## Files and the calls on them -/

/-- A file: its size in bytes, and its cells. -/
structure File (α : Type) where
  size : Nat
  cell : Nat → α

/-- What becomes of opening (or creating) a file and asking for its size. -/
inductive FileOp where
  | ok
  | pathTooLong
  | openFails
  /-- The file is opened, but `fstat` or `ftruncate` fails. -/
  | statFails
deriving DecidableEq, Repr

/-- What becomes of `mmap` and `madvise`. -/
inductive MapOp where
  | ok
  | mmapNull
  | madviseFails
deriving DecidableEq, Repr

/-- The outcomes of the calls of one `segment_open`. -/
structure OpenCalls where
  malloc : Bool
  indexFile : FileOp
  indexMap : MapOp
  dataFile : FileOp
  dataMap : MapOp
deriving DecidableEq, Repr

/-- All calls succeed. -/
def OpenCalls.ok : OpenCalls := ⟨true, .ok, .ok, .ok, .ok⟩

/-- The data file and the index file of a segment, `none` when there is none. -/
structure SegmentFiles where
  data : Option (File UInt8)
  index : Option (File Nat)

/-- `open_index` and `open_data`: the file at the path afterwards, and the opened file. -/
def openFile {α : Type} (zero : α) (op : FileOp) (size : Nat) (file : Option (File α)) :
    Option (File α) × Except Int (File α) :=
  let found := file.getD ⟨0, fun _ => zero⟩
  match op with
  | .pathTooLong => (file, .error ELSOFLW)
  | .openFails => (file, .error ELFLEOP)
  | .statFails => (some found, .error ELFLEOP)
  | .ok =>
    if 0 < found.size ∧ found.size ≠ size then (some found, .error ELFLEOP)
    else
      let opened := if found.size = 0 then ⟨size, fun _ => zero⟩ else found
      (some opened, .ok opened)

/-- `mmap_helper`.  Mapping nothing gives `MAP_FAILED`, which is not `NULL`; then `madvise`
    fails. -/
def mmapHelper (op : MapOp) (size : Nat) : Int :=
  match op with
  | .mmapNull => ELMMAP
  | .madviseFails => ELMADV
  | .ok => if size = 0 then ELMADV else 0

/-! ## Opening -/

/-- `calculate_index_size`. -/
def calculateIndexSize (dataSize : Nat) : Nat := (dataSize + 1) / headerSize

/-- The loop of `find_w_offset_pair` from entry `i` on (`r` entries are left). -/
def findFrom (buffer : Nat → UInt8) (index : Nat → Nat) : Nat → Nat → Nat → Option OffsetPair
  | 0, _, _ => none
  | r + 1, i, prev =>
    if index i = 0 ∧ ¬ (i = 0 ∧ protIsHeader buffer 0) then
      let offset := if i ≠ 0 then hdrSize buffer prev else 0
      some ⟨i % 2 ^ 32, (prev + offset) % 2 ^ 32⟩
    else findFrom buffer index r (i + 1) (index i)

/-- `find_w_offset_pair`: `none` is `ELWOFFS`. -/
def findWOffsetPair (buffer : Nat → UInt8) (index : Nat → Nat) (size : Nat) : Option OffsetPair :=
  findFrom buffer index (size / indexEntrySize) 0 0

/-- `segment_open`: the return code, the segment when it is `0`, and the files afterwards. -/
def segmentOpen (page : PageSize) (calls : OpenCalls) (files : SegmentFiles)
    (baseOffset size flags : Nat) : Int × Option Segment × SegmentFiles :=
  if size % page.bytes ≠ 0 then (ELNOPGM, none, files)
  else if calls.malloc = false then (ELALLC, none, files)
  else
    let indexSize := calculateIndexSize size
    match openFile 0 calls.indexFile indexSize files.index with
    | (indexFile, .error rc) => (rc, none, { files with index := indexFile })
    | (indexFile, .ok index) =>
      let rc := mmapHelper calls.indexMap indexSize
      if rc ≠ 0 then (rc, none, { files with index := indexFile })
      else
        match openFile 0 calls.dataFile size files.data with
        | (dataFile, .error rc) => (rc, none, ⟨dataFile, indexFile⟩)
        | (dataFile, .ok data) =>
          let rc := mmapHelper calls.dataMap size
          if rc ≠ 0 then (rc, none, ⟨dataFile, indexFile⟩)
          else
            match findWOffsetPair data.cell index.cell indexSize with
            | none => (ELWOFFS, none, ⟨dataFile, indexFile⟩)
            | some wOffset =>
              (0, some { flags := flags, size := size, baseOffset := baseOffset,
                         buffer := data.cell, index := index.cell,
                         sOffset := wOffset, wOffset := wOffset,
                         dataDisk := data.cell, indexDisk := index.cell }, ⟨dataFile, indexFile⟩)

/-! ## Offsets -/

/-- `segment_base_offset`. -/
def segmentBaseOffset (sgm : Segment) : Nat := sgm.baseOffset

/-- `segment_write_offset`. -/
def segmentWriteOffset (sgm : Segment) : Nat := sgm.baseOffset + sgm.wOffset.index

/-! ## Writing -/

/-- `claim`: the compare-and-swap of the write offset. -/
def claim (sgm : Segment) (old new : OffsetPair) : Int × Segment :=
  if sgm.wOffset = old then (0, { sgm with wOffset := new }) else (ELLOCK, sgm)

/-- `mark_eos`. -/
def markEos (sgm : Segment) (curr : OffsetPair) : Int × Segment :=
  let new : OffsetPair := { index := curr.index, data := (curr.data + headerSize) % 2 ^ 32 }
  let (rc, sgm) := claim sgm curr new
  if rc ≠ 0 then (rc, sgm)
  else
    let hdr := curr.data
    let buffer := headerInit sgm.buffer hdr
    let buffer := setSize buffer hdr headerSize
    -- mark segment as complete for writes
    let buffer := setFlags buffer hdr headerFlagsEos
    (ELEOS, { sgm with buffer := buffer })

/-- `marked_eos`. -/
def markedEos (sgm : Segment) : Bool :=
  let wOffset := sgm.wOffset.data
  if wOffset < headerSize then false
  else hdrFlags sgm.buffer (wOffset - headerSize) = headerFlagsEos

/-- `segment_write`. -/
def segmentWrite (sgm : Segment) (buf : Buf) : Int × Segment :=
  -- first of all check if the segment is writable
  if markedEos sgm then (ELEOS, sgm)
  else
    let curr := sgm.wOffset
    let frameSize := (headerSize + buf.1.length) % 2 ^ 64
    let wOffset := curr.data
    -- the payload and two headers have to fit into the space left in the segment
    if (sgm.size + (2 ^ 64 - wOffset)) % 2 ^ 64 < (headerSize + frameSize) % 2 ^ 64 then
      markEos sgm curr
    else
      let new : OffsetPair :=
        { index := (curr.index + 1) % 2 ^ 32, data := (curr.data + frameSize) % 2 ^ 32 }
      let (rc, sgm) := claim sgm curr new
      if rc ≠ 0 then (rc, sgm)
      else
        let payloadOffset := wOffset + headerSize
        let buffer := store sgm.buffer payloadOffset buf.1
        let buffer := headerInit buffer wOffset
        let buffer := setCrc32 buffer wOffset (crc32 0 buf.1).toNat
        let buffer := setSize buffer wOffset frameSize
        -- marks content as ready to be consumed
        let buffer := setFlags buffer wOffset headerFlagsReady
        (toSsize buf.1.length,
          { sgm with buffer := buffer, index := store sgm.index curr.index [wOffset] })

/-! ## Reading -/

/-- `struct frame`: positions in the mapping of the segment, `none` for a field left as it was. -/
structure Frame where
  hdr : Option Nat
  buffer : Option Nat
deriving DecidableEq, Repr

/-- `segment_read`: the return code, and the frame. -/
def segmentRead (sgm : Segment) (relativeOffset : Nat) : Int × Frame :=
  let boundary := if sgm.flags &&& sgmRdcmt = sgmRdcmt then sgm.sOffset.data else sgm.wOffset.data
  if sgm.wOffset.index ≤ relativeOffset then (ELNORD, ⟨none, none⟩)
  else
    let physicalOffset := sgm.index relativeOffset
    -- physicalOffset can be zero only if relativeOffset is zero
    if relativeOffset ≠ 0 ∧ physicalOffset = 0 then (ELNORD, ⟨none, none⟩)
    else if boundary ≤ physicalOffset then (ELNORD, ⟨none, none⟩)
    else
      let hdr := physicalOffset
      if hdrFlags sgm.buffer hdr = headerFlagsReady then
        (toSsize (framePayloadSize sgm.buffer hdr), ⟨some hdr, some (physicalOffset + headerSize)⟩)
      else if hdrFlags sgm.buffer hdr = headerFlagsEos then (ELEOS, ⟨some hdr, none⟩)
      else (ELINVHD, ⟨none, none⟩)

/-! ## Syncing and closing -/

/-- `sync_data`; `msync` tells whether the call of that name succeeds. -/
def syncData (page : PageSize) (msync : Bool) (sgm : Segment) : Int × Segment :=
  let addr := sgm.sOffset.data
  let wOffset := sgm.wOffset.data
  let size := (wOffset + (2 ^ 64 - sgm.sOffset.data)) % 2 ^ 64
  -- addr needs to be a multiple of pagesize for msync to work
  let syncAddr := pageAlignedAddr page addr
  let diff := addr - syncAddr
  let syncSize := (size + diff) % 2 ^ 64
  if msync = false then (ELDTSYN, sgm)
  else
    (toInt syncSize,
      { sgm with sOffset := { sgm.sOffset with data := wOffset },
                 dataDisk := copy sgm.dataDisk sgm.buffer syncAddr syncSize })

/-- `sync_index`. -/
def syncIndex (page : PageSize) (msync : Bool) (sgm : Segment) : Int × Segment :=
  let addr := indexEntrySize * sgm.sOffset.index
  let wIndex := sgm.wOffset.index
  let length := (wIndex + (2 ^ 64 - sgm.sOffset.index)) % 2 ^ 64
  let size := (indexEntrySize * length) % 2 ^ 64
  let syncAddr := pageAlignedAddr page addr
  let diff := addr - syncAddr
  let syncSize := (size + diff) % 2 ^ 64
  if msync = false then (ELDTSYN, sgm)
  else
    (toInt length,
      { sgm with sOffset := { sgm.sOffset with index := wIndex },
                 indexDisk := copy sgm.indexDisk sgm.index (syncAddr / indexEntrySize)
                   (syncSize / indexEntrySize) })

/-- `segment_sync`; the two Booleans are the outcomes of its `msync` calls. -/
def segmentSync (page : PageSize) (msyncs : Bool × Bool) (sgm : Segment) : Int × Segment :=
  let (size, sgm) := syncData page msyncs.1 sgm
  if size ≤ 0 then (size, sgm) else syncIndex page msyncs.2 sgm

/-- The file that a mapping of `n` cells, `size` bytes long, leaves behind. -/
def File.ofMapping {α : Type} (zero : α) (size n : Nat) (m : Nat → α) : File α :=
  ⟨size, fun i => if i < n then m i else zero⟩

/-- `segment_close`: the return code, and the files when it is `0`. -/
def segmentClose (page : PageSize) (msyncs : Bool × Bool) (sgm : Segment) :
    Int × Segment × Option SegmentFiles :=
  let (rc, sgm) := segmentSync page msyncs sgm
  if rc < 0 then (rc, sgm, none)
  else
    let indexSize := calculateIndexSize sgm.size
    (0, sgm, some
      { data := some (File.ofMapping 0 sgm.size sgm.size sgm.buffer)
        index := some (File.ofMapping 0 indexSize (indexSize / indexEntrySize) sgm.index) })

end Mqlog
