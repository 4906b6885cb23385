/-
  A thread that syncs a segment while other threads write to it and read from it.

  `segment_sync` takes no lock.  Of what it reads only the write offset moves under it, which it
  reads twice, for the data and for the index; the synced offset is written to by nobody else.
  `msync` returns when each byte of its range has been written to disk since it was called, in any
  order and with stores of other threads in between, or it fails.  The system may write any byte and
  any entry to disk at any time, as it is in memory then (`SyncAct.writeByte`,
  `SyncAct.writeEntry`), so that what is on disk when the machine crashes may be of many different
  moments.

  A thread that syncs alone does what `segmentSync` says: `solo_sync`.

  The points of the thread (`SyncPc`) are

      dataOffset     sync_data reads the write offset
      msyncData      msync of the data: some bytes are still to be written
      indexOffset    sync_index reads the write offset
      msyncIndex     msync of the index

  and the point in `msync` carries what is still to be written (`bytesLeft`, `entriesLeft`): `msync`
  returns when nothing is.  The bytes below the end of the range and in front of the old synced
  offset are written again, since `msync` begins at a page.

  Only one thread syncs.  Two of them would race for the synced offset, which is read and written
  without a lock; `mqlog_sync` takes no mutex, so this is left to the program.
-/
import Mqlog.SegmentSerial
import Mqlog.SegmentSync

namespace Mqlog

open Lib (run Along)
open Lib.Mem

/-! ## The system -/

/-- The next access of the thread that syncs; `known` is the number of messages that had been
    accepted when it called `segment_sync`. -/
inductive SyncPc where
  /-- None: the thread is not in `segment_sync`. -/
  | idle
  /-- `sync_data` reads the write offset. -/
  | dataOffset (known : Nat)
  /-- `msync` in `sync_data`: the bytes `left` are to be written to disk. -/
  | msyncData (known wOffset syncSize : Nat) (left : List Nat)
  /-- `sync_index` reads the write offset. -/
  | indexOffset (known : Nat)
  /-- `msync` in `sync_index`: the entries `left` are to be written to disk. -/
  | msyncIndex (known wIndex length : Nat) (left : List Nat)
deriving DecidableEq

/-- `msync` waits for the byte `p` no longer. -/
def SyncPc.wroteByte (p : Nat) : SyncPc → SyncPc
  | .msyncData known wOffset syncSize left =>
    .msyncData known wOffset syncSize (left.filter fun q => q ≠ p)
  | pc => pc

/-- `msync` waits for the entry `i` no longer. -/
def SyncPc.wroteEntry (i : Nat) : SyncPc → SyncPc
  | .msyncIndex known wIndex length left =>
    .msyncIndex known wIndex length (left.filter fun j => j ≠ i)
  | pc => pc

/-- What `segment_sync` has returned, and the number of messages that had been accepted at its
    call. -/
structure Synced where
  known : Nat
  rc : Int
deriving DecidableEq

/-- The threads that write and read, and the one that syncs. -/
structure SyncState where
  seg : SegState
  sync : SyncPc
  synced : List Synced

inductive SyncAct where
  /-- A step of a thread that writes or reads. -/
  | thread (i : Nat × SegAct)
  /-- The call of `segment_sync`. -/
  | sync
  /-- The next access of the thread that syncs; a call of `msync` may fail. -/
  | access (msync : Bool)
  /-- A byte of the data goes to disk. -/
  | writeByte (p : Nat)
  /-- An entry of the index goes to disk. -/
  | writeEntry (i : Nat)
deriving DecidableEq

/-- The segment is replaced. -/
def SegState.put (s : SegState) (sgm : Segment) : SegState := { s with sgm := sgm }

/-- The state with the byte `p` on disk. -/
def SegState.byteOnDisk (s : SegState) (p : Nat) : SegState :=
  s.put { s.sgm with dataDisk := copy s.sgm.dataDisk s.sgm.buffer p 1 }

/-- The state with the entry `i` on disk. -/
def SegState.entryOnDisk (s : SegState) (i : Nat) : SegState :=
  s.put { s.sgm with indexDisk := copy s.sgm.indexDisk s.sgm.index i 1 }

namespace SyncState

/-- The thread that syncs returns. -/
def answer (s : SyncState) (known : Nat) (rc : Int) : SyncState :=
  { s with sync := .idle, synced := s.synced ++ [⟨known, rc⟩] }

/-- The thread that syncs makes the access that it is at. -/
def access (page : PageSize) (s : SyncState) (msync : Bool) : Option SyncState :=
  let sgm := s.seg.sgm
  match s.sync with
  | .idle => none
  | .dataOffset known =>
    let addr := sgm.sOffset.data
    let wOffset := sgm.wOffset.data
    let size := (wOffset + (2 ^ 64 - addr)) % 2 ^ 64
    let syncAddr := pageAlignedAddr page addr
    let syncSize := (size + (addr - syncAddr)) % 2 ^ 64
    some { s with sync := .msyncData known wOffset syncSize (List.range' syncAddr syncSize) }
  | .msyncData known wOffset syncSize left =>
    if msync = false then some (s.answer known ELDTSYN)
    else if left ≠ [] then none
    else
      let s := { s with seg := s.seg.put { sgm with sOffset := ⟨sgm.sOffset.index, wOffset⟩ } }
      -- `segment_sync` goes on with the index only when there was data to sync
      if toInt syncSize ≤ 0 then some (s.answer known (toInt syncSize))
      else some { s with sync := .indexOffset known }
  | .indexOffset known =>
    let addr := indexEntrySize * sgm.sOffset.index
    let wIndex := sgm.wOffset.index
    let length := (wIndex + (2 ^ 64 - sgm.sOffset.index)) % 2 ^ 64
    let size := (indexEntrySize * length) % 2 ^ 64
    let syncAddr := pageAlignedAddr page addr
    let syncSize := (size + (addr - syncAddr)) % 2 ^ 64
    let left := List.range' (syncAddr / indexEntrySize) (syncSize / indexEntrySize)
    some { s with sync := .msyncIndex known wIndex length left }
  | .msyncIndex known wIndex length left =>
    if msync = false then some (s.answer known ELDTSYN)
    else if left ≠ [] then none
    else
      let s := { s with seg := s.seg.put { sgm with sOffset := ⟨wIndex, sgm.sOffset.data⟩ } }
      some (s.answer known (toInt length))

/-- The byte `p` goes to disk. -/
def writeByte (s : SyncState) (p : Nat) : SyncState :=
  { s with seg := s.seg.byteOnDisk p, sync := s.sync.wroteByte p }

/-- The entry `i` goes to disk. -/
def writeEntry (s : SyncState) (i : Nat) : SyncState :=
  { s with seg := s.seg.entryOnDisk i, sync := s.sync.wroteEntry i }

end SyncState

/-- One step; `none` when it is not possible. -/
def syncStep (page : PageSize) (s : SyncState) : SyncAct → Option SyncState
  | .thread i => (segStep s.seg i).map fun seg => { s with seg := seg }
  | .sync =>
    match s.sync with
    | .idle => some { s with sync := .dataOffset (payloads s.seg.claims).length }
    | _ => none
  | .access msync => s.access page msync
  | .writeByte p => some (s.writeByte p)
  | .writeEntry i => some (s.writeEntry i)

/-- `n` threads outside the functions on a segment, and one that syncs. -/
def syncInit (sgm : Segment) (n : Nat) : SyncState := ⟨segInit sgm n, .idle, []⟩

/-! ## The accesses, where the offsets do not wrap around -/

section Access

variable {page : PageSize} {s : SyncState} {known : Nat}

/-- `sync_data` is about to write everything from the page of the synced offset on. -/
theorem access_dataOffset (hs : s.sync = .dataOffset known)
    (hle : s.seg.sgm.sOffset.data ≤ s.seg.sgm.wOffset.data)
    (hsmall : s.seg.sgm.wOffset.data < 2 ^ 32) (msync : Bool) :
    s.access page msync = some { s with
      sync :=
  (.msyncData known s.seg.sgm.wOffset.data (s.seg.sgm.wOffset.data - syncStart page s.seg.sgm)
        (List.range' (syncStart page s.seg.sgm)
          (s.seg.sgm.wOffset.data - syncStart page s.seg.sgm))) } := by
  have hstart : syncStart page s.seg.sgm ≤ s.seg.sgm.sOffset.data := syncStart_le page (by omega)
  have hsize : ((s.seg.sgm.wOffset.data + (2 ^ 64 - s.seg.sgm.sOffset.data)) % 2 ^ 64 +
      (s.seg.sgm.sOffset.data - syncStart page s.seg.sgm)) % 2 ^ 64 =
        s.seg.sgm.wOffset.data - syncStart page s.seg.sgm := by omega
  rw [syncStart] at hsize
  simp only [SyncState.access, hs, hsize, syncStart]

/-- `sync_index` is about to write every entry from the page of the synced one on. -/
theorem access_indexOffset (hs : s.sync = .indexOffset known)
    (hle : s.seg.sgm.sOffset.index ≤ s.seg.sgm.wOffset.index)
    (hsmall : s.seg.sgm.wOffset.index < 2 ^ 32) (msync : Bool) :
    s.access page msync = some { s with
      sync :=
  (.msyncIndex known s.seg.sgm.wOffset.index (s.seg.sgm.wOffset.index - s.seg.sgm.sOffset.index)
        (List.range' (syncStartIndex page s.seg.sgm)
          (s.seg.sgm.wOffset.index - syncStartIndex page s.seg.sgm))) } := by
  have hs32 : s.seg.sgm.sOffset.index < 2 ^ 32 := by omega
  have h8 : indexEntrySize = 8 := rfl
  have hstart := syncStartIndex_le page hs32
  have hmul := mul_syncStartIndex page hs32
  have hlength : (s.seg.sgm.wOffset.index + (2 ^ 64 - s.seg.sgm.sOffset.index)) % 2 ^ 64 =
      s.seg.sgm.wOffset.index - s.seg.sgm.sOffset.index := by omega
  have hsize : (indexEntrySize * (s.seg.sgm.wOffset.index - s.seg.sgm.sOffset.index) % 2 ^ 64 +
      (indexEntrySize * s.seg.sgm.sOffset.index -
        pageAlignedAddr page (indexEntrySize * s.seg.sgm.sOffset.index))) % 2 ^ 64 /
          indexEntrySize =
      s.seg.sgm.wOffset.index - syncStartIndex page s.seg.sgm := by
    rw [← hmul, h8]
    omega
  simp only [SyncState.access, hs, hlength, hsize, syncStartIndex]

end Access

/-! ## A thread that syncs alone -/

/-- The bytes that `msync` waits for. -/
def SyncPc.bytesLeft : SyncPc → List Nat
  | .msyncData _ _ _ left => left
  | _ => []

/-- The entries that `msync` waits for. -/
def SyncPc.entriesLeft : SyncPc → List Nat
  | .msyncIndex _ _ _ left => left
  | _ => []

/-- No other thread makes a step, and the system writes to disk what `msync` waits for. -/
def Uninterrupted (s : SyncState) : SyncAct → Prop
  | .thread _ => False
  | .writeByte p => p ∈ s.sync.bytesLeft
  | .writeEntry i => i ∈ s.sync.entriesLeft
  | .sync | .access _ => True

section Solo

variable {page : PageSize} {s : SyncState} {known : Nat}

theorem filter_range' (a n : Nat) :
    (List.range' a (n + 1)).filter (fun q => q ≠ a) = List.range' (a + 1) n := by
  rw [List.range'_succ, List.filter_cons_of_neg (by simp), List.filter_eq_self]
  intro q hq
  have hlt := (List.mem_range'_1.mp hq).1
  exact decide_eq_true (by omega)

theorem along_access (msync : Bool) : Along (syncStep page) Uninterrupted s [.access msync] :=
  ⟨trivial, fun _ _ => trivial⟩

/-- The bytes that `msync` waits for go to disk. -/
theorem run_writeBytes {wOffset syncSize : Nat} : ∀ (n a : Nat) {s : SyncState},
    s.sync = .msyncData known wOffset syncSize (List.range' a n) →
    run (syncStep page) s ((List.range' a n).map .writeByte) = some { s with
      seg := s.seg.put { s.seg.sgm with dataDisk := copy s.seg.sgm.dataDisk s.seg.sgm.buffer a n }
      sync := .msyncData known wOffset syncSize [] }
  | 0, a, s, hs => by
    rw [copy_zero]
    have hstay : s = { s with seg := s.seg.put s.seg.sgm, sync := .msyncData known wOffset syncSize [] } := by
      rw [← show s.sync = .msyncData known wOffset syncSize [] from hs]
      rfl
    exact congrArg some hstay
  | n + 1, a, s, hs => by
    have hwrote : (s.writeByte a).sync =
        .msyncData known wOffset syncSize (List.range' (a + 1) n) := by
      show s.sync.wroteByte a = _
      rw [hs, SyncPc.wroteByte, filter_range']
    have hrest := run_writeBytes n (a + 1) hwrote
    rw [List.range'_succ, List.map_cons]
    refine Lib.run_cons_eq_some.mpr ⟨s.writeByte a, rfl, hrest.trans ?_⟩
    rw [← copy_succ]
    rfl

theorem along_writeBytes {wOffset syncSize : Nat} : ∀ (n a : Nat) {s : SyncState},
    s.sync = .msyncData known wOffset syncSize (List.range' a n) →
    Along (syncStep page) Uninterrupted s ((List.range' a n).map .writeByte)
  | 0, _, _, _ => trivial
  | n + 1, a, s, hs => by
    have hwrote : (s.writeByte a).sync =
        .msyncData known wOffset syncSize (List.range' (a + 1) n) := by
      show s.sync.wroteByte a = _
      rw [hs, SyncPc.wroteByte, filter_range']
    have hmem : a ∈ s.sync.bytesLeft := by
      rw [hs]
      exact List.mem_range'_1.mpr ⟨Nat.le_refl a, by omega⟩
    exact Lib.along_cons hmem rfl (along_writeBytes n (a + 1) hwrote)

/-- The entries that `msync` waits for go to disk. -/
theorem run_writeEntries {wIndex length : Nat} : ∀ (n a : Nat) {s : SyncState},
    s.sync = .msyncIndex known wIndex length (List.range' a n) →
    run (syncStep page) s ((List.range' a n).map .writeEntry) = some { s with
      seg := s.seg.put { s.seg.sgm with indexDisk := copy s.seg.sgm.indexDisk s.seg.sgm.index a n }
      sync := .msyncIndex known wIndex length [] }
  | 0, a, s, hs => by
    rw [copy_zero]
    have hstay : s = { s with seg := s.seg.put s.seg.sgm, sync := .msyncIndex known wIndex length [] } := by
      rw [← show s.sync = .msyncIndex known wIndex length [] from hs]
      rfl
    exact congrArg some hstay
  | n + 1, a, s, hs => by
    have hwrote : (s.writeEntry a).sync =
        .msyncIndex known wIndex length (List.range' (a + 1) n) := by
      show s.sync.wroteEntry a = _
      rw [hs, SyncPc.wroteEntry, filter_range']
    have hrest := run_writeEntries n (a + 1) hwrote
    rw [List.range'_succ, List.map_cons]
    refine Lib.run_cons_eq_some.mpr ⟨s.writeEntry a, rfl, hrest.trans ?_⟩
    rw [← copy_succ]
    rfl

theorem along_writeEntries {wIndex length : Nat} : ∀ (n a : Nat) {s : SyncState},
    s.sync = .msyncIndex known wIndex length (List.range' a n) →
    Along (syncStep page) Uninterrupted s ((List.range' a n).map .writeEntry)
  | 0, _, _, _ => trivial
  | n + 1, a, s, hs => by
    have hwrote : (s.writeEntry a).sync =
        .msyncIndex known wIndex length (List.range' (a + 1) n) := by
      show s.sync.wroteEntry a = _
      rw [hs, SyncPc.wroteEntry, filter_range']
    have hmem : a ∈ s.sync.entriesLeft := by
      rw [hs]
      exact List.mem_range'_1.mpr ⟨Nat.le_refl a, by omega⟩
    exact Lib.along_cons hmem rfl (along_writeEntries n (a + 1) hwrote)

/-- `sync_index`, from the read of the write offset on. -/
theorem solo_syncIndex (page : PageSize) (hs : s.sync = .indexOffset known)
    (hle : s.seg.sgm.sOffset.index ≤ s.seg.sgm.wOffset.index)
    (hsmall : s.seg.sgm.wOffset.index < 2 ^ 32) (msync : Bool) :
    ∃ is, Along (syncStep page) Uninterrupted s is ∧ run (syncStep page) s is = some { s with
      seg := s.seg.put (syncIndex page msync s.seg.sgm).2
      sync := .idle
      synced := s.synced ++ [⟨known, (syncIndex page msync s.seg.sgm).1⟩] } := by
  have hread : s.access page true = some _ := access_indexOffset hs hle hsmall true
  cases msync with
  | false =>
    exact ⟨[.access true, .access false], ⟨trivial, fun _ _ => ⟨trivial, fun _ _ => trivial⟩⟩,
      Lib.run_cons_eq_some.mpr ⟨_, hread, rfl⟩⟩
  | true =>
    refine ⟨.access true :: ((List.range' (syncStartIndex page s.seg.sgm)
      (s.seg.sgm.wOffset.index - syncStartIndex page s.seg.sgm)).map .writeEntry ++ [.access true]),
      Lib.along_cons trivial hread (Lib.along_append (along_writeEntries _ _ rfl)
        (run_writeEntries _ _ rfl)
        (along_access true)), Lib.run_cons_eq_some.mpr ⟨_, hread, ?_⟩⟩
    rw [Lib.run_append, run_writeEntries _ _ rfl, Option.bind_some, syncIndex_eq page hle hsmall]
    rfl

/-- **A sync that no other thread interrupts** is `segmentSync`. -/
theorem solo_sync (page : PageSize) (hs : s.sync = .idle)
    (hle : s.seg.sgm.sOffset.data ≤ s.seg.sgm.wOffset.data) (hsmall : s.seg.sgm.wOffset.data <
      2 ^ 32) (hle' : s.seg.sgm.sOffset.index ≤ s.seg.sgm.wOffset.index)
    (hsmall' : s.seg.sgm.wOffset.index < 2 ^ 32) (msyncs : Bool × Bool) :
    ∃ is, Along (syncStep page) Uninterrupted s (.sync :: is) ∧
      run (syncStep page) s (.sync :: is) = some { s with
      seg := s.seg.put (segmentSync page msyncs s.seg.sgm).2
      synced := s.synced ++
          [⟨(payloads s.seg.claims).length, (segmentSync page msyncs s.seg.sgm).1⟩] } := by
  obtain ⟨msync, msync'⟩ := msyncs
  have hcall : syncStep page s .sync =
      some { s with sync := .dataOffset (payloads s.seg.claims).length } := by
    rw [syncStep, hs]
  suffices hsuffices : ∃ is,
      Along (syncStep page) Uninterrupted { s with
        sync := .dataOffset (payloads s.seg.claims).length } is ∧
      run (syncStep page) { s with sync := .dataOffset (payloads s.seg.claims).length } is =
        some { s with
        seg := s.seg.put (segmentSync page (msync, msync') s.seg.sgm).2
        sync := .idle
        synced := s.synced ++ [⟨(payloads s.seg.claims).length,
          (segmentSync page (msync, msync') s.seg.sgm).1⟩] } by
    obtain ⟨is, halong, hrun⟩ := hsuffices
    refine ⟨is, Lib.along_cons trivial hcall halong,
      Lib.run_cons_eq_some.mpr ⟨_, hcall, hrun.trans ?_⟩⟩
    rw [hs]
  have hread : { s with sync := .dataOffset (payloads s.seg.claims).length }.access page true =
    some _ :=
    access_dataOffset (s := { s with sync := .dataOffset (payloads s.seg.claims).length }) rfl hle
      hsmall true
  cases msync with
  | false =>
    exact ⟨[.access true, .access false], ⟨trivial, fun _ _ => ⟨trivial, fun _ _ => trivial⟩⟩,
      Lib.run_cons_eq_some.mpr ⟨_, hread, rfl⟩⟩
  | true =>
    rw [segmentSync, syncData_eq page hle hsmall]
    dsimp only
    by_cases hzero : toInt (s.seg.sgm.wOffset.data - syncStart page s.seg.sgm) ≤ 0
    · -- nothing to sync
      rw [if_pos hzero]
      refine ⟨.access true :: ((List.range' (syncStart page s.seg.sgm)
        (s.seg.sgm.wOffset.data - syncStart page s.seg.sgm)).map .writeByte ++ [.access true]),
        Lib.along_cons trivial hread (Lib.along_append (along_writeBytes _ _ rfl)
          (run_writeBytes _ _ rfl)
          (along_access true)), Lib.run_cons_eq_some.mpr ⟨_, hread, ?_⟩⟩
      rw [Lib.run_append, run_writeBytes _ _ rfl, Option.bind_some]
      refine Lib.run_cons_eq_some.mpr ⟨_, ?_, rfl⟩
      exact if_pos hzero
    · rw [if_neg hzero]
      obtain ⟨is, halong, hrun⟩ := solo_syncIndex page (s := { s with
        seg := s.seg.put (s.seg.sgm.dataSynced page)
        sync := .indexOffset (payloads s.seg.claims).length }) rfl hle' hsmall' msync'
      refine ⟨.access true :: ((List.range' (syncStart page s.seg.sgm)
        (s.seg.sgm.wOffset.data - syncStart page s.seg.sgm)).map .writeByte ++ .access true :: is),
        Lib.along_cons trivial hread (Lib.along_append (along_writeBytes _ _ rfl)
          (run_writeBytes _ _ rfl)
          (Lib.along_cons (i := .access true) trivial (if_neg hzero) halong)),
            Lib.run_cons_eq_some.mpr ⟨_, hread, ?_⟩⟩
      rw [Lib.run_append, run_writeBytes _ _ rfl, Option.bind_some]
      exact Lib.run_cons_eq_some.mpr ⟨_, if_neg hzero, hrun⟩

end Solo

end Mqlog
