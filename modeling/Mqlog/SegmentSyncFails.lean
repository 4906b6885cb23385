/-
  A sync that stops half way.

  `segment_sync` moves the data part of the synced position when `sync_data` succeeds and the index
  part when `sync_index` does, so between the two only one part has moved.  It stops there when

  * the second `msync` fails;
  * `sync_data` has written `2 ^ 31` bytes or more, which is a negative `int`;
  * `sync_data` has written nothing, because the write offset is where a page starts, and only index
    entries of an earlier failed sync are left.

  `SyncsWhole` is that none of these happens, or happens with no data left to sync.
  `segmentSync_steps` computes what a sync does; `sync_all_or_nothing_iff` compares the two on every
  segment that calls can reach.

  The property has two halves, one for each sign of the return code: a code of `0` or more means
  that everything is synced, a negative one that the synced position is where it was.  Each of them
  fails in its own way:

      code < 0   after the data part has moved: the data are synced, the entries are not
      code = 0   with entries left, when there are no data to sync and a page starts there

  The invariant of reachable segments (`SyncInv`) is about the offsets only: they are in order, the
  write offset lies behind the end of the segment at most when that counts as sealed, and the number
  of entries is bounded by the number of bytes, up to what the scan of an index file may find
  (`count_le`).  The bounds matter for the arithmetic in 32 bits.
-/
import Mqlog.SegmentReach

namespace Mqlog

open Lib.Mem Lib.Records

/-! ## The property -/

/-- A sync that returns `0` or more has synced all that was written, and one that returns a negative
    value has left the synced position where it was. -/
def AllOrNothing (page : PageSize) (msyncs : Bool × Bool) (sgm : Segment) : Prop :=
  (0 ≤ (segmentSync page msyncs sgm).1 → (segmentSync page msyncs sgm).2.sOffset = sgm.wOffset) ∧
    ((segmentSync page msyncs sgm).1 < 0 → (segmentSync page msyncs sgm).2.sOffset = sgm.sOffset)

/-- The first `msync` fails, or nothing is unsynced; or only index entries are, and the write offset
    is not where a page starts; or there is unsynced data, less than `2 ^ 31` bytes from the start
    of its page on, and the second `msync` succeeds. -/
def SyncsWhole (page : PageSize) (msyncs : Bool × Bool) (sgm : Segment) : Prop :=
  msyncs.1 = false ∨ sgm.sOffset = sgm.wOffset ∨
    (sgm.sOffset.data = sgm.wOffset.data ∧ syncStart page sgm < sgm.wOffset.data) ∨
    (sgm.sOffset.data ≠ sgm.wOffset.data ∧ sgm.wOffset.data - syncStart page sgm < 2 ^ 31 ∧
      msyncs.2 = true)

/-! ## One sync -/

/-- The synced position and the write offset are in order, and in the range of their fields. -/
structure SyncInv (sgm : Segment) : Prop where
  size_le : sgm.size + 4096 ≤ 2 ^ 32
  /-- Only the end-of-segment frame may lie behind the end. -/
  written : sgm.wOffset.data ≤ sgm.size ∨ markedEos sgm = true ∧ sgm.wOffset.data < 2 ^ 32
  data_le : sgm.sOffset.data ≤ sgm.wOffset.data
  index_le : sgm.sOffset.index ≤ sgm.wOffset.index
  count_le : headerSize * sgm.wOffset.index ≤ headerSize * 2 ^ 26 + sgm.wOffset.data

namespace SyncInv

variable {sgm : Segment}

theorem data_lt (h : SyncInv sgm) : sgm.wOffset.data < 2 ^ 32 := by
  have hsize := h.size_le
  rcases h.written with hw | ⟨-, hw⟩
  · omega
  · exact hw

theorem index_lt (h : SyncInv sgm) : sgm.wOffset.index < 2 ^ 31 := by
  have hdata := h.data_lt
  have hcount := h.count_le
  have h12 : headerSize = 12 := rfl
  rw [h12] at hcount
  omega

end SyncInv

/-- **What a sync does**: the four ways through `segment_sync` when the first `msync` succeeds. -/
theorem segmentSync_steps (page : PageSize) {sgm : Segment} (h : SyncInv sgm) (msync : Bool) :
    (sgm.wOffset.data = syncStart page sgm ∧
      segmentSync page (true, msync) sgm = (0, sgm.dataSynced page)) ∨
    (2 ^ 31 ≤ sgm.wOffset.data - syncStart page sgm ∧
      ∃ rc < 0, segmentSync page (true, msync) sgm = (rc, sgm.dataSynced page)) ∨
    (syncStart page sgm < sgm.wOffset.data ∧ sgm.wOffset.data - syncStart page sgm < 2 ^ 31 ∧
      (msync = false ∧ segmentSync page (true, msync) sgm = (ELDTSYN, sgm.dataSynced page) ∨
        msync = true ∧ segmentSync page (true, msync) sgm =
          (((sgm.wOffset.index - sgm.sOffset.index : Nat) : Int),
            (sgm.dataSynced page).indexSynced page))) := by
  have hle := h.data_le
  have hdata := h.data_lt
  have hstart := syncStart_le page (show sgm.sOffset.data < 2 ^ 32 by omega)
  rw [segmentSync, syncData_eq page hle hdata]
  simp only []
  rcases Nat.lt_or_ge (sgm.wOffset.data - syncStart page sgm) (2 ^ 31) with hlt | hge
  · rw [toInt_of_lt hlt]
    rcases Nat.eq_or_lt_of_le (Nat.le_trans hstart hle) with heq | hpos
    · refine Or.inl ⟨heq.symm, ?_⟩
      rw [if_pos (by omega), heq, Nat.sub_self]
      rfl
    · refine Or.inr (Or.inr ⟨hpos, hlt, ?_⟩)
      rw [if_neg (by omega)]
      cases msync with
      | false => exact Or.inl ⟨rfl, rfl⟩
      | true =>
        refine Or.inr ⟨rfl, ?_⟩
        have hindex : (sgm.dataSynced page).sOffset.index ≤ (sgm.dataSynced page).wOffset.index :=
          h.index_le
        have hcount : (sgm.dataSynced page).wOffset.index < 2 ^ 31 := h.index_lt
        rw [syncIndex_eq page hindex (by omega), toInt_of_lt (by omega)]
        rfl
  · have hneg := toInt_neg hge (by omega)
    refine Or.inr (Or.inl ⟨hge, _, hneg, ?_⟩)
    rw [if_pos (Int.le_of_lt hneg)]

theorem sOffset_eq_iff {p q : OffsetPair} : p = q ↔ p.index = q.index ∧ p.data = q.data := by
  cases p
  cases q
  exact OffsetPair.mk.injEq .. ▸ Iff.rfl

/-- A negative code is right as long as no data was left to sync. -/
theorem failed_iff {page : PageSize} {sgm : Segment} {msyncs : Bool × Bool} {rc : Int}
    (hrc : rc < 0) (heq : segmentSync page msyncs sgm = (rc, sgm.dataSynced page)) :
    AllOrNothing page msyncs sgm ↔ sgm.sOffset.data = sgm.wOffset.data := by
  rw [AllOrNothing, heq]
  constructor
  · intro h
    exact (congrArg OffsetPair.data (h.2 hrc)).symm
  · intro h
    exact ⟨fun hle => absurd hrc (Int.not_lt.mpr hle), fun _ => sOffset_eq_iff.mpr ⟨rfl, h.symm⟩⟩

/-- **A sync is all or nothing** exactly under the condition. -/
theorem allOrNothing_iff (page : PageSize) {sgm : Segment} (h : SyncInv sgm)
    (msyncs : Bool × Bool) :
    AllOrNothing page msyncs sgm ↔ SyncsWhole page msyncs sgm := by
  obtain ⟨first, second⟩ := msyncs
  cases first with
  | false =>
    -- nothing has been done
    have heq : segmentSync page (false, second) sgm = (ELDTSYN, sgm) := rfl
    have hneg : ¬ (0 : Int) ≤ ELDTSYN := by decide
    rw [AllOrNothing, heq]
    exact ⟨fun _ => Or.inl rfl, fun _ => ⟨fun hrc => absurd hrc hneg, fun _ => rfl⟩⟩
  | true =>
    have hle := h.data_le
    have hlt := h.data_lt
    have hstart := syncStart_le page (show sgm.sOffset.data < 2 ^ 32 by omega)
    rw [SyncsWhole, sOffset_eq_iff]
    rcases segmentSync_steps page h second with ⟨hpage, heq⟩ | ⟨hlarge, rc, hrc, heq⟩ |
      ⟨hpos, hsmall, ⟨rfl, heq⟩ | ⟨rfl, heq⟩⟩
    · -- the index is not synced
      have hdata : sgm.sOffset.data = sgm.wOffset.data := by omega
      have hiff : AllOrNothing page (true, second) sgm ↔ sgm.sOffset.index = sgm.wOffset.index := by
        rw [AllOrNothing, heq]
        constructor
        · intro hall
          have hw : (sgm.dataSynced page).sOffset = sgm.wOffset := hall.1 (Int.le_refl 0)
          exact (sOffset_eq_iff.mp hw).1
        · intro hindex
          exact ⟨fun _ => sOffset_eq_iff.mpr ⟨hindex, rfl⟩, fun hrc => absurd hrc (Int.lt_irrefl 0)⟩
      rw [hiff]
      constructor
      · exact fun hindex => Or.inr (Or.inl ⟨hindex, hdata⟩)
      · rintro (hfalse | ⟨hindex, -⟩ | ⟨-, hpos⟩ | ⟨hne, -⟩)
        · cases hfalse
        · exact hindex
        · omega
        · exact absurd hdata hne
    · rw [failed_iff hrc heq]
      constructor
      · exact fun hdata => Or.inr (Or.inr (Or.inl ⟨hdata, by omega⟩))
      · rintro (hfalse | ⟨-, hdata⟩ | ⟨hdata, -⟩ | ⟨-, hsmall, -⟩)
        · cases hfalse
        · exact hdata
        · exact hdata
        · omega
    · rw [failed_iff (show ELDTSYN < 0 by decide) heq]
      constructor
      · exact fun hdata => Or.inr (Or.inr (Or.inl ⟨hdata, hpos⟩))
      · rintro (hfalse | ⟨-, hdata⟩ | ⟨hdata, -⟩ | ⟨-, -, hfalse⟩)
        · cases hfalse
        · exact hdata
        · exact hdata
        · cases hfalse
    · have hall : AllOrNothing page (true, true) sgm := by
        rw [AllOrNothing, heq]
        exact ⟨fun _ => rfl, fun hrc => absurd (Int.natCast_nonneg _) (Int.not_le.mpr hrc)⟩
      refine ⟨fun _ => ?_, fun _ => hall⟩
      by_cases hdata : sgm.sOffset.data = sgm.wOffset.data
      · exact Or.inr (Or.inr (Or.inl ⟨hdata, hpos⟩))
      · exact Or.inr (Or.inr (Or.inr ⟨hdata, hsmall, rfl⟩))

/-! ## Every call keeps the invariant -/

/-- A sync moves the synced position up to the write offset, part by part. -/
theorem segmentSync_between (page : PageSize) {sgm : Segment} (h : SyncInv sgm)
    (msyncs : Bool × Bool) :
    (segmentSync page msyncs sgm).2.sOffset.data ≤ sgm.wOffset.data ∧
      (segmentSync page msyncs sgm).2.sOffset.index ≤ sgm.wOffset.index := by
  obtain ⟨first, second⟩ := msyncs
  have hboth : (sgm.dataSynced page).sOffset.data ≤ sgm.wOffset.data ∧
    (sgm.dataSynced page).sOffset.index ≤ sgm.wOffset.index := ⟨Nat.le_refl _, h.index_le⟩
  cases first with
  | false => exact ⟨h.data_le, h.index_le⟩
  | true =>
    rcases segmentSync_steps page h second with ⟨-, heq⟩ | ⟨-, rc, -, heq⟩ |
      ⟨-, -, ⟨-, heq⟩ | ⟨-, heq⟩⟩
    · rw [heq]
      exact hboth
    · rw [heq]
      exact hboth
    · rw [heq]
      exact hboth
    · rw [heq]
      exact ⟨Nat.le_refl _, Nat.le_refl _⟩

theorem markedEos_congr {sgm sgm' : Segment} (hbuffer : sgm'.buffer = sgm.buffer)
    (hw : sgm'.wOffset = sgm.wOffset) : markedEos sgm' = markedEos sgm := by
  rw [markedEos, markedEos, hbuffer, hw]

/-- The step lemma. -/
theorem SyncInv.segmentOp (page : PageSize) {sgm : Segment} (h : SyncInv sgm) :
    ∀ op : SegmentOp, SyncInv (segmentOp page sgm op).2
  | .read relativeOffset => h
  | .sync msyncs => by
    obtain ⟨-, hsize, -, hbuffer, -, hw⟩ := segmentSync_frame page sgm msyncs
    obtain ⟨hdata, hindex⟩ := segmentSync_between page h msyncs
    rw [Mqlog.segmentOp]
    constructor
    · rw [hsize]
      exact h.size_le
    · rw [hsize, hw, markedEos_congr hbuffer hw]
      exact h.written
    · rw [hw]
      exact hdata
    · rw [hw]
      exact hindex
    · rw [hw]
      exact h.count_le
  | .write buf => by
    rw [Mqlog.segmentOp]
    cases hmark : markedEos sgm with
    | true =>
      rw [segmentWrite_marked hmark]
      exact h
    | false =>
      have hsize := h.size_le
      have hdata := h.data_le
      have hindex := h.index_le
      have hcount := h.count_le
      have h12 : headerSize = 12 := rfl
      have hw : sgm.wOffset.data ≤ sgm.size := by
        rcases h.written with hw | ⟨hm, -⟩
        · exact hw
        · rw [hmark] at hm
          cases hm
      rw [h12] at hcount
      rcases segmentWrite_cases sgm buf hw (by omega) with ⟨hm, -⟩ | ⟨-, -, heq⟩ | ⟨-, hfits, heq⟩
      · rw [hmark] at hm
        cases hm
      · -- sealed
        have hmod : (sgm.wOffset.data + headerSize) % 2 ^ 32 = sgm.wOffset.data + headerSize :=
          Nat.mod_eq_of_lt (by omega)
        rw [heq, hmod]
        refine ⟨hsize, Or.inr ⟨markedEos_store rfl rfl, ?_⟩, ?_, hindex, ?_⟩
        · show sgm.wOffset.data + headerSize < 2 ^ 32
          omega
        · show sgm.sOffset.data ≤ sgm.wOffset.data + headerSize
          omega
        · show headerSize * sgm.wOffset.index ≤ headerSize * 2 ^ 26 +
            (sgm.wOffset.data + headerSize)
          rw [h12]
          omega
      · -- one more message
        have hmod : (sgm.wOffset.index + 1) % 2 ^ 32 = sgm.wOffset.index + 1 :=
          Nat.mod_eq_of_lt (by omega)
        rw [heq, hmod]
        refine ⟨hsize, Or.inl ?_, ?_, Nat.le_succ_of_le hindex, ?_⟩
        · show sgm.wOffset.data + headerSize + buf.1.length ≤ sgm.size
          omega
        · show sgm.sOffset.data ≤ sgm.wOffset.data + headerSize + buf.1.length
          omega
        · show headerSize * (sgm.wOffset.index + 1) ≤
            headerSize * 2 ^ 26 + (sgm.wOffset.data + headerSize + buf.1.length)
          rw [h12]
          omega

/-- **Any number of calls** keep the invariant. -/
theorem SyncInv.segmentOps (page : PageSize) :
    ∀ (ops : List SegmentOp) {sgm : Segment}, SyncInv sgm →
    SyncInv (segmentOps page sgm ops)
  | [], _, h => h
  | op :: ops, _, h => SyncInv.segmentOps page ops (h.segmentOp page op)

/-! ## Reachable segments -/

/-- The index of a segment is scanned within its file. -/
theorem findFrom_index_lt {buffer : Nat → UInt8} {index : Nat → Nat} {w : OffsetPair} :
    ∀ (r i prev : Nat), findFrom buffer index r i prev = some w → w.index < i + r
  | 0, _, _, h => by cases h
  | r + 1, i, prev, h => by
    rw [findFrom] at h
    split at h
    · obtain rfl := Option.some.inj h
      have hmod := Nat.mod_le i (2 ^ 32)
      show i % 2 ^ 32 < i + (r + 1)
      omega
    · have hlt := findFrom_index_lt r (i + 1) (index i) h
      omega

theorem SyncInv.of_open {page : PageSize} {calls : OpenCalls} {files files' : SegmentFiles}
    {baseOffset size flags : Nat} {sgm : Segment} {rc : Int} (hsmall : size < 2 ^ 32)
    (hopen : segmentOpen page calls files baseOffset size flags = (rc, some sgm, files'))
    (hw : sgm.wOffset.data ≤ size) : SyncInv sgm := by
  obtain ⟨-, h0, hmod, data, index, w, -, -, hfound, rfl⟩ := segmentOpen_some hopen
  have hindex := findFrom_index_lt _ _ _ hfound
  rw [Nat.zero_add, ← indexCapacity] at hindex
  have hcap := indexCapacity_lt hsmall
  have h12 : headerSize = 12 := rfl
  -- `2 ^ 32` is a multiple of 4096 as well
  have hpages : size + 4096 ≤ 2 ^ 32 := by
    obtain ⟨k, hk, -, hbytes⟩ := page.pow
    have hdvd : 2 ^ 12 ∣ page.bytes := hbytes ▸ Nat.pow_dvd_pow 2 hk
    have hdvd' := Nat.dvd_trans hdvd (Nat.dvd_of_mod_eq_zero hmod)
    omega
  constructor
  · exact hpages
  · exact Or.inl hw
  · exact Nat.le_refl _
  · exact Nat.le_refl _
  · show headerSize * w.index ≤ headerSize * 2 ^ 26 + w.data
    rw [h12]
    omega

/-- **A sync is all or nothing** exactly under the condition, for every segment that calls can reach
    and every outcome of the two `msync`s. -/
theorem sync_all_or_nothing_iff {page : PageSize} {es : List SegmentEvent} {sgm : Segment}
    (hrun : Lib.run (segmentLife page) .init es = some (.opened sgm)) (msyncs : Bool × Bool) :
    AllOrNothing page msyncs sgm ↔ SyncsWhole page msyncs sgm := by
  refine allOrNothing_iff page (segmentLife_invariant ?_ (fun sgm op h => ?_) hrun) msyncs
  · intro calls files files' baseOffset size flags sgm rc hsmall hopen hw
    exact SyncInv.of_open hsmall hopen hw
  · exact h.segmentOp page op

/-- A message, then a close that fails and one that does not; and a message to the segment opened
    again. -/
def closedInBetween : List SegmentEvent :=
  [.segmentOpen .ok 0 4096 sgmRdcmt, .op (.write ⟨[0x61], by decide⟩), .segmentClose (true, false),
    .segmentClose (true, true), .segmentOpen .ok 0 4096 sgmRdcmt, .op (.write ⟨[0x62], by decide⟩)]

theorem sync_all_or_nothing_iff_of_two :
    ∃ sgm, Lib.run (segmentLife page4096) .init closedInBetween = some (.opened sgm) ∧
      sgm.wOffset.index = 2 ∧
      (AllOrNothing page4096 (true, true) sgm ↔ SyncsWhole page4096 (true, true) sgm) := by
  have hruns : ∃ sgm, Lib.run (segmentLife page4096) .init closedInBetween = some (.opened sgm) ∧
      sgm.wOffset.index = 2 := ⟨_, rfl, rfl⟩
  obtain ⟨sgm, hrun, hcount⟩ := hruns
  exact ⟨sgm, hrun, hcount, sync_all_or_nothing_iff hrun (true, true)⟩

/-- A message that fills a page, read by a committed reader.  The sync of its index entry fails: the
    call returns a negative value, and the message can be read; and the next sync returns `0`
    although the entry is not synced. -/
theorem failed_sync_commits :
    ∃ s, Lib.run (segmentLife page4096) .init [.segmentOpen .ok 0 8192 sgmRdcmt,
        .op (.write (bytes 4084 0x61 (by decide)))] = some (.opened s) ∧
      (segmentRead s 0).1 = ELNORD ∧ (segmentSync page4096 (true, false) s).1 = ELDTSYN ∧
      ¬ AllOrNothing page4096 (true, false) s ∧
      let s' := (segmentSync page4096 (true, false) s).2
      (segmentRead s' 0).1 = 4084 ∧ (segmentSync page4096 (true, true) s').1 = 0 ∧
      (segmentSync page4096 (true, true) s').2.sOffset = ⟨0, 4096⟩ ∧ s'.wOffset = ⟨1, 4096⟩ ∧
      ¬ AllOrNothing page4096 (true, true) s' := by
  refine ⟨_, rfl, ?_⟩
  refine ⟨by decide +kernel, by decide +kernel, ?_, by decide +kernel, by decide +kernel,
    by decide +kernel, by decide +kernel, ?_⟩
  · rintro ⟨-, hfailed⟩
    exact absurd (hfailed (by decide +kernel)) (by decide +kernel)
  · rintro ⟨hsucceeded, -⟩
    exact absurd (hsucceeded (by decide +kernel)) (by decide +kernel)

end Mqlog
