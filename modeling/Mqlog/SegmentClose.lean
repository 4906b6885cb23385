/-
  Closing a segment: the files it leaves behind, and what opens from them again.

  The mappings are shared with the files, so closing leaves what is mapped (`closedFiles`); it fails
  when the part that is not synced yet is so large that the `int` in which `sync_data` returns its
  size is negative (`segmentClose_zero_iff`).  A segment that holds messages is found again as it
  was (`Holds.closedFiles_eq`), but for the end-of-segment frame: the write offset is then in front
  of it.  A segment sealed before it got a message is different, since there the frame at position 0
  counts as one message (`segmentOpen_sealed`).

  There are three kinds of files that a close can leave behind, and `segment_open` treats each in
  its own way:

      messages, and a free entry     opens, with the same messages (`segmentOpen_closed`)
      messages, and no free entry    fails with `ELWOFFS` (`segmentOpen_closed_full`)
      a lone end-of-segment frame    opens, and counts it as a message (`segmentOpen_sealed`)

  The files are as long as the mappings were asked for: the data file has the size of the segment,
  the index file that of `calculate_index_size`.  An entry behind the end of the index file is not
  in the file (`File.ofMapping`), so the second kind is also what is left of a segment whose index
  was written past.
-/
import Mqlog.SegmentSync

namespace Mqlog

open Lib.Mem Lib.Records

/-! ## Closing -/

/-- The files that a closed segment leaves behind. -/
def closedFiles (sgm : Segment) : SegmentFiles where
  data := some (File.ofMapping 0 sgm.size sgm.size sgm.buffer)
  index := some (File.ofMapping 0 (calculateIndexSize sgm.size) (indexCapacity sgm.size) sgm.index)

/-- Closing a segment whose unsynced part is not too large for an `int`. -/
theorem segmentClose_eq (page : PageSize) {sgm : Segment}
    (hdata : sgm.sOffset.data ≤ sgm.wOffset.data) (hindex : sgm.sOffset.index ≤ sgm.wOffset.index)
    (hsmall : sgm.wOffset.data < 2 ^ 31) (hsmall' : sgm.wOffset.index < 2 ^ 31) :
    ∃ sgm', segmentClose page (true, true) sgm = (0, sgm', some (closedFiles sgm)) ∧
      sgm'.baseOffset = sgm.baseOffset := by
  obtain ⟨-, hsize, hbase, hbuffer, hidx, -⟩ :=
    segmentSync_frame page sgm (true, true)
  have hrc : ¬ (segmentSync page (true, true) sgm).1 < 0 := by
    rw [segmentSync, syncData_eq page hdata (by omega), toInt_of_lt (by omega)]
    simp only []
    split
    · omega
    · rw [syncIndex_eq page (by exact hindex) (by exact Nat.lt_trans hsmall' (by decide)),
        show ((sgm.dataSynced page).wOffset.index - (sgm.dataSynced page).sOffset.index) =
          sgm.wOffset.index - sgm.sOffset.index from rfl, toInt_of_lt (by omega)]
      omega
  refine ⟨(segmentSync page (true, true) sgm).2, ?_, hbase⟩
  rw [segmentClose]
  simp only []
  rw [if_neg hrc, hsize, hbuffer, hidx]
  rfl

/-- **Closing a segment that was never synced** fails when its data are too large for an `int`. -/
theorem segmentClose_zero_iff (page : PageSize) {sgm : Segment} (hs : sgm.sOffset = ⟨0, 0⟩)
    (hdata : sgm.wOffset.data < 2 ^ 32) (hindex : sgm.wOffset.index < 2 ^ 31) :
    (segmentClose page (true, true) sgm).1 = 0 ↔ sgm.wOffset.data < 2 ^ 31 := by
  have hsdata : sgm.sOffset.data = 0 := congrArg OffsetPair.data hs
  have hsindex : sgm.sOffset.index = 0 := congrArg OffsetPair.index hs
  rcases Nat.lt_or_ge sgm.wOffset.data (2 ^ 31) with hlt | hge
  · obtain ⟨sgm', hclose, -⟩ := segmentClose_eq page (by omega) (by omega) hlt hindex
    rw [hclose]
    exact ⟨fun _ => hlt, fun _ => rfl⟩
  · have hstart : syncStart page sgm = 0 := by
      have hle := syncStart_le page (show sgm.sOffset.data < 2 ^ 32 by omega)
      omega
    have hneg := toInt_neg hge hdata
    have hrc : (segmentSync page (true, true) sgm).1 = toInt sgm.wOffset.data := by
      rw [segmentSync, syncData_eq page (by omega) hdata, hstart, Nat.sub_zero]
      simp only [if_pos (Int.le_of_lt hneg)]
    rw [segmentClose]
    simp only [hrc, if_pos hneg]
    constructor <;> omega

/-! ## Opening again -/

namespace Holds

variable {sgm : Segment} {ps : List Buf} {tail : List UInt8}

/-- What is mapped is in the files, when the index file has room for all entries. -/
theorem closedFiles_eq (h : Holds sgm ps tail) (hcap : ps.length ≤ indexCapacity sgm.size) :
    closedFiles sgm = segmentFiles sgm.size sgm.buffer sgm.index := by
  have hdata : (fun i => if i < sgm.size then sgm.buffer i else 0) = sgm.buffer := by
    funext i
    split
    · rfl
    · rename_i hi
      have hf := h.fits
      have ht := h.tail_length
      rw [h.buffer, padded_of_ge (by rw [List.length_append]; omega)]
  have hindex : (fun k => if k < indexCapacity sgm.size then sgm.index k else 0) = sgm.index := by
    funext k
    split
    · rfl
    · rename_i hk
      rw [h.index, padded_of_ge (by rw [length_starts]; omega)]
  calc closedFiles sgm
      = segmentFiles sgm.size (fun i => if i < sgm.size then sgm.buffer i else 0)
          (fun k => if k < indexCapacity sgm.size then sgm.index k else 0) := rfl
    _ = _ := by rw [hdata, hindex]

/-- The segment opened from the files of one with messages holds the same, and its write offset is
    behind the last of them. -/
theorem reopened (h : Holds sgm ps tail) (b flags : Nat) :
    Holds
      (Segment.reopened b sgm.size flags sgm.buffer sgm.index ⟨ps.length, (image frame ps).length⟩)
      ps tail where
  buffer := h.buffer
  index := h.index
  count := rfl
  le_written := Nat.le_refl _
  written_le := Nat.le_add_right ..
  tail_eq := h.tail_eq
  fits := h.fits
  small := h.small

/-- **Reopening** a segment that has messages, or was not sealed, and whose index has a free
    entry. -/
theorem segmentOpen_closed {page : PageSize} (h : Holds sgm ps tail) (hne : ps ≠ [] ∨ tail = [])
    (hcap : ps.length < indexCapacity sgm.size) (h0 : 0 < sgm.size)
    (hmod : sgm.size % page.bytes = 0) (b flags : Nat) :
    segmentOpen page .ok (closedFiles sgm) b sgm.size flags =
      (0, some (Segment.reopened b sgm.size flags sgm.buffer sgm.index
        ⟨ps.length, (image frame ps).length⟩), closedFiles sgm) := by
  rw [h.closedFiles_eq (Nat.le_of_lt hcap)]
  exact segmentOpen_files b flags h0 hmod (h.findWOffsetPair_eq hne hcap)

/-- **A segment whose index has no free entry does not open again.** -/
theorem segmentOpen_closed_full {page : PageSize} (h : Holds sgm ps tail)
    (hcap : indexCapacity sgm.size ≤ ps.length) (h0 : 0 < sgm.size)
    (hmod : sgm.size % page.bytes = 0) (b flags : Nat) :
    segmentOpen page .ok (closedFiles sgm) b sgm.size flags = (ELWOFFS, none, closedFiles sgm) := by
  -- the entries that are left are those of the first messages
  have hstored := h.stored
  rw [← List.take_append_drop (indexCapacity sgm.size) ps] at hstored
  have hlen : (ps.take (indexCapacity sgm.size)).length = indexCapacity sgm.size :=
    List.length_take_of_le hcap
  have hsize : (image frame (ps.take (indexCapacity sgm.size))).length ≤ sgm.size := by
    have hle := start_mono (f := frame) (l := ps) hcap
    have hf := h.fits
    rw [start_length] at hle
    exact Nat.le_trans hle (Nat.le_trans (Nat.le_add_right ..) hf)
  have hfile : Stored frame (fun i => if i < sgm.size then sgm.buffer i else 0)
      (fun k => if k < indexCapacity sgm.size then sgm.index k else 0)
      (ps.take (indexCapacity sgm.size)) :=
    hstored.of_append.congr (fun p hp => if_pos (Nat.lt_of_lt_of_le hp hsize))
      fun k hk => if_pos (hlen ▸ hk)
  refine segmentOpen_full b flags h0 hmod (findFrom_none _ 0 0 fun j _ hj => ?_)
  refine used_of_stored hfile ?_
  rw [hlen, indexCapacity]
  omega

end Holds

/-! ## Sealed before it got a message -/

/-- The files of a segment that was sealed before it got a message. -/
def SealedFiles (size : Nat) (files : SegmentFiles) : Prop :=
  ∃ data index, files = segmentFiles size data index ∧
    (∀ p, p < size → data p = padded 0 eosFrame p) ∧ ∀ k, k < indexCapacity size → index k = 0

theorem sealedFiles_closed (sgm : Segment)
    (hbuffer : ∀ p, p < sgm.size → sgm.buffer p = padded 0 eosFrame p)
    (hindex : ∀ k, k < indexCapacity sgm.size → sgm.index k = 0) :
    SealedFiles sgm.size (closedFiles sgm) := by
  refine ⟨_, _, rfl, fun p hp => ?_, fun k hk => ?_⟩
  · exact (if_pos hp).trans (hbuffer p hp)
  · exact (if_pos hk).trans (hindex k hk)

/-- The segment that is opened from the files of a sealed one counts as sealed. -/
theorem segmentOpen_sealed {page : PageSize} (b : Nat) {size : Nat} (flags : Nat) (h0 : 0 < size)
    (hmod : size % page.bytes = 0) {files : SegmentFiles} (h : SealedFiles size files) :
    ∃ sgm, segmentOpen page .ok files b size flags = (0, some sgm, files) ∧
      markedEos sgm = true ∧ SealedFiles size (closedFiles sgm) ∧ sgm.baseOffset = b ∧
      sgm.sOffset = sgm.wOffset ∧ sgm.wOffset = ⟨1, headerSize⟩ := by
  have h4096 := page.le_of_mod h0 hmod
  have htwo := two_le_indexCapacity h4096
  obtain ⟨data, index, rfl, hdata, hindex⟩ := h
  have hload : load data 0 headerSize = headerBytes headerFlagsEos headerSize 0 := by
    have heos := load_padded (z := (0 : UInt8)) (l := []) (s := eosFrame) (r := []) rfl rfl
    rw [List.nil_append, List.append_nil] at heos
    refine Eq.trans (load_congr fun p _ hp => ?_) heos
    rw [length_eosFrame, headerSize] at *
    exact hdata p (by omega)
  have hhdr : HeaderAt data 0 headerFlagsEos headerSize 0 := hload
  have hflags := hhdr.flags_eq (by decide)
  have hused : ∀ j, j < 1 → ¬ Free data index j := by
    intro j hj hfree
    obtain rfl : j = 0 := by omega
    refine hfree.2 ⟨rfl, ?_⟩
    rw [protIsHeader, hflags]
    rfl
  have hw := findWOffsetPair_eq (n := calculateIndexSize size) (Nat.lt_succ_self 0) htwo hused
    (hindex 1 htwo)
  rw [Nat.sub_self, hindex 0 (Nat.lt_of_lt_of_le (by decide) htwo), hhdr.size_eq (by decide)] at hw
  refine ⟨_, segmentOpen_files _ _ h0 hmod hw, ?_, ?_, rfl, rfl, rfl⟩
  · show (if headerSize < headerSize then false
      else decide (hdrFlags data (headerSize - headerSize) = headerFlagsEos)) = true
    rw [if_neg (Nat.lt_irrefl _), Nat.sub_self, hflags]
    rfl
  · exact sealedFiles_closed (Segment.reopened b size flags data index _) hdata hindex

end Mqlog
