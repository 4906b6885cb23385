/-
  Closing a segment after a run of writes and opening it again.

  The write offset is not stored.  `find_w_offset_pair` takes the first free entry of the index for
  the number of messages, and the header of the last message for the end of the data; so

  * an index that is used up has no free entry, and then the segment does not open
    (`reopen_unsealed_iff`);
  * the end-of-segment frame is not seen, and a write that fits in its place is accepted; and when
    there is no message in front of it, it is taken for one (`reopen_sealed_iff`).

  Both results are about every run of writes on a new segment, through what the run has led to
  (`HistoryInv`).  Closing it succeeds when its data are not too large to be synced in one go
  (`HistoryInv.close_iff`); the number of its messages is never too large for an `int`.

  When a reopened segment refuses all writes is decided by an empty payload, which takes no more
  than a header and the room for an end-of-segment frame behind it (`refuses_iff`).  A segment
  without that much room answers `ELEOS` to everything, since the next write seals it once more; so
  does one that counts as sealed.  Any other segment takes messages again, from the place of the
  end-of-segment frame on.
-/
import Mqlog.SegmentClose
import Mqlog.SegmentHistory

namespace Mqlog

open Lib.Mem Lib.Records

/-! ## Unsealed segments -/

/-- What a run on a segment closes with: its number of messages is no problem for an `int`. -/
theorem HistoryInv.index_lt {size : Nat} {h : History} (hinv : HistoryInv size h) :
    h.sgm.wOffset.index < 2 ^ 31 := by
  have hcount := hinv.holds.count
  have hle : 12 * h.accepted.length + 12 ≤ h.sgm.size := hinv.holds.count_le
  have hsmall := hinv.holds.small
  omega

theorem HistoryInv.data_lt {size : Nat} {h : History} (hinv : HistoryInv size h) :
    h.sgm.wOffset.data < 2 ^ 32 :=
  Nat.lt_of_le_of_lt hinv.holds.written_le_size hinv.holds.small

/-- **Closing after a run of writes.** -/
theorem HistoryInv.close_iff {size : Nat} {h : History} (hinv : HistoryInv size h)
    (page : PageSize) (P : SegmentFiles → Prop) :
    (∃ sgm₁ files, segmentClose page (true, true) h.sgm = (0, sgm₁, some files) ∧ P files) ↔
      h.sgm.wOffset.data < 2 ^ 31 ∧ P (closedFiles h.sgm) := by
  have hiff := segmentClose_zero_iff page hinv.unsynced hinv.data_lt hinv.index_lt
  have hdata : h.sgm.sOffset.data ≤ h.sgm.wOffset.data := by
    rw [hinv.unsynced]
    exact Nat.zero_le _
  have hindex : h.sgm.sOffset.index ≤ h.sgm.wOffset.index := by
    rw [hinv.unsynced]
    exact Nat.zero_le _
  constructor
  · rintro ⟨sgm₁, files, hclose, hfiles⟩
    have hlt := hiff.mp (congrArg Prod.fst hclose)
    obtain ⟨sgm', hclose', -⟩ := segmentClose_eq page hdata hindex hlt hinv.index_lt
    rw [hclose'] at hclose
    obtain ⟨-, hclose⟩ := Prod.mk.inj hclose
    obtain rfl := Option.some.inj (Prod.mk.inj hclose).2
    exact ⟨hlt, hfiles⟩
  · rintro ⟨hlt, hfiles⟩
    obtain ⟨sgm', hclose', -⟩ := segmentClose_eq page hdata hindex hlt hinv.index_lt
    exact ⟨sgm', _, hclose', hfiles⟩

/-- **When an unsealed segment is found again**: when its index has a free entry, and its data are
    not too large to be synced in one go. -/
theorem reopen_unsealed_iff {page : PageSize} {baseOffset size flags : Nat}
    (hsmall : size < 2 ^ 32) {sgm : Segment} {files : SegmentFiles}
    (hopen : segmentOpen page .ok ⟨none, none⟩ baseOffset size flags = (0, some sgm, files))
    (bufs : List Buf) {h : History} (hrun : history sgm bufs = h) (hsealed : h.sealed = false)
    (flags' : Nat) :
    (∃ sgm₁ files, segmentClose page (true, true) h.sgm = (0, sgm₁, some files) ∧
      ∃ sgm₂, segmentOpen page .ok files baseOffset size flags' = (0, some sgm₂, files) ∧
        sgm₂.wOffset = ⟨h.accepted.length, framesSize h.accepted⟩) ↔
    h.accepted.length < indexCapacity size ∧ framesSize h.accepted < 2 ^ 31 := by
  obtain ⟨h0, hmod, rfl, -⟩ := segmentOpen_new_size hopen
  have h12 : headerSize ≤ size := Nat.le_trans (by decide) (page.le_of_mod h0 hmod)
  have hinv : HistoryInv size h := hrun ▸ historyInv_fresh h12 hsmall bufs
  have hholds := hinv.holds
  rw [HistoryInv.tail_of_unsealed hsealed] at hholds
  rw [hinv.close_iff, framesSize_eq, ← hholds.written_eq, and_comm]
  have hsize := hinv.size_eq
  subst hsize
  refine and_congr_left fun _ => ?_
  constructor
  · rintro ⟨sgm₂, hopen', -⟩
    refine Nat.lt_of_not_le fun hfull => ?_
    rw [hholds.segmentOpen_closed_full hfull h0 hmod] at hopen'
    cases hopen'
  · intro hcap
    refine ⟨_, hholds.segmentOpen_closed (.inr rfl) hcap h0 hmod baseOffset flags', ?_⟩
    rw [hholds.written_eq]
    rfl

/-- Two messages are found again. -/
theorem reopen_unsealed_iff_of_two :
    let h := history (Segment.fresh 0 4096 0) [⟨[0x61], by decide⟩, ⟨[0x62, 0x63], by decide⟩]
    ∃ sgm₁ files, segmentClose page4096 (true, true) h.sgm = (0, sgm₁, some files) ∧
      ∃ sgm₂, segmentOpen page4096 .ok files 0 4096 0 = (0, some sgm₂, files) ∧
        sgm₂.wOffset = ⟨h.accepted.length, framesSize h.accepted⟩ := by
  have hopen := segmentOpen_new 0 0 (by decide) (show 4096 % page4096.bytes = 0 by decide)
  exact (reopen_unsealed_iff (by decide) hopen _ rfl (by decide) 0).mpr (by decide)

/-- The index file of a segment of one page has room for 42 messages; after as many, the segment
    does not open again. -/
theorem full_index_not_reopened :
    let bufs := List.replicate 42 ⟨[0x61], by decide⟩
    let h := history (Segment.fresh 0 4096 0) bufs
    h.accepted = bufs ∧ h.sealed = false ∧
      bufs.length ≤ calculateIndexSize 4096 / indexEntrySize ∧
      ¬ ∃ sgm₁ files, segmentClose page4096 (true, true) h.sgm = (0, sgm₁, some files) ∧
        ∃ sgm₂, segmentOpen page4096 .ok files 0 4096 0 = (0, some sgm₂, files) ∧
          sgm₂.wOffset = ⟨42, framesSize bufs⟩ := by
  have hends : ∀ q ∈ (List.replicate 42 ⟨[0x61], by decide⟩ : List Buf).dropLast,
      endsLikeEos q = false := by
    intro q hq
    rw [List.eq_of_mem_replicate (List.dropLast_subset _ hq)]
    exact endsLikeEos_short (by decide)
  obtain ⟨haccepted, hsealed⟩ :=
    history_of_fits (b := 0) (f := 0) (show headerSize ≤ 4096 by decide)
    (by decide) _ hends (by decide)
  refine ⟨haccepted, hsealed, by decide, ?_⟩
  have hinv := historyInv_fresh (b := 0) (f := 0) (show headerSize ≤ 4096 by decide) (by decide)
    (List.replicate 42 ⟨[0x61], by decide⟩)
  rw [hinv.close_iff]
  rintro ⟨-, sgm₂, hopen, -⟩
  have hmod : (history (Segment.fresh 0 4096 0) (List.replicate 42 ⟨[0x61], by decide⟩)).sgm.size %
      page4096.bytes = 0 := by
    rw [hinv.size_eq]
    decide
  have hfull := hinv.holds.segmentOpen_closed_full (by rw [hinv.size_eq, haccepted]; decide)
    (by rw [hinv.size_eq]; decide) hmod 0 0
  rw [hinv.size_eq] at hfull
  rw [hfull] at hopen
  cases hopen

/-! ## Sealed segments -/

/-- A segment that counts as sealed stays as it is. -/
theorem run_sgm_of_marked {h : History} (hmark : markedEos h.sgm = true) (bufs : List Buf) :
    (bufs.foldl History.write h).sgm = h.sgm := by
  induction bufs generalizing h with
  | nil => rfl
  | cons buf bufs ih =>
    have hsgm : (h.write buf).sgm = h.sgm := by
      rw [History.write, segmentWrite_marked hmark]
    rw [List.foldl_cons, ih (by rwa [hsgm]), hsgm]

/-- **When all writes are refused**: by a segment that counts as sealed, and by one that has no room
    for the header of an empty message in front of an end-of-segment frame. -/
theorem refuses_iff (sgm : Segment) (hroom : sgm.wOffset.data + headerSize ≤ sgm.size)
    (hsmall : sgm.size < 2 ^ 32) :
    (∀ later buf, (segmentWrite (history sgm later).sgm buf).1 = ELEOS) ↔
      markedEos sgm = true ∨ sgm.size < sgm.wOffset.data + 2 * headerSize := by
  have h12 : headerSize = 12 := rfl
  have hd : sgm.wOffset.data ≤ sgm.size := by omega
  constructor
  · intro hall
    have hempty := hall [] ⟨[], by decide⟩
    change (segmentWrite sgm ⟨[], by decide⟩).1 = ELEOS at hempty
    rcases segmentWrite_cases sgm ⟨[], by decide⟩ hd hsmall with ⟨hmark, -⟩ | ⟨-, hfull, -⟩ |
      ⟨-, -, heq⟩
    · exact .inl hmark
    · exact .inr hfull
    · rw [heq] at hempty
      have hzero : (0 : Int) = ELEOS := hempty
      exact absurd hzero (by decide)
  · intro hor later buf
    -- the first write marks the segment, if it is not marked already
    have hfirst : ∀ b, (segmentWrite sgm b).1 = ELEOS ∧
        markedEos (segmentWrite sgm b).2 = true := by
      intro b
      rcases segmentWrite_cases sgm b hd hsmall with ⟨hmark, heq⟩ | ⟨-, -, heq⟩ | ⟨hnot, hfits, -⟩
      · rw [heq]
        exact ⟨rfl, hmark⟩
      · rw [heq]
        exact ⟨rfl, markedEos_store (Nat.mod_eq_of_lt (by omega)) rfl⟩
      · rcases hor with hmark | hfull
        · rw [hmark] at hnot
          cases hnot
        · omega
    cases later with
    | nil => exact (hfirst buf).1
    | cons b later =>
      have hmark : markedEos ((⟨sgm, [], false⟩ : History).write b).sgm = true := (hfirst b).2
      have hsgm : (history sgm (b :: later)).sgm = ((⟨sgm, [], false⟩ : History).write b).sgm :=
        run_sgm_of_marked hmark later
      rw [hsgm, segmentWrite_marked hmark]

/-- Nothing but the end-of-segment frame is in the files of a segment sealed before it got a
    message. -/
theorem HistoryInv.sealedFiles {size : Nat} {h : History} (hinv : HistoryInv size h)
    (hsealed : h.sealed = true) (hnone : h.accepted = []) :
    SealedFiles size (closedFiles h.sgm) := by
  have hholds := hinv.holds
  rw [HistoryInv.tail_of_sealed hsealed, hnone] at hholds
  have hfiles := sealedFiles_closed h.sgm (fun p _ => congrFun hholds.buffer p) fun k _ =>
    congrFun hholds.index k
  rwa [hinv.size_eq] at hfiles

/-- **When a sealed segment is still sealed after it was closed and opened**: when it has messages,
    there is no room for another one in place of the end-of-segment frame, and its data are not too
    large to be synced in one go. -/
theorem reopen_sealed_iff {page : PageSize} {baseOffset size flags : Nat}
    (hsmall : size < 2 ^ 32) {sgm : Segment} {files : SegmentFiles}
    (hopen : segmentOpen page .ok ⟨none, none⟩ baseOffset size flags = (0, some sgm, files))
    (bufs : List Buf) {h : History} (hrun : history sgm bufs = h) (hsealed : h.sealed = true)
    (hcap : h.accepted.length < indexCapacity size) (flags' : Nat) :
    (∃ sgm₁ files, segmentClose page (true, true) h.sgm = (0, sgm₁, some files) ∧
      ∃ sgm₂, segmentOpen page .ok files baseOffset size flags' = (0, some sgm₂, files) ∧
        segmentWriteOffset sgm₂ = baseOffset + h.accepted.length ∧
        ∀ later buf, (segmentWrite (history sgm₂ later).sgm buf).1 = ELEOS) ↔
    h.accepted ≠ [] ∧ size < framesSize h.accepted + 2 * headerSize ∧
      framesSize h.accepted + headerSize < 2 ^ 31 := by
  obtain ⟨h0, hmod, rfl, -⟩ := segmentOpen_new_size hopen
  have h12 : headerSize ≤ size := Nat.le_trans (by decide) (page.le_of_mod h0 hmod)
  have hinv : HistoryInv size h := hrun ▸ historyInv_fresh h12 hsmall bufs
  have hholds := hinv.holds
  have hw := hinv.written_eq
  rw [HistoryInv.tail_of_sealed hsealed] at hholds hw
  rw [length_eosFrame] at hw
  rw [hinv.close_iff, framesSize_eq, ← hw, ← and_assoc, and_comm]
  have hsize := hinv.size_eq
  subst hsize
  refine and_congr_left fun _ => ?_
  by_cases hne : h.accepted = []
  · -- without a message, the end-of-segment frame is taken for one
    obtain ⟨sgm₂, hopen', -, -, hbase, -, hoffset⟩ :=
      segmentOpen_sealed baseOffset flags' h0 hmod (hinv.sealedFiles hsealed hne)
    rw [hopen', hne]
    constructor
    · rintro ⟨sgm₃, heq, hcount, -⟩
      obtain ⟨-, heq⟩ := Prod.mk.inj heq
      obtain rfl := Option.some.inj (Prod.mk.inj heq).1
      rw [segmentWriteOffset, hbase, hoffset] at hcount
      exact absurd hcount (by simp)
    · rintro ⟨hnot, -⟩
      exact absurd rfl hnot
  · have hopen' := hholds.segmentOpen_closed (.inl hne) hcap h0 hmod baseOffset flags'
    have hagain := hholds.reopened baseOffset flags'
    have hmark := (hagain.markedEos_written rfl).trans (hinv.not_looks hsealed)
    have hrefuses := refuses_iff (Segment.reopened baseOffset h.sgm.size flags' h.sgm.buffer
      h.sgm.index ⟨h.accepted.length, (image frame h.accepted).length⟩) hholds.fits hsmall
    rw [hopen']
    constructor
    · rintro ⟨sgm₃, heq, -, hall⟩
      obtain ⟨-, heq⟩ := Prod.mk.inj heq
      obtain rfl := Option.some.inj (Prod.mk.inj heq).1
      rcases hrefuses.mp hall with hm | hfull
      · rw [hmark] at hm
        cases hm
      · exact ⟨hne, hfull⟩
    · rintro ⟨-, hfull⟩
      exact ⟨_, rfl, rfl, hrefuses.mpr (.inr hfull)⟩

/-- A message that leaves no room for another one, and the write that seals the segment. -/
theorem reopen_sealed_iff_of_full_page :
    let h := history (Segment.fresh 0 4096 0)
      ([bytes 4072 0x61 (by decide)] ++ [⟨[0x62], by decide⟩])
    ∃ sgm₁ files, segmentClose page4096 (true, true) h.sgm = (0, sgm₁, some files) ∧
      ∃ sgm₂, segmentOpen page4096 .ok files 0 4096 0 = (0, some sgm₂, files) ∧
        segmentWriteOffset sgm₂ = 0 + h.accepted.length ∧
        ∀ later buf, (segmentWrite (history sgm₂ later).sgm buf).1 = ELEOS := by
  have hopen := segmentOpen_new 0 0 (by decide) (show 4096 % page4096.bytes = 0 by decide)
  have hends : ∀ q ∈ [bytes 4072 0x61 (by decide)], endsLikeEos q = false := by
    intro q hq
    rw [List.mem_singleton.mp hq, ← Bool.not_eq_true,
      endsLikeEos_iff (by rw [length_bytes]; decide)]
    rintro ⟨hbyte, -⟩
    rw [length_bytes, bytes, List.getElem?_replicate_of_lt (by decide)] at hbyte
    exact absurd hbyte (by decide)
  have hsize : framesSize [bytes 4072 0x61 (by decide)] = 4084 := by
    rw [framesSize, List.map_singleton, length_bytes]
    rfl
  obtain ⟨haccepted, hsealed⟩ :=
    history_of_full (b := 0) (f := 0) (show headerSize ≤ 4096 by decide)
    (by decide) [bytes 4072 0x61 (by decide)] ⟨[0x62], by decide⟩ hends (by rw [hsize]; decide)
    (by rw [hsize]; decide)
  refine (reopen_sealed_iff (by decide) hopen _ rfl hsealed ?_ 0).mpr ?_
  · rw [haccepted]
    decide
  · rw [haccepted, hsize]
    exact ⟨List.cons_ne_nil _ _, by decide, by decide⟩

/-- A message that fits into no segment seals a new one.  Opened again, that counts a message. -/
theorem sealed_empty_counts_one :
    let h := history (Segment.fresh 0 4096 0) ([] ++ [bytes 4096 0x61 (by decide)])
    h.accepted = [] ∧ h.sealed = true ∧
      ¬ ∃ sgm₁ files, segmentClose page4096 (true, true) h.sgm = (0, sgm₁, some files) ∧
        ∃ sgm₂, segmentOpen page4096 .ok files 0 4096 0 = (0, some sgm₂, files) ∧
          segmentWriteOffset sgm₂ = 0 + h.accepted.length ∧
          ∀ later buf, (segmentWrite (history sgm₂ later).sgm buf).1 = ELEOS := by
  obtain ⟨haccepted, hsealed⟩ :=
    history_of_full (b := 0) (f := 0) (show headerSize ≤ 4096 by decide)
    (by decide) [] (bytes 4096 0x61 (by decide)) (fun q hq => absurd hq List.not_mem_nil)
      (by decide)
    (by rw [length_bytes]; decide)
  refine ⟨haccepted, hsealed, ?_⟩
  have hinv := historyInv_fresh (b := 0) (f := 0) (show headerSize ≤ 4096 by decide) (by decide)
    ([] ++ [bytes 4096 0x61 (by decide)])
  obtain ⟨sgm₂, hopen, -, -, hbase, -, hoffset⟩ := segmentOpen_sealed 0 0 (by decide)
    (show 4096 % page4096.bytes = 0 by decide) (hinv.sealedFiles hsealed haccepted)
  rw [hinv.close_iff, hopen, haccepted]
  rintro ⟨-, sgm₃, heq, hcount, -⟩
  obtain ⟨-, heq⟩ := Prod.mk.inj heq
  obtain rfl := Option.some.inj (Prod.mk.inj heq).1
  rw [segmentWriteOffset, hbase, hoffset] at hcount
  exact absurd hcount (by simp)

end Mqlog
